import Aevum.Lib.Ledger
import Aevum.Lib.Run
import Aevum.L2.Transaction

/-!
# L2.State — `l2_state.rs`

The L2 state machine: `credit` and `processTransaction` as the code computes them, and the runs
made of such calls.

`processTransaction` returns the state together with the result, so that what a rejected
transaction leaves behind is visible.  Its two outcomes are summed up once, in
`processTransaction_cases`; everything later is derived from that.
-/

namespace Aevum
namespace L2

open Lib Crypto

/-! ## State -/

inductive L2StateError
  | invalidSignature
  | replayDetected
  | invalidNonce (expected got : UInt64)
  | insufficientBalance (required available : UInt64)
  | amountZero
  deriving DecidableEq

structure ExecutionContext where
  txHash : Hash
  sender : ByteArr 32
  recipient : ByteArr 32
  requiredBalance : UInt64
  expectedNonce : UInt64
  amount : UInt64
  fee : UInt64
  taintDistance : UInt16
  taintOrigin : UInt64
  taintTimestamp : UInt64
  restrictionLevel : UInt64

structure L2State where
  balances : FinMap (ByteArr 32) UInt64
  nonces : FinMap (ByteArr 32) UInt64
  processed : Finset Hash
  founder : ByteArr 32
  communityFund : ByteArr 32
  utxos : List L2Utxo
  txCount : UInt64
  totalFees : UInt64

namespace L2State

def new (founder communityFund : ByteArr 32) : L2State :=
  { balances := FinMap.empty
    nonces := FinMap.empty
    processed := ∅
    founder := founder
    communityFund := communityFund
    utxos := []
    txCount := 0
    totalFees := 0 }

/-! ## Operations -/

def credit (s : L2State) (user : ByteArr 32) (amount : UInt64) : L2State :=
  { s with balances := satCredit s.balances user amount }

def balance (s : L2State) (user : ByteArr 32) : UInt64 :=
  balanceOf s.balances user

def nonce (s : L2State) (user : ByteArr 32) : UInt64 :=
  (s.nonces.get? user).getD 0

section Calls

variable [Blake3] [Signatures]

def buildContext (s : L2State) (tx : L2Transaction) : Except L2StateError ExecutionContext :=
  if ¬ tx.isValid then
    .error .invalidSignature
  else if tx.amount = 0 then
    .error .amountZero
  else if tx.txHash ∈ s.processed then
    .error .replayDetected
  else
    let sender := tx.fromKey.toBytes
    let expectedNonce := s.nonce sender
    if tx.nonce ≠ expectedNonce then
      .error (.invalidNonce expectedNonce tx.nonce)
    else
      let available := s.balance sender
      -- saturated here and debited so; the credits take `amount` and `fee` themselves
      let required := tx.amount.satAdd tx.fee
      if available < required then
        .error (.insufficientBalance required available)
      else
        .ok
          { txHash := tx.txHash
            sender := sender
            recipient := tx.toKey.toBytes
            requiredBalance := required
            expectedNonce := expectedNonce
            amount := tx.amount
            fee := tx.fee
            taintDistance := tx.taintDistance
            taintOrigin := tx.taintOrigin
            taintTimestamp := tx.taintTimestamp
            restrictionLevel := tx.restrictionLevel }

def processTransaction (s : L2State) (tx : L2Transaction) :
    L2State × Except L2StateError (List L2Utxo) :=
  match s.buildContext tx with
  | .error e => (s, .error e)
  | .ok ctx =>
      let s := { s with processed := insert ctx.txHash s.processed }
      -- the four balance writes read the map again each time, so accounts may coincide
      let s := { s with balances := satDebit s.balances ctx.sender ctx.requiredBalance }
      let s := { s with balances := satCredit s.balances ctx.recipient ctx.amount }
      let founderCut := L2Transaction.founderCut ctx.fee
      let communityCut := L2Transaction.communityCut ctx.fee
      let s := { s with balances := satCredit s.balances s.founder founderCut }
      let s := { s with balances := satCredit s.balances s.communityFund communityCut }
      let s := { s with totalFees := s.totalFees.satAdd ctx.fee }
      let s := { s with nonces := s.nonces.insert ctx.sender (ctx.expectedNonce.satAdd 1) }
      let utxo := L2Utxo.new tx.toKey ctx.amount ctx.txHash 0
        (ctx.taintDistance, ctx.taintOrigin, ctx.taintTimestamp, ctx.restrictionLevel)
      let s := { s with utxos := s.utxos ++ [utxo] }
      let s := { s with txCount := s.txCount.satAdd 1 }
      (s, .ok [utxo])

/-! ## What a call does -/

/-- The checks of `build_context`, all passed. -/
structure Accepts (s : L2State) (tx : L2Transaction) : Prop where
  valid : tx.isValid = true
  amount_ne_zero : tx.amount ≠ 0
  fresh : tx.txHash ∉ s.processed
  nonce_eq : tx.nonce = s.nonce tx.fromKey.toBytes
  covered : tx.amount.satAdd tx.fee ≤ s.balance tx.fromKey.toBytes

/-- The output an accepted transaction creates. -/
def outputOf (tx : L2Transaction) : L2Utxo :=
  L2Utxo.new tx.toKey tx.amount tx.txHash 0
    (tx.taintDistance, tx.taintOrigin, tx.taintTimestamp, tx.restrictionLevel)

/-- The three credits of an accepted transaction, in the order they are written. -/
def creditsOf (s : L2State) (tx : L2Transaction) : List (ByteArr 32 × UInt64) :=
  [(tx.toKey.toBytes, tx.amount), (s.founder, L2Transaction.founderCut tx.fee),
    (s.communityFund, L2Transaction.communityCut tx.fee)]

/-- The state after an accepted transaction. -/
def applied (s : L2State) (tx : L2Transaction) : L2State :=
  { s with
    balances :=
      satCreditAll (satDebit s.balances tx.fromKey.toBytes (tx.amount.satAdd tx.fee))
        (s.creditsOf tx)
    nonces := s.nonces.insert tx.fromKey.toBytes (tx.nonce.satAdd 1)
    processed := insert tx.txHash s.processed
    utxos := s.utxos ++ [outputOf tx]
    txCount := s.txCount.satAdd 1
    totalFees := s.totalFees.satAdd tx.fee }

/-- The context of an accepted transaction. -/
def contextOf (tx : L2Transaction) : ExecutionContext :=
  { txHash := tx.txHash
    sender := tx.fromKey.toBytes
    recipient := tx.toKey.toBytes
    requiredBalance := tx.amount.satAdd tx.fee
    expectedNonce := tx.nonce
    amount := tx.amount
    fee := tx.fee
    taintDistance := tx.taintDistance
    taintOrigin := tx.taintOrigin
    taintTimestamp := tx.taintTimestamp
    restrictionLevel := tx.restrictionLevel }

theorem buildContext_cases (s : L2State) (tx : L2Transaction) :
    (¬ s.Accepts tx ∧ ∃ e, s.buildContext tx = .error e) ∨
      (s.Accepts tx ∧ s.buildContext tx = .ok (contextOf tx)) := by
  unfold buildContext
  split
  · rename_i hvalid
    exact Or.inl ⟨fun h => hvalid h.valid, _, rfl⟩
  rename_i hvalid
  split
  · rename_i hamount
    exact Or.inl ⟨fun h => h.amount_ne_zero hamount, _, rfl⟩
  rename_i hamount
  split
  · rename_i hseen
    exact Or.inl ⟨fun h => h.fresh hseen, _, rfl⟩
  rename_i hfresh
  simp only
  split
  · rename_i hnonce
    exact Or.inl ⟨fun h => hnonce h.nonce_eq, _, rfl⟩
  rename_i hnonce
  split
  · rename_i hshort
    exact Or.inl ⟨fun h => UInt64.not_le.2 hshort h.covered, _, rfl⟩
  rename_i hcovered
  have hnonce' : tx.nonce = s.nonce tx.fromKey.toBytes := not_not.1 hnonce
  refine Or.inr ⟨⟨not_not.1 hvalid, hamount, hfresh, hnonce', UInt64.not_lt.1 hcovered⟩, ?_⟩
  rw [contextOf, ← hnonce']

/-- A call either is rejected and leaves the state alone, or passes all checks. -/
theorem processTransaction_cases (s : L2State) (tx : L2Transaction) :
    (¬ s.Accepts tx ∧ ∃ e, s.processTransaction tx = (s, .error e)) ∨
      (s.Accepts tx ∧ s.processTransaction tx = (s.applied tx, .ok [outputOf tx])) := by
  rcases s.buildContext_cases tx with ⟨hreject, e, hctx⟩ | ⟨haccept, hctx⟩
  · refine Or.inl ⟨hreject, e, ?_⟩
    rw [processTransaction, hctx]
  · refine Or.inr ⟨haccept, ?_⟩
    rw [processTransaction, hctx]
    rfl

/-! ## Runs -/

/-- One call with what it returned. -/
inductive L2Event
  | credit (user : ByteArr 32) (amount : UInt64)
  | process (tx : L2Transaction) (result : Except L2StateError (List L2Utxo))

/-- The calls a state allows, and the states they lead to. -/
def step (s : L2State) : L2Event → L2State → Prop
  | .credit user amount, s' => s' = s.credit user amount
  | .process tx result, s' => s.processTransaction tx = (s', result)

/-- The transactions accepted in a trace, in order. -/
def accepted (tr : List L2Event) : List L2Transaction :=
  tr.filterMap fun
    | .process tx (.ok _) => some tx
    | _ => none

/-- The sum of the amounts credited in a trace. -/
def credited (tr : List L2Event) : ℕ :=
  (tr.map fun
    | .credit _ amount => amount.toNat
    | .process _ _ => 0).sum

/-- The sum of all account balances. -/
def totalBalance (s : L2State) : ℕ :=
  FinMap.sumOf UInt64.toNat s.balances

/-- The three kinds of steps. -/
theorem step_cases {s s' : L2State} {e : L2Event} (h : s.step e s') :
    (∃ user amount, e = .credit user amount ∧ s' = s.credit user amount) ∨
      (∃ tx err, e = .process tx (.error err) ∧ ¬ s.Accepts tx ∧ s' = s) ∨
      (∃ tx, e = .process tx (.ok [outputOf tx]) ∧ s.Accepts tx ∧ s' = s.applied tx) := by
  cases e with
  | credit user amount => exact Or.inl ⟨user, amount, rfl, h⟩
  | process tx result =>
      have hstep : s.processTransaction tx = (s', result) := h
      rcases s.processTransaction_cases tx with ⟨hreject, err, heq⟩ | ⟨haccept, heq⟩
      · rw [heq] at hstep
        cases hstep
        exact Or.inr (Or.inl ⟨tx, err, rfl, hreject, rfl⟩)
      · rw [heq] at hstep
        cases hstep
        exact Or.inr (Or.inr ⟨tx, rfl, haccept, rfl⟩)

theorem step_process {s : L2State} {tx : L2Transaction} (h : s.Accepts tx) :
    s.step (.process tx (.ok [outputOf tx])) (s.applied tx) := by
  rcases s.processTransaction_cases tx with ⟨hreject, -⟩ | ⟨-, heq⟩
  · exact (hreject h).elim
  · exact heq

instance (s : L2State) (tx : L2Transaction) : Decidable (s.Accepts tx) :=
  decidable_of_iff
    (tx.isValid = true ∧ tx.amount ≠ 0 ∧ tx.txHash ∉ s.processed ∧
      tx.nonce = s.nonce tx.fromKey.toBytes ∧
      tx.amount.satAdd tx.fee ≤ s.balance tx.fromKey.toBytes)
    ⟨fun ⟨h₁, h₂, h₃, h₄, h₅⟩ => ⟨h₁, h₂, h₃, h₄, h₅⟩,
      fun ⟨h₁, h₂, h₃, h₄, h₅⟩ => ⟨h₁, h₂, h₃, h₄, h₅⟩⟩

end Calls

/-! ## A run to evaluate -/

section Sample

attribute [local instance] polyBlake3 anySignature

/-- A payment from key 1 to key 2 on a ledger with founder 3 and community fund 4. -/
abbrev samplePayment (amount fee : UInt64) : L2Transaction :=
  L2Transaction.newUnsigned 1 (sampleKey 1) (sampleKey 2) amount fee 0 (0, 0, 0, 0) 100 0

abbrev sampleFunded (amount : UInt64) : L2State :=
  (new (sampleKey 3).toBytes (sampleKey 4).toBytes).credit (sampleKey 1).toBytes amount

theorem sampleRun (amount : UInt64) (tx : L2Transaction) (h : (sampleFunded amount).Accepts tx) :
    Run step (new (sampleKey 3).toBytes (sampleKey 4).toBytes)
      [.credit (sampleKey 1).toBytes amount, .process tx (.ok [outputOf tx])]
      ((sampleFunded amount).applied tx) :=
  Run.snoc (Run.single rfl) (step_process h)

end Sample

end L2State
end L2
end Aevum
