import Aevum.Core.CoinbaseRules

/-!
# Core.BlockOverflow — `Block::validate_internal` with overflow checks

The counters of `validate_internal` saturate; the sum of the outputs of a standard transaction is
the one addition that can overflow.  In a build that checks this the function has a third way to
end, which `checkedValidateInternal` models; everything else is as in `validateInternal`, whose sums
wrap.

* `checkedScanTxs_eq_ok` : the loop gets over a list of transactions with small sums that keep the
  rules;
* `noOverflow_iff` : when no sum overflows, and a transaction is refused for having no value only
  if it has none.
-/

namespace Aevum
namespace Core

open Lib Crypto Economics

section Model

variable [ForeignTypes]

/-! ## The checked function -/

/-- How a checked run can end before its end. -/
inductive Stop
  | overflow
  | rejected (e : BlockError)
  deriving DecidableEq

/-- `tx.outputs.iter().map(|o| o.amount).sum()` where overflow is checked. -/
def Transaction.checkedOutSum (tx : Transaction) : Except Stop UInt64 :=
  match tx.outputs.foldlM (fun acc o => acc.checkedAdd o.amount) 0 with
  | some sum => .ok sum
  | none => .error .overflow

namespace Block

/-- The loop body from the check of the PoH on. -/
def checkedScanStandard (b : Block) (s : TxScan) (tx : Transaction) : Except Stop TxScan := do
  failIf (tx.pohTick < b.pohTickStart ∨ tx.pohTick > b.pohTickEnd)
    (.rejected (.consensus "tx outside PoH"))
  let seen ← (tx.inputs.foldlM scanInput s.seenNullifiers).mapError .rejected
  let outSum ← tx.checkedOutSum
  failIf (outSum = 0 ∧ tx.fee = 0) (.rejected (.consensus "zero value tx"))
  failIf (tx.locktime > 0 ∧ tx.locktime > b.height) (.rejected (.consensus "tx locked"))
  .ok { s with seenNullifiers := seen }

/-- The loop body; for heartbeats and coinbases nothing is added up. -/
def checkedScanTx (b : Block) (s : TxScan) (i : Nat) (tx : Transaction) : Except Stop TxScan :=
  if tx.isHeartbeat ∨ tx.isCoinbase then (b.scanTx s i tx).mapError .rejected
  else b.checkedScanStandard s tx

def checkedScanTxs (b : Block) (s : TxScan) (i : Nat) : List Transaction → Except Stop TxScan
  | [] => .ok s
  | tx :: rest => do
      let s' ← b.checkedScanTx s i tx
      b.checkedScanTxs s' (i + 1) rest

variable [Blake3]

/-- The checks before the loop. -/
def frontChecks (b : Block) : Except BlockError Unit := do
  failIf (b.blockHash ≠ b.computeHash) (.invalidBlockHash b.computeHash b.blockHash)
  failIf (b.blockSize > maxBlockBytes) (.tooLarge b.blockSize maxBlockBytes)
  failIf (b.transactions.isEmpty ∨ b.transactions.length > maxTransactions)
    (.tooManyTransactions b.transactions.length maxTransactions)
  failIf (b.pohTickEnd < b.pohTickStart) (.invalidPoHTicks b.pohTickStart b.pohTickEnd)
  failIf (b.transactionsRoot ≠ computeTransactionsRoot b.transactions)
    (.invalidTransactionsRoot (computeTransactionsRoot b.transactions) b.transactionsRoot)

/-- The check after the loop. -/
def countsCheck (b : Block) (s : TxScan) : Except BlockError Unit :=
  failIf (s.heartbeat ≠ b.expectedHeartbeats ∨ s.coinbase ≠ 1)
    (.consensus ("hb=" ++ toString s.heartbeat ++ " cb=" ++ toString s.coinbase))

def checkedValidateInternal (b : Block) : Except Stop Unit := do
  b.frontChecks.mapError .rejected
  let s ← b.checkedScanTxs .start 0 b.transactions
  (b.countsCheck s).mapError .rejected

theorem validateInternal_eq (b : Block) :
    b.validateInternal =
      b.frontChecks >>= fun _ => b.scanTxs .start 0 b.transactions >>= b.countsCheck := by
  simp only [validateInternal, frontChecks, bind_assoc]
  rfl

end Block

/-! ## One transaction -/

section Transactions

variable {b : Block} {s s' : TxScan} {i : Nat} {tx : Transaction} {txs : List Transaction}

theorem checkedOutSum_eq_ok {t : UInt64} :
    tx.checkedOutSum = .ok t ↔ totalOutputs tx = t.toNat := by
  have hsum := UInt64.foldlM_checkedAdd (fun o : TxOutput => o.amount) tx.outputs 0 t
  rw [UInt64.toNat_zero, Nat.zero_add] at hsum
  rw [totalOutputs, ← hsum, Transaction.checkedOutSum]
  cases tx.outputs.foldlM (fun acc o => UInt64.checkedAdd acc o.amount) 0 with
  | none => exact iff_of_false (fun h => by cases h) (fun h => by cases h)
  | some sum => rw [Except.ok.injEq, Option.some.injEq]

/-- Below `2 ^ 64` both builds compute the same sum. -/
theorem checkedOutSum_of_lt (h : totalOutputs tx < 2 ^ 64) : tx.checkedOutSum = .ok tx.outSum :=
  checkedOutSum_eq_ok.2 (toNat_outSum h).symm

theorem checkedOutSum_eq_error {e : Stop} (h : tx.checkedOutSum = .error e) : e = .overflow := by
  rw [Transaction.checkedOutSum] at h
  split at h
  · cases h
  · exact (Except.error.inj h).symm

theorem checkedOutSum_of_le (h : 2 ^ 64 ≤ totalOutputs tx) :
    tx.checkedOutSum = .error .overflow := by
  cases hsum : tx.checkedOutSum with
  | ok t =>
      have hlt := t.toNat_lt
      rw [checkedOutSum_eq_ok.1 hsum] at h
      omega
  | error e => rw [checkedOutSum_eq_error hsum]

namespace Block

/-- The loop body gets to the sum of the outputs of `tx`, when it has seen `seen`. -/
structure SumReached (b : Block) (seen : Finset Hash) (tx : Transaction) : Prop where
  standard : tx.txType = .standard
  inPoH : b.pohTickStart ≤ tx.pohTick ∧ tx.pohTick ≤ b.pohTickEnd
  fresh : Fresh seen (tx.inputs.map (·.nullifier))

theorem checkedScanTx_of_ne (h : tx.txType ≠ .standard) :
    b.checkedScanTx s i tx = (b.scanTx s i tx).mapError .rejected := by
  refine if_pos ?_
  cases htype : tx.txType with
  | heartbeat => exact Or.inl (decide_eq_true htype)
  | coinbase => exact Or.inr (decide_eq_true htype)
  | standard => exact absurd htype h

theorem checkedScanTx_standard (h : tx.txType = .standard) :
    b.checkedScanTx s i tx = b.checkedScanStandard s tx := by
  refine if_neg ?_
  simp [Transaction.isHeartbeat, Transaction.isCoinbase, h]

/-- Where the sum is small, the two builds do the same. -/
theorem checkedScanTx_of_lt (h : tx.txType = .standard → totalOutputs tx < 2 ^ 64) :
    b.checkedScanTx s i tx = (b.scanTx s i tx).mapError .rejected := by
  by_cases htype : tx.txType = .standard
  · rw [checkedScanTx_standard htype, checkedScanStandard, checkedOutSum_of_lt (h htype),
      scanTx_of_standard htype]
    simp only [mapError_bind, mapError_failIf]
    rfl
  · exact checkedScanTx_of_ne htype

/-- Where it is large, a checked build gets no further than to the sum. -/
theorem checkedScanStandard_of_le (h : 2 ^ 64 ≤ totalOutputs tx) :
    b.checkedScanStandard s tx =
      failIf (tx.pohTick < b.pohTickStart ∨ tx.pohTick > b.pohTickEnd)
          (.rejected (.consensus "tx outside PoH")) >>= fun _ =>
        (tx.inputs.foldlM scanInput s.seenNullifiers).mapError .rejected >>= fun _ =>
          .error .overflow := by
  rw [checkedScanStandard, checkedOutSum_of_le h]
  rfl

theorem checkedScanTx_eq_overflow :
    b.checkedScanTx s i tx = .error .overflow ↔
      b.SumReached s.seenNullifiers tx ∧ 2 ^ 64 ≤ totalOutputs tx := by
  constructor
  · intro h
    by_cases hsmall : tx.txType = .standard → totalOutputs tx < 2 ^ 64
    · rw [checkedScanTx_of_lt hsmall] at h
      rcases mapError_eq_error.1 h with ⟨e, -, he⟩
      cases he
    · rw [Classical.not_imp, Nat.not_lt] at hsmall
      rw [checkedScanTx_standard hsmall.1, checkedScanStandard_of_le hsmall.2] at h
      rcases failIf_bind_eq_error.1 h with ⟨-, he⟩ | ⟨hpoh, h⟩
      · cases he
      · rcases bind_eq_error.1 h with h | ⟨seen, hseen, -⟩
        · rcases mapError_eq_error.1 h with ⟨e, -, he⟩
          cases he
        · rw [not_or, UInt64.not_lt, UInt64.not_lt] at hpoh
          have hfresh := (scanInputs_eq_ok.1 (mapError_eq_ok.1 hseen)).1
          exact ⟨⟨hsmall.1, hpoh, hfresh⟩, hsmall.2⟩
  · rintro ⟨⟨htype, hpoh, hfresh⟩, hlarge⟩
    rw [checkedScanTx_standard htype, checkedScanStandard_of_le hlarge, failIf_bind_eq_error,
      not_or, UInt64.not_lt, UInt64.not_lt]
    have hseen := scanInputs_eq_ok.2 ⟨hfresh, rfl⟩
    exact Or.inr ⟨hpoh, bind_eq_error.2 (Or.inr ⟨_, mapError_eq_ok.2 hseen, rfl⟩)⟩

/-- Without an overflow the two builds do the same. -/
theorem checkedScanTx_cases (b : Block) (s : TxScan) (i : Nat) (tx : Transaction) :
    b.checkedScanTx s i tx = .error .overflow ∨
      b.checkedScanTx s i tx = (b.scanTx s i tx).mapError .rejected := by
  by_cases hsmall : tx.txType = .standard → totalOutputs tx < 2 ^ 64
  · exact Or.inr (checkedScanTx_of_lt hsmall)
  · rw [Classical.not_imp, Nat.not_lt] at hsmall
    rw [checkedScanTx_standard hsmall.1, checkedScanStandard_of_le hsmall.2,
      scanTx_of_standard hsmall.1, mapError_bind, mapError_failIf]
    -- what fails in front of the sum fails in both
    cases hpoh : failIf (tx.pohTick < b.pohTickStart ∨ tx.pohTick > b.pohTickEnd)
        (Stop.rejected (.consensus "tx outside PoH")) with
    | error e => exact Or.inr rfl
    | ok u =>
        cases hseen : tx.inputs.foldlM scanInput s.seenNullifiers with
        | error e => exact Or.inr rfl
        | ok seen => exact Or.inl rfl

theorem checkedScanTx_eq_ok :
    b.checkedScanTx s i tx = .ok s' ↔
      b.scanTx s i tx = .ok s' ∧ (tx.txType = .standard → totalOutputs tx < 2 ^ 64) := by
  constructor
  · intro h
    constructor
    · rcases checkedScanTx_cases b s i tx with hoverflow | hsame
      · rw [hoverflow] at h
        cases h
      · exact mapError_eq_ok.1 (hsame.symm.trans h)
    · intro htype
      by_contra hlarge
      rw [checkedScanTx_standard htype, checkedScanStandard_of_le (Nat.not_lt.1 hlarge)] at h
      rcases bind_eq_ok.1 (failIf_bind_eq_ok.1 h).2 with ⟨seen, -, hok⟩
      cases hok
  · rintro ⟨hok, hsmall⟩
    rw [checkedScanTx_of_lt hsmall]
    exact mapError_eq_ok.2 hok

omit [ForeignTypes] in
theorem scanInputs_eq_error {inputs : List TxInput} {seen : Finset Hash} {e : BlockError}
    (h : inputs.foldlM scanInput seen = .error e) :
    e = .consensus "zero nullifier" ∨ e = .consensus "duplicate nullifier" := by
  induction inputs generalizing seen with
  | nil => cases h
  | cons inp rest ih =>
      rw [List.foldlM_cons] at h
      rcases bind_eq_error.1 h with h | ⟨mid, -, h⟩
      · rcases failIf_bind_eq_error.1 h with ⟨-, he⟩ | ⟨-, h⟩
        · exact Or.inl he.symm
        · rcases failIf_bind_eq_error.1 h with ⟨-, he⟩ | ⟨-, h⟩
          · exact Or.inr he.symm
          · cases h
      · exact ih h

/-- Heartbeats and coinbases are refused for something else. -/
theorem standard_of_zeroValue (h : b.scanTx s i tx = .error (.consensus "zero value tx")) :
    tx.txType = .standard := by
  cases htype : tx.txType with
  | heartbeat =>
      rw [scanTx_of_heartbeat htype] at h
      rcases failIf_bind_eq_error.1 h with ⟨-, he⟩ | ⟨-, hok⟩
      · exact absurd he (by decide)
      · cases hok
  | coinbase =>
      rw [scanTx_of_coinbase htype] at h
      rcases failIf_bind_eq_error.1 h with ⟨-, he⟩ | ⟨-, hok⟩
      · exact absurd he (by decide)
      · cases hok
  | standard => rfl

theorem zero_of_checkedScanStandard
    (h : b.checkedScanStandard s tx = .error (.rejected (.consensus "zero value tx"))) :
    tx.fee = 0 ∧ ∀ o ∈ tx.outputs, o.amount = 0 := by
  rcases failIf_bind_eq_error.1 h with ⟨-, he⟩ | ⟨-, h⟩
  · exact absurd (Stop.rejected.inj he) (by decide)
  rcases bind_eq_error.1 h with h | ⟨seen, -, h⟩
  · rcases mapError_eq_error.1 h with ⟨e, he, heq⟩
    cases heq
    rcases scanInputs_eq_error he with he | he
    · exact absurd he (by decide)
    · exact absurd he (by decide)
  rcases bind_eq_error.1 h with h | ⟨t, ht, h⟩
  · cases checkedOutSum_eq_error h
  rcases failIf_bind_eq_error.1 h with ⟨⟨hzero, hfee⟩, -⟩ | ⟨-, h⟩
  · have htotal : totalOutputs tx = 0 := by
      rw [checkedOutSum_eq_ok.1 ht, hzero, UInt64.toNat_zero]
    refine ⟨hfee, fun o ho => UInt64.toNat_inj.1 ?_⟩
    exact List.sum_eq_zero_iff.1 htotal _ (List.mem_map_of_mem ho)
  · rcases failIf_bind_eq_error.1 h with ⟨-, he⟩ | ⟨-, hok⟩
    · exact absurd (Stop.rejected.inj he) (by decide)
    · cases hok

/-- A checked build refuses only what has no value for having no value. -/
theorem zero_of_checkedScanTx
    (h : b.checkedScanTx s i tx = .error (.rejected (.consensus "zero value tx"))) :
    b.scanTx s i tx = .error (.consensus "zero value tx") ∧ tx.txType = .standard ∧
      tx.fee = 0 ∧ ∀ o ∈ tx.outputs, o.amount = 0 := by
  have hwrapping : b.scanTx s i tx = .error (.consensus "zero value tx") := by
    rcases checkedScanTx_cases b s i tx with hoverflow | hsame
    · rw [hoverflow] at h
      cases h
    · rcases mapError_eq_error.1 (hsame.symm.trans h) with ⟨e, he, heq⟩
      cases heq
      exact he
  have htype := standard_of_zeroValue hwrapping
  rw [checkedScanTx_standard htype] at h
  exact ⟨hwrapping, htype, zero_of_checkedScanStandard h⟩

/-! ## The loop -/

/-- Without an overflow the two loops do the same. -/
theorem checkedScanTxs_cases (b : Block) (s : TxScan) (i : Nat) (txs : List Transaction) :
    b.checkedScanTxs s i txs = .error .overflow ∨
      b.checkedScanTxs s i txs = (b.scanTxs s i txs).mapError .rejected := by
  induction txs generalizing s i with
  | nil => exact Or.inr rfl
  | cons tx rest ih =>
      rw [checkedScanTxs, scanTxs, mapError_bind]
      rcases checkedScanTx_cases b s i tx with hoverflow | hsame
      · exact Or.inl (bind_eq_error.2 (Or.inl hoverflow))
      · rw [hsame]
        cases b.scanTx s i tx with
        | error e => exact Or.inr rfl
        | ok s' => exact ih s' (i + 1)

theorem checkedScanTxs_eq_ok_iff :
    b.checkedScanTxs s i txs = .ok s' ↔
      b.scanTxs s i txs = .ok s' ∧
        ∀ tx ∈ txs, tx.txType = .standard → totalOutputs tx < 2 ^ 64 := by
  induction txs generalizing s i with
  | nil =>
      rw [checkedScanTxs, scanTxs, Except.ok.injEq, Except.ok.injEq]
      exact ⟨fun h => ⟨h, fun tx htx => (List.not_mem_nil htx).elim⟩, fun h => h.1⟩
  | cons tx rest ih =>
      rw [checkedScanTxs, scanTxs, bind_eq_ok, bind_eq_ok, List.forall_mem_cons]
      constructor
      · rintro ⟨mid, hmid, hrest⟩
        rcases checkedScanTx_eq_ok.1 hmid with ⟨hmid, htx⟩
        rcases ih.1 hrest with ⟨hrest, hall⟩
        exact ⟨⟨mid, hmid, hrest⟩, htx, hall⟩
      · rintro ⟨⟨mid, hmid, hrest⟩, htx, hall⟩
        exact ⟨mid, checkedScanTx_eq_ok.2 ⟨hmid, htx⟩, ih.2 ⟨hrest, hall⟩⟩

/-- The loop ends early at one transaction, when it has gone over those in front of it. -/
theorem checkedScanTxs_eq_error {e : Stop} :
    b.checkedScanTxs s i txs = .error e ↔
      ∃ pre tx post mid, txs = pre ++ tx :: post ∧ b.checkedScanTxs s i pre = .ok mid ∧
        b.checkedScanTx mid (i + pre.length) tx = .error e := by
  induction txs generalizing s i with
  | nil =>
      constructor
      · intro h
        cases h
      · rintro ⟨pre, tx, post, mid, hnil, -, -⟩
        cases pre <;> cases hnil
  | cons tx rest ih =>
      rw [checkedScanTxs, bind_eq_error]
      constructor
      · rintro (h | ⟨s₁, hs₁, h⟩)
        · exact ⟨[], tx, rest, s, rfl, rfl, h⟩
        · rcases ih.1 h with ⟨pre, tx', post, mid, rfl, hpre, hstop⟩
          rw [Nat.add_assoc, Nat.add_comm 1] at hstop
          exact ⟨tx :: pre, tx', post, mid, rfl, bind_eq_ok.2 ⟨s₁, hs₁, hpre⟩, hstop⟩
      · rintro ⟨pre, tx', post, mid, hsplit, hpre, hstop⟩
        cases pre with
        | nil =>
            cases hsplit
            cases hpre
            exact Or.inl hstop
        | cons tx₁ pre =>
            cases hsplit
            rcases bind_eq_ok.1 hpre with ⟨s₁, hs₁, hpre⟩
            rw [List.length_cons, Nat.add_comm pre.length 1, ← Nat.add_assoc] at hstop
            exact Or.inr ⟨s₁, hs₁, ih.2 ⟨pre, tx', post, mid, rfl, hpre, hstop⟩⟩

/-- The rules for a standard transaction, with the true sum of its outputs. -/
structure StandardPassed (b : Block) (tx : Transaction) : Prop where
  inPoH : b.pohTickStart ≤ tx.pohTick ∧ tx.pohTick ≤ b.pohTickEnd
  sum : totalOutputs tx < 2 ^ 64
  value : ¬ (totalOutputs tx = 0 ∧ tx.fee = 0)
  unlocked : ¬ (tx.locktime > 0 ∧ tx.locktime > b.height)

/-- The loop gets over `pre`. -/
structure Passed (b : Block) (pre : List Transaction) : Prop where
  heartbeatFirst : ∀ p ∈ pre.zipIdx, p.1.txType = .heartbeat → p.2 = 0
  coinbases : pre.countP Transaction.isCoinbase ≤ 1
  standard : ∀ tx ∈ pre, tx.txType = .standard → b.StandardPassed tx
  fresh : Fresh ∅ (standardNullifiers pre)

theorem standardPassed_iff :
    b.StandardPassed tx ↔ b.StandardOk tx ∧ totalOutputs tx < 2 ^ 64 := by
  have hzero : totalOutputs tx < 2 ^ 64 → (tx.outSum = 0 ↔ totalOutputs tx = 0) := by
    intro hlt
    rw [← toNat_outSum hlt, ← UInt64.toNat_inj]
    rfl
  constructor
  · rintro ⟨hpoh, hsum, hvalue, hlock⟩
    exact ⟨⟨hpoh, by rwa [hzero hsum], hlock⟩, hsum⟩
  · rintro ⟨⟨hpoh, hvalue, hlock⟩, hsum⟩
    exact ⟨hpoh, hsum, by rwa [← hzero hsum], hlock⟩

theorem checkedScanTxs_eq_ok {pre : List Transaction} :
    b.checkedScanTxs .start 0 pre = .ok s' ↔ b.Passed pre ∧ s' = scanned .start pre := by
  rw [checkedScanTxs_eq_ok_iff, scanTxs_eq_ok (Nat.le_refl 0) (Nat.zero_le 1), and_right_comm]
  refine and_congr_left fun _ => ⟨?_, ?_⟩
  · rintro ⟨hscan, hsums⟩
    exact
      { heartbeatFirst := hscan.heartbeatFirst
        coinbases := Nat.zero_add (pre.countP Transaction.isCoinbase) ▸ hscan.coinbase
        standard := fun tx htx htype =>
          standardPassed_iff.2 ⟨hscan.standard tx htx htype, hsums tx htx htype⟩
        fresh := hscan.fresh }
  · intro h
    have hstandard := fun tx htx htype => standardPassed_iff.1 (h.standard tx htx htype)
    refine ⟨?_, fun tx htx htype => (hstandard tx htx htype).2⟩
    exact
      { heartbeatFirst := h.heartbeatFirst
        coinbase := (Nat.zero_add _).trans_le h.coinbases
        standard := fun tx htx htype => (hstandard tx htx htype).1
        fresh := h.fresh }

end Block

end Transactions

/-! ## The function -/

namespace Block

variable [Blake3] {b : Block}

/-- The checks in front of the loop. -/
structure FrontOk (b : Block) : Prop where
  blockHash : b.blockHash = b.computeHash
  blockSize : b.blockSize ≤ maxBlockBytes
  nonempty : b.transactions ≠ []
  count : b.transactions.length ≤ maxTransactions
  ticks : b.pohTickStart ≤ b.pohTickEnd
  root : b.transactionsRoot = computeTransactionsRoot b.transactions

theorem frontChecks_eq_ok : b.frontChecks = .ok () ↔ b.FrontOk := by
  rw [frontChecks, failIf_bind_eq_ok, failIf_bind_eq_ok, failIf_bind_eq_ok, failIf_bind_eq_ok,
    failIf_eq_ok, not_not, not_not, not_or, Nat.not_lt, Nat.not_lt, UInt64.not_lt,
    List.isEmpty_iff]
  constructor
  · rintro ⟨hhash, hsize, ⟨hne, hcount⟩, hticks, hroot⟩
    exact ⟨hhash, hsize, hne, hcount, hticks, hroot⟩
  · rintro ⟨hhash, hsize, hne, hcount, hticks, hroot⟩
    exact ⟨hhash, hsize, ⟨hne, hcount⟩, hticks, hroot⟩

/-- Each of them has its own kind of error. -/
theorem frontChecks_ne_consensus (reason : String) :
    b.frontChecks ≠ .error (.consensus reason) := by
  intro h
  rcases failIf_bind_eq_error.1 h with ⟨-, he⟩ | ⟨-, h⟩
  · cases he
  rcases failIf_bind_eq_error.1 h with ⟨-, he⟩ | ⟨-, h⟩
  · cases he
  rcases failIf_bind_eq_error.1 h with ⟨-, he⟩ | ⟨-, h⟩
  · cases he
  rcases failIf_bind_eq_error.1 h with ⟨-, he⟩ | ⟨-, h⟩
  · cases he
  · cases (failIf_eq_error.1 h).2

omit [Blake3] in
theorem countsCheck_ne_zeroValue (s : TxScan) :
    b.countsCheck s ≠ .error (.consensus "zero value tx") := by
  intro h
  have htexts := congrArg String.toList (BlockError.consensus.inj (failIf_eq_error.1 h).2)
  rw [String.toList_append, String.toList_append, String.toList_append] at htexts
  -- the one begins with an `h`, the other with a `z`
  exact absurd (List.cons.inj htexts).1 (by decide)

theorem checkedValidateInternal_cases (b : Block) :
    b.checkedValidateInternal = .error .overflow ∨
      b.checkedValidateInternal = b.validateInternal.mapError .rejected := by
  rw [checkedValidateInternal, validateInternal_eq, mapError_bind]
  cases b.frontChecks with
  | error e => exact Or.inr rfl
  | ok u =>
      rcases checkedScanTxs_cases b .start 0 b.transactions with hoverflow | hsame
      · exact Or.inl (bind_eq_error.2 (Or.inr ⟨(), rfl, bind_eq_error.2 (Or.inl hoverflow)⟩))
      · refine Or.inr ?_
        rw [hsame, mapError_bind]

theorem checkedValidateInternal_eq_overflow :
    b.checkedValidateInternal = .error .overflow ↔
      b.FrontOk ∧ ∃ pre tx post, b.transactions = pre ++ tx :: post ∧ b.Passed pre ∧
        b.SumReached (standardNullifiers pre).toFinset tx ∧ 2 ^ 64 ≤ totalOutputs tx := by
  have hseen : ∀ pre : List Transaction,
      (scanned .start pre).seenNullifiers = (standardNullifiers pre).toFinset :=
    fun pre => Finset.empty_union _
  rw [checkedValidateInternal]
  constructor
  · intro h
    rcases bind_eq_error.1 h with h | ⟨u, hfront, h⟩
    · rcases mapError_eq_error.1 h with ⟨e, -, he⟩
      cases he
    · refine ⟨frontChecks_eq_ok.1 (mapError_eq_ok.1 hfront), ?_⟩
      rcases bind_eq_error.1 h with h | ⟨s, -, h⟩
      · rcases checkedScanTxs_eq_error.1 h with ⟨pre, tx, post, mid, hsplit, hpre, hstop⟩
        rcases checkedScanTxs_eq_ok.1 hpre with ⟨hpassed, rfl⟩
        rcases checkedScanTx_eq_overflow.1 hstop with ⟨hreached, hlarge⟩
        rw [hseen] at hreached
        exact ⟨pre, tx, post, hsplit, hpassed, hreached, hlarge⟩
      · rcases mapError_eq_error.1 h with ⟨e, -, he⟩
        cases he
  · rintro ⟨hfront, pre, tx, post, hsplit, hpassed, hreached, hlarge⟩
    refine bind_eq_error.2 (Or.inr ⟨(), mapError_eq_ok.2 (frontChecks_eq_ok.2 hfront), ?_⟩)
    refine bind_eq_error.2 (Or.inl (checkedScanTxs_eq_error.2 ?_))
    rw [← hseen] at hreached
    exact ⟨pre, tx, post, scanned .start pre, hsplit, checkedScanTxs_eq_ok.2 ⟨hpassed, rfl⟩,
      checkedScanTx_eq_overflow.2 ⟨hreached, hlarge⟩⟩

/-- No addition of `validate_internal` overflows, and the transaction that is refused for having no
value, if there is one, has none. -/
structure NoOverflow (b : Block) : Prop where
  sums : b.checkedValidateInternal ≠ .error .overflow
  zeroValue : b.validateInternal = .error (.consensus "zero value tx") →
    ∃ pre tx post s, b.transactions = pre ++ tx :: post ∧ b.scanTxs .start 0 pre = .ok s ∧
      b.scanTx s pre.length tx = .error (.consensus "zero value tx") ∧
        tx.txType = .standard ∧ tx.fee = 0 ∧ ∀ o ∈ tx.outputs, o.amount = 0

/-- Where no sum overflows, the verdict on a value is right. -/
theorem noOverflow_of_sums (h : b.checkedValidateInternal ≠ .error .overflow) : b.NoOverflow := by
  refine { sums := h, zeroValue := fun hzero => ?_ }
  have hchecked : b.checkedValidateInternal = .error (.rejected (.consensus "zero value tx")) := by
    rw [(checkedValidateInternal_cases b).resolve_left h, hzero]
    rfl
  rcases bind_eq_error.1 hchecked with hfront | ⟨u, -, hrest⟩
  · rcases mapError_eq_error.1 hfront with ⟨e, he, heq⟩
    cases heq
    exact absurd he (frontChecks_ne_consensus _)
  rcases bind_eq_error.1 hrest with hloop | ⟨s, -, hcounts⟩
  · rcases checkedScanTxs_eq_error.1 hloop with ⟨pre, tx, post, mid, hsplit, hpre, hstop⟩
    rw [Nat.zero_add] at hstop
    exact ⟨pre, tx, post, mid, hsplit, (checkedScanTxs_eq_ok_iff.1 hpre).1,
      zero_of_checkedScanTx hstop⟩
  · rcases mapError_eq_error.1 hcounts with ⟨e, he, heq⟩
    cases heq
    exact absurd he (countsCheck_ne_zeroValue s)

/-- Nothing overflows if and only if a check in front of the loop fails or each standard
transaction that the loop gets to, with a tick of the block and fresh nullifiers, has outputs that
add up to less than `2 ^ 64`. -/
theorem noOverflow_iff (b : Block) :
    b.NoOverflow ↔
      (b.FrontOk → ∀ pre tx post, b.transactions = pre ++ tx :: post → b.Passed pre →
        b.SumReached (standardNullifiers pre).toFinset tx → totalOutputs tx < 2 ^ 64) := by
  constructor
  · intro h hfront pre tx post hsplit hpassed hreached
    by_contra hlarge
    exact h.sums (checkedValidateInternal_eq_overflow.2
      ⟨hfront, pre, tx, post, hsplit, hpassed, hreached, Nat.not_lt.1 hlarge⟩)
  · intro h
    refine noOverflow_of_sums fun hoverflow => ?_
    rcases checkedValidateInternal_eq_overflow.1 hoverflow with
      ⟨hfront, pre, tx, post, hsplit, hpassed, hreached, hlarge⟩
    exact Nat.not_lt.2 hlarge (h hfront pre tx post hsplit hpassed hreached)

end Block

end Model

section Sample

attribute [local instance] polyBlake3 unitTypes

/-- A transaction whose two outputs add up to `2 ^ 64`. -/
def sampleHuge : Transaction :=
  (Transaction.newRaw 1 2 [Block.sampleInput 3]
    [TxOutput.newCoinbase (sampleKey 1) 0x8000000000000000 1 0,
      TxOutput.newCoinbase (sampleKey 2) 0x8000000000000000 2 1] 0 5 0).computeHash

def sampleOverflowing : Block :=
  Block.new (ByteArr.fill 32 7) 5 1 10
    [Transaction.newHeartbeat [] 2, Transaction.newCoinbase [] 5 2, sampleHuge]
    (ByteArr.fill 32 4) 1000

/-- A checked build stops at its sum; a wrapping build takes the sum for zero. -/
theorem sampleOverflowing_refused :
    (¬ ∀ b : Block, b.NoOverflow) ∧
      sampleOverflowing.checkedValidateInternal = .error .overflow ∧
      sampleOverflowing.validateInternal = .error (.consensus "zero value tx") := by
  have hchecked : sampleOverflowing.checkedValidateInternal = .error .overflow := by
    decide +kernel
  exact ⟨fun hclaim => (hclaim sampleOverflowing).sums hchecked, hchecked, by decide +kernel⟩

end Sample

end Core
end Aevum
