import Aevum.Core.Block
import Aevum.Lib.Checks

/-!
# Core.BlockRules — `Block::validate_internal`

The loop of `validate_internal` goes over the transactions with a `TxScan`: two counters and the
nullifiers seen.  `Block.Valid` says in one structure what the function accepts, and
`validateInternal_eq_ok` that it accepts exactly this.

Heartbeats and coinbases leave the loop body early, so the rules on nullifiers, values and
locktimes are rules on standard transactions only.
-/

namespace Aevum
namespace Core

open Lib Crypto

/-! ## Nullifiers -/

/-- One input of a standard transaction. -/
def scanInput (seen : Finset Hash) (inp : TxInput) : Except BlockError (Finset Hash) := do
  failIf (inp.nullifier = Hash.zero) (.consensus "zero nullifier")
  failIf (inp.nullifier ∈ seen) (.consensus "duplicate nullifier")
  .ok (insert inp.nullifier seen)

/-- Distinct, not zero and not seen before. -/
structure Fresh (seen : Finset Hash) (ns : List Hash) : Prop where
  nodup : ns.Nodup
  ne_zero : ∀ n ∈ ns, n ≠ Hash.zero
  notMem : ∀ n ∈ ns, n ∉ seen

theorem Fresh.nil (seen : Finset Hash) : Fresh seen [] :=
  ⟨List.nodup_nil, by simp, by simp⟩

/-- Checking the nullifiers of two lists one after the other. -/
theorem fresh_append {seen : Finset Hash} {ns ms : List Hash} :
    Fresh seen (ns ++ ms) ↔ Fresh seen ns ∧ Fresh (seen ∪ ns.toFinset) ms := by
  constructor
  · intro h
    have hsplit := List.nodup_append.1 h.nodup
    refine ⟨⟨hsplit.1, fun n hn => h.ne_zero n (List.mem_append_left ms hn),
      fun n hn => h.notMem n (List.mem_append_left ms hn)⟩, ⟨hsplit.2.1,
      fun n hn => h.ne_zero n (List.mem_append_right ns hn), ?_⟩⟩
    intro n hn hmem
    rcases Finset.mem_union.1 hmem with hseen | hns
    · exact h.notMem n (List.mem_append_right ns hn) hseen
    · exact hsplit.2.2 n (List.mem_toFinset.1 hns) n hn rfl
  · rintro ⟨hns, hms⟩
    refine ⟨List.nodup_append.2 ⟨hns.nodup, hms.nodup, ?_⟩, ?_, ?_⟩
    · rintro n hn m hm rfl
      exact hms.notMem n hm (Finset.mem_union_right seen (List.mem_toFinset.2 hn))
    · exact List.forall_mem_append.2 ⟨hns.ne_zero, hms.ne_zero⟩
    · refine List.forall_mem_append.2 ⟨hns.notMem, fun n hn hseen => ?_⟩
      exact hms.notMem n hn (Finset.mem_union_left _ hseen)

theorem fresh_singleton {seen : Finset Hash} {n : Hash} :
    Fresh seen [n] ↔ n ≠ Hash.zero ∧ n ∉ seen := by
  constructor
  · intro h
    exact ⟨h.ne_zero n List.mem_cons_self, h.notMem n List.mem_cons_self⟩
  · rintro ⟨hzero, hseen⟩
    exact ⟨List.nodup_singleton n, by simpa using hzero, by simpa using hseen⟩

theorem scanInput_eq_ok {seen seen' : Finset Hash} {inp : TxInput} :
    scanInput seen inp = .ok seen' ↔
      Fresh seen [inp.nullifier] ∧ seen' = insert inp.nullifier seen := by
  rw [scanInput, failIf_bind_eq_ok, failIf_bind_eq_ok, fresh_singleton, and_assoc,
    Except.ok.injEq, eq_comm (a := seen')]

theorem scanInputs_eq_ok {inputs : List TxInput} {seen seen' : Finset Hash} :
    inputs.foldlM scanInput seen = .ok seen' ↔
      Fresh seen (inputs.map (·.nullifier)) ∧
        seen' = seen ∪ (inputs.map (·.nullifier)).toFinset := by
  induction inputs generalizing seen with
  | nil =>
      have hnil : seen ∪ ([] : List Hash).toFinset = seen := Finset.union_empty seen
      rw [List.foldlM_nil, List.map_nil, hnil]
      constructor
      · intro h
        cases h
        exact ⟨Fresh.nil _, rfl⟩
      · rintro ⟨-, rfl⟩
        rfl
  | cons inp rest ih =>
      -- one input is a list of length one, so that `fresh_append` applies
      have hset : insert inp.nullifier seen = seen ∪ [inp.nullifier].toFinset := by
        rw [List.toFinset_cons, List.toFinset_nil, Finset.union_comm]
        rfl
      have happ : (inp :: rest).map (·.nullifier) = [inp.nullifier] ++ rest.map (·.nullifier) := rfl
      rw [List.foldlM_cons, bind_eq_ok, happ, fresh_append, List.toFinset_append,
        ← Finset.union_assoc, ← hset]
      constructor
      · rintro ⟨mid, hmid, hrest⟩
        rcases scanInput_eq_ok.1 hmid with ⟨hfresh, rfl⟩
        rcases ih.1 hrest with ⟨hrest, hseen⟩
        exact ⟨⟨hfresh, hrest⟩, hseen⟩
      · rintro ⟨⟨hfresh, hrest⟩, hseen⟩
        exact ⟨_, scanInput_eq_ok.2 ⟨hfresh, rfl⟩, ih.2 ⟨hrest, hseen⟩⟩

/-! ## The checks -/

variable [ForeignTypes]

def maxBlockBytes : Nat := 16 * 1024 * 1024

def maxTransactions : Nat := 100000

/-- `u8::saturating_add(1)`. -/
def u8SatSucc (n : Nat) : Nat := min (n + 1) 255

/-- The local variables of the loop. -/
structure TxScan where
  heartbeat : Nat
  coinbase : Nat
  seenNullifiers : Finset Hash

def TxScan.start : TxScan := ⟨0, 0, ∅⟩

/-- `tx.outputs.iter().map(|o| o.amount).sum()` in wrapping arithmetic. -/
def Transaction.outSum (tx : Transaction) : UInt64 :=
  tx.outputs.foldl (fun acc o => acc + o.amount) 0

namespace Block

/-- The loop body. -/
def scanTx (b : Block) (s : TxScan) (i : Nat) (tx : Transaction) : Except BlockError TxScan :=
  if tx.isHeartbeat then do
    -- `continue`: the inputs of heartbeats and coinbases are not looked at
    failIf (i ≠ 0) (.consensus "heartbeat not first")
    .ok { s with heartbeat := u8SatSucc s.heartbeat }
  else if tx.isCoinbase then do
    failIf (u8SatSucc s.coinbase > 1) (.consensus "duplicate coinbase")
    .ok { s with coinbase := u8SatSucc s.coinbase }
  else do
    failIf (tx.pohTick < b.pohTickStart ∨ tx.pohTick > b.pohTickEnd) (.consensus "tx outside PoH")
    let seen ← tx.inputs.foldlM scanInput s.seenNullifiers
    failIf (tx.outSum = 0 ∧ tx.fee = 0) (.consensus "zero value tx")
    failIf (tx.locktime > 0 ∧ tx.locktime > b.height) (.consensus "tx locked")
    .ok { s with seenNullifiers := seen }

def scanTxs (b : Block) (s : TxScan) (i : Nat) : List Transaction → Except BlockError TxScan
  | [] => .ok s
  | tx :: rest => do
      let s' ← b.scanTx s i tx
      b.scanTxs s' (i + 1) rest

variable [Blake3]

def expectedHeartbeats (b : Block) : Nat := if b.isGenesis then 0 else 1

def validateInternal (b : Block) : Except BlockError Unit := do
  failIf (b.blockHash ≠ b.computeHash) (.invalidBlockHash b.computeHash b.blockHash)
  failIf (b.blockSize > maxBlockBytes) (.tooLarge b.blockSize maxBlockBytes)
  failIf (b.transactions.isEmpty ∨ b.transactions.length > maxTransactions)
    (.tooManyTransactions b.transactions.length maxTransactions)
  failIf (b.pohTickEnd < b.pohTickStart) (.invalidPoHTicks b.pohTickStart b.pohTickEnd)
  failIf (b.transactionsRoot ≠ computeTransactionsRoot b.transactions)
    (.invalidTransactionsRoot (computeTransactionsRoot b.transactions) b.transactionsRoot)
  let s ← b.scanTxs .start 0 b.transactions
  -- the counters are `u8` and saturate, which does not matter for the comparison with one
  failIf (s.heartbeat ≠ b.expectedHeartbeats ∨ s.coinbase ≠ 1)
    (.consensus ("hb=" ++ toString s.heartbeat ++ " cb=" ++ toString s.coinbase))

/-! ## What is accepted -/

end Block

/-- The nullifiers that the loop compares: those of the inputs of standard transactions. -/
def standardNullifiers (txs : List Transaction) : List Hash :=
  txs.flatMap fun tx =>
    if tx.txType = .standard then tx.inputs.map (·.nullifier) else []

theorem standardNullifiers_append (txs txs' : List Transaction) :
    standardNullifiers (txs ++ txs') = standardNullifiers txs ++ standardNullifiers txs' :=
  List.flatMap_append

namespace Block

/-- The rules for one standard transaction, apart from its nullifiers. -/
structure StandardOk (b : Block) (tx : Transaction) : Prop where
  inPoH : b.pohTickStart ≤ tx.pohTick ∧ tx.pohTick ≤ b.pohTickEnd
  value : ¬ (tx.outSum = 0 ∧ tx.fee = 0)
  unlocked : ¬ (tx.locktime > 0 ∧ tx.locktime > b.height)

variable {b : Block} {s s' : TxScan} {i : Nat} {tx : Transaction} {txs : List Transaction}

/-! The three branches of the loop body. -/

theorem scanTx_of_heartbeat (htype : tx.txType = .heartbeat) :
    b.scanTx s i tx = failIf (i ≠ 0) (.consensus "heartbeat not first") >>= fun _ =>
      .ok { s with heartbeat := u8SatSucc s.heartbeat } :=
  if_pos (decide_eq_true htype)

theorem scanTx_of_coinbase (htype : tx.txType = .coinbase) :
    b.scanTx s i tx = failIf (u8SatSucc s.coinbase > 1) (.consensus "duplicate coinbase") >>=
      fun _ => .ok { s with coinbase := u8SatSucc s.coinbase } := by
  have hheartbeat : ¬ tx.isHeartbeat = true := by simp [Transaction.isHeartbeat, htype]
  have hcoinbase : tx.isCoinbase = true := decide_eq_true htype
  rw [scanTx, if_neg hheartbeat, if_pos hcoinbase]

theorem scanTx_of_standard (htype : tx.txType = .standard) :
    b.scanTx s i tx =
      failIf (tx.pohTick < b.pohTickStart ∨ tx.pohTick > b.pohTickEnd)
          (.consensus "tx outside PoH") >>= fun _ =>
        tx.inputs.foldlM scanInput s.seenNullifiers >>= fun seen =>
          failIf (tx.outSum = 0 ∧ tx.fee = 0) (.consensus "zero value tx") >>= fun _ =>
            failIf (tx.locktime > 0 ∧ tx.locktime > b.height) (.consensus "tx locked") >>= fun _ =>
              .ok { s with seenNullifiers := seen } := by
  have hheartbeat : ¬ tx.isHeartbeat = true := by simp [Transaction.isHeartbeat, htype]
  have hcoinbase : ¬ tx.isCoinbase = true := by simp [Transaction.isCoinbase, htype]
  rw [scanTx, if_neg hheartbeat, if_neg hcoinbase]

theorem scanTx_heartbeat (htype : tx.txType = .heartbeat) :
    b.scanTx s i tx = .ok s' ↔ i = 0 ∧ s' = { s with heartbeat := u8SatSucc s.heartbeat } := by
  rw [scanTx_of_heartbeat htype, failIf_bind_eq_ok, not_not, Except.ok.injEq, eq_comm (a := s')]

theorem scanTx_coinbase (htype : tx.txType = .coinbase) :
    b.scanTx s i tx = .ok s' ↔
      ¬ u8SatSucc s.coinbase > 1 ∧ s' = { s with coinbase := u8SatSucc s.coinbase } := by
  rw [scanTx_of_coinbase htype, failIf_bind_eq_ok, Except.ok.injEq, eq_comm (a := s')]

theorem scanTx_standard (htype : tx.txType = .standard) :
    b.scanTx s i tx = .ok s' ↔
      b.StandardOk tx ∧ Fresh s.seenNullifiers (tx.inputs.map (·.nullifier)) ∧
        s' = { s with
          seenNullifiers := s.seenNullifiers ∪ (tx.inputs.map (·.nullifier)).toFinset } := by
  rw [scanTx_of_standard htype, failIf_bind_eq_ok, bind_eq_ok]
  constructor
  · rintro ⟨hpoh, seen, hseen, hrest⟩
    rcases scanInputs_eq_ok.1 hseen with ⟨hfresh, rfl⟩
    rcases failIf_bind_eq_ok.1 hrest with ⟨hvalue, hrest⟩
    rcases failIf_bind_eq_ok.1 hrest with ⟨hlock, hok⟩
    cases hok
    rw [not_or, UInt64.not_lt, UInt64.not_lt] at hpoh
    exact ⟨⟨hpoh, hvalue, hlock⟩, hfresh, rfl⟩
  · rintro ⟨hok, hfresh, rfl⟩
    refine ⟨?_, _, scanInputs_eq_ok.2 ⟨hfresh, rfl⟩, ?_⟩
    · rw [not_or, UInt64.not_lt, UInt64.not_lt]
      exact hok.inPoH
    · exact failIf_bind_eq_ok.2 ⟨hok.value, failIf_bind_eq_ok.2 ⟨hok.unlocked, rfl⟩⟩

/-- The variables after the loop has gone over `txs` without an error. -/
def scanned (s : TxScan) (txs : List Transaction) : TxScan :=
  { heartbeat := s.heartbeat + txs.countP Transaction.isHeartbeat
    coinbase := s.coinbase + txs.countP Transaction.isCoinbase
    seenNullifiers := s.seenNullifiers ∪ (standardNullifiers txs).toFinset }

/-- What the loop checks when it goes over `txs` from position `i` on. -/
structure Scannable (b : Block) (s : TxScan) (i : Nat) (txs : List Transaction) : Prop where
  heartbeatFirst : ∀ p ∈ txs.zipIdx i, p.1.txType = .heartbeat → p.2 = 0
  coinbase : s.coinbase + txs.countP Transaction.isCoinbase ≤ 1
  standard : ∀ tx ∈ txs, tx.txType = .standard → b.StandardOk tx
  fresh : Fresh s.seenNullifiers (standardNullifiers txs)

theorem scanned_append (s : TxScan) (txs txs' : List Transaction) :
    scanned s (txs ++ txs') = scanned (scanned s txs) txs' := by
  simp only [scanned, standardNullifiers_append, List.countP_append, List.toFinset_append,
    Nat.add_assoc, Finset.union_assoc]

/-- Going over two lists one after the other. -/
theorem scannable_append {txs' : List Transaction} :
    Scannable b s i (txs ++ txs') ↔
      Scannable b s i txs ∧ Scannable b (scanned s txs) (i + txs.length) txs' := by
  constructor
  · intro h
    have hfirst := h.heartbeatFirst
    have hcoinbase := h.coinbase
    have hstandard := h.standard
    have hfresh := h.fresh
    rw [List.zipIdx_append, List.forall_mem_append] at hfirst
    rw [List.countP_append, ← Nat.add_assoc] at hcoinbase
    rw [List.forall_mem_append] at hstandard
    rw [standardNullifiers_append, fresh_append] at hfresh
    exact ⟨⟨hfirst.1, by omega, hstandard.1, hfresh.1⟩,
      ⟨hfirst.2, hcoinbase, hstandard.2, hfresh.2⟩⟩
  · rintro ⟨hleft, hright⟩
    refine ⟨?_, ?_, ?_, ?_⟩
    · rw [List.zipIdx_append, List.forall_mem_append]
      exact ⟨hleft.heartbeatFirst, hright.heartbeatFirst⟩
    · rw [List.countP_append, ← Nat.add_assoc]
      exact hright.coinbase
    · exact List.forall_mem_append.2 ⟨hleft.standard, hright.standard⟩
    · rw [standardNullifiers_append, fresh_append]
      exact ⟨hleft.fresh, hright.fresh⟩

/-! One transaction, by its type. -/

theorem scanned_heartbeat (htype : tx.txType = .heartbeat) :
    scanned s [tx] = { s with heartbeat := s.heartbeat + 1 } := by
  simp [scanned, standardNullifiers, Transaction.isHeartbeat, Transaction.isCoinbase, htype]

theorem scanned_coinbase (htype : tx.txType = .coinbase) :
    scanned s [tx] = { s with coinbase := s.coinbase + 1 } := by
  simp [scanned, standardNullifiers, Transaction.isHeartbeat, Transaction.isCoinbase, htype]

theorem scanned_standard (htype : tx.txType = .standard) :
    scanned s [tx] = { s with
      seenNullifiers := s.seenNullifiers ∪ (tx.inputs.map (·.nullifier)).toFinset } := by
  simp [scanned, standardNullifiers, Transaction.isHeartbeat, Transaction.isCoinbase, htype]

theorem scannable_heartbeat (htype : tx.txType = .heartbeat) (hcoinbase : s.coinbase ≤ 1) :
    Scannable b s i [tx] ↔ i = 0 := by
  have hnull : standardNullifiers [tx] = [] := by simp [standardNullifiers, htype]
  have hcount : [tx].countP Transaction.isCoinbase = 0 := by
    simp [Transaction.isCoinbase, htype]
  constructor
  · intro h
    exact h.heartbeatFirst (tx, i) (by simp) htype
  · rintro rfl
    exact ⟨by simp, by omega, by simp [htype], hnull ▸ Fresh.nil _⟩

theorem scannable_coinbase (htype : tx.txType = .coinbase) :
    Scannable b s i [tx] ↔ s.coinbase + 1 ≤ 1 := by
  have hnull : standardNullifiers [tx] = [] := by simp [standardNullifiers, htype]
  have hcount : [tx].countP Transaction.isCoinbase = 1 := by
    simp [Transaction.isCoinbase, htype]
  constructor
  · intro h
    exact hcount ▸ h.coinbase
  · intro hle
    exact ⟨by simp [htype], by omega, by simp [htype], hnull ▸ Fresh.nil _⟩

theorem scannable_standard (htype : tx.txType = .standard) (hcoinbase : s.coinbase ≤ 1) :
    Scannable b s i [tx] ↔
      b.StandardOk tx ∧ Fresh s.seenNullifiers (tx.inputs.map (·.nullifier)) := by
  have hnull : standardNullifiers [tx] = tx.inputs.map (·.nullifier) := by
    simp [standardNullifiers, htype]
  have hcount : [tx].countP Transaction.isCoinbase = 0 := by
    simp [Transaction.isCoinbase, htype]
  constructor
  · intro h
    exact ⟨h.standard tx List.mem_cons_self htype, hnull ▸ h.fresh⟩
  · rintro ⟨hok, hfresh⟩
    exact ⟨by simp [htype], by omega, by simpa using fun _ => hok, hnull.symm ▸ hfresh⟩

/-- One iteration.  No heartbeat has been seen at position 0, so the counters do not saturate. -/
theorem scanTx_eq_ok (hheartbeat : s.heartbeat ≤ i) (hcoinbase : s.coinbase ≤ 1) :
    b.scanTx s i tx = .ok s' ↔ Scannable b s i [tx] ∧ s' = scanned s [tx] := by
  cases htype : tx.txType with
  | heartbeat =>
      rw [scanTx_heartbeat htype, scannable_heartbeat htype hcoinbase, scanned_heartbeat htype]
      refine and_congr_right fun hi => ?_
      -- at position 0 nothing has been counted yet
      have hzero : s.heartbeat = 0 := Nat.le_zero.1 (hi ▸ hheartbeat)
      rw [hzero, u8SatSucc]
      rfl
  | coinbase =>
      have hsat : u8SatSucc s.coinbase = s.coinbase + 1 := by
        rw [u8SatSucc]
        omega
      rw [scanTx_coinbase htype, scannable_coinbase htype, scanned_coinbase htype, hsat, Nat.not_lt]
  | standard =>
      rw [scanTx_standard htype, scannable_standard htype hcoinbase, scanned_standard htype,
        and_assoc]

/-- The whole loop, by induction on the transactions. -/
theorem scanTxs_eq_ok (hheartbeat : s.heartbeat ≤ i) (hcoinbase : s.coinbase ≤ 1) :
    b.scanTxs s i txs = .ok s' ↔ Scannable b s i txs ∧ s' = scanned s txs := by
  induction txs generalizing s i with
  | nil =>
      have hnil : scanned s [] = s := by simp [scanned, standardNullifiers]
      have hscan : Scannable b s i [] := ⟨by simp, by simpa using hcoinbase, by simp, Fresh.nil _⟩
      rw [scanTxs, hnil, Except.ok.injEq, eq_comm]
      exact ⟨fun h => ⟨hscan, h⟩, fun h => h.2⟩
  | cons tx rest ih =>
      have hsplit : tx :: rest = [tx] ++ rest := rfl
      -- what one iteration leaves is where the induction hypothesis starts
      have hnext : Scannable b s i [tx] →
          (b.scanTxs (scanned s [tx]) (i + 1) rest = .ok s' ↔
            Scannable b (scanned s [tx]) (i + 1) rest ∧
              s' = scanned (scanned s [tx]) rest) := by
        intro hscan
        refine ih ?_ hscan.coinbase
        have hone : [tx].countP Transaction.isHeartbeat ≤ 1 := List.countP_le_length
        simp only [scanned]
        omega
      rw [scanTxs, bind_eq_ok, hsplit, scannable_append, scanned_append]
      constructor
      · rintro ⟨mid, hmid, hrest⟩
        rcases (scanTx_eq_ok hheartbeat hcoinbase).1 hmid with ⟨hscan, rfl⟩
        rcases (hnext hscan).1 hrest with ⟨hright, rfl⟩
        exact ⟨⟨hscan, hright⟩, rfl⟩
      · rintro ⟨⟨hscan, hright⟩, rfl⟩
        exact ⟨_, (scanTx_eq_ok hheartbeat hcoinbase).2 ⟨hscan, rfl⟩,
          (hnext hscan).2 ⟨hright, rfl⟩⟩

/-! ## Valid blocks -/

variable [Blake3]

/-- What `validate_internal` accepts. -/
structure Valid (b : Block) : Prop where
  blockHash : b.blockHash = b.computeHash
  blockSize : b.blockSize ≤ maxBlockBytes
  nonempty : b.transactions ≠ []
  count : b.transactions.length ≤ maxTransactions
  ticks : b.pohTickStart ≤ b.pohTickEnd
  root : b.transactionsRoot = computeTransactionsRoot b.transactions
  heartbeatFirst : ∀ p ∈ b.transactions.zipIdx, p.1.txType = .heartbeat → p.2 = 0
  heartbeats : b.transactions.countP Transaction.isHeartbeat = b.expectedHeartbeats
  coinbases : b.transactions.countP Transaction.isCoinbase = 1
  standard : ∀ tx ∈ b.transactions, tx.txType = .standard → b.StandardOk tx
  nullifiers_nodup : (standardNullifiers b.transactions).Nodup
  nullifiers_ne_zero : ∀ n ∈ standardNullifiers b.transactions, n ≠ Hash.zero

theorem validateInternal_eq_ok : b.validateInternal = .ok () ↔ b.Valid := by
  have hscanned : scanned .start b.transactions =
      ⟨b.transactions.countP Transaction.isHeartbeat,
        b.transactions.countP Transaction.isCoinbase,
        (standardNullifiers b.transactions).toFinset⟩ := by
    simp [scanned, TxScan.start]
  have hscan {s : TxScan} : b.scanTxs .start 0 b.transactions = .ok s ↔
      Scannable b .start 0 b.transactions ∧ s = scanned .start b.transactions :=
    scanTxs_eq_ok (Nat.le_refl 0) (Nat.zero_le 1)
  -- the checks before and after the loop, as one conjunction
  simp only [validateInternal, failIf_bind_eq_ok]
  simp only [bind_eq_ok, failIf_eq_ok, not_not, not_or, gt_iff_lt, Nat.not_lt, UInt64.not_lt,
    List.isEmpty_iff]
  constructor
  · rintro ⟨hhash, hsize, ⟨hne, hcount⟩, hticks, hroot, s, hs, hheartbeats, hcoinbases⟩
    rcases hscan.1 hs with ⟨h, rfl⟩
    rw [hscanned] at hheartbeats hcoinbases
    exact
      { blockHash := hhash
        blockSize := hsize
        nonempty := hne
        count := hcount
        ticks := hticks
        root := hroot
        heartbeatFirst := h.heartbeatFirst
        heartbeats := hheartbeats
        coinbases := hcoinbases
        standard := h.standard
        nullifiers_nodup := h.fresh.nodup
        nullifiers_ne_zero := h.fresh.ne_zero }
  · intro h
    refine ⟨h.blockHash, h.blockSize, ⟨h.nonempty, h.count⟩, h.ticks, h.root, _,
      hscan.2 ⟨?_, rfl⟩, ?_⟩
    · exact
        { heartbeatFirst := h.heartbeatFirst
          coinbase := (Nat.zero_add _).trans_le h.coinbases.le
          standard := h.standard
          fresh := ⟨h.nullifiers_nodup, h.nullifiers_ne_zero, by simp [TxScan.start]⟩ }
    · rw [hscanned]
      exact ⟨h.heartbeats, h.coinbases⟩

end Block

end Core
end Aevum
