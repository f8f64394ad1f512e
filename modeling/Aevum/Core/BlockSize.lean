import Aevum.Core.BlockOverflow

/-!
# Core.BlockSize — the two limits of `block.rs`

`from_candidate` estimates the size of a block at 512 bytes a transaction, and `validate_internal`
compares the estimate with `MAX_BLOCK_BYTES` before it compares the number of transactions with
`MAX_TRANSACTIONS`.  The first limit is reached at 32768 transactions, the second at 100001.

* `validateInternal_eq_tooLarge` : when a block is refused for its size;
* `never_tooLarge_iff`, `limit_agrees_iff` : how many transactions the size limit lets through.
-/

namespace Aevum
namespace Core

open Lib Crypto

/-- The largest number of transactions whose estimate is not above the limit. -/
theorem estimatedBlockSize_le_iff (count : Nat) :
    estimatedBlockSize count ≤ maxBlockBytes ↔ count ≤ 32767 := by
  simp only [estimatedBlockSize, usizeSatAdd, usizeSatMul, usizeMax, maxBlockBytes]
  omega

namespace Block

/-! ## The errors of the loop -/

section Loop

variable [ForeignTypes] {b : Block} {s : TxScan} {i : Nat} {tx : Transaction}
  {txs : List Transaction} {e : BlockError}

theorem scanTx_eq_error (h : b.scanTx s i tx = .error e) : ∃ reason, e = .consensus reason := by
  cases htype : tx.txType with
  | heartbeat =>
      rw [scanTx_of_heartbeat htype] at h
      rcases failIf_bind_eq_error.1 h with ⟨-, he⟩ | ⟨-, hok⟩
      · exact ⟨_, he.symm⟩
      · cases hok
  | coinbase =>
      rw [scanTx_of_coinbase htype] at h
      rcases failIf_bind_eq_error.1 h with ⟨-, he⟩ | ⟨-, hok⟩
      · exact ⟨_, he.symm⟩
      · cases hok
  | standard =>
      rw [scanTx_of_standard htype] at h
      rcases failIf_bind_eq_error.1 h with ⟨-, he⟩ | ⟨-, h⟩
      · exact ⟨_, he.symm⟩
      rcases bind_eq_error.1 h with h | ⟨seen, -, h⟩
      · rcases scanInputs_eq_error h with he | he
        · exact ⟨_, he⟩
        · exact ⟨_, he⟩
      rcases failIf_bind_eq_error.1 h with ⟨-, he⟩ | ⟨-, h⟩
      · exact ⟨_, he.symm⟩
      rcases failIf_bind_eq_error.1 h with ⟨-, he⟩ | ⟨-, hok⟩
      · exact ⟨_, he.symm⟩
      · cases hok

theorem scanTxs_eq_error (h : b.scanTxs s i txs = .error e) : ∃ reason, e = .consensus reason := by
  induction txs generalizing s i with
  | nil => cases h
  | cons tx rest ih =>
      rcases bind_eq_error.1 h with h | ⟨s', -, h⟩
      · exact scanTx_eq_error h
      · exact ih h

end Loop

/-! ## The size limit -/

section SizeLimit

variable [ForeignTypes] [Blake3]

/-- Which check refused a block with an error, and what the checks before it had found. -/
inductive RefusedBy (b : Block) : BlockError → Prop
  | hash (h : b.blockHash ≠ b.computeHash) :
      RefusedBy b (.invalidBlockHash b.computeHash b.blockHash)
  | size (hhash : b.blockHash = b.computeHash) (h : maxBlockBytes < b.blockSize) :
      RefusedBy b (.tooLarge b.blockSize maxBlockBytes)
  | count (hsize : b.blockSize ≤ maxBlockBytes)
      (h : b.transactions.isEmpty ∨ b.transactions.length > maxTransactions) :
      RefusedBy b (.tooManyTransactions b.transactions.length maxTransactions)
  | ticks (h : b.pohTickEnd < b.pohTickStart) :
      RefusedBy b (.invalidPoHTicks b.pohTickStart b.pohTickEnd)
  | root (h : b.transactionsRoot ≠ computeTransactionsRoot b.transactions) :
      RefusedBy b (.invalidTransactionsRoot (computeTransactionsRoot b.transactions)
        b.transactionsRoot)
  | consensus (reason : String) : RefusedBy b (.consensus reason)

theorem refusedBy_of_error {b : Block} {e : BlockError} (h : b.validateInternal = .error e) :
    b.RefusedBy e := by
  rw [validateInternal] at h
  rcases failIf_bind_eq_error.1 h with ⟨hhash, rfl⟩ | ⟨hhash, h⟩
  · exact .hash hhash
  rcases failIf_bind_eq_error.1 h with ⟨hsize, rfl⟩ | ⟨hsize, h⟩
  · exact .size (not_not.1 hhash) hsize
  rcases failIf_bind_eq_error.1 h with ⟨hcount, rfl⟩ | ⟨-, h⟩
  · exact .count (Nat.not_lt.1 hsize) hcount
  rcases failIf_bind_eq_error.1 h with ⟨hticks, rfl⟩ | ⟨-, h⟩
  · exact .ticks hticks
  rcases failIf_bind_eq_error.1 h with ⟨hroot, rfl⟩ | ⟨-, h⟩
  · exact .root hroot
  -- the loop and the comparison of the counters behind it have one kind of error
  rcases bind_eq_error.1 h with h | ⟨s, -, h⟩
  · rcases scanTxs_eq_error h with ⟨reason, rfl⟩
    exact .consensus reason
  · rcases failIf_eq_error.1 h with ⟨-, rfl⟩
    exact .consensus _

/-- The size is looked at before everything else but the hash. -/
theorem validateInternal_eq_tooLarge {b : Block} {size max : Nat} :
    b.validateInternal = .error (.tooLarge size max) ↔
      b.blockHash = b.computeHash ∧ maxBlockBytes < b.blockSize ∧
        b.blockSize = size ∧ maxBlockBytes = max := by
  constructor
  · intro h
    cases refusedBy_of_error h with
    | size hhash hsize => exact ⟨hhash, hsize, rfl, rfl⟩
  · rintro ⟨hhash, hsize, rfl, rfl⟩
    rw [validateInternal, failIf_bind_eq_error, failIf_bind_eq_error, not_not]
    exact Or.inr ⟨hhash, Or.inl ⟨hsize, rfl⟩⟩

variable {candidate : BlockCandidate} {preview : StatePreview} {b : Block}

theorem blockSize_of_fromCandidate (h : fromCandidate candidate preview = .ok b) :
    b.blockSize = estimatedBlockSize candidate.transactions.length := by
  unfold fromCandidate at h
  split at h
  · cases h
  split at h
  · cases h
  · cases h
    rfl

theorem exists_fromCandidate (candidate : BlockCandidate) (preview : StatePreview)
    (hroot : preview.stateRoot ≠ ⟨Hash.zero⟩) (hsupply : preview.newTotalSupply ≠ 0) :
    ∃ b, fromCandidate candidate preview = .ok b := by
  rw [fromCandidate, if_neg fun h => hroot h.1, if_neg fun h => hsupply h.1]
  exact ⟨_, rfl⟩

/-- A block that is built is too large exactly when it has more transactions than the size limit
lets through. -/
theorem fromCandidate_tooLarge_iff (h : fromCandidate candidate preview = .ok b) :
    (∃ size max, b.validateInternal = .error (.tooLarge size max)) ↔
      32767 < candidate.transactions.length := by
  have hlarge : maxBlockBytes < b.blockSize ↔ 32767 < candidate.transactions.length := by
    rw [blockSize_of_fromCandidate h, ← Nat.not_le, estimatedBlockSize_le_iff, Nat.not_le]
  rw [← hlarge]
  constructor
  · rintro ⟨size, max, hmax⟩
    exact (validateInternal_eq_tooLarge.1 hmax).2.1
  · intro hsize
    exact ⟨_, _, validateInternal_eq_tooLarge.2 ⟨(fromCandidate_ok h).1, hsize, rfl, rfl⟩⟩

/-- A block that is built is never too large exactly when it has at most 32767 transactions. -/
theorem never_tooLarge_iff (h : fromCandidate candidate preview = .ok b) :
    (∀ size max, b.validateInternal ≠ .error (.tooLarge size max)) ↔
      candidate.transactions.length ≤ 32767 := by
  rw [← Nat.not_lt, ← fromCandidate_tooLarge_iff h, not_exists]
  exact forall_congr' fun size => not_exists.symm

/-- The limit on the number of transactions never refuses a block that is built, unless it has none:
one with too many is too large before. -/
theorem fromCandidate_tooMany (h : fromCandidate candidate preview = .ok b) {count max : Nat}
    (hmany : b.validateInternal = .error (.tooManyTransactions count max)) :
    candidate.transactions = [] := by
  cases refusedBy_of_error hmany with
  | count hsize hcount =>
      rw [(fromCandidate_ok h).2.2.1] at hcount
      rw [blockSize_of_fromCandidate h, estimatedBlockSize_le_iff] at hsize
      rcases hcount with hempty | hmany
      · exact List.isEmpty_iff.1 hempty
      · simp only [maxTransactions] at hmany
        omega

/-- A candidate at height 0 with `n` heartbeats. -/
def heartbeatsCandidate (n : Nat) : BlockCandidate :=
  { prevHash := Hash.zero
    height := 0
    pohTickStart := 0
    pohTickEnd := 0
    transactions := List.replicate n (Transaction.newHeartbeat [] chainIdMainnet)
    isPresenceBlock := false
    settlementCheckpoint := none }

/-- A producer who puts up to `limit` transactions into a block is never refused for its size
exactly when `limit` is at most 32767. -/
theorem limit_agrees_iff (limit : Nat) :
    (∀ (candidate : BlockCandidate) (preview : StatePreview) (b : Block),
      candidate.transactions.length ≤ limit → fromCandidate candidate preview = .ok b →
        ∀ size max, b.validateInternal ≠ .error (.tooLarge size max)) ↔ limit ≤ 32767 := by
  constructor
  · intro hnever
    rcases exists_fromCandidate (heartbeatsCandidate limit) ⟨⟨ByteArr.fill 32 1⟩, 1⟩
      (by decide) (by decide) with ⟨b, hb⟩
    have hlen : (heartbeatsCandidate limit).transactions.length = limit := List.length_replicate
    have hle := hlen.le
    rw [← hlen]
    -- a block with as many transactions as the limit admits
    exact (never_tooLarge_iff hb).1 (hnever _ _ b hle hb)
  · intro hlimit candidate preview b hle hb
    exact (never_tooLarge_iff hb).2 (hle.trans hlimit)

end SizeLimit

/-! ## Blocks to evaluate -/

section Sample

attribute [local instance] polyBlake3 unitTypes

/-- A heartbeat, a coinbase and `n` transactions that pay a fee. -/
def sampleFull (n : Nat) : BlockCandidate :=
  { prevHash := ByteArr.fill 32 7
    height := 1
    pohTickStart := 10
    pohTickEnd := 20
    transactions := Transaction.newHeartbeat [] 2 :: Transaction.newCoinbase [] 10 2 ::
      List.replicate n sampleFee
    isPresenceBlock := true
    settlementCheckpoint := none }

def samplePreview : StatePreview := ⟨⟨ByteArr.fill 32 8⟩, 100⟩

theorem length_sampleFull (n : Nat) : (sampleFull n).transactions.length = n + 2 := by
  simp only [sampleFull, List.length_cons, List.length_replicate]

end Sample

end Block

end Core
end Aevum
