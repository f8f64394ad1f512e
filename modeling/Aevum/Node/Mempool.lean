import Aevum.Lib.FinMap
import Aevum.Lib.Run
import Aevum.Core.Transaction
import Mathlib.Logic.Function.Basic

/-!
# Node.Mempool — `mempool.rs`

The bucketed mempool: an index and a store by transaction hash, a map of spent nullifiers, and 64
queues of references by fee, from which removed transactions are only deleted lazily.

Sizes are natural numbers: an entry counts at most `MAX_MEMPOOL_BYTES` and the pool holds no more,
so no sum of sizes reaches the bounds of `usize`.  Times are natural numbers too (nanoseconds),
and every operation that reads the clock has the time as an argument.  The counters of the
statistics wrap around, as they do in a release build.  Memory is unbounded: the vector that
`build_block` reserves for `max_tx` transactions is an empty list.
-/

namespace Aevum
namespace Node

open Lib Crypto Aevum.Core

/-! ## Constants -/

def feeBuckets : Nat := 64

def minFee : UInt64 := 1

def maxMempoolTx : Nat := 50000

def maxMempoolBytes : Nat := 128 * 1024 * 1024

/-- One hour, in nanoseconds. -/
def txTtl : Nat := 3600 * 1000000000

/-- Bucket numbers. -/
abbrev Bucket := Fin feeBuckets

/-! ## State -/

structure TxRef where
  hash : Hash
  fee : UInt64
  size : UInt32
  pohTick : UInt64
  insertedAt : Nat
  deriving DecidableEq

structure MempoolStats where
  totalTx : Nat
  totalBytes : Nat
  feeWatermark : UInt64
  bucketDepths : Bucket → Nat
  rejectedLowFee : UInt64
  rejectedDuplicate : UInt64
  rejectedNullifier : UInt64
  rejectedFull : UInt64
  evictedStale : UInt64
  evictedLowFee : UInt64
  blocksBuilt : UInt64
  txsIncluded : UInt64

/-- `MempoolStats::default()`. -/
def MempoolStats.zero : MempoolStats :=
  { totalTx := 0
    totalBytes := 0
    feeWatermark := 0
    bucketDepths := fun _ => 0
    rejectedLowFee := 0
    rejectedDuplicate := 0
    rejectedNullifier := 0
    rejectedFull := 0
    evictedStale := 0
    evictedLowFee := 0
    blocksBuilt := 0
    txsIncluded := 0 }

section Pool

variable [ForeignTypes]

structure MempoolInner where
  buckets : Bucket → List TxRef
  index : FinMap Hash TxRef
  nullifiers : FinMap Hash Hash
  txStore : FinMap Hash Transaction
  totalBytes : Nat
  minFeeWatermark : UInt64
  stats : MempoolStats

/-- The nullifiers of the inputs of a transaction, in order. -/
def inputNullifiers (tx : Transaction) : List Hash :=
  tx.inputs.map (·.nullifier)

namespace MempoolInner

def new : MempoolInner :=
  { buckets := fun _ => []
    index := FinMap.empty
    nullifiers := FinMap.empty
    txStore := FinMap.empty
    totalBytes := 0
    minFeeWatermark := minFee
    stats := MempoolStats.zero }

/-! ## Fees and sizes -/

def bucketOf (fee : UInt64) : Bucket :=
  if fee = 0 then ⟨0, by decide⟩ else ⟨min (63 - fee.leadingZeros) (feeBuckets - 1), by
    simp only [feeBuckets]
    omega⟩

def estimatedSize (tx : Transaction) : Nat :=
  let base := 63
  let inputs := usizeSatMul tx.inputs.length 204
  let outputs := usizeSatMul tx.outputs.length 174
  let witnesses := (tx.heartbeatWitnesses.map fun w => usizeSatAdd 4 w.length).sum
  usizeSatAdd (usizeSatAdd (usizeSatAdd base inputs) outputs) witnesses

/-- The size an entry is counted with. -/
def entrySize (tx : Transaction) : Nat :=
  min (estimatedSize tx) maxMempoolBytes

/-! ## Insertion -/

/-- The reference that `insert` creates. -/
def refOf (tx : Transaction) (pohTick : UInt64) (now : Nat) : TxRef :=
  { hash := tx.txHash
    fee := tx.fee
    size := UInt32.ofNat (entrySize tx)
    pohTick := pohTick
    insertedAt := now }

/-- The pool with one transaction more. -/
def accept (s : MempoolInner) (tx : Transaction) (pohTick : UInt64) (now : Nat) : MempoolInner :=
  let txref := refOf tx pohTick now
  let bucket := bucketOf tx.fee
  let s :=
    { s with
      index := s.index.insert tx.txHash txref
      buckets := Function.update s.buckets bucket (s.buckets bucket ++ [txref])
      nullifiers := FinMap.insertAll (inputNullifiers tx) tx.txHash s.nullifiers
      txStore := s.txStore.insert tx.txHash tx
      totalBytes := s.totalBytes + entrySize tx }
  { s with stats := { s.stats with totalTx := s.index.size, totalBytes := s.totalBytes } }

def insert (s : MempoolInner) (tx : Transaction) (pohTick : UInt64) (now : Nat) :
    MempoolInner × Bool :=
  if tx.fee < s.minFeeWatermark then
    ({ s with stats := { s.stats with rejectedLowFee := s.stats.rejectedLowFee + 1 } }, false)
  else if (s.index.get? tx.txHash).isSome then
    ({ s with stats := { s.stats with rejectedDuplicate := s.stats.rejectedDuplicate + 1 } },
      false)
  else if (inputNullifiers tx).any fun n => (s.nullifiers.get? n).isSome then
    ({ s with stats := { s.stats with rejectedNullifier := s.stats.rejectedNullifier + 1 } },
      false)
  else if s.index.size ≥ maxMempoolTx then
    ({ s with stats := { s.stats with rejectedFull := s.stats.rejectedFull + 1 } }, false)
  else if s.totalBytes + entrySize tx > maxMempoolBytes then
    ({ s with stats := { s.stats with rejectedFull := s.stats.rejectedFull + 1 } }, false)
  else
    (s.accept tx pohTick now, true)

/-! ## Block building -/

/-- What `build_block` has collected so far. -/
structure BuildState where
  pool : MempoolInner
  out : List Transaction
  bytes : Nat

/-- How one pass of the inner loop ends. -/
inductive PassResult
  | exhausted
  | again (st : BuildState)
  | full (st : BuildState)

/-- One pass of `while let Some(txref) = self.buckets[bucket].pop_front()`. -/
def buildPass (maxTx maxBytes : Nat) (bucket : Bucket) (st : BuildState) : PassResult :=
  match st.pool.buckets bucket with
  | [] => .exhausted
  | txref :: rest =>
      -- the reference is popped before anything is known about it
      let pool := { st.pool with buckets := Function.update st.pool.buckets bucket rest }
      if (pool.index.get? txref.hash).isNone then
        -- deleted lazily: the transaction is gone, the reference is dropped
        .again { st with pool := pool }
      else if st.bytes + txref.size.toNat > maxBytes then
        -- `push_front` and `continue`: the next pass pops the same reference
        .again
          { st with
            pool := { pool with buckets := Function.update pool.buckets bucket (txref :: rest) } }
      else
        let st :=
          match pool.txStore.get? txref.hash with
          | some tx =>
              { pool :=
                  { pool with
                    txStore := pool.txStore.erase txref.hash
                    index := pool.index.erase txref.hash
                    nullifiers := FinMap.eraseAll (inputNullifiers tx) pool.nullifiers
                    totalBytes := pool.totalBytes - txref.size.toNat
                    stats := { pool.stats with txsIncluded := pool.stats.txsIncluded + 1 } }
                out := st.out ++ [tx]
                bytes := st.bytes + txref.size.toNat }
          | none => { st with pool := pool }
        if st.out.length ≥ maxTx then .full st else .again st

/-- Both loops of `build_block`; `none` means that the fuel ran out. -/
def buildLoop (maxTx maxBytes : Nat) : Nat → List Bucket → BuildState → Option BuildState
  | 0, _, _ => none
  | _ + 1, [], st => some st
  | fuel + 1, bucket :: below, st =>
      match buildPass maxTx maxBytes bucket st with
      | .exhausted => buildLoop maxTx maxBytes fuel below st
      | .again st => buildLoop maxTx maxBytes fuel (bucket :: below) st
      | .full st => some st

/-- `(0..FEE_BUCKETS).rev()`. -/
def bucketsDown : List Bucket := (List.finRange feeBuckets).reverse

/-- The statistics written before either return. -/
def noteBuilt (s : MempoolInner) : MempoolInner :=
  { s with
    stats :=
      { s.stats with
        blocksBuilt := s.stats.blocksBuilt + 1
        totalTx := s.index.size
        totalBytes := s.totalBytes } }

/-- `build_block`, for a `max_tx` that is small enough for `Vec::with_capacity(max_tx)`: with a
larger one the source panics before the loops, or runs out of memory. -/
def buildBlock (s : MempoolInner) (fuel maxTx maxBytes : Nat) :
    Option (MempoolInner × List Transaction) :=
  (buildLoop maxTx maxBytes fuel bucketsDown { pool := s, out := [], bytes := 0 }).map
    fun st => (st.pool.noteBuilt, st.out)

/-! ## Removal -/

/-- The statistics written after a removal. -/
def noteTotals (s : MempoolInner) : MempoolInner :=
  { s with stats := { s.stats with totalTx := s.index.size, totalBytes := s.totalBytes } }

/-- The loop body of `remove_transactions`. -/
def removeOne (s : MempoolInner) (h : Hash) : MempoolInner :=
  match s.index.get? h with
  | none => s
  | some txref =>
      -- the reference stays in its bucket until it is popped
      let s :=
        { s with
          index := s.index.erase h
          totalBytes := s.totalBytes - txref.size.toNat }
      match s.txStore.get? h with
      | none => s
      | some tx =>
          { s with
            txStore := s.txStore.erase h
            nullifiers := FinMap.eraseAll (inputNullifiers tx) s.nullifiers }

def removeTransactions (s : MempoolInner) (hashes : List Hash) : MempoolInner :=
  (hashes.foldl removeOne s).noteTotals

/-- The test of `evict_stale`; a reference from the future has age zero. -/
def isStale (now : Nat) (txref : TxRef) : Bool :=
  now - txref.insertedAt > txTtl

/-- The hashes collected while the buckets are filtered, in the order they are found. -/
def staleHashes (s : MempoolInner) (now : Nat) : List Hash :=
  (List.finRange feeBuckets).flatMap fun b =>
    ((s.buckets b).filter (isStale now)).map (·.hash)

/-- The body of the second loop of `evict_stale`. -/
def evictOne (s : MempoolInner) (h : Hash) : MempoolInner :=
  -- here the store is cleaned for hashes that are not indexed, too
  let s :=
    match s.index.get? h with
    | none => s
    | some txref =>
        { s with
          index := s.index.erase h
          totalBytes := s.totalBytes - txref.size.toNat }
  match s.txStore.get? h with
  | none => s
  | some tx =>
      { s with
        txStore := s.txStore.erase h
        nullifiers := FinMap.eraseAll (inputNullifiers tx) s.nullifiers }

def evictStale (s : MempoolInner) (now : Nat) : MempoolInner × Nat :=
  -- hashes of references that are stale, whether or not they are still indexed
  let stale := s.staleHashes now
  let s := { s with buckets := fun b => (s.buckets b).filter fun r => ! isStale now r }
  let s := stale.foldl evictOne s
  let s :=
    { s with
      stats :=
        { s.stats with evictedStale := s.stats.evictedStale + UInt64.ofNat stale.length } }
  (s.noteTotals, stale.length)

/-! ## Fee floor and statistics -/

def adjustFeeFloor (s : MempoolInner) (congestion : Bool) : MempoolInner :=
  let watermark :=
    if congestion then s.minFeeWatermark.satAdd 1 else max (s.minFeeWatermark.satSub 1) minFee
  { s with
    minFeeWatermark := watermark
    stats := { s.stats with feeWatermark := watermark } }

def getStats (s : MempoolInner) : MempoolStats :=
  { s.stats with bucketDepths := fun b => (s.buckets b).length }

end MempoolInner

end Pool

end Node
end Aevum
