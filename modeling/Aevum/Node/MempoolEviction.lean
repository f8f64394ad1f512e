import Aevum.Node.MempoolBlocks
import Mathlib.Algebra.BigOperators.Fin

/-!
# Node.MempoolEviction — references that outlive their transactions

`remove_transactions` leaves the reference of a removed transaction in its bucket.  When the
transaction comes back there are two references, and `evict_stale` goes by the older one: it evicts
and counts every stale reference, whether or not the index still holds it.  `EvictsExactly` is what
eviction should do, `evict_exact_iff` when it does it.  The last section bounds the number of
references, which the capacity of the pool does not.
-/

namespace Aevum
namespace Node
namespace MempoolInner

open Lib Crypto Aevum.Core

theorem isStale_iff {now : Nat} {r : TxRef} :
    isStale now r = true ↔ r.insertedAt + txTtl < now := by
  rw [isStale, decide_eq_true_iff]
  omega

section Eviction

variable [ForeignTypes] {s s' : MempoolInner} {tr : List PoolEvent}

/-! ## Ages -/

/-- The times at which a transaction with the hash `h` was accepted, in order. -/
def insertTimes (h : Hash) (tr : List PoolEvent) : List Nat :=
  tr.filterMap fun
    | .insert tx _ now true => if tx.txHash = h then some now else none
    | _ => none

/-- The time of the latest successful insert. -/
def lastInsert (h : Hash) (tr : List PoolEvent) : Option Nat :=
  (insertTimes h tr).getLast?

theorem lastInsert_append (h : Hash) (tr tr' : List PoolEvent) :
    lastInsert h (tr ++ tr') = (lastInsert h tr').or (lastInsert h tr) := by
  rw [lastInsert, insertTimes, List.filterMap_append, List.getLast?_append]
  rfl

/-- An entry of the index is an old one, or it has just been inserted. -/
theorem indexed_of_step (hkeys : KeysAgree s) {e : PoolEvent} (hstep : step s e s') {k : Hash}
    {r : TxRef} (hr : s'.index.get? k = some r) :
    s.index.get? k = some r ∧ lastInsert k [e] = none ∨ lastInsert k [e] = some r.insertedAt := by
  -- an entry that is left after some have been erased is an old one
  have hold : ∀ ks, (FinMap.eraseAll ks s.index).get? k = some r → s.index.get? k = some r := by
    intro ks hr
    exact (FinMap.get?_eraseAll_eq_some.1 hr).2
  cases step_kind hstep with
  | reject tx pohTick now st => exact Or.inl ⟨hr, rfl⟩
  | accept tx pohTick now haccepts =>
      rcases FinMap.get?_insert_eq_some.1 hr with ⟨hk, rfl⟩ | ⟨hk, hold⟩
      · exact Or.inr (by simp [lastInsert, insertTimes, hk, refOf])
      · exact Or.inl ⟨hold, by simp [lastInsert, insertTimes, Ne.symm hk]⟩
  | build maxTx maxBytes fuel s' out hbuild =>
      rw [(built_of_buildBlock hkeys hbuild).index] at hr
      exact Or.inl ⟨hold _ hr, rfl⟩
  | remove hashes =>
      rw [removeTransactions_index] at hr
      exact Or.inl ⟨hold _ hr, rfl⟩
  | evict now =>
      rw [evictStale_index] at hr
      exact Or.inl ⟨hold _ hr, rfl⟩
  | adjust congestion => exact Or.inl ⟨hr, rfl⟩

/-- An entry of the index carries the time of the latest successful insert. -/
theorem lastInsert_run (hrun : Run MempoolInner.step new tr s) :
    ∀ k r, s.index.get? k = some r → lastInsert k tr = some r.insertedAt := by
  refine RunWith.invariant
    (fun tr s => ∀ k r, s.index.get? k = some r → lastInsert k tr = some r.insertedAt)
    (fun k r hr => by cases hr) ?_ hrun
  intro tr s e s' hrun ih hstep _ k r hr
  rw [lastInsert_append]
  rcases indexed_of_step (keysAgree_run hrun) hstep hr with ⟨hold, hnone⟩ | hnew
  · rw [hnone, Option.none_or, ih k r hold]
  · rw [hnew, Option.some_or]

/-! ## Exact eviction -/

/-- Exactly the transactions whose latest insert is longer ago than the time to live are removed,
the others keep everything, and the number returned is the number of those removed. -/
structure EvictsExactly (tr : List PoolEvent) (s : MempoolInner) (now : Nat) : Prop where
  removed : ∀ h tx, s.txStore.get? h = some tx →
    ((s.evictStale now).1.txStore.get? h = none ↔ ∃ t ∈ lastInsert h tr, t + txTtl < now)
  kept : ∀ h tx, (s.evictStale now).1.txStore.get? h = some tx →
    s.txStore.get? h = some tx ∧
    (∃ r, s.index.get? h = some r ∧ (s.evictStale now).1.index.get? h = some r ∧
      r ∈ (s.evictStale now).1.buckets (bucketOf r.fee)) ∧
    ∀ n ∈ inputNullifiers tx, (s.evictStale now).1.nullifiers.get? n = some h
  count : (s.evictStale now).2 + (s.evictStale now).1.index.size = s.index.size

/-- The references that are evicted, in the order they are found. -/
def staleRefs (s : MempoolInner) (now : Nat) : List TxRef :=
  (List.finRange feeBuckets).flatMap fun b => (s.buckets b).filter (isStale now)

theorem staleHashes_eq (s : MempoolInner) (now : Nat) :
    s.staleHashes now = (s.staleRefs now).map TxRef.hash :=
  (List.map_flatMap ..).symm

theorem mem_staleRefs {now : Nat} {r : TxRef} :
    r ∈ s.staleRefs now ↔ (∃ b, r ∈ s.buckets b) ∧ isStale now r = true := by
  simp [staleRefs]

/-- A transaction is evicted exactly when a stale reference names it. -/
theorem evicted_iff {now : Nat} {h : Hash} {tx : Transaction}
    (htx : s.txStore.get? h = some tx) :
    (s.evictStale now).1.txStore.get? h = none ↔ ∃ r ∈ s.staleRefs now, r.hash = h := by
  have hmem : (∃ r ∈ s.staleRefs now, r.hash = h) ↔ h ∈ (s.staleRefs now).map TxRef.hash :=
    List.mem_map.symm
  rw [evictStale_txStore, FinMap.get?_eraseAll, staleHashes_eq, hmem]
  split
  · next hmem => exact iff_of_true rfl hmem
  · next hnot =>
      rw [htx]
      exact iff_of_false nofun hnot

/-- An entry that is due is a stale reference itself. -/
theorem mem_staleRefs_of_due (hinv : Entries s) {now : Nat} {k : Hash} {r : TxRef}
    (hr : s.index.get? k = some r) (hdue : r.insertedAt + txTtl < now) : r ∈ s.staleRefs now :=
  mem_staleRefs.2 ⟨⟨_, (hinv.indexed k r hr).2⟩, isStale_iff.2 hdue⟩

/-- The number returned is right exactly when the stale references name different pooled
transactions. -/
theorem evict_count_iff (s : MempoolInner) (now : Nat) :
    (s.evictStale now).2 + (s.evictStale now).1.index.size = s.index.size ↔
      ((s.staleRefs now).map TxRef.hash).Nodup ∧
        ∀ k ∈ (s.staleRefs now).map TxRef.hash, ∃ r, s.index.get? k = some r := by
  rw [evictStale_snd, evictStale_index, staleHashes_eq, Nat.add_comm]
  exact FinMap.size_eraseAll_iff

/-- A transaction that is not evicted keeps its entry, its reference and its nullifiers. -/
theorem evict_kept (hinv : Entries s) {now : Nat} {h : Hash} {tx : Transaction}
    (htx : (s.evictStale now).1.txStore.get? h = some tx) :
    s.txStore.get? h = some tx ∧
    (∃ r, s.index.get? h = some r ∧ (s.evictStale now).1.index.get? h = some r ∧
      r ∈ (s.evictStale now).1.buckets (bucketOf r.fee)) ∧
    ∀ n ∈ inputNullifiers tx, (s.evictStale now).1.nullifiers.get? n = some h := by
  have hinv' := hinv.evictStale now
  rcases hinv'.keys.indexed htx with ⟨r, hr⟩
  have hstored := htx
  have hentry := hr
  rw [evictStale_txStore, FinMap.get?_eraseAll_eq_some] at hstored
  rw [evictStale_index, FinMap.get?_eraseAll_eq_some] at hentry
  exact ⟨hstored.2, ⟨r, hentry.2, hr, (hinv'.indexed h r hr).2⟩,
    fun n hn => (hinv'.owners n h).2 ⟨tx, htx, hn⟩⟩

/-- Eviction is exact exactly when every stale reference is the one that the index holds, and none
of them is queued twice. -/
theorem evict_exact_iff (hrun : Run MempoolInner.step new tr s) (now : Nat) :
    EvictsExactly tr s now ↔
      (s.staleRefs now).Nodup ∧ ∀ r ∈ s.staleRefs now, s.index.get? r.hash = some r := by
  have hinv := entries_run hrun
  have htime := lastInsert_run hrun
  constructor
  · intro hexact
    rcases (evict_count_iff s now).1 hexact.count with ⟨hnodup, hall⟩
    refine ⟨hnodup.of_map, fun r hr => ?_⟩
    rcases hall r.hash (List.mem_map_of_mem hr) with ⟨r', hr'⟩
    rcases hinv.keys.stored hr' with ⟨tx, htx⟩
    -- the transaction is removed, so its own reference is stale
    rcases (hexact.removed r.hash tx htx).1 ((evicted_iff htx).2 ⟨r, hr, rfl⟩) with ⟨t, ht, hlt⟩
    rw [htime _ _ hr', Option.mem_def, Option.some_inj] at ht
    rw [← ht] at hlt
    have hsame : r' = r := List.inj_on_of_nodup_map hnodup (mem_staleRefs_of_due hinv hr' hlt) hr
      (hinv.indexed _ _ hr').1
    rw [hr', hsame]
  · rintro ⟨hnodup, hindexed⟩
    refine ⟨fun h tx htx => ?_, fun h tx htx => evict_kept hinv htx,
      (evict_count_iff s now).2 ⟨?_, ?_⟩⟩
    · rw [evicted_iff htx]
      constructor
      · rintro ⟨r, hr, rfl⟩
        exact ⟨_, htime _ _ (hindexed r hr), isStale_iff.1 (mem_staleRefs.1 hr).2⟩
      · rintro ⟨t, ht, hlt⟩
        rcases hinv.keys.indexed htx with ⟨r, hr⟩
        rw [htime h r hr, Option.mem_def, Option.some_inj] at ht
        rw [← ht] at hlt
        exact ⟨r, mem_staleRefs_of_due hinv hr hlt, (hinv.indexed h r hr).1⟩
    · refine hnodup.map_on fun r hr r' hr' hhash => ?_
      have hsome := hindexed r hr
      rw [hhash, hindexed r' hr', Option.some_inj] at hsome
      exact hsome.symm
    · intro k hk
      rcases List.mem_map.1 hk with ⟨r, hr, rfl⟩
      exact ⟨r, hindexed r hr⟩

end Eviction

section Sample

attribute [local instance] polyBlake3 unitTypes

/-- The sample transaction is evicted in time. -/
theorem evict_exact_sample :
    EvictsExactly [.insert sampleSpend 0 0 true] samplePool (txTtl + 1) :=
  (evict_exact_iff sampleRun (txTtl + 1)).2 (by decide +kernel)

/-- The times that a run reads from the clock. -/
def clockTimes (tr : List PoolEvent) : List Nat :=
  tr.filterMap fun
    | .insert _ _ now _ => some now
    | .evict now _ => some now
    | _ => none

/-- Eviction is not exact in every run: the transaction that was removed and came back goes with its
first reference. -/
theorem not_evict_exact :
    ¬ ∀ tr s now, Run MempoolInner.step new tr s → Determined (insertedIn tr) →
      (clockTimes tr ++ [now]).Pairwise (· ≤ ·) → EvictsExactly tr s now := by
  intro hall
  have hexact := hall _ _ (txTtl + 1) sampleRun_reinserted (determined_sampleSpend 2)
    (by decide +kernel)
  have hstored : (sampleReinserted.txStore.get? sampleSpend.txHash).isSome = true := by
    decide +kernel
  have hgone : (sampleReinserted.evictStale (txTtl + 1)).1.txStore.get? sampleSpend.txHash =
      none := Option.isNone_iff_eq_none.1 (by decide +kernel)
  rcases Option.isSome_iff_exists.1 hstored with ⟨tx, htx⟩
  rcases (hexact.removed sampleSpend.txHash tx htx).1 hgone with ⟨t, ht, hlt⟩
  have hone : lastInsert sampleSpend.txHash [.insert sampleSpend 0 0 true,
      .remove [sampleSpend.txHash], .insert sampleSpend 0 1 true] = some 1 := by decide +kernel
  rw [hone, Option.mem_def, Option.some_inj] at ht
  omega

end Sample

section Depth

variable [ForeignTypes] {s s' : MempoolInner} {tr : List PoolEvent}

/-! ## How many references there are -/

/-- The sum of the bucket depths that `get_stats` reports. -/
@[irreducible] def depthSum (s : MempoolInner) : Nat := ∑ b, s.getStats.bucketDepths b

/-- How many pooled transactions a call of `remove_transactions` takes out. -/
def unlinked (s : MempoolInner) : PoolEvent → Nat
  | .remove hashes => s.index.size - (FinMap.eraseAll hashes s.index).size
  | _ => 0

theorem depthSum_eq (s : MempoolInner) : s.depthSum = ∑ b, (s.buckets b).length := by
  rw [depthSum]
  rfl

/-- Only the buckets count. -/
theorem depthSum_congr (h : s'.buckets = s.buckets) : s'.depthSum = s.depthSum := by
  rw [depthSum_eq, depthSum_eq, h]

/-- A sum over the buckets is one over the list of all of them. -/
theorem depthSum_eq_length (s : MempoolInner) : s.depthSum = (refs bucketsDown s).length := by
  rw [depthSum_eq, refs, List.length_flatMap, bucketsDown, List.map_reverse, List.sum_reverse,
    Fin.sum_univ_def]

/-- When one bucket changes, so does the sum. -/
theorem depthSum_update (s : MempoolInner) (bucket : Bucket) (rs : List TxRef) :
    (s.popTo bucket rs).depthSum + (s.buckets bucket).length = s.depthSum + rs.length := by
  have hlengths : (fun b => ((s.popTo bucket rs).buckets b).length) =
      Function.update (fun b => (s.buckets b).length) bucket rs.length := by
    funext b
    rw [popTo_buckets, Function.update_apply, Function.update_apply]
    split <;> rfl
  rw [depthSum_eq, depthSum_eq, hlengths, Finset.sum_update_of_mem (Finset.mem_univ bucket),
    ← Finset.add_sum_erase _ _ (Finset.mem_univ bucket), Finset.sdiff_singleton_eq_erase]
  omega

/-- Eviction drops the stale references and no others. -/
theorem depthSum_evictStale (s : MempoolInner) (now : Nat) :
    (s.evictStale now).1.depthSum + (s.staleHashes now).length = s.depthSum := by
  have hstale : (s.staleHashes now).length =
      ∑ b, ((s.buckets b).filter (isStale now)).length := by
    rw [staleHashes_eq, List.length_map, staleRefs, List.length_flatMap, Fin.sum_univ_def]
  rw [depthSum_eq, depthSum_eq, evictStale_buckets, hstale, ← Finset.sum_add_distrib]
  refine Finset.sum_congr rfl fun b _ => ?_
  rw [Nat.add_comm]
  exact (List.length_eq_length_filter_add (isStale now)).symm

/-- Block building takes no more entries than references. -/
theorem depthSum_buildBlock {fuel maxTx maxBytes c : Nat} {out : List Transaction}
    (hkeys : KeysAgree s) (h : s.depthSum ≤ s.index.size + c)
    (hbuild : s.buildBlock fuel maxTx maxBytes = some (s', out)) :
    s'.depthSum ≤ s'.index.size + c := by
  rcases Option.map_eq_some_iff.1 hbuild with ⟨st, hloop, heq⟩
  cases heq
  have hpool : KeysAgree st.pool ∧ st.pool.depthSum ≤ st.pool.index.size + c := by
    refine buildLoop_keeps (fun s => KeysAgree s ∧ s.depthSum ≤ s.index.size + c)
      (fun s h => h.1) ?_ ?_ ⟨hkeys, h⟩ hloop
    · rintro s bucket txref rest ⟨hkeys, hle⟩ hfront -
      have hpop := depthSum_update s bucket rest
      rw [hfront, List.length_cons] at hpop
      have hsize : (s.popTo bucket rest).index.size = s.index.size := rfl
      exact ⟨hkeys, by omega⟩
    · rintro s bucket txref r rest tx ⟨hkeys, hle⟩ hfront hlive -
      have hpop := depthSum_update s bucket rest
      rw [hfront, List.length_cons] at hpop
      have hsize := FinMap.size_erase s.index txref.hash
      rw [hlive, Option.elim_some] at hsize
      have hdepth : ((s.popTo bucket rest).forget txref.hash txref.size.toNat
          tx).noteIncluded.depthSum = (s.popTo bucket rest).depthSum := depthSum_congr rfl
      -- both lose one
      refine ⟨hkeys.forget txref.hash txref.size.toNat tx, ?_⟩
      rw [hdepth, noteIncluded_index, forget_index, popTo_index]
      omega
  have hdepth : st.pool.noteBuilt.depthSum = st.pool.depthSum := depthSum_congr rfl
  rw [hdepth]
  exact hpool.2

theorem depthSum_accept (s : MempoolInner) (tx : Transaction) (pohTick : UInt64) (now : Nat) :
    (s.accept tx pohTick now).depthSum = s.depthSum + 1 := by
  have hpush := depthSum_update s (bucketOf tx.fee)
    (s.buckets (bucketOf tx.fee) ++ [refOf tx pohTick now])
  have hsame : (s.accept tx pohTick now).depthSum = (s.popTo (bucketOf tx.fee)
      (s.buckets (bucketOf tx.fee) ++ [refOf tx pohTick now])).depthSum := depthSum_congr rfl
  rw [List.length_append, List.length_singleton] at hpush
  omega

/-- What one call does to the number of references and of entries. -/
theorem depthSum_step (hkeys : KeysAgree s) {e : PoolEvent} {c : Nat}
    (h : s.depthSum ≤ s.index.size + c) (hstep : step s e s') :
    s'.depthSum ≤ s'.index.size + (c + s.unlinked e) := by
  cases step_kind hstep with
  | reject tx pohTick now st =>
      have hdepth : { s with stats := st }.depthSum = s.depthSum := depthSum_congr rfl
      rw [hdepth]
      exact h
  | accept tx pohTick now haccepts =>
      rw [depthSum_accept, accept_index, FinMap.size_insert_of_get?_eq_none _ haccepts.fresh]
      exact Nat.le_trans (Nat.add_le_add_right h 1) (by omega)
  | build maxTx maxBytes fuel s' out hbuild => exact depthSum_buildBlock hkeys h hbuild
  | remove hashes =>
      have hsize := FinMap.size_eraseAll_le hashes s.index
      rw [depthSum_congr (removeTransactions_buckets s hashes), removeTransactions_index, unlinked]
      omega
  | evict now =>
      have hsize := FinMap.size_le_size_eraseAll (s.staleHashes now) s.index
      have hdepth := depthSum_evictStale s now
      rw [evictStale_index]
      omega
  | adjust congestion =>
      have hdepth : (s.adjustFeeFloor congestion).depthSum = s.depthSum := depthSum_congr rfl
      rw [hdepth]
      exact h

/-- Every entry has its reference. -/
theorem size_le_depthSum (hinv : Entries s) : s.index.size ≤ s.depthSum := by
  rw [depthSum_eq_length, ← length_liveRefs hinv]
  exact (firsts_sublist _ _ _).length_le

/-! ## When the buckets hold what the index holds -/

/-- After the call there are as many references as pooled transactions, within the capacity. -/
def DepthExact (_ : List PoolEvent) (_ : MempoolInner) (_ : PoolEvent) (s' : MempoolInner) :
    Prop :=
  s'.depthSum = s'.index.size ∧ s'.depthSum ≤ maxMempoolTx

/-- The call hands no pooled transaction to `remove_transactions`. -/
def RemovesUnpooled (_ : List PoolEvent) (s : MempoolInner) (e : PoolEvent) (_ : MempoolInner) :
    Prop :=
  ∀ hashes, e = .remove hashes → ∀ h ∈ hashes, s.index.get? h = none

theorem unlinked_eq_zero {e : PoolEvent} (h : RemovesUnpooled tr s e s') : s.unlinked e = 0 := by
  cases e with
  | remove hashes =>
      rw [unlinked, FinMap.size_eraseAll_eq_iff.2 (h hashes rfl), Nat.sub_self]
  | _ => rfl

theorem depthExact_iff {e : PoolEvent} (hinv : Entries s) (hexact : s.depthSum = s.index.size)
    (hstep : step s e s') : DepthExact tr s e s' ↔ RemovesUnpooled tr s e s' := by
  have hinv' := hinv.step hstep
  constructor
  · rintro ⟨hexact', -⟩ hashes rfl
    -- the buckets are the old ones, so the index must have kept its size, too
    cases hstep
    rw [depthSum_congr (removeTransactions_buckets s hashes), removeTransactions_index,
      hexact] at hexact'
    exact FinMap.size_eraseAll_eq_iff.1 hexact'.symm
  · intro hunpooled
    have hupper := depthSum_step hinv.keys (Nat.le_of_eq hexact : s.depthSum ≤ s.index.size + 0)
      hstep
    rw [unlinked_eq_zero hunpooled] at hupper
    have hexact' := Nat.le_antisymm hupper (size_le_depthSum hinv')
    exact ⟨hexact', Nat.le_trans (Nat.le_of_eq hexact') hinv'.count_le⟩

theorem depthSum_new : new.depthSum = 0 := by
  rw [depthSum_eq]
  exact Finset.sum_eq_zero fun _ _ => rfl

/-- Where all calls so far have left as many references as entries, there are as many now. -/
theorem depthSum_of_exact (hrun : RunWith MempoolInner.step DepthExact new tr s) :
    s.depthSum = s.index.size :=
  hrun.invariant_state (fun s => s.depthSum = s.index.size) depthSum_new
    fun _ _ _ _ _ _ _ hexact => hexact.1

/-! ## An empty pool with any number of references -/

/-- The calls that insert a transaction and remove it again, `n` times. -/
def insertRemove (tx : Transaction) (n : Nat) : List PoolEvent :=
  (List.replicate n [.insert tx 0 0 true, .remove [tx.txHash]]).flatten

/-- An empty pool takes any transaction that pays, and one removal later it is empty again but for
the reference. -/
theorem exists_insertRemove (hinv : Entries s) {tx : Transaction}
    (hfee : s.minFeeWatermark ≤ tx.fee) (hsize : s.index.size = 0) (hbytes : s.totalBytes = 0) :
    ∃ s', Run MempoolInner.step s [.insert tx 0 0 true, .remove [tx.txHash]] s' ∧
      s'.minFeeWatermark = s.minFeeWatermark ∧ s'.index.size = 0 ∧ s'.totalBytes = 0 ∧
      s'.depthSum = s.depthSum + 1 := by
  have hempty : ∀ h, s.index.get? h = none := by
    intro h
    rw [FinMap.size_eq_card_keySet, Finset.card_eq_zero] at hsize
    by_contra hsome
    have hmem := FinMap.mem_keySet.2 (Option.ne_none_iff_exists'.1 hsome)
    rw [hsize] at hmem
    exact Finset.notMem_empty h hmem
  -- a spent nullifier would have an owner in the index
  have hunspent : ∀ n, s.nullifiers.get? n = none := by
    intro n
    by_contra hsome
    rcases Option.ne_none_iff_exists'.1 hsome with ⟨h, howner⟩
    rcases (hinv.owners n h).1 howner with ⟨tx', htx', -⟩
    rcases hinv.keys.indexed htx' with ⟨r, hr⟩
    rw [hempty h] at hr
    cases hr
  have haccepts : Accepts s tx :=
    { fee_le := hfee
      fresh := hempty tx.txHash
      unspent := fun n _ => hunspent n
      count := by
        rw [hsize]
        decide
      bytes := by
        rw [hbytes, Nat.zero_add]
        exact Nat.min_le_right _ _ }
  have hinsert : step s (.insert tx 0 0 true) (s.accept tx 0 0) := haccepts.insert_eq 0 0
  have hremove : step (s.accept tx 0 0) (.remove [tx.txHash])
      ((s.accept tx 0 0).removeTransactions [tx.txHash]) := rfl
  have hindexed : (s.accept tx 0 0).index.get? tx.txHash = some (refOf tx 0 0) :=
    FinMap.get?_insert_self _ _ _
  have hstored : (s.accept tx 0 0).txStore.get? tx.txHash = some tx :=
    FinMap.get?_insert_self _ _ _
  have hforget : (s.accept tx 0 0).removeTransactions [tx.txHash] =
      ((s.accept tx 0 0).forget tx.txHash (refOf tx 0 0).size.toNat tx).noteTotals :=
    congrArg noteTotals (removeOne_of_some hindexed hstored)
  refine ⟨_, Run.snoc (Run.single hinsert) hremove, ?_, ?_, ?_, ?_⟩
  · rw [hforget]
    rfl
  · have herase := FinMap.size_erase (s.accept tx 0 0).index tx.txHash
    have hone : (s.accept tx 0 0).index.size = s.index.size + 1 :=
      FinMap.size_insert_of_get?_eq_none _ haccepts.fresh
    rw [hindexed, Option.elim_some, hone, hsize] at herase
    rw [removeTransactions_index, FinMap.eraseAll_cons, FinMap.eraseAll_nil]
    omega
  · rw [hforget, toNat_size_refOf]
    have htotal : (s.accept tx 0 0).totalBytes = entrySize tx := by
      rw [accept_totalBytes, hbytes, Nat.zero_add]
    exact Nat.sub_eq_zero_of_le (Nat.le_of_eq htotal)
  · rw [depthSum_congr (removeTransactions_buckets _ _), depthSum_accept]

theorem exists_depth {tx : Transaction} (hfee : minFee ≤ tx.fee) (n : Nat) :
    ∃ s, Run MempoolInner.step new (insertRemove tx n) s ∧ s.minFeeWatermark = minFee ∧
      s.index.size = 0 ∧ s.totalBytes = 0 ∧ s.depthSum = n := by
  induction n with
  | zero => exact ⟨new, RunWith.nil, rfl, rfl, rfl, depthSum_new⟩
  | succ n ih =>
      rcases ih with ⟨s, hrun, hfloor, hsize, hbytes, hdepth⟩
      rw [← hfloor] at hfee
      rcases exists_insertRemove (entries_run hrun) hfee hsize hbytes with
        ⟨s', hnext, hfloor', hsize', hbytes', hdepth'⟩
      have hcalls : insertRemove tx (n + 1) =
          insertRemove tx n ++ [.insert tx 0 0 true, .remove [tx.txHash]] := by
        rw [insertRemove, List.replicate_succ', List.flatten_append, List.flatten_singleton]
        rfl
      refine ⟨s', ?_, hfloor'.trans hfloor, hsize', hbytes', by rw [hdepth', hdepth]⟩
      rw [hcalls]
      exact RunWith.append hrun hnext

/-- The depths of the buckets add up to the size of the index after every call of exactly the runs
that hand no pooled transaction to `remove_transactions`.  In the others nothing bounds them: any
transaction that pays can leave any number of references in an empty pool. -/
theorem depth_exact_iff (tr : List PoolEvent) (s : MempoolInner) :
    (RunWith MempoolInner.step DepthExact new tr s ↔
        RunWith MempoolInner.step RemovesUnpooled new tr s) ∧
      ∀ tx : Transaction, minFee ≤ tx.fee → ∀ n, ∃ s', Run MempoolInner.step new
        (insertRemove tx n) s' ∧ s'.index.size = 0 ∧ s'.depthSum = n := by
  refine ⟨RunWith.congr fun tr s e s' hexact _ hstep => ?_, fun tx hfee n => ?_⟩
  · have hrun : Run MempoolInner.step new tr s := hexact.imp fun _ _ _ _ _ _ _ _ => trivial
    exact depthExact_iff (entries_run hrun) (depthSum_of_exact hexact) hstep
  · rcases exists_depth hfee n with ⟨s', hrun, -, hsize, -, hdepth⟩
    exact ⟨s', hrun, hsize, hdepth⟩

end Depth

section Sample

attribute [local instance] polyBlake3 unitTypes

/-- A call that removes a transaction the pool does not hold, after one that was taken. -/
theorem depth_exact_sample :
    RunWith MempoolInner.step DepthExact new
        [.insert sampleSpend 0 0 true, .remove [Hash.zero]]
        (samplePool.removeTransactions [Hash.zero]) ∧
      ∃ s', Run MempoolInner.step new (insertRemove sampleSpend 100000) s' ∧
        s'.index.size = 0 ∧ s'.depthSum = 100000 := by
  refine ⟨(depth_exact_iff _ _).1.2 ?_, (depth_exact_iff [] new).2 sampleSpend (by decide) 100000⟩
  have hinsert : RunWith MempoolInner.step RemovesUnpooled new [.insert sampleSpend 0 0 true]
      samplePool :=
    RunWith.snoc RunWith.nil (step_insert (by decide +kernel)) nofun
  refine RunWith.snoc hinsert rfl ?_
  intro hashes heq h hmem
  cases heq
  rw [List.mem_singleton.1 hmem]
  exact Option.isNone_iff_eq_none.1 (by decide +kernel)

/-- The transaction is gone after the second call, its reference is not. -/
theorem not_depth_exact :
    ¬ ∀ tr s, Run MempoolInner.step new tr s →
      s.depthSum = s.index.size ∧ s.depthSum ≤ maxMempoolTx := by
  intro hall
  have hremove : MempoolInner.step samplePool (.remove [sampleSpend.txHash])
      (samplePool.removeTransactions [sampleSpend.txHash]) := rfl
  have heq := (hall _ _ (Run.snoc sampleRun hremove)).1
  rw [depthSum_eq] at heq
  exact absurd heq (by decide +kernel)

end Sample

end MempoolInner
end Node
end Aevum
