import Aevum.Node.MempoolEntries

/-!
# Node.MempoolInvariant — the containers of the mempool agree

`Consistent` says how index, store, nullifiers, buckets and byte counter belong together, and
`Reachable` that every indexed transaction still has a reference in its bucket.  The second part
fails for a moment while `evict_stale` works, so it is stated relative to a list of exceptions.

References outlive their transactions.  What keeps the byte counter right when an old reference is
popped for a transaction that was inserted again is that both describe the same transaction: the
hash determines it.
-/

namespace Aevum
namespace Node
namespace MempoolInner

open Lib Crypto Aevum.Core

section Invariant

variable [ForeignTypes]

/-! ## The invariant -/

/-- No two transactions of a list have the same hash. -/
def Determined (txs : List Transaction) : Prop :=
  ∀ tx ∈ txs, ∀ tx' ∈ txs, tx.txHash = tx'.txHash → tx = tx'

/-- The reference describes a transaction of the list. -/
def Refers (txs : List Transaction) (r : TxRef) : Prop :=
  ∃ tx ∈ txs, r.hash = tx.txHash ∧ r.fee = tx.fee ∧ r.size.toNat = entrySize tx

/-- How the containers belong together, `txs` being the transactions seen so far. -/
structure Consistent (txs : List Transaction) (s : MempoolInner) : Prop where
  keys : KeysAgree s
  stored : ∀ h tx, s.txStore.get? h = some tx → tx.txHash = h ∧ tx ∈ txs
  indexed : ∀ h r, s.index.get? h = some r → r.hash = h ∧ Refers txs r
  queued : ∀ b, ∀ r ∈ s.buckets b, Refers txs r ∧ bucketOf r.fee = b
  bytes : s.totalBytes = FinMap.sumOf (fun r => r.size.toNat) s.index
  bytes_le : s.totalBytes ≤ maxMempoolBytes
  count_le : s.index.size ≤ maxMempoolTx
  nullifiers : ∀ n h, s.nullifiers.get? n = some h ↔
    ∃ tx, s.txStore.get? h = some tx ∧ n ∈ inputNullifiers tx

/-- Every indexed transaction but those of `ks` has a reference in the bucket of its fee. -/
def Reachable (ks : List Hash) (s : MempoolInner) : Prop :=
  ∀ h r, s.index.get? h = some r → h ∉ ks → ∃ r' ∈ s.buckets (bucketOf r.fee), r'.hash = h

/-- The representation invariant. -/
structure PoolInv (txs : List Transaction) (s : MempoolInner) : Prop where
  consistent : Consistent txs s
  reachable : Reachable [] s

variable {txs : List Transaction} {s : MempoolInner}

theorem Refers.mono {txs' : List Transaction} {r : TxRef} (h : Refers txs r)
    (hsub : ∀ tx ∈ txs, tx ∈ txs') : Refers txs' r := by
  rcases h with ⟨tx, htx, hr⟩
  exact ⟨tx, hsub tx htx, hr⟩

/-- References with one hash agree in fee and size. -/
theorem Refers.agree (hdet : Determined txs) {r r' : TxRef} (h : Refers txs r)
    (h' : Refers txs r') (hhash : r.hash = r'.hash) : r.fee = r'.fee ∧ r.size = r'.size := by
  rcases h with ⟨tx, htx, hash, hfee, hsize⟩
  rcases h' with ⟨tx', htx', hash', hfee', hsize'⟩
  have hsame : tx = tx' := hdet tx htx tx' htx' (by rw [← hash, hhash, hash'])
  subst hsame
  exact ⟨hfee.trans hfee'.symm, UInt32.toNat_inj.1 (hsize.trans hsize'.symm)⟩

theorem toNat_size_refOf (tx : Transaction) (pohTick : UInt64) (now : Nat) :
    (refOf tx pohTick now).size.toNat = entrySize tx := by
  have hle : entrySize tx ≤ maxMempoolBytes := Nat.min_le_right _ _
  have hlt : entrySize tx < 2 ^ 32 := by
    simp only [maxMempoolBytes] at hle
    omega
  exact UInt32.toNat_ofNat_of_lt' hlt

theorem refers_refOf {tx : Transaction} (htx : tx ∈ txs) (pohTick : UInt64) (now : Nat) :
    Refers txs (refOf tx pohTick now) :=
  ⟨tx, htx, rfl, rfl, toNat_size_refOf tx pohTick now⟩

/-! ## Changes that do not matter -/

theorem Consistent.mono {txs' : List Transaction} (h : Consistent txs s)
    (hsub : ∀ tx ∈ txs, tx ∈ txs') : Consistent txs' s :=
  { h with
    stored := fun k tx htx => ⟨(h.stored k tx htx).1, hsub tx (h.stored k tx htx).2⟩
    indexed := fun k r hr => ⟨(h.indexed k r hr).1, (h.indexed k r hr).2.mono hsub⟩
    queued := fun b r hr => ⟨(h.queued b r hr).1.mono hsub, (h.queued b r hr).2⟩ }

theorem PoolInv.mono {txs' : List Transaction} (h : PoolInv txs s)
    (hsub : ∀ tx ∈ txs, tx ∈ txs') : PoolInv txs' s :=
  ⟨h.consistent.mono hsub, h.reachable⟩

/-- The statistics and the fee floor are not part of the representation. -/
theorem Consistent.withStats (h : Consistent txs s) (st : MempoolStats) (watermark : UInt64) :
    Consistent txs { s with stats := st, minFeeWatermark := watermark } :=
  ⟨h.keys, h.stored, h.indexed, h.queued, h.bytes, h.bytes_le, h.count_le, h.nullifiers⟩

theorem PoolInv.withStats (h : PoolInv txs s) (st : MempoolStats) (watermark : UInt64) :
    PoolInv txs { s with stats := st, minFeeWatermark := watermark } :=
  ⟨h.consistent.withStats st watermark, h.reachable⟩

/-- References may be dropped at any time. -/
theorem Consistent.dropRefs (h : Consistent txs s) {buckets : Bucket → List TxRef}
    (hsub : ∀ b, ∀ r ∈ buckets b, r ∈ s.buckets b) :
    Consistent txs { s with buckets := buckets } :=
  ⟨h.keys, h.stored, h.indexed, fun b r hr => h.queued b r (hsub b r hr), h.bytes, h.bytes_le,
    h.count_le, h.nullifiers⟩

/-! ## Removing a transaction -/

theorem Consistent.forget (h : Consistent txs s) {k : Hash} {r : TxRef} {tx : Transaction}
    (hr : s.index.get? k = some r) (htx : s.txStore.get? k = some tx) :
    Consistent txs (s.forget k r.size.toNat tx) where
  keys := h.keys.forget k _ tx
  stored h' tx' hstored := by
    rw [forget_txStore, FinMap.get?_erase_eq_some] at hstored
    exact h.stored h' tx' hstored.2
  indexed h' r' hindexed := by
    rw [forget_index, FinMap.get?_erase_eq_some] at hindexed
    exact h.indexed h' r' hindexed.2
  queued := h.queued
  bytes := by
    have hsum := FinMap.sumOf_erase (fun r : TxRef => r.size.toNat) s.index k
    simp only [hr, Option.elim_some] at hsum
    rw [forget_totalBytes, forget_index, h.bytes, ← hsum, Nat.add_sub_cancel]
  bytes_le := Nat.le_trans (Nat.sub_le _ _) h.bytes_le
  count_le := Nat.le_trans (FinMap.size_erase_le s.index k) h.count_le
  nullifiers := Owners.forget (s := s) h.nullifiers htx r.size.toNat

theorem Reachable.forget {ks : List Hash} (h : Reachable ks s) (k : Hash) (size : Nat)
    (tx : Transaction) : Reachable ks (s.forget k size tx) := by
  intro h' r hr hks
  rw [forget_index, FinMap.get?_erase_eq_some] at hr
  exact h h' r hr.2 hks

theorem PoolInv.forget (h : PoolInv txs s) {k : Hash} {r : TxRef} {tx : Transaction}
    (hr : s.index.get? k = some r) (htx : s.txStore.get? k = some tx) :
    PoolInv txs (s.forget k r.size.toNat tx) :=
  ⟨h.consistent.forget hr htx, h.reachable.forget k _ tx⟩

theorem PoolInv.removeOne (h : PoolInv txs s) (k : Hash) : PoolInv txs (s.removeOne k) := by
  rcases h.consistent.keys.cases k with ⟨hr, -⟩ | ⟨r, tx, hr, htx⟩
  · rw [removeOne_of_none hr]
    exact h
  · rw [removeOne_of_some hr htx]
    exact h.forget hr htx

theorem PoolInv.removeTransactions (h : PoolInv txs s) (hashes : List Hash) :
    PoolInv txs (s.removeTransactions hashes) := by
  have hfold : PoolInv txs (hashes.foldl MempoolInner.removeOne s) :=
    List.foldlRecOn hashes MempoolInner.removeOne h fun s hs k _ => hs.removeOne k
  exact hfold.withStats _ _

/-! ## Inserting -/

theorem Consistent.accept (h : Consistent txs s) {tx : Transaction} (haccepts : Accepts s tx)
    (htx : tx ∈ txs) (pohTick : UInt64) (now : Nat) :
    Consistent txs (s.accept tx pohTick now) where
  keys := h.keys.accept tx pohTick now
  stored k tx' hstored := by
    rcases FinMap.get?_insert_eq_some.1 hstored with ⟨hk, rfl⟩ | ⟨-, hold⟩
    · exact ⟨hk.symm, htx⟩
    · exact h.stored k tx' hold
  indexed k r hindexed := by
    rcases FinMap.get?_insert_eq_some.1 hindexed with ⟨hk, rfl⟩ | ⟨-, hold⟩
    · exact ⟨hk.symm, refers_refOf htx pohTick now⟩
    · exact h.indexed k r hold
  queued b r hr := by
    rcases (mem_accept_buckets s tx pohTick now).1 hr with hold | ⟨rfl, rfl⟩
    · exact h.queued b r hold
    · exact ⟨refers_refOf htx pohTick now, rfl⟩
  bytes := by
    have hsum := FinMap.sumOf_insert (fun r : TxRef => r.size.toNat) s.index tx.txHash
      (refOf tx pohTick now)
    simp only [haccepts.fresh, Option.elim_none, Nat.add_zero] at hsum
    rw [accept_totalBytes, accept_index, hsum, h.bytes, toNat_size_refOf]
  bytes_le := haccepts.bytes
  count_le := by
    rw [accept_index, FinMap.size_insert_of_get?_eq_none _ haccepts.fresh]
    exact haccepts.count
  nullifiers := Owners.accept (s := s) h.nullifiers h.keys haccepts pohTick now

theorem Reachable.accept (h : Reachable [] s) (tx : Transaction) (pohTick : UInt64) (now : Nat) :
    Reachable [] (s.accept tx pohTick now) := by
  intro k r hindexed hks
  have hqueued := fun b r => mem_accept_buckets s tx pohTick now (b := b) (r := r)
  rcases FinMap.get?_insert_eq_some.1 hindexed with ⟨hk, rfl⟩ | ⟨-, hold⟩
  · -- the new entry, whose reference has just been queued
    exact ⟨refOf tx pohTick now, (hqueued _ _).2 (Or.inr ⟨rfl, rfl⟩), hk.symm⟩
  · rcases h k r hold hks with ⟨r', hr', hhash⟩
    exact ⟨r', (hqueued _ _).2 (Or.inl hr'), hhash⟩

/-! ## Building a block -/

theorem Consistent.popTo (h : Consistent txs s) {bucket : Bucket} {txref : TxRef}
    {rest : List TxRef} (hfront : s.buckets bucket = txref :: rest) :
    Consistent txs (s.popTo bucket rest) := by
  apply h.dropRefs
  intro b r hr
  rw [Function.update_apply] at hr
  split at hr
  · rename_i hb
    rw [hb, hfront]
    exact List.mem_cons_of_mem txref hr
  · exact hr

/-- Popping a reference loses its own transaction at most. -/
theorem Reachable.popTo {ks : List Hash} (h : Reachable ks s) {bucket : Bucket} {txref : TxRef}
    {rest : List TxRef} (hfront : s.buckets bucket = txref :: rest) :
    Reachable (txref.hash :: ks) (s.popTo bucket rest) := by
  intro k r hindexed hks
  rw [List.mem_cons, not_or] at hks
  rcases h k r hindexed hks.2 with ⟨r', hr', hhash⟩
  have hne : r' ≠ txref := fun heq => hks.1 (by rw [← hhash, heq])
  exact ⟨r', mem_popTo hfront hr' hne, hhash⟩

/-- An exception that is not indexed is none. -/
theorem Reachable.of_cons {ks : List Hash} {k : Hash} (h : Reachable (k :: ks) s)
    (hnone : s.index.get? k = none) : Reachable ks s := by
  intro k' r hindexed hks
  have hne : k' ≠ k := by
    intro heq
    rw [heq, hnone] at hindexed
    cases hindexed
  exact h k' r hindexed (List.not_mem_cons_of_ne_of_not_mem hne hks)

theorem PoolInv.dropDead (h : PoolInv txs s) {bucket : Bucket} {txref : TxRef}
    {rest : List TxRef} (hfront : s.buckets bucket = txref :: rest)
    (hdead : s.index.get? txref.hash = none) : PoolInv txs (s.popTo bucket rest) :=
  ⟨h.consistent.popTo hfront, (h.reachable.popTo hfront).of_cons hdead⟩

theorem PoolInv.take (hdet : Determined txs) (h : PoolInv txs s) {bucket : Bucket}
    {txref r : TxRef} {rest : List TxRef} {tx : Transaction}
    (hfront : s.buckets bucket = txref :: rest) (hlive : s.index.get? txref.hash = some r)
    (hstored : s.txStore.get? txref.hash = some tx) :
    PoolInv txs ((s.popTo bucket rest).forget txref.hash txref.size.toNat tx).noteIncluded := by
  -- the popped reference may be an old one, but it has the size of the indexed one
  have hsize : txref.size = r.size := by
    have hmem : txref ∈ s.buckets bucket := by
      rw [hfront]
      exact List.mem_cons_self
    have hindexed := h.consistent.indexed txref.hash r hlive
    exact ((h.consistent.queued bucket txref hmem).1.agree hdet hindexed.2 hindexed.1.symm).2
  have hpop : Consistent txs (s.popTo bucket rest) := h.consistent.popTo hfront
  have hcons : Consistent txs ((s.popTo bucket rest).forget txref.hash txref.size.toNat tx) := by
    rw [hsize]
    exact hpop.forget hlive hstored
  have hreach : Reachable [] ((s.popTo bucket rest).forget txref.hash txref.size.toNat tx) := by
    refine ((h.reachable.popTo hfront).forget txref.hash txref.size.toNat tx).of_cons ?_
    rw [forget_index, FinMap.get?_erase, if_pos rfl]
  exact (PoolInv.mk hcons hreach).withStats _ _

theorem PoolInv.buildBlock (hdet : Determined txs) (h : PoolInv txs s) {fuel maxTx maxBytes : Nat}
    {s' : MempoolInner} {out : List Transaction}
    (hbuild : s.buildBlock fuel maxTx maxBytes = some (s', out)) : PoolInv txs s' := by
  rcases Option.map_eq_some_iff.1 hbuild with ⟨st, hloop, heq⟩
  cases heq
  have hpool : PoolInv txs st.pool :=
    buildLoop_keeps (PoolInv txs) (fun s h => h.consistent.keys)
      (fun s bucket txref rest h hfront hdead => h.dropDead hfront hdead)
      (fun s bucket txref r rest tx h hfront hlive hstored => h.take hdet hfront hlive hstored)
      h hloop
  exact hpool.withStats _ _

/-! ## Evicting -/

/-- A transaction without a fresh reference is among those about to be evicted. -/
theorem Reachable.keepFresh (h : Reachable [] s) (now : Nat) :
    Reachable (s.staleHashes now) (s.keepFresh now) := by
  intro k r hindexed hks
  rcases h k r hindexed (List.not_mem_nil) with ⟨r', hr', hhash⟩
  refine ⟨r', List.mem_filter.2 ⟨hr', ?_⟩, hhash⟩
  rw [Bool.not_eq_true']
  refine Bool.eq_false_of_not_eq_true fun hstale => hks ?_
  exact mem_staleHashes.2 ⟨bucketOf r.fee, r', hr', hstale, hhash⟩

/-- The second loop of `evict_stale` works off the exceptions. -/
theorem foldl_evictOne {ks : List Hash} (hcons : Consistent txs s) (hreach : Reachable ks s) :
    PoolInv txs (ks.foldl evictOne s) := by
  induction ks generalizing s with
  | nil => exact ⟨hcons, hreach⟩
  | cons k ks ih =>
      rcases hcons.keys.cases k with ⟨hr, htx⟩ | ⟨r, tx, hr, htx⟩
      · rw [List.foldl_cons, evictOne_of_none hr htx]
        exact ih hcons (hreach.of_cons hr)
      · rw [List.foldl_cons, evictOne_of_some hr htx]
        refine ih (hcons.forget hr htx) ((hreach.forget k r.size.toNat tx).of_cons ?_)
        rw [forget_index, FinMap.get?_erase, if_pos rfl]

theorem PoolInv.evictStale (h : PoolInv txs s) (now : Nat) :
    PoolInv txs (s.evictStale now).1 := by
  have hfresh : Consistent txs (s.keepFresh now) :=
    h.consistent.dropRefs fun b r hr => List.mem_of_mem_filter hr
  have hevicted := foldl_evictOne hfresh (h.reachable.keepFresh now)
  exact hevicted.withStats _ _

/-! ## Runs -/

theorem poolInv_new : PoolInv [] new where
  consistent :=
    { keys := fun h => rfl
      stored := fun h tx htx => by cases htx
      indexed := fun h r hr => by cases hr
      queued := fun b r hr => by cases hr
      bytes := rfl
      bytes_le := Nat.zero_le _
      count_le := Nat.zero_le _
      nullifiers := fun n h => by
        constructor
        · intro hn
          cases hn
        · rintro ⟨tx, htx, -⟩
          cases htx }
  reachable := fun h r hr => by cases hr

theorem PoolInv.step (hdet : Determined txs) (h : PoolInv txs s) {e : PoolEvent}
    {s' : MempoolInner} (hsub : ∀ tx ∈ insertedIn [e], tx ∈ txs) (hstep : step s e s') :
    PoolInv txs s' := by
  cases step_kind hstep with
  | reject tx pohTick now st => exact h.withStats st s.minFeeWatermark
  | accept tx pohTick now haccepts =>
      have htx := hsub tx (List.mem_singleton_self tx)
      exact ⟨h.consistent.accept haccepts htx pohTick now, h.reachable.accept tx pohTick now⟩
  | build maxTx maxBytes fuel s' out hbuild => exact h.buildBlock hdet hbuild
  | remove hashes => exact h.removeTransactions hashes
  | evict now => exact h.evictStale now
  | adjust congestion => exact h.withStats _ _

/-- The invariant holds after every run whose hashes determine the transactions. -/
theorem poolInv_run {tr : List PoolEvent} (hrun : Run MempoolInner.step new tr s)
    (hdet : Determined (insertedIn tr)) : PoolInv (insertedIn tr) s := by
  refine RunWith.invariant
    (fun tr s => Determined (insertedIn tr) → PoolInv (insertedIn tr) s)
    (fun _ => poolInv_new) ?_ hrun hdet
  intro tr s e s' _ ih hstep _ hdet
  rw [insertedIn_append] at hdet ⊢
  have hprev : Determined (insertedIn tr) := fun tx htx tx' htx' =>
    hdet tx (List.mem_append_left _ htx) tx' (List.mem_append_left _ htx')
  have hmono := (ih hprev).mono fun tx htx => List.mem_append_left (insertedIn [e]) htx
  exact hmono.step hdet (fun tx htx => List.mem_append_right _ htx) hstep

/-- An indexed entry describes the transaction stored under its hash. -/
theorem Consistent.entry_eq (hdet : Determined txs) (h : Consistent txs s) {k : Hash} {r : TxRef}
    (hr : s.index.get? k = some r) :
    ∃ tx, s.txStore.get? k = some tx ∧ tx.txHash = k ∧ r.fee = tx.fee ∧
      r.size.toNat = entrySize tx := by
  rcases h.keys.stored hr with ⟨tx, htx⟩
  rcases h.indexed k r hr with ⟨hhash, tx', htx', hhash', hfee, hsize⟩
  rcases h.stored k tx htx with ⟨hk, hmem⟩
  have hsame : tx' = tx := hdet tx' htx' tx hmem (by rw [← hhash', hhash, hk])
  subst hsame
  exact ⟨tx', htx, hk, hfee, hsize⟩

/-- The representation invariant of the mempool, for transactions that their hashes determine. -/
theorem mempool_consistent {tr : List PoolEvent} (hrun : Run MempoolInner.step new tr s)
    (hdet : Determined (insertedIn tr)) :
    (∀ h, (s.index.get? h).isSome = (s.txStore.get? h).isSome) ∧
    s.totalBytes = FinMap.sumOf (fun r => r.size.toNat) s.index ∧
    s.totalBytes ≤ maxMempoolBytes ∧
    s.index.size ≤ maxMempoolTx ∧
    (∀ n h, s.nullifiers.get? n = some h ↔
      ∃ tx, s.txStore.get? h = some tx ∧ tx.txHash = h ∧ n ∈ inputNullifiers tx) ∧
    (∀ h h' tx tx' n, s.txStore.get? h = some tx → s.txStore.get? h' = some tx' →
      n ∈ inputNullifiers tx → n ∈ inputNullifiers tx' → h = h') ∧
    ∀ h r, s.index.get? h = some r →
      (∃ tx, s.txStore.get? h = some tx ∧ r.fee = tx.fee ∧ r.size.toNat = entrySize tx) ∧
      ∃ r' ∈ s.buckets (bucketOf r.fee), r'.hash = h := by
  have hinv := poolInv_run hrun hdet
  have hcons := hinv.consistent
  refine ⟨hcons.keys, hcons.bytes, hcons.bytes_le, hcons.count_le, ?_, ?_, ?_⟩
  · intro n h
    rw [hcons.nullifiers n h]
    constructor
    · rintro ⟨tx, htx, hn⟩
      exact ⟨tx, htx, (hcons.stored h tx htx).1, hn⟩
    · rintro ⟨tx, htx, -, hn⟩
      exact ⟨tx, htx, hn⟩
  · -- one nullifier has one owner in the map
    intro h h' tx tx' n htx htx' hn hn'
    exact Owners.eq (s := s) hcons.nullifiers htx htx' hn hn'
  · intro h r hr
    rcases hcons.entry_eq hdet hr with ⟨tx, htx, -, hfee, hsize⟩
    exact ⟨⟨tx, htx, hfee, hsize⟩, hinv.reachable h r hr List.not_mem_nil⟩

end Invariant

section Sample

attribute [local instance] polyBlake3 unitTypes

theorem determined_sampleSpend (n : ℕ) : Determined (List.replicate n sampleSpend) := by
  intro tx htx tx' htx' _
  rw [List.eq_of_mem_replicate htx, List.eq_of_mem_replicate htx']

/-- A transaction that was inserted twice is counted once. -/
theorem mempool_consistent_sample :
    sampleReinserted.totalBytes =
      FinMap.sumOf (fun r => r.size.toNat) sampleReinserted.index ∧
    (sampleReinserted.buckets (bucketOf 10)).length = 2 := by
  have hdet := determined_sampleSpend 2
  exact ⟨(mempool_consistent sampleRun_reinserted hdet).2.1, by decide +kernel⟩

end Sample

end MempoolInner
end Node
end Aevum
