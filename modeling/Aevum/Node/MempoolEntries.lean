import Aevum.Lib.ReverseIndex
import Aevum.Node.MempoolSteps

/-!
# Node.MempoolEntries — what holds of every entry, whatever the hashes are

Nothing keeps two different transactions from carrying one hash, since `insert` does not recompute
it.  `Entries` is the part of the representation invariant that survives this: every entry of the
index is one of the references in the bucket of its fee, and the nullifier map names the owner of
every nullifier.  On the way `remove_transactions` and `evict_stale` are described by what they
erase.
-/

namespace Aevum
namespace Node
namespace MempoolInner

open Lib Crypto Aevum.Core

section Entries

variable [ForeignTypes] {s : MempoolInner}

/-! ## Nullifiers -/

/-- The nullifier map names the stored transaction that has a nullifier among its inputs. -/
def Owners (s : MempoolInner) : Prop :=
  IndexesAll (fun h n => ∃ tx, s.txStore.get? h = some tx ∧ n ∈ inputNullifiers tx)
    s.nullifiers.get?

theorem Owners.forget (h : Owners s) {k : Hash} {tx : Transaction}
    (htx : s.txStore.get? k = some tx) (size : Nat) : Owners (s.forget k size tx) := by
  refine IndexesAll.erase h k (inputNullifiers tx) ?_ ?_ ?_
  · intro n
    simp [htx]
  · intro h' n
    rw [forget_txStore, FinMap.get?_erase]
    by_cases hk : h' = k <;> simp [hk]
  · intro n
    rw [forget_nullifiers, FinMap.get?_eraseAll]

theorem Owners.accept (h : Owners s) (hkeys : KeysAgree s) {tx : Transaction}
    (haccepts : Accepts s tx) (pohTick : UInt64) (now : Nat) :
    Owners (s.accept tx pohTick now) := by
  -- nothing is stored under the new hash yet
  have hnone : s.txStore.get? tx.txHash = none := by
    refine Option.eq_none_iff_forall_ne_some.2 fun tx' htx' => ?_
    rcases hkeys.indexed htx' with ⟨r, hr⟩
    rw [haccepts.fresh] at hr
    cases hr
  refine IndexesAll.put h tx.txHash (inputNullifiers tx) ?_ haccepts.unspent ?_ ?_
  · intro n
    simp [hnone]
  · intro k n
    rw [accept_txStore, FinMap.get?_insert]
    by_cases hk : k = tx.txHash <;> simp [hk]
  · intro n
    rw [accept_nullifiers, FinMap.get?_insertAll]

/-- One nullifier has one owner. -/
theorem Owners.eq (h : Owners s) {k k' n : Hash} {tx tx' : Transaction}
    (htx : s.txStore.get? k = some tx) (htx' : s.txStore.get? k' = some tx')
    (hn : n ∈ inputNullifiers tx) (hn' : n ∈ inputNullifiers tx') : k = k' := by
  have hsome := (h n k).2 ⟨tx, htx, hn⟩
  have hsome' := (h n k').2 ⟨tx', htx', hn'⟩
  exact Option.some.inj (hsome.symm.trans hsome')

/-! ## What removal erases -/

theorem removeOne_index (s : MempoolInner) (k : Hash) :
    (s.removeOne k).index = s.index.erase k := by
  cases hr : s.index.get? k with
  | none => rw [removeOne_of_none hr, FinMap.erase_of_get?_eq_none hr]
  | some r => cases htx : s.txStore.get? k <;> simp only [removeOne, hr, htx]

theorem removeOne_buckets (s : MempoolInner) (k : Hash) : (s.removeOne k).buckets = s.buckets := by
  cases hr : s.index.get? k with
  | none => rw [removeOne_of_none hr]
  | some r => cases htx : s.txStore.get? k <;> simp only [removeOne, hr, htx]

theorem removeTransactions_index (s : MempoolInner) (ks : List Hash) :
    (s.removeTransactions ks).index = FinMap.eraseAll ks s.index :=
  (List.foldl_hom MempoolInner.index fun s k => (removeOne_index s k).symm).symm

/-- The references of removed transactions stay where they are. -/
theorem removeTransactions_buckets (s : MempoolInner) (ks : List Hash) :
    (s.removeTransactions ks).buckets = s.buckets :=
  List.foldlRecOn (motive := fun s' : MempoolInner => s'.buckets = s.buckets) ks removeOne rfl
    fun s' hs' k _ => (removeOne_buckets s' k).trans hs'

theorem evictOne_index (s : MempoolInner) (k : Hash) :
    (s.evictOne k).index = s.index.erase k := by
  rw [evictOne]
  cases hr : s.index.get? k with
  | none =>
      rw [FinMap.erase_of_get?_eq_none hr]
      cases s.txStore.get? k <;> rfl
  | some r => cases s.txStore.get? k <;> rfl

theorem evictOne_txStore (s : MempoolInner) (k : Hash) :
    (s.evictOne k).txStore = s.txStore.erase k := by
  rw [evictOne]
  cases htx : s.txStore.get? k with
  | none =>
      rw [FinMap.erase_of_get?_eq_none htx]
      cases hr : s.index.get? k <;> simp only [htx]
  | some tx => cases hr : s.index.get? k <;> simp only [htx]

theorem evictOne_buckets (s : MempoolInner) (k : Hash) : (s.evictOne k).buckets = s.buckets := by
  rw [evictOne]
  cases s.index.get? k <;> cases s.txStore.get? k <;> rfl

theorem foldl_evictOne_index (s : MempoolInner) (ks : List Hash) :
    (ks.foldl evictOne s).index = FinMap.eraseAll ks s.index :=
  (List.foldl_hom MempoolInner.index fun s k => (evictOne_index s k).symm).symm

theorem foldl_evictOne_txStore (s : MempoolInner) (ks : List Hash) :
    (ks.foldl evictOne s).txStore = FinMap.eraseAll ks s.txStore :=
  (List.foldl_hom MempoolInner.txStore fun s k => (evictOne_txStore s k).symm).symm

theorem foldl_evictOne_buckets (s : MempoolInner) (ks : List Hash) :
    (ks.foldl evictOne s).buckets = s.buckets :=
  List.foldlRecOn (motive := fun s' : MempoolInner => s'.buckets = s.buckets) ks evictOne rfl
    fun s' hs' k _ => (evictOne_buckets s' k).trans hs'

/-- The pool with the fresh references only, which is what the first loop leaves. -/
def keepFresh (s : MempoolInner) (now : Nat) : MempoolInner :=
  { s with buckets := fun b => (s.buckets b).filter fun r => ! isStale now r }

theorem evictStale_index (s : MempoolInner) (now : Nat) :
    (s.evictStale now).1.index = FinMap.eraseAll (s.staleHashes now) s.index :=
  foldl_evictOne_index (s.keepFresh now) (s.staleHashes now)

theorem evictStale_txStore (s : MempoolInner) (now : Nat) :
    (s.evictStale now).1.txStore = FinMap.eraseAll (s.staleHashes now) s.txStore :=
  foldl_evictOne_txStore (s.keepFresh now) (s.staleHashes now)

theorem evictStale_buckets (s : MempoolInner) (now : Nat) :
    (s.evictStale now).1.buckets = fun b => (s.buckets b).filter fun r => ! isStale now r :=
  foldl_evictOne_buckets (s.keepFresh now) (s.staleHashes now)

theorem evictStale_snd (s : MempoolInner) (now : Nat) :
    (s.evictStale now).2 = (s.staleHashes now).length := rfl

theorem mem_staleHashes {now : Nat} {h : Hash} :
    h ∈ s.staleHashes now ↔ ∃ b, ∃ r ∈ s.buckets b, isStale now r = true ∧ r.hash = h := by
  simp [staleHashes, and_assoc]

/-! ## The invariant -/

/-- What holds of a pool apart from its buckets. -/
structure Pooled (s : MempoolInner) : Prop where
  keys : KeysAgree s
  owners : Owners s
  count_le : s.index.size ≤ maxMempoolTx
  floor : 1 ≤ s.minFeeWatermark
  paid : ∀ h tx, s.txStore.get? h = some tx → 1 ≤ tx.fee

/-- Besides, every entry of the index is a reference in the bucket of its fee. -/
structure Entries (s : MempoolInner) : Prop extends Pooled s where
  indexed : ∀ h r, s.index.get? h = some r → r.hash = h ∧ r ∈ s.buckets (bucketOf r.fee)

theorem pooled_new : Pooled new where
  keys _ := rfl
  owners n h := by
    constructor
    · intro hn
      cases hn
    · rintro ⟨tx, htx, -⟩
      cases htx
  count_le := Nat.zero_le _
  floor := UInt64.le_refl _
  paid h tx htx := by cases htx

theorem entries_new : Entries new where
  toPooled := pooled_new
  indexed h r hr := by cases hr

/-- The buckets and the statistics do not matter. -/
theorem Pooled.congr (h : Pooled s) {s' : MempoolInner} (hindex : s'.index = s.index)
    (hstore : s'.txStore = s.txStore) (hnullifiers : s'.nullifiers = s.nullifiers)
    (hfloor : 1 ≤ s'.minFeeWatermark) : Pooled s' where
  keys := by
    rw [KeysAgree, hindex, hstore]
    exact h.keys
  owners := by
    rw [Owners, hstore, hnullifiers]
    exact h.owners
  count_le := by
    rw [hindex]
    exact h.count_le
  floor := hfloor
  paid := by
    rw [hstore]
    exact h.paid

theorem Entries.withStats (h : Entries s) (st : MempoolStats) : Entries { s with stats := st } where
  toPooled := h.toPooled.congr rfl rfl rfl h.floor
  indexed := h.indexed

theorem Pooled.forget (h : Pooled s) {k : Hash} {tx : Transaction}
    (htx : s.txStore.get? k = some tx) (size : Nat) : Pooled (s.forget k size tx) where
  keys := h.keys.forget k size tx
  owners := h.owners.forget htx size
  count_le := Nat.le_trans (FinMap.size_erase_le s.index k) h.count_le
  floor := h.floor
  paid h' tx' htx' := by
    rw [forget_txStore, FinMap.get?_erase_eq_some] at htx'
    exact h.paid h' tx' htx'.2

theorem Entries.forget (h : Entries s) {k : Hash} {tx : Transaction}
    (htx : s.txStore.get? k = some tx) (size : Nat) : Entries (s.forget k size tx) where
  toPooled := h.toPooled.forget htx size
  indexed h' r hr := by
    rw [forget_index, FinMap.get?_erase_eq_some] at hr
    exact h.indexed h' r hr.2

theorem Entries.removeOne (h : Entries s) (k : Hash) : Entries (s.removeOne k) := by
  rcases h.keys.cases k with ⟨hr, -⟩ | ⟨r, tx, hr, htx⟩
  · rw [removeOne_of_none hr]
    exact h
  · rw [removeOne_of_some hr htx]
    exact h.forget htx r.size.toNat

theorem Pooled.evictOne (h : Pooled s) (k : Hash) : Pooled (s.evictOne k) := by
  rcases h.keys.cases k with ⟨hr, htx⟩ | ⟨r, tx, hr, htx⟩
  · rw [evictOne_of_none hr htx]
    exact h
  · rw [evictOne_of_some hr htx]
    exact h.forget htx r.size.toNat

theorem Pooled.accept (h : Pooled s) {tx : Transaction} (haccepts : Accepts s tx)
    (pohTick : UInt64) (now : Nat) : Pooled (s.accept tx pohTick now) where
  keys := h.keys.accept tx pohTick now
  owners := h.owners.accept h.keys haccepts pohTick now
  count_le := by
    rw [accept_index, FinMap.size_insert_of_get?_eq_none _ haccepts.fresh]
    exact haccepts.count
  floor := h.floor
  paid k tx' htx' := by
    rcases FinMap.get?_insert_eq_some.1 htx' with ⟨-, rfl⟩ | ⟨-, hold⟩
    · exact UInt64.le_trans h.floor haccepts.fee_le
    · exact h.paid k tx' hold

theorem Entries.accept (h : Entries s) {tx : Transaction} (haccepts : Accepts s tx)
    (pohTick : UInt64) (now : Nat) : Entries (s.accept tx pohTick now) where
  toPooled := h.toPooled.accept haccepts pohTick now
  indexed k r hr := by
    rw [mem_accept_buckets]
    rcases FinMap.get?_insert_eq_some.1 hr with ⟨hk, rfl⟩ | ⟨-, hold⟩
    · -- the new entry, which has just been queued
      exact ⟨hk.symm, Or.inr ⟨rfl, rfl⟩⟩
    · rcases h.indexed k r hold with ⟨hhash, hmem⟩
      exact ⟨hhash, Or.inl hmem⟩

/-- Popping a reference takes no other reference away. -/
theorem mem_popTo {bucket b : Bucket} {txref r : TxRef} {rest : List TxRef}
    (hfront : s.buckets bucket = txref :: rest) (hr : r ∈ s.buckets b) (hne : r ≠ txref) :
    r ∈ (s.popTo bucket rest).buckets b := by
  rw [popTo_buckets, Function.update_apply]
  split
  · next hb =>
      rw [hb, hfront] at hr
      exact (List.mem_cons.1 hr).resolve_left hne
  · exact hr

theorem Entries.dropDead (h : Entries s) {bucket : Bucket} {txref : TxRef} {rest : List TxRef}
    (hfront : s.buckets bucket = txref :: rest) (hdead : s.index.get? txref.hash = none) :
    Entries (s.popTo bucket rest) := by
  refine ⟨h.toPooled.congr rfl rfl rfl h.floor, fun k r hr => ?_⟩
  rcases h.indexed k r hr with ⟨hhash, hmem⟩
  refine ⟨hhash, mem_popTo hfront hmem fun heq => ?_⟩
  -- the popped reference is no entry of the index
  have hsome : s.index.get? r.hash = some r := by rw [hhash, ← hr, popTo_index]
  rw [heq, hdead] at hsome
  cases hsome

theorem Entries.take (h : Entries s) {bucket : Bucket} {txref : TxRef} {rest : List TxRef}
    {tx : Transaction} (hfront : s.buckets bucket = txref :: rest)
    (hstored : s.txStore.get? txref.hash = some tx) (size : Nat) :
    Entries ((s.popTo bucket rest).forget txref.hash size tx).noteIncluded := by
  have hforget := h.forget hstored size
  refine ⟨hforget.toPooled.congr rfl rfl rfl hforget.floor, fun k r hr => ?_⟩
  rcases hforget.indexed k r hr with ⟨hhash, hmem⟩
  refine ⟨hhash, mem_popTo hfront hmem fun heq => ?_⟩
  -- the entry under the hash of the popped reference is gone
  have hsome : (s.index.erase txref.hash).get? r.hash = some r := by rw [hhash]; exact hr
  rw [heq, FinMap.get?_erase, if_pos rfl] at hsome
  cases hsome

theorem Entries.buildBlock (h : Entries s) {fuel maxTx maxBytes : Nat} {s' : MempoolInner}
    {out : List Transaction} (hbuild : s.buildBlock fuel maxTx maxBytes = some (s', out)) :
    Entries s' := by
  rcases Option.map_eq_some_iff.1 hbuild with ⟨st, hloop, heq⟩
  cases heq
  have hpool : Entries st.pool :=
    buildLoop_keeps Entries (fun s h => h.keys)
      (fun s bucket txref rest h hfront hdead => h.dropDead hfront hdead)
      (fun s bucket txref r rest tx h hfront _ hstored => h.take hfront hstored _) h hloop
  exact hpool.withStats _

theorem Entries.evictStale (h : Entries s) (now : Nat) : Entries (s.evictStale now).1 := by
  have hfresh : Pooled (s.keepFresh now) := h.toPooled.congr rfl rfl rfl h.floor
  have hfold : Pooled ((s.staleHashes now).foldl MempoolInner.evictOne (s.keepFresh now)) :=
    List.foldlRecOn _ MempoolInner.evictOne hfresh fun s hs k _ => hs.evictOne k
  refine ⟨hfold.congr rfl rfl rfl hfold.floor, fun k r hr => ?_⟩
  rw [evictStale_index, FinMap.get?_eraseAll_eq_some] at hr
  rcases h.indexed k r hr.2 with ⟨hhash, hmem⟩
  -- an entry that is left is not stale, so its reference is left, too
  have hfresh : isStale now r ≠ true := fun hstale =>
    hr.1 (mem_staleHashes.2 ⟨bucketOf r.fee, r, hmem, hstale, hhash⟩)
  rw [evictStale_buckets]
  exact ⟨hhash, List.mem_filter.2 ⟨hmem, by simp [hfresh]⟩⟩

/-- However the fee floor is adjusted, it is at least one. -/
theorem one_le_adjustFeeFloor (s : MempoolInner) (congestion : Bool) :
    1 ≤ (s.adjustFeeFloor congestion).minFeeWatermark := by
  rw [UInt64.le_iff_toNat_le]
  have hone : UInt64.toNat 1 = 1 := rfl
  cases congestion with
  | false =>
      have hmax : (s.adjustFeeFloor false).minFeeWatermark.toNat =
          max (s.minFeeWatermark.satSub 1).toNat minFee.toNat := UInt64.toNat_max _ _
      rw [hmax]
      exact Nat.le_max_right _ _
  | true =>
      have hadd : (s.adjustFeeFloor true).minFeeWatermark.toNat =
          min (s.minFeeWatermark.toNat + UInt64.toNat 1) (2 ^ 64 - 1) := UInt64.toNat_satAdd _ _
      omega

theorem Entries.step (h : Entries s) {e : PoolEvent} {s' : MempoolInner} (hstep : step s e s') :
    Entries s' := by
  cases step_kind hstep with
  | reject tx pohTick now st => exact h.withStats st
  | accept tx pohTick now haccepts => exact h.accept haccepts pohTick now
  | build maxTx maxBytes fuel s' out hbuild => exact h.buildBlock hbuild
  | remove hashes =>
      have hfold : Entries (hashes.foldl MempoolInner.removeOne s) :=
        List.foldlRecOn hashes MempoolInner.removeOne h fun s hs k _ => hs.removeOne k
      exact hfold.withStats _
  | evict now => exact h.evictStale now
  | adjust congestion =>
      exact ⟨h.toPooled.congr rfl rfl rfl (one_le_adjustFeeFloor s congestion), h.indexed⟩

/-- The invariant holds in every reachable pool. -/
theorem entries_run {tr : List PoolEvent} (hrun : Run MempoolInner.step new tr s) : Entries s :=
  RunWith.invariant_state Entries entries_new (fun _ _ _ _ _ h hstep _ => h.step hstep) hrun

end Entries

end MempoolInner
end Node
end Aevum
