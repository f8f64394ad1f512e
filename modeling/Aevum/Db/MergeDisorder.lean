import Aevum.Db.MergeSorted

/-!
# Db.MergeDisorder — which inputs the merge calls unsorted

The merging iterator remembers only the last key it yielded.  This file proves that it yields a
key ordering violation exactly when some input has a key below the one just before it
(`drain_error_iff`): sorted inputs never raise a false alarm, and draining without an error sorts
out every input (`sorted_of_drain_isOk`).
-/

namespace Aevum
namespace Db

open Lib

variable {MemValue : Type} {n : Nat}

/-- Somewhere a key is smaller than the key just before it. -/
def Descends (kvs : List (Key × MemEntry MemValue)) : Prop :=
  ∃ k a b, kvs[k]? = some a ∧ kvs[k + 1]? = some b ∧ b.1 < a.1

theorem not_descends_iff {kvs : List (Key × MemEntry MemValue)} :
    ¬ Descends kvs ↔ kvs.Pairwise fun a b => a.1 ≤ b.1 := by
  have htrans : Trans (fun a b : Key × MemEntry MemValue => a.1 ≤ b.1)
      (fun a b : Key × MemEntry MemValue => a.1 ≤ b.1)
      (fun a b : Key × MemEntry MemValue => a.1 ≤ b.1) := ⟨List.le_trans⟩
  rw [← List.isChain_iff_pairwise, List.isChain_iff_getElem]
  constructor
  · intro h k hk
    refine List.not_lt.1 fun hlt => h ⟨k, _, _, ?_, List.getElem?_eq_getElem hk, hlt⟩
    exact List.getElem?_eq_getElem (by omega)
  · rintro h ⟨k, a, b, ha, hb, hlt⟩
    rcases List.getElem?_eq_some_iff.1 ha with ⟨_, rfl⟩
    rcases List.getElem?_eq_some_iff.1 hb with ⟨hk, rfl⟩
    exact List.not_lt.2 (h k hk) hlt

namespace MergingIterator

variable (pq : BinaryHeap (@HeapEntry.cmp MemValue n))

/-- The merge makes one error only. -/
theorem drain_error_eq {mi : MergingIterator MemValue n} {err : DbError}
    (h : .error err ∈ drain pq mi) : err = .integrity "merge: key ordering violation" := by
  induction hpending : mi.pending using Nat.strong_induction_on generalizing mi with
  | _ pending ih =>
      rw [drain_eq] at h
      rcases next_cases pq mi with ⟨-, hnone⟩ | ⟨entry, heap, -, -, hstep⟩
      · simp [hnone] at h
      · rcases hstep with ⟨prev, -, -, herr⟩ | ⟨-, hok⟩
        · have hless := pending_lt_of_next pq herr
          rw [herr] at h
          rcases List.mem_cons.1 h with heq | hrest
          · cases heq
            rfl
          · exact ih _ (hpending ▸ hless) hrest rfl
        · have hless := pending_lt_of_next pq hok
          rw [hok] at h
          rcases List.mem_cons.1 h with heq | hrest
          · cases heq
          · exact ih _ (hpending ▸ hless) hrest rfl

/-- If draining yields no error, the runs are sorted and start at the last key or above. -/
theorem sorted_of_drain_isOk {mi : MergingIterator MemValue n}
    {runs : Fin n → List (HeapEntry MemValue n)} (hfilled : ∀ i, Filled mi i (runs i))
    (hok : ∀ err, .error err ∉ drain pq mi) (i : Fin n) :
    ((runs i).Pairwise fun a b => a.key ≤ b.key) ∧
      ∀ prev, mi.lastKey = some prev → ∀ e ∈ runs i, prev ≤ e.key := by
  induction hpending : mi.pending using Nat.strong_induction_on generalizing mi runs i with
  | _ pending ih =>
      rw [drain_eq] at hok
      rcases next_cases pq mi with ⟨hempty, -⟩ | ⟨entry, heap, hperm, -, hstep⟩
      · -- an empty heap: every run is empty
        have hrun : runs i = [] := by
          rw [← List.head?_eq_none_iff, Option.eq_none_iff_forall_ne_some]
          intro e he
          have hmem := (mem_heap_of_head (hfilled i) he).1
          simp [hempty] at hmem
        simp [hrun]
      · rcases hstep with ⟨prev, -, -, herr⟩ | ⟨hprev, hnext⟩
        · rw [herr] at hok
          exact (hok _ List.mem_cons_self).elim
        · have hless := pending_lt_of_next pq hnext
          rw [hnext] at hok
          have hrest : ∀ err, .error err ∉
              drain pq ((mi.popped entry heap).pushNext entry.iterIdx) :=
            fun err hmem => hok err (List.mem_cons_of_mem _ hmem)
          have hafter := fun j => ih _ (hpending ▸ hless) (filled_update hfilled hperm) hrest j rfl
          -- after the step the last key is the key of the entry
          have hlast : ∀ j, ∀ e ∈ Function.update runs entry.iterIdx
              (runs entry.iterIdx).tail j, entry.key ≤ e.key := by
            intro j
            exact (hafter j).2 entry.key (by rw [pushNext_lastKey]; rfl)
          have hrun := ((hfilled entry.iterIdx).popped hperm).1
          refine ⟨Merges.pairwise_of_update hrun ?_ (fun j => (hafter j).1) i, ?_⟩
          · intro e he
            exact hlast entry.iterIdx e (by rwa [Function.update_self])
          · intro prev hp
            have hentry : prev ≤ entry.key := List.not_lt.1 (hprev prev hp)
            exact Merges.forall_mem_of_update hrun hentry
              (fun j e he => List.le_trans hentry (hlast j e he)) i

/-- Draining error-free inputs yields an error exactly when one of them is not sorted by key, and
the error is a key ordering violation. -/
theorem drain_error_iff (inputs : Fin n → List (Key × MemEntry MemValue)) :
    ((∃ err, .error err ∈ drain pq (new fun i => (inputs i).map .ok)) ↔
        ∃ i, Descends (inputs i)) ∧
      ∀ err, .error err ∈ drain pq (new fun i => (inputs i).map .ok) →
        err = .integrity "merge: key ordering violation" := by
  refine ⟨?_, fun err => drain_error_eq pq⟩
  have hruns : ∀ i, (readable i ((inputs i).map .ok)).Pairwise (fun a b => a.key ≤ b.key) ↔
      ¬ Descends (inputs i) := by
    intro i
    rw [readable_map_ok, List.pairwise_map, not_descends_iff]
    rfl
  constructor
  · rintro ⟨err, herr⟩
    by_contra hnone
    rw [not_exists] at hnone
    rcases drain_new_merges pq _ fun i => (hruns i).2 (hnone i) with ⟨out, hdrain, -⟩
    rw [hdrain] at herr
    rcases List.mem_map.1 herr with ⟨e, -, he⟩
    cases he
  · rintro ⟨i, hi⟩
    by_contra hnone
    rw [not_exists] at hnone
    exact (hruns i).1 (sorted_of_drain_isOk pq (filled_new _) hnone i).1 hi

end MergingIterator
end Db
end Aevum
