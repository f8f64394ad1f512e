import Aevum.Db.Merge
import Mathlib.Data.Fintype.BigOperators
import Mathlib.Data.List.Lex

/-!
# Db.MergeSorted — what the merge of sorted iterators yields

The merging iterator is seen as a set of runs: what the heap holds of an iterator, followed by what
the iterator yields before its end or its first error (`Filled`).  As long as the runs are sorted by
key, `next` takes the head of a run that comes before the heads of all others, so that draining the
iterator is a merge of the runs (`drain_merges`).
-/

namespace Aevum
namespace Db

open Lib

/-! ## The order of entries -/

theorem compare_key_eq_lt {k k' : Key} : compare k k' = .lt ↔ k < k' := by
  induction k generalizing k' with
  | nil => cases k' <;> simp
  | cons b k ih =>
      cases k' with
      | nil => simp
      | cons b' k' =>
          rw [List.compare_cons_cons, Ordering.then_eq_lt, Std.compare_eq_lt, ih,
            List.cons_lt_cons_iff, Std.LawfulEqOrd.compare_eq_iff_eq]

variable {MemValue : Type} {n : Nat}

namespace HeapEntry

/-- The order of the output: by key ascending, then newest version first, then by the index of the
iterator, highest first. -/
def Before (a b : HeapEntry MemValue n) : Prop :=
  a.key < b.key ∨ a.key = b.key ∧ (b.seq < a.seq ∨ a.seq = b.seq ∧ b.iterIdx < a.iterIdx)

theorem Before.trans {a b c : HeapEntry MemValue n} (hab : Before a b) (hbc : Before b c) :
    Before a c := by
  rcases hab with hab | ⟨hkab, hab⟩
  · rcases hbc with hbc | ⟨hkbc, -⟩
    · exact Or.inl (List.lt_trans hab hbc)
    · exact Or.inl (hkbc ▸ hab)
  · rcases hbc with hbc | ⟨hkbc, hbc⟩
    · exact Or.inl (hkab ▸ hbc)
    · refine Or.inr ⟨hkab.trans hkbc, ?_⟩
      rcases hab with hab | ⟨hsab, hab⟩
      · rcases hbc with hbc | ⟨hsbc, -⟩
        · exact Or.inl (UInt64.lt_trans hbc hab)
        · exact Or.inl (hsbc ▸ hab)
      · rcases hbc with hbc | ⟨hsbc, hbc⟩
        · exact Or.inl (hsab ▸ hbc)
        · exact Or.inr ⟨hsab.trans hsbc, hbc.trans hab⟩

theorem Before.key_le {a b : HeapEntry MemValue n} (h : Before a b) : a.key ≤ b.key := by
  rcases h with hlt | ⟨heq, -⟩
  · exact List.le_of_lt hlt
  · exact heq ▸ List.le_refl a.key

/-- A greatest entry of the heap comes before the entries of the other iterators. -/
theorem before_of_isLE {a b : HeapEntry MemValue n} (h : (cmp b a).isLE)
    (hidx : b.iterIdx ≠ a.iterIdx) : Before a b := by
  rw [cmp] at h
  cases hkey : compare a.key b.key with
  | lt => exact Or.inl (compare_key_eq_lt.1 hkey)
  | gt => simp [hkey] at h
  | eq =>
      refine Or.inr ⟨Std.LawfulEqOrd.eq_of_compare hkey, ?_⟩
      cases hseq : compare b.seq a.seq with
      | lt => exact Or.inl (Std.compare_eq_lt.1 hseq)
      | gt => simp [hkey, hseq] at h
      | eq =>
          refine Or.inr ⟨(Std.LawfulEqOrd.eq_of_compare hseq).symm, ?_⟩
          rw [hkey, hseq] at h
          -- the indices decide, and they differ
          have hle : b.iterIdx.val ≤ a.iterIdx.val := Nat.isLE_compare.1 h
          exact lt_of_le_of_ne hle hidx

end HeapEntry

/-! ## Iterators as runs -/

/-- The entries that the iterator with index `idx` yields before its end or its first error. -/
def readable (idx : Fin n) : List (Item MemValue) → List (HeapEntry MemValue n)
  | .ok kv :: rest => HeapEntry.of idx kv :: readable idx rest
  | _ => []

@[simp] theorem readable_nil (idx : Fin n) :
    readable idx ([] : List (Item MemValue)) = [] := rfl

@[simp] theorem readable_error (idx : Fin n) (err : DbError) (rest : List (Item MemValue)) :
    readable idx (.error err :: rest) = [] := rfl

namespace MergingIterator

/-- The entries of one iterator in the heap. -/
def ofIter (mi : MergingIterator MemValue n) (i : Fin n) : List (HeapEntry MemValue n) :=
  mi.heap.filter fun e => e.iterIdx = i

/-- The iterator `i` is to be asked for its next item, and `run` is what will come. -/
structure Fetchable (mi : MergingIterator MemValue n) (i : Fin n)
    (run : List (HeapEntry MemValue n)) : Prop where
  ofIter_eq : mi.ofIter i = []
  live : mi.exhausted i = false
  run_eq : run = readable i (mi.iters i)

/-- The heap holds the first entry of `run`, and the iterator `i` yields the others. -/
structure Filled (mi : MergingIterator MemValue n) (i : Fin n)
    (run : List (HeapEntry MemValue n)) : Prop where
  ofIter_eq : mi.ofIter i = run.head?.toList
  tail_eq : run ≠ [] → mi.exhausted i = false ∧ run.tail = readable i (mi.iters i)

theorem start_fetchable (iters : Fin n → List (Item MemValue)) (i : Fin n) :
    Fetchable (start iters) i (readable i (iters i)) :=
  { ofIter_eq := rfl
    live := rfl
    run_eq := rfl }

/-! ## One fetch -/

variable {mi : MergingIterator MemValue n} {i j : Fin n} {run : List (HeapEntry MemValue n)}

theorem pushNext_frame (mi : MergingIterator MemValue n) (h : j ≠ i) :
    (mi.pushNext i).ofIter j = mi.ofIter j ∧ (mi.pushNext i).exhausted j = mi.exhausted j ∧
      (mi.pushNext i).iters j = mi.iters j := by
  rw [pushNext]
  split
  · exact ⟨rfl, rfl, rfl⟩
  · split
    · next kv rest hiter =>
        have hne : (HeapEntry.of i kv).iterIdx ≠ j := h.symm
        simp [ofIter, hne, Function.update_of_ne h]
    · simp [ofIter, Function.update_of_ne h]
    · simp [ofIter, Function.update_of_ne h]

theorem Filled.pushNext_of_ne (hfilled : Filled mi j run) (h : j ≠ i) :
    Filled (mi.pushNext i) j run := by
  rcases pushNext_frame mi h with ⟨hof, hlive, hiters⟩
  refine { ofIter_eq := hof.trans hfilled.ofIter_eq, tail_eq := fun hne => ?_ }
  rw [hlive, hiters]
  exact hfilled.tail_eq hne

theorem Fetchable.pushNext_of_ne (hfetch : Fetchable mi j run) (h : j ≠ i) :
    Fetchable (mi.pushNext i) j run := by
  rcases pushNext_frame mi h with ⟨hof, hlive, hiters⟩
  exact
    { ofIter_eq := hof.trans hfetch.ofIter_eq
      live := hlive.trans hfetch.live
      run_eq := hiters ▸ hfetch.run_eq }

/-- A fetch puts the first entry of the run into the heap. -/
theorem Fetchable.filled_pushNext (hfetch : Fetchable mi i run) :
    Filled (mi.pushNext i) i run := by
  have hnone : mi.heap.filter (fun e => e.iterIdx = i) = [] := hfetch.ofIter_eq
  rw [hfetch.run_eq, pushNext, if_neg (by simp [hfetch.live])]
  split
  · next kv rest hiter =>
      have hidx : (HeapEntry.of i kv).iterIdx = i := rfl
      rw [hiter, readable]
      refine { ofIter_eq := ?_, tail_eq := fun _ => ⟨hfetch.live, ?_⟩ }
      · simp [ofIter, hidx, hnone]
      · simp
  · next hiter =>
      rw [hiter, readable_error]
      exact { ofIter_eq := hnone, tail_eq := fun h => (h rfl).elim }
  · next hiter =>
      rw [hiter, readable_nil]
      exact { ofIter_eq := hnone, tail_eq := fun h => (h rfl).elim }

/-- The first fetches fill the heap. -/
theorem filled_foldl_pushNext {idxs : List (Fin n)} (hnodup : idxs.Nodup)
    {runs : Fin n → List (HeapEntry MemValue n)}
    (hfetch : ∀ i ∈ idxs, Fetchable mi i (runs i)) (hfilled : ∀ i, i ∉ idxs → Filled mi i (runs i))
    (i : Fin n) : Filled (idxs.foldl pushNext mi) i (runs i) := by
  induction idxs generalizing mi with
  | nil => exact hfilled i List.not_mem_nil
  | cons idx idxs ih =>
      rcases List.nodup_cons.1 hnodup with ⟨hidx, hnodup⟩
      refine ih hnodup (fun j hj => ?_) (fun j hj => ?_)
      · have hne : j ≠ idx := fun h => hidx (h ▸ hj)
        exact (hfetch j (List.mem_cons_of_mem _ hj)).pushNext_of_ne hne
      · by_cases hne : j = idx
        · subst hne
          exact (hfetch j List.mem_cons_self).filled_pushNext
        · have hother : j ∉ idx :: idxs := by simp [hne, hj]
          exact (hfilled j hother).pushNext_of_ne hne

theorem filled_new (iters : Fin n → List (Item MemValue)) (i : Fin n) :
    Filled (new iters) i (readable i (iters i)) := by
  refine filled_foldl_pushNext (List.nodup_finRange n) (fun i _ => start_fetchable iters i) ?_ i
  intro i hi
  exact (hi (List.mem_finRange i)).elim

@[simp] theorem pushNext_lastKey (mi : MergingIterator MemValue n) (idx : Fin n) :
    (mi.pushNext idx).lastKey = mi.lastKey := by
  rw [pushNext]
  split
  · rfl
  · split <;> rfl

theorem new_lastKey (iters : Fin n → List (Item MemValue)) : (new iters).lastKey = none := by
  rw [new]
  induction List.finRange n using List.reverseRecOn with
  | nil => rfl
  | append_singleton idxs idx ih => rw [List.foldl_append, List.foldl_cons, List.foldl_nil,
      pushNext_lastKey, ih]

/-! ## One call of `next` -/

section Popped

variable {entry : HeapEntry MemValue n} {heap : List (HeapEntry MemValue n)}

/-- The entry that leaves the heap is the first one of its run. -/
theorem Filled.popped (hfilled : Filled mi entry.iterIdx run)
    (hperm : mi.heap.Perm (entry :: heap)) :
    run = entry :: run.tail ∧ Fetchable (mi.popped entry heap) entry.iterIdx run.tail := by
  -- the heap holds one entry of the iterator at most
  have hof : (entry :: heap.filter fun e => e.iterIdx = entry.iterIdx).Perm run.head?.toList := by
    have hfilter := hperm.filter fun e => decide (e.iterIdx = entry.iterIdx)
    rw [List.filter_cons_of_pos (by simp)] at hfilter
    exact hfilter.symm.trans (List.Perm.of_eq hfilled.ofIter_eq)
  cases run with
  | nil => exact (List.not_perm_cons_nil hof).elim
  | cons e rest =>
      have hsingle := List.perm_singleton.1 hof
      rw [List.cons.injEq] at hsingle
      rcases hsingle with ⟨rfl, hnone⟩
      rcases hfilled.tail_eq (List.cons_ne_nil _ _) with ⟨hlive, htail⟩
      exact ⟨rfl, { ofIter_eq := hnone, live := hlive, run_eq := htail }⟩

theorem Filled.popped_of_ne (hfilled : Filled mi j run) (h : j ≠ entry.iterIdx)
    (hperm : mi.heap.Perm (entry :: heap)) : Filled (mi.popped entry heap) j run := by
  refine { ofIter_eq := ?_, tail_eq := hfilled.tail_eq }
  -- the entry belongs to another iterator
  have hfilter := hperm.filter fun e => decide (e.iterIdx = j)
  rw [List.filter_cons_of_neg (by simpa using h.symm)] at hfilter
  have hof : (heap.filter fun e => e.iterIdx = j).Perm run.head?.toList :=
    hfilter.symm.trans (List.Perm.of_eq hfilled.ofIter_eq)
  cases run with
  | nil => exact List.perm_nil.1 hof
  | cons e rest => exact List.perm_singleton.1 hof

/-- The runs after a call of `next` that yields an entry. -/
theorem filled_update {runs : Fin n → List (HeapEntry MemValue n)}
    (hfilled : ∀ i, Filled mi i (runs i)) (hperm : mi.heap.Perm (entry :: heap)) (j : Fin n) :
    Filled ((mi.popped entry heap).pushNext entry.iterIdx) j
      (Function.update runs entry.iterIdx (runs entry.iterIdx).tail j) := by
  by_cases hj : j = entry.iterIdx
  · rw [hj, Function.update_self]
    exact ((hfilled entry.iterIdx).popped hperm).2.filled_pushNext
  · rw [Function.update_of_ne hj]
    exact ((hfilled j).popped_of_ne hj hperm).pushNext_of_ne hj

end Popped

/-- The heads of the runs are the entries in the heap. -/
theorem mem_heap_of_head {i : Fin n} {e : HeapEntry MemValue n} (hfilled : Filled mi i run)
    (h : run.head? = some e) : e ∈ mi.heap ∧ e.iterIdx = i := by
  have hmem : e ∈ mi.ofIter i := by
    rw [hfilled.ofIter_eq, h]
    exact List.mem_singleton_self e
  simpa [ofIter] using hmem

/-! ## Draining -/

variable (pq : BinaryHeap (@HeapEntry.cmp MemValue n))

/-- Draining an iterator whose runs are sorted by key merges the runs. -/
theorem drain_merges {mi : MergingIterator MemValue n} {runs : Fin n → List (HeapEntry MemValue n)}
    (hfilled : ∀ i, Filled mi i (runs i))
    (hsorted : ∀ i, (runs i).Pairwise fun a b => a.key ≤ b.key)
    (hlast : ∀ prev, mi.lastKey = some prev → ∀ i, ∀ e ∈ runs i, prev ≤ e.key) :
    ∃ out, drain pq mi = out.map HeapEntry.item ∧ Merges HeapEntry.Before runs out := by
  induction hpending : mi.pending using Nat.strong_induction_on generalizing mi runs with
  | _ pending ih =>
      rcases next_cases pq mi with ⟨hempty, hnone⟩ | ⟨entry, heap, hperm, hmax, hstep⟩
      · -- an empty heap: no run has a head
        refine ⟨[], by rw [drain_eq, hnone]; rfl, Merges.done fun i => ?_⟩
        cases hrun : runs i with
        | nil => rfl
        | cons e rest =>
            have hmem := (mem_heap_of_head (hfilled i) (by rw [hrun, List.head?_cons])).1
            rw [hempty] at hmem
            cases hmem
      · have hrun := ((hfilled entry.iterIdx).popped hperm).1
        rcases hstep with ⟨prev, hprev, hviolation, -⟩ | ⟨-, hok⟩
        · -- the last key is at most every key of a run
          have hmem : entry ∈ runs entry.iterIdx := hrun ▸ List.mem_cons_self
          exact (hlast prev hprev entry.iterIdx entry hmem hviolation).elim
        · have hhead : ∀ j, j ≠ entry.iterIdx → ∀ b, (runs j).head? = some b →
              HeapEntry.Before entry b := by
            intro j hj b hb
            rcases mem_heap_of_head (hfilled j) hb with ⟨hmem, hidx⟩
            exact HeapEntry.before_of_isLE (hmax b hmem) (hidx ▸ hj)
          have hleast : ∀ i, ∀ e ∈ Function.update runs entry.iterIdx
              (runs entry.iterIdx).tail i, entry.key ≤ e.key := by
            intro i e he
            have htrans : ∀ a b c : HeapEntry MemValue n,
                a.key ≤ b.key → b.key ≤ c.key → a.key ≤ c.key := fun _ _ _ => List.le_trans
            refine Merges.before_of_heads htrans hsorted hrun ?_ ⟨i, he⟩
            intro j hj b hb
            exact (hhead j hj b hb).key_le
          have hless := pending_lt_of_next pq hok
          rw [hpending] at hless
          have hsorted' := Merges.pairwise_update hsorted hrun
          rcases ih _ hless (filled_update hfilled hperm) hsorted' (by
            intro prev hprev
            rw [pushNext_lastKey] at hprev
            cases hprev
            exact hleast) rfl with ⟨out, hout, hmerges⟩
          refine ⟨entry :: out, ?_, Merges.take hrun hhead hmerges⟩
          rw [drain_eq, hok, List.map_cons, ← hout]

/-- Draining a new iterator merges what its inputs yield before their first error. -/
theorem drain_new_merges (iters : Fin n → List (Item MemValue))
    (hsorted : ∀ i, (readable i (iters i)).Pairwise fun a b => a.key ≤ b.key) :
    ∃ out, drain pq (new iters) = out.map HeapEntry.item ∧
      Merges HeapEntry.Before (fun i => readable i (iters i)) out := by
  refine drain_merges pq (filled_new iters) hsorted fun prev hprev => ?_
  rw [new_lastKey] at hprev
  cases hprev

/-! ## Error-free inputs -/

/-- The order of an input: by key ascending, for equal keys by sequence number descending. -/
def VersionOrder (a b : Key × MemEntry MemValue) : Prop :=
  a.1 < b.1 ∨ a.1 = b.1 ∧ b.2.seq < a.2.seq

instance (a b : Key × MemEntry MemValue) : Decidable (VersionOrder a b) :=
  inferInstanceAs (Decidable (_ ∨ _))

/-- All entries of all inputs. -/
def entries (inputs : Fin n → List (Key × MemEntry MemValue)) : List (HeapEntry MemValue n) :=
  (List.finRange n).flatMap fun i => (inputs i).map (HeapEntry.of i)

theorem readable_map_ok (i : Fin n) (kvs : List (Key × MemEntry MemValue)) :
    readable i (kvs.map .ok) = kvs.map (HeapEntry.of i) := by
  induction kvs with
  | nil => rfl
  | cons kv kvs ih => rw [List.map_cons, readable, ih, List.map_cons]

theorem VersionOrder.before {a b : Key × MemEntry MemValue} (h : VersionOrder a b) (i : Fin n) :
    HeapEntry.Before (HeapEntry.of i a) (HeapEntry.of i b) := by
  rcases h with hkey | ⟨hkey, hseq⟩
  · exact Or.inl hkey
  · exact Or.inr ⟨hkey, Or.inl hseq⟩

/-- The merge of sorted inputs yields every entry once and no error, by key ascending, newest
version first, and for equal versions by the highest index of an input. -/
theorem drain_sorted_inputs (inputs : Fin n → List (Key × MemEntry MemValue))
    (hsorted : ∀ i, (inputs i).Pairwise VersionOrder) :
    ∃ out : List (HeapEntry MemValue n),
      drain pq (new fun i => (inputs i).map .ok) = out.map HeapEntry.item ∧
        out.Perm (entries inputs) ∧ out.Pairwise HeapEntry.Before := by
  have hruns : ∀ i, (readable i ((inputs i).map .ok)).Pairwise HeapEntry.Before := by
    intro i
    rw [readable_map_ok, List.pairwise_map]
    exact (hsorted i).imp fun h => h.before i
  rcases drain_new_merges pq (fun i => (inputs i).map .ok) fun i => (hruns i).imp fun h => h.key_le
    with ⟨out, hdrain, hmerges⟩
  refine ⟨out, hdrain, ?_, hmerges.pairwise (fun a b c => HeapEntry.Before.trans) hruns⟩
  simpa only [entries, readable_map_ok] using hmerges.perm_flatMap

/-- A live key with two versions in each of two inputs, and a third input without entries. -/
def sampleInputs : Fin 3 → List (Key × MemEntry Unit) :=
  ![[([1], ⟨7, ()⟩), ([1], ⟨4, ()⟩), ([2], ⟨5, ()⟩)], [], [([1], ⟨7, ()⟩), ([1], ⟨6, ()⟩)]]

theorem drain_sorted_inputs_sample :
    ∃ out : List (HeapEntry Unit 3),
      drain (BinaryHeap.scan HeapEntry.cmp) (new fun i => (sampleInputs i).map .ok) =
          out.map HeapEntry.item ∧
        out.Perm (entries sampleInputs) ∧ out.Pairwise HeapEntry.Before :=
  drain_sorted_inputs (BinaryHeap.scan HeapEntry.cmp) sampleInputs (by decide +kernel)

/-! ## Read errors -/

/-- The keys that an iterator yields ascend. -/
def KeySorted (items : List (Item MemValue)) : Prop :=
  (items.filterMap Except.toOption).Pairwise fun a b => a.1 ≤ b.1

instance (items : List (Item MemValue)) : Decidable (KeySorted items) :=
  inferInstanceAs (Decidable (List.Pairwise _ _))

theorem readable_sublist (i : Fin n) (items : List (Item MemValue)) :
    (readable i items).Sublist ((items.filterMap Except.toOption).map (HeapEntry.of i)) := by
  fun_induction readable i items with
  | case1 kv rest ih => exact ih.cons_cons (HeapEntry.of i kv)
  | case2 => exact List.nil_sublist _

theorem KeySorted.readable {items : List (Item MemValue)} (h : KeySorted items) (i : Fin n) :
    (readable i items).Pairwise fun a b => a.key ≤ b.key := by
  refine List.Pairwise.sublist (readable_sublist i items) ?_
  rw [List.pairwise_map]
  exact h

/-- Without an error, everything can be read. -/
theorem map_item_readable (i : Fin n) {items : List (Item MemValue)} (h : ∀ r ∈ items, r.isOk) :
    (readable i items).map HeapEntry.item = items := by
  induction items with
  | nil => rfl
  | cons r rest ih =>
      cases r with
      | error err => exact absurd (h _ List.mem_cons_self) (by simp [Except.isOk, Except.toBool])
      | ok kv =>
          rw [readable, List.map_cons, ih fun r hr => h r (List.mem_cons_of_mem _ hr)]
          rfl

/-- If the merge yields no error, then no input did, and every item of every input was yielded. -/
def ErrorsReported (inputs : Fin n → List (Item MemValue)) : Prop :=
  (∀ r ∈ drain pq (new inputs), r.isOk) →
    (∀ i, ∀ r ∈ inputs i, r.isOk) ∧
      (drain pq (new inputs)).Perm ((List.finRange n).flatMap inputs)

/-- Errors are reported only if there are none: the merge drops them. -/
theorem errorsReported_iff (inputs : Fin n → List (Item MemValue))
    (hsorted : ∀ i, KeySorted (inputs i)) :
    ErrorsReported pq inputs ↔ ∀ i, ∀ r ∈ inputs i, r.isOk := by
  rcases drain_new_merges pq inputs fun i => (hsorted i).readable i with ⟨out, hdrain, hmerges⟩
  -- the merge of sorted iterators yields entries only
  have hok : ∀ r ∈ drain pq (new inputs), r.isOk := by
    intro r hr
    rw [hdrain] at hr
    rcases List.mem_map.1 hr with ⟨e, -, rfl⟩
    rfl
  constructor
  · intro h
    exact (h hok).1
  · intro h _
    refine ⟨h, ?_⟩
    have hitems : ((List.finRange n).flatMap fun i => readable i (inputs i)).map HeapEntry.item =
        (List.finRange n).flatMap inputs := by
      rw [List.map_flatMap]
      exact List.flatMap_congr fun i _ => map_item_readable i (h i)
    rw [hdrain, ← hitems]
    exact hmerges.perm_flatMap.map HeapEntry.item

/-- An input that breaks off with an error after its first entry. -/
def truncatedInput : Fin 1 → List (Item Unit) :=
  ![[.ok ([1], ⟨1, ()⟩), .error (.other 2008), .ok ([2], ⟨2, ()⟩)]]

theorem errorsReported_iff_sample :
    ErrorsReported (BinaryHeap.scan HeapEntry.cmp) truncatedInput ↔
      ∀ i, ∀ r ∈ truncatedInput i, r.isOk :=
  errorsReported_iff (BinaryHeap.scan HeapEntry.cmp) truncatedInput (by decide +kernel)

/-- The error and the entry after it are lost without a trace. -/
theorem truncatedInput_error_lost :
    (∀ i, KeySorted (truncatedInput i)) ∧
      drain (BinaryHeap.scan HeapEntry.cmp) (new truncatedInput) = [.ok ([1], ⟨1, ()⟩)] ∧
      ¬ ErrorsReported (BinaryHeap.scan HeapEntry.cmp) truncatedInput := by
  have hdrain : drain (BinaryHeap.scan HeapEntry.cmp) (new truncatedInput) =
      [.ok ([1], ⟨1, ()⟩)] := by decide +kernel
  refine ⟨by decide +kernel, hdrain, fun h => ?_⟩
  have hinputs := (h (by rw [hdrain]; decide)).1
  revert hinputs
  decide +kernel

end MergingIterator
end Db
end Aevum
