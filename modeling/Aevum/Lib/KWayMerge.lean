import Mathlib.Algebra.BigOperators.Fin
import Mathlib.Algebra.BigOperators.Group.Finset.Basic
import Mathlib.Algebra.Order.Group.Multiset
import Mathlib.Data.Multiset.AddSub
import Mathlib.Data.Fintype.Basic

/-!
# KWayMerge — merging any number of runs

A merge repeatedly takes the head of one run that comes before the heads of all other runs.  This
file defines:

* `Merges before runs out` : `out` is what such a merge of `runs` can output;
* `BinaryHeap cmp` : a priority queue, known only by what `pop` promises.

A merge outputs what is in the runs (`Merges.coe_eq_sum`), and sorted runs give a sorted output
(`Merges.pairwise`).
-/

namespace Lib

/-! ## Merges -/

section Merges

variable {ι α : Type*} [DecidableEq ι]

/-- `out` merges `runs`: every element is taken from the head of a run, before the heads of all
other runs. -/
inductive Merges (before : α → α → Prop) : (ι → List α) → List α → Prop where
  | done {runs : ι → List α} : (∀ i, runs i = []) → Merges before runs []
  | take {runs : ι → List α} {i : ι} {a : α} {rest out : List α} :
      runs i = a :: rest → (∀ j, j ≠ i → ∀ b, (runs j).head? = some b → before a b) →
      Merges before (Function.update runs i rest) out → Merges before runs (a :: out)

namespace Merges

variable {before before' : α → α → Prop} {runs : ι → List α} {out : List α}

/-- A coarser order allows the same merges. -/
theorem mono (hmono : ∀ a b, before a b → before' a b) (h : Merges before runs out) :
    Merges before' runs out := by
  induction h with
  | done hnil => exact done hnil
  | take hrun hhead _ ih => exact take hrun (fun j hj b hb => hmono _ b (hhead j hj b hb)) ih

/-- Sorted runs stay sorted when one of them loses its head. -/
theorem pairwise_update (hruns : ∀ i, (runs i).Pairwise before) {i : ι} {a : α} {rest : List α}
    (hrun : runs i = a :: rest) (j : ι) : (Function.update runs i rest j).Pairwise before := by
  by_cases hj : j = i
  · subst hj
    have hsorted := hruns j
    rw [hrun, List.pairwise_cons] at hsorted
    rw [Function.update_self]
    exact hsorted.2
  · rw [Function.update_of_ne hj]
    exact hruns j

/-- Runs are sorted if they are without the head of one, and that head comes before the rest. -/
theorem pairwise_of_update {i : ι} {a : α} {rest : List α} (hrun : runs i = a :: rest)
    (hleast : ∀ x ∈ rest, before a x)
    (hruns : ∀ j, (Function.update runs i rest j).Pairwise before) (j : ι) :
    (runs j).Pairwise before := by
  have hsorted := hruns j
  by_cases hj : j = i
  · subst hj
    rw [Function.update_self] at hsorted
    rw [hrun, List.pairwise_cons]
    exact ⟨hleast, hsorted⟩
  · rwa [Function.update_of_ne hj] at hsorted

/-- What holds of the head of one run and of everything else holds of everything. -/
theorem forall_mem_of_update {P : α → Prop} {i : ι} {a : α} {rest : List α}
    (hrun : runs i = a :: rest) (ha : P a)
    (hrest : ∀ j, ∀ x ∈ Function.update runs i rest j, P x) (j : ι) : ∀ x ∈ runs j, P x := by
  intro x hx
  by_cases hj : j = i
  · subst hj
    rw [hrun] at hx
    rcases List.mem_cons.1 hx with rfl | htail
    · exact ha
    · exact hrest j x (by rwa [Function.update_self])
  · exact hrest j x (by rwa [Function.update_of_ne hj])

/-- In sorted runs, a head that comes before all other heads comes before everything. -/
theorem before_of_heads (htrans : ∀ a b c, before a b → before b c → before a c)
    (hruns : ∀ i, (runs i).Pairwise before) {i : ι} {a : α} {rest : List α}
    (hrun : runs i = a :: rest)
    (hhead : ∀ j, j ≠ i → ∀ b, (runs j).head? = some b → before a b) {x : α}
    (hx : ∃ j, x ∈ Function.update runs i rest j) : before a x := by
  rcases hx with ⟨j, hx⟩
  by_cases hj : j = i
  · subst hj
    rw [Function.update_self] at hx
    have hsorted := hruns j
    rw [hrun, List.pairwise_cons] at hsorted
    exact hsorted.1 x hx
  · rw [Function.update_of_ne hj] at hx
    cases hother : runs j with
    | nil => simp [hother] at hx
    | cons b l =>
        -- `x` stands at or behind the head of its run
        have hab : before a b := hhead j hj b (by rw [hother, List.head?_cons])
        have hsorted := hruns j
        rw [hother, List.pairwise_cons] at hsorted
        rw [hother] at hx
        rcases List.mem_cons.1 hx with rfl | hx
        · exact hab
        · exact htrans a b x hab (hsorted.1 x hx)

variable [Fintype ι]

theorem sum_update {i : ι} {a : α} {rest : List α} (hrun : runs i = a :: rest) :
    ∑ j, (runs j : Multiset α) = a ::ₘ ∑ j, (Function.update runs i rest j : Multiset α) := by
  rw [← Finset.add_sum_erase Finset.univ _ (Finset.mem_univ i),
    ← Finset.add_sum_erase Finset.univ (fun j => (Function.update runs i rest j : Multiset α))
      (Finset.mem_univ i)]
  -- the two sums differ in the run `i` only
  have hothers : ∀ j ∈ Finset.univ.erase i,
      (runs j : Multiset α) = (Function.update runs i rest j : Multiset α) := by
    intro j hj
    rw [Function.update_of_ne (Finset.ne_of_mem_erase hj)]
  rw [Finset.sum_congr rfl hothers, hrun, Function.update_self, ← Multiset.cons_coe,
    Multiset.cons_add]

theorem sum_length_update {i : ι} {a : α} {rest : List α} (hrun : runs i = a :: rest) :
    ∑ j, (runs j).length = (∑ j, (Function.update runs i rest j).length) + 1 := by
  simpa using congrArg Multiset.card (sum_update hrun)

/-- Nothing is lost and nothing is doubled. -/
theorem coe_eq_sum (h : Merges before runs out) :
    (out : Multiset α) = ∑ i, (runs i : Multiset α) := by
  induction h with
  | done hnil => simp [hnil]
  | take hrun _ _ ih => rw [sum_update hrun, ← ih, Multiset.cons_coe]

theorem perm_flatMap {n : ℕ} {runs : Fin n → List α} (h : Merges before runs out) :
    out.Perm ((List.finRange n).flatMap runs) := by
  rw [← Multiset.coe_eq_coe, h.coe_eq_sum, Fin.sum_univ_def, ← Multiset.coe_bind, Multiset.bind,
    Multiset.join, Multiset.map_coe, Multiset.sum_coe]

theorem mem_iff (h : Merges before runs out) {a : α} : a ∈ out ↔ ∃ i, a ∈ runs i := by
  rw [← Multiset.mem_coe, h.coe_eq_sum, Multiset.mem_sum]
  simp

/-- The output of a merge of sorted runs is sorted. -/
theorem pairwise (htrans : ∀ a b c, before a b → before b c → before a c)
    (h : Merges before runs out) (hruns : ∀ i, (runs i).Pairwise before) :
    out.Pairwise before := by
  induction h with
  | done => exact List.Pairwise.nil
  | @take runs i a rest out hrun hhead hout ih =>
      refine List.pairwise_cons.2 ⟨fun x hx => ?_, ih (pairwise_update hruns hrun)⟩
      exact before_of_heads htrans hruns hrun hhead (hout.mem_iff.1 hx)

end Merges

end Merges

/-! ## Priority queues -/

/-- A priority queue over a list of elements in any order: `pop` takes out an element that no
element exceeds.  Which one that is among equals is left open. -/
structure BinaryHeap {α : Type*} (cmp : α → α → Ordering) where
  pop : List α → Option (α × List α)
  pop_nil : pop [] = none
  pop_cons : ∀ a l, ∃ m rest, pop (a :: l) = some (m, rest)
  pop_perm : ∀ l m rest, pop l = some (m, rest) → l.Perm (m :: rest)
  pop_max : ∀ l m rest, pop l = some (m, rest) → ∀ b ∈ l, (cmp b m).isLE

namespace BinaryHeap

variable {α : Type*} {cmp : α → α → Ordering}

theorem pop_eq_none {heap : BinaryHeap cmp} {l : List α} (h : heap.pop l = none) : l = [] := by
  cases l with
  | nil => rfl
  | cons a l =>
      rcases heap.pop_cons a l with ⟨m, rest, hpop⟩
      rw [h] at hpop
      cases hpop

/-- Take out the last of the greatest elements by going through the list. -/
def scanPop (cmp : α → α → Ordering) : List α → Option (α × List α)
  | [] => none
  | a :: l =>
      match scanPop cmp l with
      | none => some (a, [])
      | some (m, rest) => if (cmp a m).isLE then some (m, a :: rest) else some (a, m :: rest)

theorem isLE_of_not_isLE [Std.OrientedCmp cmp] {a b : α} (h : ¬ (cmp a b).isLE) :
    (cmp b a).isLE := by
  have hswap : cmp b a = (cmp a b).swap := Std.OrientedCmp.eq_swap
  cases hcmp : cmp a b <;> simp_all

theorem scanPop_eq_none {l : List α} (h : scanPop cmp l = none) : l = [] := by
  cases l with
  | nil => rfl
  | cons a l =>
      rw [scanPop] at h
      split at h
      · cases h
      · split at h <;> cases h

theorem scanPop_spec [Std.TransCmp cmp] {l : List α} {m : α} {rest : List α}
    (h : scanPop cmp l = some (m, rest)) : l.Perm (m :: rest) ∧ ∀ b ∈ l, (cmp b m).isLE := by
  induction l generalizing m rest with
  | nil => simp [scanPop] at h
  | cons a l ih =>
      rw [scanPop] at h
      cases hl : scanPop cmp l with
      | none =>
          rw [hl] at h
          cases h
          rw [scanPop_eq_none hl]
          simp [Std.ReflCmp.compare_self]
      | some p =>
          rcases p with ⟨m', rest'⟩
          rcases ih hl with ⟨hperm, hmax⟩
          rw [hl] at h
          simp only at h
          -- either the greatest element of the rest stays the greatest, or `a` is
          split at h
          · next hle =>
              cases h
              refine ⟨(hperm.cons a).trans (List.Perm.swap _ a rest'), fun b hb => ?_⟩
              rcases List.mem_cons.1 hb with rfl | hb
              · exact hle
              · exact hmax b hb
          · next hnle =>
              cases h
              refine ⟨hperm.cons a, fun b hb => ?_⟩
              rcases List.mem_cons.1 hb with rfl | hb
              · simp [Std.ReflCmp.compare_self]
              · -- `a` exceeds the greatest element of the rest of the list
                exact Std.TransCmp.isLE_trans (hmax b hb) (isLE_of_not_isLE hnle)

/-- A priority queue to run the model with. -/
def scan (cmp : α → α → Ordering) [Std.TransCmp cmp] : BinaryHeap cmp :=
  { pop := scanPop cmp
    pop_nil := rfl
    pop_cons := by
      intro a l
      rw [scanPop]
      split
      · exact ⟨a, [], rfl⟩
      · split
        · exact ⟨_, _, rfl⟩
        · exact ⟨_, _, rfl⟩
    pop_perm := fun _ _ _ h => (scanPop_spec h).1
    pop_max := fun _ _ _ h => (scanPop_spec h).2 }

end BinaryHeap

end Lib
