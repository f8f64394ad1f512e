import Mathlib.Data.List.Induction

/-!
# Records — the elements of a list that a running maximum meets

A loop that keeps a running maximum of a key and does something only where the maximum is reached
again looks at the records of the list: the elements that no earlier one exceeds.

* `isRecord_concat` : which records one more element adds;
* `isRecord_of_greatest` : the greatest elements are records wherever they stand;
* `IsRecord.of_append` : behind a first part only what reaches all of it is a record.
-/

namespace Lib

variable {α K : Type*} [LE K]

/-- The element stands in the list at a place where no earlier element has a greater key. -/
def IsRecord (key : α → K) (l : List α) (a : α) : Prop :=
  ∃ before after, l = before ++ a :: after ∧ ∀ b ∈ before, key b ≤ key a

variable {key : α → K} {l l' : List α} {a b : α}

theorem IsRecord.mem (h : IsRecord key l a) : a ∈ l := by
  rcases h with ⟨before, after, rfl, -⟩
  exact List.mem_append_right before List.mem_cons_self

theorem not_isRecord_nil : ¬ IsRecord key [] a := by
  intro h
  cases h.mem

theorem isRecord_cons_self (a : α) (l : List α) : IsRecord key (a :: l) a :=
  ⟨[], l, rfl, nofun⟩

/-- The greatest elements are records. -/
theorem isRecord_of_greatest (ha : a ∈ l) (h : ∀ b ∈ l, key b ≤ key a) : IsRecord key l a := by
  rcases List.append_of_mem ha with ⟨before, after, rfl⟩
  exact ⟨before, after, rfl, fun b hb => h b (List.mem_append_left _ hb)⟩

/-- One more element is a record if it reaches all others. -/
theorem isRecord_concat :
    IsRecord key (l ++ [a]) b ↔ IsRecord key l b ∨ b = a ∧ ∀ c ∈ l, key c ≤ key a := by
  constructor
  · rintro ⟨before, after, heq, hbefore⟩
    rcases List.eq_nil_or_concat after with rfl | ⟨mid, x, rfl⟩
    · rcases List.append_inj' heq rfl with ⟨rfl, hlast⟩
      cases hlast
      exact Or.inr ⟨rfl, hbefore⟩
    · -- the last element of the list stands behind the record
      have hsplit : l ++ [a] = (before ++ b :: mid) ++ [x] := by
        rw [heq, List.concat_eq_append, List.append_assoc, List.cons_append]
      exact Or.inl ⟨before, mid, (List.append_inj' hsplit rfl).1, hbefore⟩
  · rintro (⟨before, after, rfl, hbefore⟩ | ⟨rfl, hall⟩)
    · exact ⟨before, after ++ [a], by simp, hbefore⟩
    · exact ⟨l, [], rfl, hall⟩

/-- A record stands in the first part of a list or reaches all of it. -/
theorem IsRecord.of_append (h : IsRecord key (l ++ l') a) : a ∈ l ∨ ∀ b ∈ l, key b ≤ key a := by
  rcases h with ⟨before, after, heq, hbefore⟩
  rcases List.append_eq_append_iff.1 heq with ⟨mid, rfl, -⟩ | ⟨mid, rfl, hmid⟩
  · exact Or.inr fun b hb => hbefore b (List.mem_append_left mid hb)
  · cases mid with
    | nil =>
        refine Or.inr fun b hb => hbefore b ?_
        rwa [List.append_nil] at hb
    | cons x mid =>
        cases hmid
        exact Or.inl (List.mem_append_right before List.mem_cons_self)

end Lib
