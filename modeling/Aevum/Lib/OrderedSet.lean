import Mathlib.Data.Finset.Card
import Mathlib.Data.List.Sort

/-!
# OrderedSet — sets that are iterated in order

An ordered set is a sorted list without repetitions, so that two sets with the same members are the
same set (`eq_of_mem_iff`), and whatever is computed from the list depends on the members only.
-/

namespace Lib

structure OrderedSet (α : Type*) [LE α] where
  toList : List α
  sorted : toList.Pairwise fun a b => a ≤ b
  nodup : toList.Nodup

namespace OrderedSet

section Sets

variable {α : Type*} [LE α] {s t : OrderedSet α} {a b : α}

instance : Membership α (OrderedSet α) := ⟨fun s a => a ∈ s.toList⟩

theorem mem_toList : a ∈ s.toList ↔ a ∈ s := Iff.rfl

@[ext] theorem ext (h : s.toList = t.toList) : s = t := by
  cases s
  cases t
  cases h
  rfl

instance [DecidableEq α] : DecidableEq (OrderedSet α) := fun _ _ =>
  decidable_of_iff _ ⟨ext, fun h => h ▸ rfl⟩

instance [DecidableEq α] (s : OrderedSet α) (a : α) : Decidable (a ∈ s) :=
  inferInstanceAs (Decidable (a ∈ s.toList))

def empty : OrderedSet α := ⟨[], List.Pairwise.nil, List.nodup_nil⟩

theorem not_mem_empty (a : α) : a ∉ (empty : OrderedSet α) := List.not_mem_nil

def card (s : OrderedSet α) : Nat := s.toList.length

variable [DecidableEq α]

/-- The members, without the order. -/
def toFinset (s : OrderedSet α) : Finset α := s.toList.toFinset

@[simp] theorem mem_toFinset : a ∈ s.toFinset ↔ a ∈ s := List.mem_toFinset

theorem card_toFinset (s : OrderedSet α) : s.toFinset.card = s.card :=
  List.toFinset_card_of_nodup s.nodup

def erase (s : OrderedSet α) (a : α) : OrderedSet α :=
  { toList := s.toList.erase a
    sorted := s.sorted.sublist List.erase_sublist
    nodup := s.nodup.erase a }

@[simp] theorem mem_erase : b ∈ s.erase a ↔ b ≠ a ∧ b ∈ s := s.nodup.mem_erase_iff

theorem card_erase_le (s : OrderedSet α) (a : α) : (s.erase a).card ≤ s.card :=
  List.length_erase_le

end Sets

/-! ## Sets over a linear order -/

/-- Sets with the same members are equal. -/
theorem eq_of_mem_iff {α : Type*} [LE α] [Std.IsLinearOrder α] {s t : OrderedSet α}
    (h : ∀ a, a ∈ s ↔ a ∈ t) : s = t := by
  have hperm : s.toList.Perm t.toList := (List.perm_ext_iff_of_nodup s.nodup t.nodup).2 h
  refine ext (hperm.eq_of_pairwise ?_ s.sorted t.sorted)
  intro a b _ _ hab hba
  exact Std.le_antisymm hab hba

section Orders

variable {α : Type*} [LE α] [DecidableLE α] [DecidableEq α] [Std.IsLinearOrder α]
  {s t : OrderedSet α} {a b : α}

def insert (s : OrderedSet α) (a : α) : OrderedSet α :=
  if h : a ∈ s then s
  else
    { toList := s.toList.orderedInsert (fun a b => a ≤ b) a
      sorted := by
        have : Std.Total fun a b : α => a ≤ b := ⟨fun _ _ => Std.le_total⟩
        have : IsTrans α fun a b => a ≤ b := ⟨fun _ _ _ => Std.le_trans⟩
        exact s.sorted.orderedInsert a _
      nodup := (List.perm_orderedInsert _ a s.toList).nodup_iff.2 (List.nodup_cons.2 ⟨h, s.nodup⟩) }

@[simp] theorem mem_insert : b ∈ s.insert a ↔ b = a ∨ b ∈ s := by
  unfold insert
  split
  · next h =>
      constructor
      · exact Or.inr
      · rintro (rfl | hb)
        · exact h
        · exact hb
  · exact List.mem_orderedInsert _

theorem card_insert (h : a ∉ s) : (s.insert a).card = s.card + 1 := by
  rw [insert, dif_neg h]
  exact List.orderedInsert_length _ _ _

/-- `iter().collect()`. -/
def ofList (l : List α) : OrderedSet α := l.foldl insert empty

theorem mem_foldl_insert (l : List α) : a ∈ l.foldl insert s ↔ a ∈ s ∨ a ∈ l := by
  induction l generalizing s with
  | nil => simp
  | cons b l ih =>
      rw [List.foldl_cons, ih, mem_insert, List.mem_cons]
      tauto

@[simp] theorem mem_ofList (l : List α) : a ∈ ofList l ↔ a ∈ l := by
  rw [ofList, mem_foldl_insert]
  simp [not_mem_empty]

end Orders

end OrderedSet
end Lib
