import Mathlib.Data.Finset.Card

/-!
# Quorum — quorums of one committee overlap

Two sets of members of one committee have members in common as soon as their sizes together exceed
the size of the committee (`Quorum.overlap`).
-/

namespace Lib

variable {K : Type*} [DecidableEq K] {committee members members' : Finset K} {t t' : ℕ}

/-- At least `t` members of a committee. -/
structure Quorum (committee : Finset K) (t : ℕ) (members : Finset K) : Prop where
  subset : members ⊆ committee
  card : t ≤ members.card

namespace Quorum

/-- What two quorums have in common. -/
theorem overlap (h : Quorum committee t members) (h' : Quorum committee t' members') :
    t + t' ≤ (members ∩ members').card + committee.card := by
  have hunion : (members ∪ members').card ≤ committee.card :=
    Finset.card_le_card (Finset.union_subset h.subset h'.subset)
  calc
    t + t' ≤ members.card + members'.card := Nat.add_le_add h.card h'.card
    _ = (members ∪ members').card + (members ∩ members').card :=
      (Finset.card_union_add_card_inter members members').symm
    _ ≤ committee.card + (members ∩ members').card := Nat.add_le_add_right hunion _
    _ = (members ∩ members').card + committee.card := Nat.add_comm _ _

end Quorum

end Lib
