import Mathlib.Data.Finset.Card
import Mathlib.Logic.Relation

/-!
# Reachability — closed sets and cycles through one node

Facts about the paths of a relation that graph searches rest on: what a search has closed under
edges contains everything reachable (`mem_of_closed`), and a cycle through a node with additional
edges of its own needs such an edge only as its first step (`transGen_withEdges_iff`).
-/

namespace Lib

open Relation

variable {V : Type*} {E : V → V → Prop} {a b : V}

/-- A set that is closed under edges contains what can be reached from its elements. -/
theorem mem_of_closed {S : Set V} (hclosed : ∀ v ∈ S, ∀ w, E v w → w ∈ S) (ha : a ∈ S)
    (h : ReflTransGen E a b) : b ∈ S := by
  induction h with
  | refl => exact ha
  | tail _ hedge ih => exact hclosed _ ih _ hedge

/-- There is no cycle through a node of a closed set without edges to that node. -/
theorem not_transGen_of_closed {S : Set V} (hclosed : ∀ v ∈ S, ∀ w, E v w → w ∈ S ∧ w ≠ a)
    (ha : a ∈ S) : ¬ TransGen E a a := by
  intro h
  rcases TransGen.tail'_iff.1 h with ⟨v, hpath, hedge⟩
  have hv : v ∈ S := mem_of_closed (fun v hv w hw => (hclosed v hv w hw).1) ha hpath
  exact (hclosed v hv a hedge).2 rfl

/-- A relation with additional edges from `a` to the elements of `own`. -/
def WithEdges (E : V → V → Prop) (a : V) (own : List V) (v w : V) : Prop :=
  (v = a ∧ w ∈ own) ∨ E v w

/-- On the way to `a` the additional edges are not needed. -/
theorem reflTransGen_of_withEdges {own : List V} {v : V}
    (h : ReflTransGen (WithEdges E a own) v a) : ReflTransGen E v a := by
  induction h using ReflTransGen.head_induction_on with
  | refl => exact ReflTransGen.refl
  | head hedge _ ih =>
      rcases hedge with ⟨rfl, -⟩ | hedge
      · -- the path is at `a` already
        exact ReflTransGen.refl
      · exact ReflTransGen.head hedge ih

theorem reflTransGen_withEdges_iff {own : List V} {v : V} :
    ReflTransGen (WithEdges E a own) v a ↔ ReflTransGen E v a := by
  constructor
  · exact reflTransGen_of_withEdges
  · intro h
    have hmono : E ≤ WithEdges E a own := fun _ _ hedge => Or.inr hedge
    exact ReflTransGen.mono hmono _ _ h

/-- A cycle through `a` starts with one of the edges of `a`, and does without the others. -/
theorem transGen_withEdges_iff {own : List V} :
    TransGen (WithEdges E a own) a a ↔
      (∃ w ∈ own, ReflTransGen E w a) ∨ ∃ w, E a w ∧ ReflTransGen E w a := by
  rw [TransGen.head'_iff]
  constructor
  · rintro ⟨w, ⟨-, hown⟩ | hedge, hpath⟩
    · exact Or.inl ⟨w, hown, reflTransGen_withEdges_iff.1 hpath⟩
    · exact Or.inr ⟨w, hedge, reflTransGen_withEdges_iff.1 hpath⟩
  · rintro (⟨w, hown, hpath⟩ | ⟨w, hedge, hpath⟩)
    · exact ⟨w, Or.inl ⟨rfl, hown⟩, reflTransGen_withEdges_iff.2 hpath⟩
    · exact ⟨w, Or.inr hedge, reflTransGen_withEdges_iff.2 hpath⟩

/-! ## The measure of a search -/

section Measure

variable [DecidableEq V]

/-- Visiting one more node leaves no more nodes to visit. -/
theorem card_sdiff_insert_le (nodes visited : Finset V) (current : V) :
    (nodes \ insert current visited).card ≤ (nodes \ visited).card :=
  Finset.card_le_card (Finset.sdiff_subset_sdiff (Finset.Subset.refl nodes)
    (Finset.subset_insert current visited))

theorem card_sdiff_insert_lt {nodes visited : Finset V} {current : V}
    (hnode : current ∈ nodes) (hnew : current ∉ visited) :
    (nodes \ insert current visited).card < (nodes \ visited).card := by
  refine Finset.card_lt_card ⟨?_, fun hsub => ?_⟩
  · have hinsert := Finset.subset_insert current visited
    exact Finset.sdiff_subset_sdiff (Finset.Subset.refl nodes) hinsert
  · have hmem := hsub (Finset.mem_sdiff.2 ⟨hnode, hnew⟩)
    exact (Finset.mem_sdiff.1 hmem).2 (Finset.mem_insert_self current visited)

end Measure

end Lib
