import Mathlib.Data.List.Chain
import Mathlib.Algebra.BigOperators.Group.List.Basic
import Mathlib.Algebra.GroupWithZero.Nat

/-!
# Tiling — lists of intervals without gap or overlap

Each element of a list stands for the interval from `lo` to `hi`, both included.  `Tiles a l b`
says that the intervals follow each other from `a` on and end just below `b`; what one wants of a
partition are consequences: bounds, order, contiguity, coverage and the sum of the lengths.
-/

namespace Lib

variable {α : Type*}

inductive Tiles (lo hi : α → ℕ) : ℕ → List α → ℕ → Prop
  | nil (a : ℕ) : Tiles lo hi a [] a
  | cons {x : α} {l : List α} {a b : ℕ} :
      lo x = a → lo x ≤ hi x → Tiles lo hi (hi x + 1) l b → Tiles lo hi a (x :: l) b

namespace Tiles

variable {lo hi : α → ℕ} {a b c : ℕ} {l l' : List α}

theorem single {x : α} (h : lo x ≤ hi x) : Tiles lo hi (lo x) [x] (hi x + 1) :=
  cons rfl h (nil _)

theorem append (h : Tiles lo hi a l b) (h' : Tiles lo hi b l' c) : Tiles lo hi a (l ++ l') c := by
  induction h with
  | nil _ => exact h'
  | cons ha hx _ ih => exact cons ha hx (ih h')

theorem le (h : Tiles lo hi a l b) : a ≤ b := by
  induction h with
  | nil _ => exact le_refl _
  | cons ha hx _ ih => omega

theorem bounds (h : Tiles lo hi a l b) : ∀ x ∈ l, a ≤ lo x ∧ lo x ≤ hi x ∧ hi x < b := by
  induction h with
  | nil _ =>
      intro x hx
      cases hx
  | @cons x l a b ha hx hl ih =>
      refine List.forall_mem_cons.2 ⟨⟨ha.ge, hx, hl.le⟩, fun y hy => ?_⟩
      have hbounds := ih y hy
      exact ⟨by omega, hbounds.2⟩

/-- The intervals are in order and disjoint. -/
theorem pairwise (h : Tiles lo hi a l b) : l.Pairwise fun x y => hi x < lo y := by
  induction h with
  | nil _ => exact List.Pairwise.nil
  | cons _ _ hl ih => exact List.pairwise_cons.2 ⟨fun y hy => (hl.bounds y hy).1, ih⟩

/-- Each interval begins where the one before it ends. -/
theorem isChain (h : Tiles lo hi a l b) : l.IsChain fun x y => hi x + 1 = lo y := by
  induction h with
  | nil _ => exact List.isChain_nil
  | @cons x l a b _ _ hl ih =>
      cases hl with
      | nil _ => exact List.isChain_singleton x
      | cons hnext _ _ => exact List.isChain_cons_cons.2 ⟨hnext.symm, ih⟩

theorem covers (h : Tiles lo hi a l b) {p : ℕ} :
    (a ≤ p ∧ p < b) ↔ ∃ x ∈ l, lo x ≤ p ∧ p ≤ hi x := by
  constructor
  · intro hp
    induction h with
    | nil _ => omega
    | @cons x l a b ha _ _ ih =>
        -- the point is in the first interval or behind it
        by_cases hle : p ≤ hi x
        · exact ⟨x, List.mem_cons_self, ha ▸ hp.1, hle⟩
        · rcases ih ⟨by omega, hp.2⟩ with ⟨y, hy, hin⟩
          exact ⟨y, List.mem_cons_of_mem x hy, hin⟩
  · rintro ⟨x, hx, hin⟩
    have hbounds := h.bounds x hx
    omega

/-- The lengths add up. -/
theorem sum_length (h : Tiles lo hi a l b) : a + (l.map fun x => hi x - lo x + 1).sum = b := by
  induction h with
  | nil _ => rfl
  | cons ha hx hl ih =>
      rw [List.map_cons, List.sum_cons]
      omega

end Tiles
end Lib
