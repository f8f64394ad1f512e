import Mathlib.Order.Monotone.Basic
import Mathlib.Algebra.Order.Group.Nat
import Mathlib.Order.Lattice

/-!
# EvenSplit — a range cut into parts of nearly equal size

A cut of a range is given by a monotone function: part `i` goes from `b i` to `b (i + 1)`, the end
not included.  This file defines

* `evenBound n k` : the cut of the numbers below `n` into `k` parts, of which the first `n % k` have
  one element more than the others;

and proves that a number in the range of a cut is in exactly one part (`existsUnique_part`).
-/

namespace Lib

/-! ## Cuts -/

section Cuts

variable {b : ℕ → ℕ} {i j p : ℕ}

theorem exists_part (hzero : b 0 = 0) {m : ℕ} (hp : p < b m) :
    ∃ i < m, b i ≤ p ∧ p < b (i + 1) := by
  induction m with
  | zero => omega
  | succ m ih =>
      -- the number is in the last part or in the range of the others
      by_cases hm : p < b m
      · rcases ih hm with ⟨i, hi, hin⟩
        exact ⟨i, Nat.lt_succ_of_lt hi, hin⟩
      · exact ⟨m, Nat.lt_succ_self m, Nat.le_of_not_lt hm, hp⟩

theorem le_of_part (hb : Monotone b) (hi : b i ≤ p) (hj : p < b (j + 1)) : i ≤ j := by
  by_contra hlt
  have hle : b (j + 1) ≤ b i := hb (Nat.lt_of_not_le hlt)
  omega

/-- Two parts that share a number are one part. -/
theorem part_unique (hb : Monotone b) (hi : b i ≤ p ∧ p < b (i + 1))
    (hj : b j ≤ p ∧ p < b (j + 1)) : i = j :=
  Nat.le_antisymm (le_of_part hb hi.1 hj.2) (le_of_part hb hj.1 hi.2)

theorem existsUnique_part (hb : Monotone b) (hzero : b 0 = 0) {m : ℕ} (hp : p < b m) :
    ∃! i, i < m ∧ b i ≤ p ∧ p < b (i + 1) := by
  rcases exists_part hzero hp with ⟨i, hi, hin⟩
  refine ⟨i, ⟨hi, hin⟩, ?_⟩
  rintro j ⟨-, hj⟩
  exact part_unique hb hj hin

end Cuts

/-! ## Parts of nearly equal size -/

/-- Where part `i` of `k` begins. -/
def evenBound (n k i : ℕ) : ℕ := i * (n / k) + min i (n % k)

variable {n k i : ℕ}

@[simp] theorem evenBound_zero (n k : ℕ) : evenBound n k 0 = 0 := by
  simp [evenBound]

theorem evenBound_self (hk : 0 < k) : evenBound n k k = n := by
  calc
    evenBound n k k = k * (n / k) + n % k := by
        rw [evenBound, Nat.min_eq_right (Nat.le_of_lt (Nat.mod_lt n hk))]
    _ = n := Nat.div_add_mod n k

theorem evenBound_succ (n k i : ℕ) :
    evenBound n k (i + 1) = evenBound n k i + (n / k + if i < n % k then 1 else 0) := by
  have hmin : min (i + 1) (n % k) = min i (n % k) + if i < n % k then 1 else 0 := by
    split <;> omega
  rw [evenBound, evenBound, Nat.succ_mul, hmin]
  omega

theorem evenBound_mono (n k : ℕ) : Monotone (evenBound n k) := by
  refine monotone_nat_of_le_succ fun i => ?_
  rw [evenBound_succ]
  exact Nat.le_add_right _ _

theorem evenBound_le (hi : i ≤ k) (hk : 0 < k) : evenBound n k i ≤ n := by
  calc
    evenBound n k i ≤ evenBound n k k := evenBound_mono n k hi
    _ = n := evenBound_self hk

end Lib
