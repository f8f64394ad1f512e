import Aevum.Lib.FinMap

/-!
# Tally — maps that count

A tally is a finite map from keys to numbers without entries for zero.  `Counts m c` says that the
map `m` is the tally of the function `c`; `incr` and `decr` of a key follow a function that changes
by one there.
-/

namespace Lib
namespace Tally

variable {K : Type*} [DecidableEq K]

/-- Count one more. -/
def incr (m : FinMap K ℕ) (k : K) : FinMap K ℕ :=
  m.insert k ((m.get? k).getD 0 + 1)

/-- Count one less, and drop the entry when nothing is left. -/
def decr (m : FinMap K ℕ) (k : K) : FinMap K ℕ :=
  match m.get? k with
  | some v => if v - 1 = 0 then m.erase k else m.insert k (v - 1)
  | none => m

/-- There is an entry exactly for the keys that are counted, with their number. -/
def Counts (m : FinMap K ℕ) (c : K → ℕ) : Prop :=
  ∀ k, m.get? k = if c k = 0 then none else some (c k)

variable {m : FinMap K ℕ} {c c' : K → ℕ}

theorem counts_empty : Counts (FinMap.empty : FinMap K ℕ) fun _ => 0 :=
  fun _ => rfl

theorem Counts.getD_eq (h : Counts m c) (k : K) : (m.get? k).getD 0 = c k := by
  rw [h k]
  split
  · next hzero => exact hzero.symm
  · rfl

theorem Counts.incr (h : Counts m c) (k : K) (hc : ∀ k', c' k' = c k' + (decide (k = k')).toNat) :
    Counts (incr m k) c' := by
  intro k'
  rw [Tally.incr, FinMap.get?_insert, h.getD_eq]
  by_cases hk : k' = k
  · subst hk
    simp [hc]
  · rw [if_neg hk, hc, decide_eq_false (Ne.symm hk)]
    exact h k'

theorem Counts.decr (h : Counts m c) (k : K) (hc : ∀ k', c' k' + (decide (k = k')).toNat = c k') :
    Counts (decr m k) c' := by
  -- the key is counted, so it has an entry
  have hk : c k = c' k + 1 := by
    rw [← hc k, decide_eq_true rfl, Bool.toNat_true]
  have hget : m.get? k = some (c' k + 1) := by
    rw [h k, if_neg (by omega), hk]
  have hdecr : Tally.decr m k = if c' k = 0 then m.erase k else m.insert k (c' k) := by
    rw [Tally.decr, hget]
    rfl
  intro k'
  rw [hdecr]
  by_cases hk' : k' = k
  · subst hk'
    -- the entry goes together with the last one counted
    by_cases hlast : c' k' = 0
    · simp [hlast, FinMap.get?_erase]
    · simp [hlast]
  · -- another entry stays, and so does its number
    have hsame : c' k' = c k' := by
      rw [← hc k', decide_eq_false (Ne.symm hk'), Bool.toNat_false, Nat.add_zero]
    rw [hsame]
    split
    · rw [FinMap.get?_erase, if_neg hk']
      exact h k'
    · rw [FinMap.get?_insert_ne _ _ hk']
      exact h k'

end Tally
end Lib
