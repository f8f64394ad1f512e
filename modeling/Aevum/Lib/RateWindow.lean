import Mathlib.Algebra.Order.Group.Nat
import Mathlib.Order.Lattice

/-!
# RateWindow — counters that start again after a time

A rate limiter that counts in fixed windows lets `limit` events pass until `width` units of time
have gone by since the window was started; the next event then starts a new window.  A window may
also be opened anew at any time, and be closed.

How many events pass in an interval of `width` units is not bounded by `limit`, because a window
may end in the middle of the interval.  `Within` says how many can have passed so far: it is an
invariant of all events, and bounds them by `limit` for each window that was opened in the interval,
and by two more (`Within.total`).
-/

namespace Lib

structure RateWindow where
  start : ℕ
  count : ℕ

namespace RateWindow

/-- The window that an event at the time `t` is counted in. -/
def roll (width : ℕ) (w : RateWindow) (t : ℕ) : RateWindow :=
  if width ≤ t - w.start then ⟨t, 0⟩ else w

/-- The window after an event that has passed. -/
def hit (width : ℕ) (w : RateWindow) (t : ℕ) : RateWindow :=
  ⟨(w.roll width t).start, (w.roll width t).count + 1⟩

/-- The time `t` lies in the interval of length `width` that starts at `a`. -/
def inside (width a t : ℕ) : Bool := decide (a ≤ t ∧ t < a + width)

/-- What can have passed in the interval that starts at `a`, when the current window is `w`. -/
structure Spent (limit width a passed openings : ℕ) (w : RateWindow) : Prop where
  count : w.count ≤ limit
  /-- All of it was counted in the current window. -/
  before : w.start < a → passed ≤ w.count
  /-- It was counted in the current window, the one before it and those that were cut short. -/
  during : w.start < a + width → passed ≤ limit * (1 + openings) + w.count

/-- `passed` events have passed and `openings` windows have been opened in the interval that starts
at `a`, up to the time `now`. -/
structure Within (limit width a passed openings now : ℕ) (w : Option RateWindow) : Prop where
  total : passed ≤ limit * (2 + openings)
  early : now < a → passed = 0
  started : ∀ w' ∈ w, w'.start ≤ now
  spent : ∀ w' ∈ w, Spent limit width a passed openings w'

variable {limit width a passed openings now t : ℕ} {w : RateWindow} {o : Option RateWindow}

theorem inside_eq_true : inside width a t = true ↔ a ≤ t ∧ t < a + width :=
  decide_eq_true_iff

theorem toNat_inside : (inside width a t).toNat = if a ≤ t ∧ t < a + width then 1 else 0 := by
  rw [inside]
  split
  · next h => rw [decide_eq_true h, Bool.toNat_true]
  · next h => rw [decide_eq_false h, Bool.toNat_false]

theorem within_none : Within limit width a 0 0 0 none where
  total := Nat.zero_le _
  early := fun _ => rfl
  started := nofun
  spent := nofun

/-- One window more pays for `limit` events more. -/
theorem budget_succ (limit openings : ℕ) :
    limit * (2 + openings) = limit * (1 + openings) + limit := by
  rw [← Nat.mul_succ, Nat.succ_eq_add_one, Nat.add_right_comm]

theorem le_budget (limit openings : ℕ) : limit ≤ limit * (1 + openings) :=
  Nat.le_mul_of_pos_right limit (Nat.add_pos_left Nat.one_pos openings)

namespace Within

/-- Nothing happens for some time. -/
theorem wait (h : Within limit width a passed openings now o) (ht : now ≤ t) :
    Within limit width a passed openings t o where
  total := h.total
  early := fun hlt => h.early (lt_of_le_of_lt ht hlt)
  started := fun w' hw' => le_trans (h.started w' hw') ht
  spent := h.spent

/-- Some of what has passed is not counted. -/
theorem fewer {passed' : ℕ} (h : Within limit width a passed openings now o)
    (hle : passed' ≤ passed) : Within limit width a passed' openings now o where
  total := le_trans hle h.total
  early := fun hlt => Nat.eq_zero_of_le_zero (h.early hlt ▸ hle)
  started := h.started
  spent := fun w' hw' =>
    { count := (h.spent w' hw').count
      before := fun hlt => le_trans hle ((h.spent w' hw').before hlt)
      during := fun hlt => le_trans hle ((h.spent w' hw').during hlt) }

/-- The window is closed. -/
theorem close (h : Within limit width a passed openings now o) :
    Within limit width a passed openings now none where
  total := h.total
  early := h.early
  started := nofun
  spent := nofun

/-- A window is opened at the time `t`, whatever was there before. -/
theorem reopen (h : Within limit width a passed openings now o) (ht : now ≤ t) :
    Within limit width a passed (openings + (inside width a t).toNat) t (some ⟨t, 0⟩) := by
  have htotal := h.total
  have hearly := (h.wait ht).early
  constructor
  · cases inside width a t
    · exact htotal
    · rw [Bool.toNat_true, ← Nat.add_assoc, Nat.mul_succ]
      exact le_trans htotal (Nat.le_add_right _ _)
  · exact hearly
  · rintro w' ⟨⟩
    exact le_rfl
  · rintro w' ⟨⟩
    refine ⟨Nat.zero_le _, fun hlt => le_of_eq (hearly hlt), fun hlt => ?_⟩
    -- what has passed before is paid for by the new window, if that starts in the interval
    by_cases ha : a ≤ t
    · have hpaid : 1 + (openings + 1) = 2 + openings := by omega
      rw [inside_eq_true.2 ⟨ha, hlt⟩, Bool.toNat_true, hpaid]
      exact htotal
    · rw [hearly (not_le.1 ha)]
      exact Nat.zero_le _

/-- The window is brought up to date. -/
theorem roll (h : Within limit width a passed openings now (some w)) (ht : now ≤ t) :
    Within limit width a passed openings t (some (w.roll width t)) := by
  have hwait := h.wait ht
  have hspent := h.spent w rfl
  rw [RateWindow.roll]
  split
  · next hroll =>
      refine ⟨h.total, hwait.early, ?_, ?_⟩
      · rintro w' ⟨⟩
        exact le_rfl
      · rintro w' ⟨⟩
        refine ⟨Nat.zero_le _, fun hlt => le_of_eq (hwait.early hlt), fun hlt => ?_⟩
        dsimp only at hlt ⊢
        -- the old window is over, so it has started before the interval
        have hbefore : w.start < a ∨ t < a := by omega
        rcases hbefore with hbefore | hbefore
        · have hpassed := hspent.before hbefore
          have hcount := hspent.count
          have hbudget := le_budget limit openings
          omega
        · rw [hwait.early hbefore]
          exact Nat.zero_le _
  · exact hwait

/-- An event at the time `t` passes. -/
theorem hit (h : Within limit width a passed openings now (some w)) (ht : now ≤ t)
    (hlt : (w.roll width t).count < limit) :
    Within limit width a (passed + (inside width a t).toNat) openings t
      (some (w.hit width t)) := by
  have hroll := h.roll ht
  have hspent := hroll.spent _ rfl
  have hstarted := hroll.started _ rfl
  have hearly := hroll.early
  have hbudget := budget_succ limit openings
  have htotal := hroll.total
  have hbefore := hspent.before
  have hduring := hspent.during
  rw [RateWindow.hit]
  rw [toNat_inside]
  refine ⟨?_, ?_, ?_, ?_⟩
  · split <;> omega
  · intro hta
    rw [if_neg (by omega), hearly hta]
  · rintro w' ⟨⟩
    exact hstarted
  · rintro w' ⟨⟩
    refine ⟨hlt, ?_, ?_⟩ <;> dsimp only <;> intro hstart
    · have hpassed := hbefore hstart
      split <;> omega
    · have hpassed := hduring hstart
      split <;> omega

end Within

end RateWindow
end Lib
