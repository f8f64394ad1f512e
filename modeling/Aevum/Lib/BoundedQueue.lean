import Mathlib.Data.List.DropRight
import Mathlib.Data.Finset.Card

/-!
# BoundedQueue — queues that drop their oldest element

A queue of bounded size is a window on everything that was ever pushed: it holds the last elements,
as many as fit (`push_rtake`).  So an element that is no longer in the queue has been followed by as
many others as the queue holds (`le_card_of_notMem`).
-/

namespace Lib

variable {α : Type*}

/-- Drop the oldest element if the queue is full, then append. -/
def push (cap : ℕ) (q : List α) (a : α) : List α :=
  (if q.length ≥ cap then q.tail else q) ++ [a]

variable {cap : ℕ} {q l l' : List α} {a : α}

theorem length_rtake (n : ℕ) (l : List α) : (l.rtake n).length = min n l.length := by
  rw [List.rtake, List.length_drop]
  omega

/-- A queue keeps the last elements; also a queue of size zero keeps one. -/
theorem push_rtake (cap : ℕ) (l : List α) (a : α) :
    push cap (l.rtake (max 1 cap)) a = (l ++ [a]).rtake (max 1 cap) := by
  obtain ⟨n, hn⟩ : ∃ n, max 1 cap = n + 1 := ⟨max 1 cap - 1, by omega⟩
  rw [hn, List.rtake_concat_succ, push, length_rtake]
  congr 1
  by_cases hfull : n + 1 ≤ l.length
  · -- the oldest element of the window makes room
    rw [if_pos (by omega), List.rtake, List.rtake, List.tail_drop]
    congr 1
    omega
  · have hall : l.length - (n + 1) = 0 ∧ l.length - n = 0 := by omega
    rw [List.rtake, List.rtake, hall.1, hall.2, List.drop_zero]
    by_cases hcap : min (n + 1) l.length ≥ cap
    · -- only a queue of size zero is full and empty
      have hnil : l = [] := List.length_eq_zero_iff.1 (by omega)
      rw [if_pos hcap, hnil, List.tail_nil]
    · rw [if_neg hcap]

theorem nodup_push (h : q.Nodup) (ha : a ∉ q) : (push cap q a).Nodup := by
  rw [push]
  refine List.nodup_append.2 ⟨?_, List.nodup_singleton a, ?_⟩
  · split
    · exact h.sublist (List.tail_sublist q)
    · exact h
  · intro x hx y hy
    rw [List.mem_singleton.1 hy]
    rintro rfl
    refine ha ?_
    split at hx
    · exact List.mem_of_mem_tail hx
    · exact hx

theorem rtake_append_of_le {n : ℕ} (h : n ≤ l'.length) : (l ++ l').rtake n = l'.rtake n := by
  have hdrop : (l ++ l').length - n = l.length + (l'.length - n) := by
    rw [List.length_append]
    omega
  rw [List.rtake, List.rtake, hdrop, List.drop_length_add_append]

/-- An element that is not among the last `n` has been followed by `n` others. -/
theorem le_card_of_notMem [DecidableEq α] {n : ℕ} (hnodup : ((l ++ a :: l').rtake n).Nodup)
    (ha : a ∉ (l ++ a :: l').rtake n) : n ≤ (l'.toFinset.erase a).card := by
  -- otherwise the window would reach back to the element
  have hn : n ≤ l'.length := by
    by_contra hlt
    refine ha ?_
    have hle : (l ++ a :: l').length - n ≤ l.length := by
      rw [List.length_append, List.length_cons]
      omega
    rw [List.rtake, List.drop_append_of_le_length hle]
    exact List.mem_append_right _ List.mem_cons_self
  rw [List.append_cons, rtake_append_of_le hn] at hnodup ha
  calc
    n = (l'.rtake n).length := by rw [length_rtake, min_eq_left hn]
    _ = (l'.rtake n).toFinset.card := (List.toFinset_card_of_nodup hnodup).symm
    _ ≤ (l'.toFinset.erase a).card := by
          refine Finset.card_le_card fun x hx => ?_
          rw [List.mem_toFinset] at hx
          refine Finset.mem_erase.2 ⟨fun hxa => ha (hxa ▸ hx), ?_⟩
          exact List.mem_toFinset.2 (List.mem_of_mem_drop hx)

end Lib
