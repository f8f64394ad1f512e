import Aevum.Lib.FinMap

/-!
# WriteOnce — maps that keep the first value of every key

A store whose values are never replaced or removed is the log of the values it has accepted.  This
file defines `Logged key m log`, which relates a map to such a log, and proves:

* `Logged.empty`, `Logged.insert` : the empty log, and one more value with a key of its own;
* `Logged.get?_eq_none`, `Logged.mem` : which keys and values the map has;
* `Logged.persists` : what is found stays when the log grows.
-/

namespace Lib

variable {K V : Type*} [DecidableEq K] {key : V → K} {m m' : FinMap K V} {log rest : List V}
  {k : K} {v : V}

/-- The map answers with the first value of the log that has the key, and it has an entry for each
value. -/
structure Logged (key : V → K) (m : FinMap K V) (log : List V) : Prop where
  get? : ∀ k, m.get? k = log.find? fun v => key v = k
  size : m.size = log.length
  nodup : (log.map key).Nodup

namespace Logged

theorem empty (key : V → K) : Logged key FinMap.empty [] :=
  ⟨fun _ => rfl, rfl, List.nodup_nil⟩

theorem get?_eq_none (h : Logged key m log) : m.get? k = none ↔ k ∉ log.map key := by
  rw [h.get?, List.find?_eq_none, List.mem_map]
  constructor
  · rintro hnone ⟨v, hv, rfl⟩
    exact hnone v hv (decide_eq_true rfl)
  · rintro hnot v hv heq
    exact hnot ⟨v, hv, of_decide_eq_true heq⟩

/-- A value that is found is in the log, under its own key. -/
theorem mem (h : Logged key m log) (hget : m.get? k = some v) : v ∈ log ∧ key v = k := by
  rw [h.get?] at hget
  exact ⟨List.mem_of_find?_eq_some hget, of_decide_eq_true (List.find?_some hget :)⟩

/-- A value of the log is found under its key. -/
theorem get?_of_mem (h : Logged key m log) (hv : v ∈ log) : m.get? (key v) = some v := by
  cases hget : m.get? (key v) with
  | none => exact absurd (List.mem_map_of_mem hv) (h.get?_eq_none.1 hget)
  | some v' =>
      rcases h.mem hget with ⟨hv', hkey⟩
      rw [List.inj_on_of_nodup_map h.nodup hv' hv hkey]

theorem insert (h : Logged key m log) (hnew : m.get? (key v) = none) :
    Logged key (m.insert (key v) v) (log ++ [v]) where
  get? k := by
    rw [FinMap.get?_insert, List.find?_append, ← h.get?]
    by_cases hk : k = key v
    · subst hk
      simp [hnew]
    · simp [hk, Ne.symm hk]
  size := by
    rw [FinMap.size_insert_of_get?_eq_none v hnew, h.size, List.length_append,
      List.length_singleton]
  nodup := by
    rw [List.map_append, List.map_singleton, List.nodup_append]
    refine ⟨h.nodup, List.nodup_singleton _, ?_⟩
    rintro a ha b hb rfl
    rw [List.mem_singleton] at hb
    exact h.get?_eq_none.1 hnew (hb ▸ ha)

/-- What the map has found once it finds again, however the log grows. -/
theorem persists (h : Logged key m log) (h' : Logged key m' (log ++ rest))
    (hget : m.get? k = some v) : m'.get? k = some v := by
  rw [h.get?] at hget
  rw [h'.get?, List.find?_append, hget, Option.some_or]

end Logged

end Lib
