import Aevum.Lib.Lists

/-!
# AgingBucket — bounded lists that give up their oldest element

A list holds at most `cap` elements with distinct keys, each with an age.  Putting an element in
replaces the one with its key; without such an element it is appended while there is room, and
takes the place of an oldest one otherwise.  This file defines `upsert` and says what it changes
(`mem_upsert_of_ne`), apart from the element that was put in.
-/

namespace Lib

section Replace

variable {α K : Type*} [DecidableEq K] (key : α → K)

/-- Overwrite the first element that has the key of `a`. -/
def replaceKey (a : α) : List α → List α
  | [] => []
  | b :: l => if key b = key a then a :: l else b :: replaceKey a l

theorem map_replaceKey (a : α) (l : List α) : (replaceKey key a l).map key = l.map key := by
  induction l with
  | nil => rfl
  | cons b l ih =>
      by_cases h : key b = key a
      · simp [replaceKey, h]
      · simp [replaceKey, h, ih]

variable {key} {a b : α} {l : List α}

theorem mem_replaceKey_self (h : key a ∈ l.map key) : a ∈ replaceKey key a l := by
  induction l with
  | nil => cases h
  | cons b l ih =>
      by_cases hb : key b = key a
      · simp [replaceKey, hb]
      · rw [List.map_cons, List.mem_cons] at h
        rw [replaceKey, if_neg hb]
        exact List.mem_cons_of_mem b (ih (h.resolve_left fun heq => hb heq.symm))

theorem mem_replaceKey_of_ne (h : key b ≠ key a) : b ∈ replaceKey key a l ↔ b ∈ l := by
  induction l with
  | nil => rfl
  | cons c l ih =>
      have hba : b ≠ a := fun heq => h (heq ▸ rfl)
      by_cases hc : key c = key a
      · have hbc : b ≠ c := fun heq => h (heq ▸ hc)
        simp [replaceKey, hc, hba, hbc]
      · simp [replaceKey, hc, ih]

end Replace

section Upsert

variable {α K A : Type*} [DecidableEq K] [LE A] [DecidableLE A]
  (cap : ℕ) (key : α → K) (age : α → A)

/-- Put an element into a list of at most `cap` elements. -/
def upsert (a : α) (l : List α) : List α :=
  if key a ∈ l.map key then replaceKey key a l
  else if l.length < cap then l ++ [a]
  else (sortBy age l).set 0 a

variable {cap key} {a b : α} {l : List α}

/-- In a full list without the key, the first one of the list sorted by age makes room. -/
theorem upsert_full (hkey : key a ∉ l.map key) (hfull : ¬ l.length < cap) (hcap : 0 < cap) :
    ∃ old rest, l.Perm (old :: rest) ∧ sortBy age l = old :: rest ∧
      upsert cap key age a l = a :: rest := by
  have hperm := sortBy_perm age l
  cases hsort : sortBy age l with
  | nil =>
      have hlength := hperm.length_eq
      rw [hsort, List.length_nil] at hlength
      omega
  | cons old rest =>
      refine ⟨old, rest, hsort ▸ hperm.symm, rfl, ?_⟩
      rw [upsert, if_neg hkey, if_neg hfull, hsort, List.set_cons_zero]

variable {age}

theorem mem_upsert_self (hcap : 0 < cap) : a ∈ upsert cap key age a l := by
  by_cases hkey : key a ∈ l.map key
  · rw [upsert, if_pos hkey]
    exact mem_replaceKey_self hkey
  · by_cases hroom : l.length < cap
    · simp [upsert, hkey, hroom]
    · rcases upsert_full age hkey hroom hcap with ⟨old, rest, -, -, heq⟩
      rw [heq]
      exact List.mem_cons_self

theorem length_upsert_le (hcap : 0 < cap) (h : l.length ≤ cap) :
    (upsert cap key age a l).length ≤ cap := by
  by_cases hkey : key a ∈ l.map key
  · have hlength := congrArg List.length (map_replaceKey key a l)
    rw [List.length_map, List.length_map] at hlength
    rw [upsert, if_pos hkey, hlength]
    exact h
  · by_cases hroom : l.length < cap
    · rw [upsert, if_neg hkey, if_pos hroom, List.length_append, List.length_singleton]
      omega
    · rcases upsert_full age hkey hroom hcap with ⟨old, rest, hperm, -, heq⟩
      have hlength := hperm.length_eq
      rw [heq]
      rwa [hlength] at h

theorem length_le_length_upsert (hcap : 0 < cap) : l.length ≤ (upsert cap key age a l).length := by
  by_cases hkey : key a ∈ l.map key
  · have hlength := congrArg List.length (map_replaceKey key a l)
    rw [List.length_map, List.length_map] at hlength
    rw [upsert, if_pos hkey, hlength]
  · by_cases hroom : l.length < cap
    · rw [upsert, if_neg hkey, if_pos hroom, List.length_append]
      exact Nat.le_add_right _ _
    · rcases upsert_full age hkey hroom hcap with ⟨old, rest, hperm, -, heq⟩
      rw [heq, hperm.length_eq, List.length_cons, List.length_cons]

theorem nodup_upsert (hcap : 0 < cap) (h : (l.map key).Nodup) :
    ((upsert cap key age a l).map key).Nodup := by
  by_cases hkey : key a ∈ l.map key
  · rw [upsert, if_pos hkey, map_replaceKey]
    exact h
  · by_cases hroom : l.length < cap
    · rw [upsert, if_neg hkey, if_pos hroom, List.map_append, List.nodup_append]
      refine ⟨h, List.nodup_singleton _, fun k hk k' hk' heq => hkey ?_⟩
      rw [List.map_singleton, List.mem_singleton] at hk'
      rwa [← hk', ← heq]
    · -- the other keys are a part of those of the list
      rcases upsert_full age hkey hroom hcap with ⟨old, rest, hperm, -, heq⟩
      have hkeys := hperm.map key
      have hnodup := hkeys.nodup_iff.1 h
      rw [List.map_cons, List.nodup_cons] at hnodup
      rw [heq, List.map_cons, List.nodup_cons]
      refine ⟨fun hmem => hkey (hkeys.mem_iff.2 ?_), hnodup.2⟩
      exact List.mem_cons_of_mem (key old) hmem

variable (age) in
/-- Elements with other keys stay, but for at most one, an oldest one of a full list. -/
theorem mem_upsert_of_ne [Std.IsLinearOrder A] (a : α) (hcap : 0 < cap) (h : (l.map key).Nodup) :
    ∃ evicted : Option α,
      (∀ b, key b ≠ key a → (b ∈ upsert cap key age a l ↔ b ∈ l ∧ evicted ≠ some b)) ∧
        ∀ old, evicted = some old → old ∈ l ∧ cap ≤ l.length ∧ key a ∉ l.map key ∧
          ∀ b ∈ l, age old ≤ age b := by
  by_cases hkey : key a ∈ l.map key
  · -- the element with the key is overwritten in its place
    refine ⟨none, fun b hb => ?_, fun old hold => by cases hold⟩
    rw [upsert, if_pos hkey, mem_replaceKey_of_ne hb]
    simp
  · by_cases hroom : l.length < cap
    · refine ⟨none, fun b hb => ?_, fun old hold => by cases hold⟩
      have hba : b ≠ a := fun heq => hb (heq ▸ rfl)
      simp [upsert, hkey, hroom, hba]
    · rcases upsert_full age hkey hroom hcap with ⟨old, rest, hperm, hsort, heq⟩
      have hnodup := hperm.nodup_iff.1 (List.Nodup.of_map key h)
      rw [List.nodup_cons] at hnodup
      -- `old` is not among the rest, as no element occurs twice
      refine ⟨some old, fun b hb => ?_, fun old' hold => ?_⟩
      · have hba : b ≠ a := fun heq => hb (heq ▸ rfl)
        rw [heq, hperm.mem_iff, List.mem_cons, List.mem_cons]
        constructor
        · intro hmem
          have hrest := hmem.resolve_left hba
          refine ⟨Or.inr hrest, fun hsame => hnodup.1 ?_⟩
          rwa [Option.some.inj hsame]
        · rintro ⟨hmem, hne⟩
          exact Or.inr (hmem.resolve_left fun hsame => hne (hsame ▸ rfl))
      · cases hold
        refine ⟨hperm.mem_iff.2 List.mem_cons_self, not_lt.1 hroom, hkey, fun b hb => ?_⟩
        have hsorted := pairwise_sortBy age l
        rw [hsort, List.pairwise_cons] at hsorted
        rcases List.mem_cons.1 (hperm.mem_iff.1 hb) with rfl | hrest
        · exact Std.le_refl _
        · exact hsorted.1 b hrest

end Upsert

end Lib
