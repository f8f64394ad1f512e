import Mathlib.Data.Finset.Insert
import Mathlib.Data.List.Perm.Subperm

/-!
# Matching — greedy matching of items to keys

The items of a list are taken one by one; each is matched to the first key that accepts it and is
not used up, until a limit is reached.  This file defines `matching`, the pairs of position and
key that result, and proves:

* `matching_mem`, `matching_positions_nodup`, `matching_keys_nodup` : they are a matching;
* `matching_full` : if no item is accepted by two keys, either the limit is reached or every key
  that accepts an item is matched, so no other order of choices does better.
-/

namespace Lib

variable {K A : Type*} [DecidableEq K] {ok : K → A → Bool} {keys : List K} {used : Finset K}
  {a : A} {k : K}

/-- The first key that accepts the item and is not used up. -/
def pick (ok : K → A → Bool) (keys : List K) (used : Finset K) (a : A) : Option K :=
  keys.find? fun k => decide (k ∉ used) && ok k a

theorem pick_some (h : pick ok keys used a = some k) : k ∈ keys ∧ k ∉ used ∧ ok k a = true := by
  have hk := List.find?_some h
  rw [Bool.and_eq_true, decide_eq_true_eq] at hk
  exact ⟨List.mem_of_find?_eq_some h, hk.1, hk.2⟩

theorem pick_none (h : pick ok keys used a = none) (hk : k ∈ keys) (hok : ok k a = true) :
    k ∈ used := by
  by_contra hused
  have hnot := List.find?_eq_none.1 h k hk
  rw [Bool.and_eq_true, decide_eq_true_eq] at hnot
  exact hnot ⟨hused, hok⟩

/-- Positions and keys matched from position `i` on, at most `limit` of them. -/
def matching (ok : K → A → Bool) (keys : List K) :
    Nat → Finset K → Nat → List A → List (Nat × K)
  | _, _, _, [] => []
  | limit, used, i, a :: rest =>
      if limit = 0 then []
      else
        match pick ok keys used a with
        | some k => (i, k) :: matching ok keys (limit - 1) (insert k used) (i + 1) rest
        | none => matching ok keys limit used (i + 1) rest

section Rules

variable {limit i : Nat} {rest : List A}

theorem matching_stop (items : List A) : matching ok keys 0 used i items = [] := by
  cases items with
  | nil => rfl
  | cons a rest => exact if_pos rfl

theorem matching_cons_some (hlimit : limit ≠ 0) (h : pick ok keys used a = some k) :
    matching ok keys limit used i (a :: rest) =
      (i, k) :: matching ok keys (limit - 1) (insert k used) (i + 1) rest := by
  rw [matching, if_neg hlimit, h]

theorem matching_cons_none (hlimit : limit ≠ 0) (h : pick ok keys used a = none) :
    matching ok keys limit used i (a :: rest) = matching ok keys limit used (i + 1) rest := by
  rw [matching, if_neg hlimit, h]

end Rules

/-! ## A matching -/

/-- Every pair consists of the position of an item and a key that accepts it. -/
theorem matching_mem {limit i : Nat} {items : List A} :
    ∀ p ∈ matching ok keys limit used i items,
      i ≤ p.1 ∧ p.2 ∈ keys ∧ p.2 ∉ used ∧ ∃ a, items[p.1 - i]? = some a ∧ ok p.2 a = true := by
  induction items generalizing limit used i with
  | nil =>
      intro p hp
      cases hp
  | cons a rest ih =>
      -- what is matched later stands one position further in the longer list
      have hlater : ∀ used' : Finset K, used ⊆ used' → ∀ limit',
          ∀ p ∈ matching ok keys limit' used' (i + 1) rest, i ≤ p.1 ∧ p.2 ∈ keys ∧
            p.2 ∉ used ∧ ∃ b, (a :: rest)[p.1 - i]? = some b ∧ ok p.2 b = true := by
        intro used' hsub limit' p hp
        rcases ih p hp with ⟨hle, hkey, hused, b, hget, hok⟩
        refine ⟨by omega, hkey, fun hmem => hused (hsub hmem), b, ?_, hok⟩
        have hshift : p.1 - i = (p.1 - (i + 1)) + 1 := by omega
        rw [hshift, List.getElem?_cons_succ, hget]
      intro p hp
      by_cases hlimit : limit = 0
      · rw [hlimit, matching_stop] at hp
        cases hp
      · cases hpick : pick ok keys used a with
        | none =>
            rw [matching_cons_none hlimit hpick] at hp
            exact hlater used (Finset.Subset.refl used) limit p hp
        | some k =>
            rw [matching_cons_some hlimit hpick] at hp
            rcases List.mem_cons.1 hp with rfl | hp
            · rcases pick_some hpick with ⟨hkey, hused, hok⟩
              exact ⟨le_refl i, hkey, hused, a, by simp, hok⟩
            · exact hlater _ (Finset.subset_insert k used) _ p hp

/-- Later pairs stand at later positions and have other keys, as a matched key is used up. -/
theorem matching_pairwise {limit i : Nat} {items : List A} :
    (matching ok keys limit used i items).Pairwise fun p q => p.1 < q.1 ∧ p.2 ≠ q.2 := by
  induction items generalizing limit used i with
  | nil => exact List.Pairwise.nil
  | cons a rest ih =>
      by_cases hlimit : limit = 0
      · rw [hlimit, matching_stop]
        exact List.Pairwise.nil
      · cases hpick : pick ok keys used a with
        | none =>
            rw [matching_cons_none hlimit hpick]
            exact ih
        | some k =>
            rw [matching_cons_some hlimit hpick, List.pairwise_cons]
            refine ⟨fun p hp => ?_, ih⟩
            rcases matching_mem p hp with ⟨hle, -, hused, -⟩
            exact ⟨hle, fun heq => hused (heq ▸ Finset.mem_insert_self k used)⟩

/-- No position is matched twice. -/
theorem matching_positions_nodup {limit i : Nat} {items : List A} :
    ((matching ok keys limit used i items).map Prod.fst).Nodup := by
  rw [List.Nodup, List.pairwise_map]
  exact matching_pairwise.imp fun h => h.1.ne

/-- No key is matched twice. -/
theorem matching_keys_nodup {limit i : Nat} {items : List A} :
    ((matching ok keys limit used i items).map Prod.snd).Nodup := by
  rw [List.Nodup, List.pairwise_map]
  exact matching_pairwise.imp fun h => h.2

/-! ## Nothing is missed -/

/-- If no item is accepted by two keys, the loop ends at its limit or has matched every key that
accepts an item. -/
theorem matching_full {limit i : Nat} {items : List A}
    (huniq : ∀ a ∈ items, ∀ k ∈ keys, ∀ k' ∈ keys, ok k a = true → ok k' a = true → k = k') :
    (matching ok keys limit used i items).length = limit ∨
      ∀ k ∈ keys, k ∉ used → (∃ a ∈ items, ok k a = true) →
        k ∈ (matching ok keys limit used i items).map Prod.snd := by
  induction items generalizing limit used i with
  | nil =>
      refine Or.inr ?_
      rintro k _ _ ⟨a, ha, -⟩
      cases ha
  | cons a rest ih =>
      rw [List.forall_mem_cons] at huniq
      by_cases hlimit : limit = 0
      · rw [hlimit, matching_stop]
        exact Or.inl rfl
      · cases hpick : pick ok keys used a with
        | none =>
            -- a key that accepts this item is used up already
            rw [matching_cons_none hlimit hpick]
            rcases ih huniq.2 with hlen | hall
            · exact Or.inl hlen
            · refine Or.inr ?_
              rintro k hk hused ⟨b, hb, hok⟩
              rcases List.mem_cons.1 hb with rfl | hb
              · exact (hused (pick_none hpick hk hok)).elim
              · exact hall k hk hused ⟨b, hb, hok⟩
        | some k₀ =>
            rw [matching_cons_some hlimit hpick]
            rcases pick_some hpick with ⟨hkey, -, hok₀⟩
            rcases ih huniq.2 with hlen | hall
            · refine Or.inl ?_
              rw [List.length_cons, hlen]
              omega
            · refine Or.inr ?_
              rintro k hk hused ⟨b, hb, hok⟩
              rw [List.map_cons, List.mem_cons]
              by_cases heq : k = k₀
              · exact Or.inl heq
              · refine Or.inr (hall k hk ?_ ?_)
                · rw [Finset.mem_insert, not_or]
                  exact ⟨heq, hused⟩
                · -- the item taken is accepted by `k₀` only
                  rcases List.mem_cons.1 hb with rfl | hb
                  · exact (heq (huniq.1 k hk k₀ hkey hok hok₀)).elim
                  · exact ⟨b, hb, hok⟩

/-- So a matching of distinct keys that accept items is at most as long. -/
theorem le_length_matching {limit i : Nat} {items : List A} {ks : List K}
    (huniq : ∀ a ∈ items, ∀ k ∈ keys, ∀ k' ∈ keys, ok k a = true → ok k' a = true → k = k')
    (hnodup : ks.Nodup) (hlimit : limit ≤ ks.length)
    (hks : ∀ k ∈ ks, k ∈ keys ∧ k ∉ used ∧ ∃ a ∈ items, ok k a = true) :
    limit ≤ (matching ok keys limit used i items).length := by
  have hfull : (matching ok keys limit used i items).length = limit ∨ _ := matching_full huniq
  rcases hfull with hlen | hall
  · exact hlen.ge
  · have hsubset : ks ⊆ (matching ok keys limit used i items).map Prod.snd := fun k hk =>
      hall k (hks k hk).1 (hks k hk).2.1 (hks k hk).2.2
    have hle := (List.subperm_of_subset hnodup hsubset).length_le
    rw [List.length_map] at hle
    omega

end Lib
