import Mathlib.Data.Option.Basic

/-!
# ReverseIndex — looking entries up by their attributes

Two kinds of reverse indices `g`, which name a key `g a` for the attribute `a`:

* `Indexes f g` : `f k` is the attribute of the key `k`, if the key is in use, and several keys may
  have one attribute.  When a key gives its attribute up and the index forgets the attribute, the
  index stays right exactly if no other key has it (`Indexes.erase_iff`, `Indexes.put_iff`);
* `IndexesAll has g` : a key may have many attributes, and `g` names the only key that has one.
  Such an index is kept by `IndexesAll.erase` and `IndexesAll.put`.
-/

namespace Lib

variable {K A : Type*}

/-! ## Attributes that keys share -/

/-- `g` is a reverse index of `f`. -/
structure Indexes (f : K → Option A) (g : A → Option K) : Prop where
  named : ∀ a k, g a = some k → f k = some a
  indexed : ∀ a k, f k = some a → ∃ k', g a = some k'

/-- No key other than `k` has the attribute `a`. -/
def OnlyAt (f : K → Option A) (k : K) (a : A) : Prop :=
  ∀ k', f k' = some a → k' = k

section Shared

variable {f f' : K → Option A} {g g' : A → Option K} {k : K} {a : A}

theorem Indexes.exists_iff (h : Indexes f g) (a : A) :
    (∃ k, g a = some k) ↔ ∃ k, f k = some a := by
  constructor
  · rintro ⟨k, hk⟩
    exact ⟨k, h.named a k hk⟩
  · rintro ⟨k, hk⟩
    exact h.indexed a k hk

variable [DecidableEq K] [DecidableEq A]

/-- A key and its attribute are forgotten. -/
theorem Indexes.erase_iff (h : Indexes f g) (hf : ∀ k', f' k' = if k' = k then none else f k')
    (hg : ∀ a, g' a = if f k = some a then none else g a) :
    Indexes f' g' ↔ ∀ a, f k = some a → OnlyAt f k a := by
  constructor
  · intro h' a ha k' hk'
    by_contra hne
    -- the other key keeps the attribute, and the index has lost it
    have hkept : f' k' = some a := by
      rw [hf, if_neg hne, hk']
    rcases h'.indexed a k' hkept with ⟨k'', hk''⟩
    rw [hg, if_pos ha] at hk''
    cases hk''
  · intro honly
    constructor
    · intro a k' hk'
      rw [hg] at hk'
      split at hk'
      · cases hk'
      · next hne =>
          have hfk := h.named a k' hk'
          have hkk : k' ≠ k := fun heq => hne (heq ▸ hfk)
          rw [hf, if_neg hkk, hfk]
    · intro a k' hk'
      rw [hf] at hk'
      split at hk'
      · cases hk'
      · next hne =>
          rw [hg, if_neg fun ha => hne (honly a ha k' hk')]
          exact h.indexed a k' hk'

/-- A key gets a new attribute, after the old one has been forgotten. -/
theorem Indexes.put_iff (h : Indexes f g) (hf : ∀ k', f' k' = if k' = k then some a else f k')
    (hg : ∀ b, g' b = if b = a then some k else if f k = some b then none else g b) :
    Indexes f' g' ↔ ∀ b, f k = some b → b ≠ a → OnlyAt f k b := by
  constructor
  · intro h' b hb hba k' hk'
    by_contra hne
    have hkept : f' k' = some b := by
      rw [hf, if_neg hne, hk']
    rcases h'.indexed b k' hkept with ⟨k'', hk''⟩
    rw [hg, if_neg hba, if_pos hb] at hk''
    cases hk''
  · intro honly
    constructor
    · intro b k' hk'
      rw [hg] at hk'
      split at hk'
      · next hba =>
          cases hk'
          rw [hf, if_pos rfl, hba]
      · split at hk'
        · cases hk'
        · next hne =>
            have hfk := h.named b k' hk'
            have hkk : k' ≠ k := fun heq => hne (heq ▸ hfk)
            rw [hf, if_neg hkk, hfk]
    · intro b k' hk'
      rw [hf] at hk'
      split at hk'
      · cases hk'
        exact ⟨k, by rw [hg, if_pos rfl]⟩
      · next hne =>
          by_cases hba : b = a
          · exact ⟨k, by rw [hg, if_pos hba]⟩
          · rw [hg, if_neg hba, if_neg fun hb => hne (honly b hb hba k' hk')]
            exact h.indexed b k' hk'

end Shared

/-! ## Attributes of one key -/

/-- `g` names the key that has an attribute. -/
def IndexesAll (has : K → A → Prop) (g : A → Option K) : Prop :=
  ∀ a k, g a = some k ↔ has k a

variable [DecidableEq A] {has has' : K → A → Prop} {g g' : A → Option K}

/-- A key is forgotten with all its attributes. -/
theorem IndexesAll.erase (h : IndexesAll has g) (k : K) (as : List A) (hk : ∀ a, has k a ↔ a ∈ as)
    (hhas : ∀ k' a, has' k' a ↔ k' ≠ k ∧ has k' a)
    (hg : ∀ a, g' a = if a ∈ as then none else g a) : IndexesAll has' g' := by
  intro a k'
  rw [hg, hhas]
  by_cases ha : a ∈ as
  · -- `a` belongs to the key `k`, hence to no other
    rw [if_pos ha]
    refine iff_of_false nofun ?_
    rintro ⟨hne, hk'⟩
    have hsame := ((h a k).2 ((hk a).2 ha)).symm.trans ((h a k').2 hk')
    exact hne (Option.some.inj hsame).symm
  · rw [if_neg ha, h a k']
    constructor
    · intro hk'
      exact ⟨fun heq => ha ((hk a).1 (heq ▸ hk')), hk'⟩
    · exact And.right

/-- A new key comes with attributes that no other key has. -/
theorem IndexesAll.put (h : IndexesAll has g) (k : K) (as : List A) (hk : ∀ a, ¬ has k a)
    (hnew : ∀ a ∈ as, g a = none)
    (hhas : ∀ k' a, has' k' a ↔ k' = k ∧ a ∈ as ∨ k' ≠ k ∧ has k' a)
    (hg : ∀ a, g' a = if a ∈ as then some k else g a) : IndexesAll has' g' := by
  intro a k'
  rw [hg, hhas]
  by_cases hk' : k' = k
  · subst hk'
    by_cases ha : a ∈ as
    · simp [ha]
    · simp [ha, h a k', hk a]
  · by_cases ha : a ∈ as
    · -- an attribute in use is none of the new ones
      have hnot : ¬ has k' a := by
        intro hmem
        have hsome := (h a k').2 hmem
        rw [hnew a ha] at hsome
        cases hsome
      simp [ha, hk', hnot, Ne.symm hk']
    · simp [ha, hk', h a k']

end Lib
