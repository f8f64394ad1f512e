import Mathlib.Data.List.Forall2

/-!
# Checks — sequences of checks in `Except`

A validator is a sequence of checks, each of which returns an error and ends the function.  This
file defines `failIf`, one such check, and says when a sequence of checks gets to its end and with
which error it stops before.

The loops at the end ask something of every element, and the question may fail.
-/

namespace Lib

universe u

variable {ε : Type*}

/-- `if p { return Err(e) }`. -/
def failIf (p : Prop) [Decidable p] (e : ε) : Except ε Unit :=
  if p then .error e else .ok ()

theorem failIf_eq_ok {p : Prop} [Decidable p] {e : ε} : failIf p e = .ok () ↔ ¬ p := by
  by_cases h : p <;> simp [failIf, h]

theorem bind_eq_ok {α β : Type u} {x : Except ε α} {f : α → Except ε β} {b : β} :
    x >>= f = .ok b ↔ ∃ a, x = .ok a ∧ f a = .ok b := by
  cases x with
  | error e =>
      constructor
      · intro h
        cases h
      · rintro ⟨a, ha, -⟩
        cases ha
  | ok a =>
      constructor
      · intro h
        exact ⟨a, rfl, h⟩
      · rintro ⟨a', ha, h⟩
        cases ha
        exact h

theorem failIf_bind_eq_ok {p : Prop} [Decidable p] {e : ε} {β : Type} {f : Unit → Except ε β}
    {b : β} :
    failIf p e >>= f = .ok b ↔ ¬ p ∧ f () = .ok b := by
  rw [bind_eq_ok]
  constructor
  · rintro ⟨u, hu, h⟩
    exact ⟨failIf_eq_ok.1 hu, h⟩
  · rintro ⟨hp, h⟩
    exact ⟨(), failIf_eq_ok.2 hp, h⟩

theorem bind_eq_error {α β : Type u} {x : Except ε α} {f : α → Except ε β} {e : ε} :
    x >>= f = .error e ↔ x = .error e ∨ ∃ a, x = .ok a ∧ f a = .error e := by
  cases x with
  | error e' =>
      constructor
      · intro h
        exact Or.inl (congrArg Except.error (Except.error.inj h))
      · rintro (h | ⟨a, ha, -⟩)
        · exact congrArg Except.error (Except.error.inj h)
        · cases ha
  | ok a =>
      constructor
      · intro h
        exact Or.inr ⟨a, rfl, h⟩
      · rintro (h | ⟨a', ha, h⟩)
        · cases h
        · cases ha
          exact h

theorem failIf_eq_error {p : Prop} [Decidable p] {e e' : ε} :
    failIf p e = .error e' ↔ p ∧ e = e' := by
  by_cases h : p <;> simp [failIf, h]

theorem failIf_bind_eq_error {p : Prop} [Decidable p] {e e' : ε} {β : Type}
    {f : Unit → Except ε β} :
    failIf p e >>= f = .error e' ↔ (p ∧ e = e') ∨ ¬ p ∧ f () = .error e' := by
  rw [bind_eq_error, failIf_eq_error]
  refine or_congr_right ⟨?_, ?_⟩
  · rintro ⟨u, hu, h⟩
    exact ⟨failIf_eq_ok.1 hu, h⟩
  · rintro ⟨hp, h⟩
    exact ⟨(), failIf_eq_ok.2 hp, h⟩

/-! Errors can be wrapped. -/

section MapError

variable {ε' : Type*} {g : ε → ε'}

theorem mapError_eq_ok {α : Type*} {x : Except ε α} {a : α} :
    x.mapError g = .ok a ↔ x = .ok a := by
  cases x <;> simp [Except.mapError]

theorem mapError_eq_error {α : Type*} {x : Except ε α} {e' : ε'} :
    x.mapError g = .error e' ↔ ∃ e, x = .error e ∧ g e = e' := by
  cases x <;> simp [Except.mapError]

theorem mapError_bind {α β : Type u} (x : Except ε α) (f : α → Except ε β) :
    (x >>= f).mapError g = x.mapError g >>= fun a => (f a).mapError g := by
  cases x with
  | error e => rfl
  | ok a => rfl

theorem mapError_failIf (p : Prop) [Decidable p] (e : ε) :
    (failIf p e).mapError g = failIf p (g e) := by
  by_cases h : p
  · rw [failIf, failIf, if_pos h, if_pos h]
    rfl
  · rw [failIf, failIf, if_neg h, if_neg h]
    rfl

end MapError

/-- A check written as a branch. -/
theorem ite_error_eq_ok {α : Type*} {p : Prop} [Decidable p] {e : ε} {x : Except ε α} {a : α} :
    (if p then .error e else x) = .ok a ↔ ¬ p ∧ x = .ok a := by
  by_cases h : p <;> simp [h]

/-- The same for a function that also returns a state. -/
theorem ite_error_snd_eq_ok {α σ : Type*} {p : Prop} [Decidable p] {s : σ} {e : ε}
    {x : σ × Except ε α} {a : α} :
    (if p then (s, .error e) else x).2 = .ok a ↔ ¬ p ∧ x.2 = .ok a := by
  by_cases h : p <;> simp [h]

/-- A result that is known to be a success is its value. -/
theorem eq_ok_get {α : Type*} {x : Except ε α} (h : x.toOption.isSome) :
    x = .ok (x.toOption.get h) := by
  cases x with
  | error e => cases h
  | ok a => rfl

/-- A traversal succeeds exactly when it does so at every element. -/
theorem mapM_eq_ok {α β : Type} {f : α → Except ε β} {l : List α} {l' : List β} :
    l.mapM f = .ok l' ↔ List.Forall₂ (fun a b => f a = .ok b) l l' := by
  induction l generalizing l' with
  | nil =>
      rw [List.mapM_nil, List.forall₂_nil_left_iff]
      constructor
      · intro h
        cases h
        rfl
      · rintro rfl
        rfl
  | cons a l ih =>
      rw [List.mapM_cons, bind_eq_ok, List.forall₂_cons_left_iff]
      constructor
      · rintro ⟨b, hb, hrest⟩
        rcases bind_eq_ok.1 hrest with ⟨bs, hbs, hok⟩
        cases hok
        exact ⟨b, bs, hb, ih.1 hbs, rfl⟩
      · rintro ⟨b, bs, hb, hbs, rfl⟩
        exact ⟨b, hb, bind_eq_ok.2 ⟨bs, ih.2 hbs, rfl⟩⟩

/-- The same for a traversal in `Option`. -/
theorem mapM_eq_some {α β : Type} {f : α → Option β} {l : List α} {l' : List β} :
    l.mapM f = some l' ↔ List.Forall₂ (fun a b => f a = some b) l l' := by
  induction l generalizing l' with
  | nil =>
      rw [List.mapM_nil, List.forall₂_nil_left_iff]
      exact ⟨fun h => (Option.some.inj h).symm, fun h => h ▸ rfl⟩
  | cons a l ih =>
      rw [List.mapM_cons, List.forall₂_cons_left_iff]
      simp only [Option.bind_eq_bind, Option.bind_eq_some_iff, Option.pure_def, Option.some.injEq]
      constructor
      · rintro ⟨b, hb, bs, hbs, rfl⟩
        exact ⟨b, bs, hb, ih.1 hbs, rfl⟩
      · rintro ⟨b, bs, hb, hbs, rfl⟩
        exact ⟨b, hb, bs, ih.2 hbs, rfl⟩

theorem exists_of_mapM_eq_ok {α β : Type} {f : α → Except ε β} {l : List α} {l' : List β}
    (h : l.mapM f = .ok l') : ∀ b ∈ l', ∃ a ∈ l, f a = .ok b := by
  have hpairs := mapM_eq_ok.1 h
  clear h
  induction hpairs with
  | nil =>
      intro b hb
      cases hb
  | @cons a b l l' hab _ ih =>
      intro b' hb'
      rcases List.mem_cons.1 hb' with rfl | hb'
      · exact ⟨a, List.mem_cons_self, hab⟩
      · rcases ih b' hb' with ⟨a', ha', hok⟩
        exact ⟨a', List.mem_cons_of_mem a ha', hok⟩

/-! ## Loops that fail at an element -/

section Loops

variable {α β ι : Type*}

/-- `retain` with a question that may fail. -/
def filterChecked (p : α → Option Bool) : List α → Option (List α)
  | [] => some []
  | a :: l =>
      match p a with
      | none => none
      | some keep => (filterChecked p l).map fun rest => if keep then a :: rest else rest

theorem filterChecked_of_forall {p : α → Option Bool} {q : α → Bool} {l : List α}
    (h : ∀ a ∈ l, p a = some (q a)) : filterChecked p l = some (l.filter q) := by
  induction l with
  | nil => rfl
  | cons a l ih =>
      rw [List.forall_mem_cons] at h
      simp only [filterChecked, h.1, ih h.2, Option.map_some, List.filter_cons]

theorem filterChecked_eq_none {p : α → Option Bool} {l : List α} :
    filterChecked p l = none ↔ ∃ a ∈ l, p a = none := by
  induction l with
  | nil => simp [filterChecked]
  | cons a l ih =>
      rw [List.exists_mem_cons_iff, ← ih]
      cases h : p a with
      | none => simp [filterChecked, h]
      | some keep => simp [filterChecked, h]

variable [DecidableEq ι]

/-- Rewrite the entries of a table one after the other. -/
def updateEach (f : β → Option β) (l : List ι) (t : ι → β) : Option (ι → β) :=
  l.foldlM (fun t i => (f (t i)).map fun b => Function.update t i b) t

theorem updateEach_cons {f : β → Option β} {i : ι} {l : List ι} {t : ι → β} :
    updateEach f (i :: l) t =
      (f (t i)).bind fun b => updateEach f l (Function.update t i b) := by
  rw [updateEach, List.foldlM_cons]
  cases h : f (t i) with
  | none => rfl
  | some b => rfl

theorem updateEach_of_forall {f : β → Option β} {g : β → β} {l : List ι} {t : ι → β}
    (hnodup : l.Nodup) (h : ∀ i ∈ l, f (t i) = some (g (t i))) :
    updateEach f l t = some fun i => if i ∈ l then g (t i) else t i := by
  induction l generalizing t with
  | nil => simp [updateEach]
  | cons i l ih =>
      rw [List.nodup_cons] at hnodup
      rw [List.forall_mem_cons] at h
      have hother : ∀ j ∈ l, Function.update t i (g (t i)) j = t j := fun j hj =>
        Function.update_of_ne (fun heq : j = i => hnodup.1 (heq ▸ hj)) _ _
      have hrest : ∀ j ∈ l, f (Function.update t i (g (t i)) j) =
          some (g (Function.update t i (g (t i)) j)) := by
        intro j hj
        rw [hother j hj]
        exact h.2 j hj
      rw [updateEach_cons, h.1, Option.bind_some, ih hnodup.2 hrest]
      refine congrArg some (funext fun j => ?_)
      by_cases hj : j ∈ l
      · rw [if_pos hj, if_pos (List.mem_cons_of_mem i hj), hother j hj]
      · by_cases hji : j = i
        · rw [hji, if_neg hnodup.1, if_pos List.mem_cons_self, Function.update_self]
        · rw [if_neg hj, if_neg (by simp [hji, hj]), Function.update_of_ne hji]

theorem updateEach_eq_none {f : β → Option β} {l : List ι} {t : ι → β} (hnodup : l.Nodup)
    {i : ι} (hi : i ∈ l) (h : f (t i) = none) : updateEach f l t = none := by
  induction l generalizing t with
  | nil => cases hi
  | cons j l ih =>
      rw [List.nodup_cons] at hnodup
      rw [updateEach_cons]
      rcases List.mem_cons.1 hi with rfl | hi
      · rw [h, Option.bind_none]
      · cases f (t j) with
        | none => rfl
        | some b =>
            -- the entry that fails has not been written yet
            refine ih hnodup.2 hi ?_
            rwa [Function.update_of_ne fun heq : i = j => hnodup.1 (heq ▸ hi)]

end Loops

end Lib
