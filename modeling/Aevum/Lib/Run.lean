import Mathlib.Data.List.Induction

/-!
# Run — traces of a labelled step relation

A system is a step relation `step : S → L → S → Prop` together with a start state; a label records
one call and whatever it returned.  This file defines:

* `RunWith step P s₀ tr s` : the labels `tr` lead from `s₀` to `s`, and every step on the way
  satisfies `P`, a property of the labels so far, the state before, the label and the state after;
* `Run step s₀ tr s` : the same without a condition on the steps;
* `RunWith.invariant` : the induction rule, for invariants that may mention the trace;
* `RunWith.after` : the same from a label of the trace on;
* `RunWith.prefixed` : what holds of a whole trace can be used at every step, as far as prefixes
  inherit it;
* `RunWith.congr` : two step properties that agree wherever both have held so far allow the
  same runs.
-/

namespace Lib

variable {S L : Type*}

/-! ## Runs -/

/-- Runs from `s₀` all of whose steps satisfy `P`. -/
inductive RunWith (step : S → L → S → Prop) (P : List L → S → L → S → Prop) (s₀ : S) :
    List L → S → Prop where
  | nil : RunWith step P s₀ [] s₀
  | snoc {tr : List L} {s s' : S} {l : L} :
      RunWith step P s₀ tr s → step s l s' → P tr s l s' → RunWith step P s₀ (tr ++ [l]) s'

/-- All runs from `s₀`. -/
abbrev Run (step : S → L → S → Prop) (s₀ : S) : List L → S → Prop :=
  RunWith step (fun _ _ _ _ => True) s₀

variable {step : S → L → S → Prop} {P Q : List L → S → L → S → Prop} {s₀ s s' : S}
  {tr : List L} {l : L}

theorem Run.snoc (h : Run step s₀ tr s) (hstep : step s l s') : Run step s₀ (tr ++ [l]) s' :=
  RunWith.snoc h hstep trivial

theorem Run.single (hstep : step s₀ l s') : Run step s₀ [l] s' :=
  Run.snoc RunWith.nil hstep

/-- A run can go on where another one ends, if its condition does not look at the trace. -/
theorem RunWith.append {Q : S → L → S → Prop} {tr' : List L}
    (h : RunWith step (fun _ => Q) s₀ tr s) (h' : RunWith step (fun _ => Q) s tr' s') :
    RunWith step (fun _ => Q) s₀ (tr ++ tr') s' := by
  induction h' with
  | nil =>
      rw [List.append_nil]
      exact h
  | snoc _ hstep hQ ih =>
      rw [← List.append_assoc]
      exact RunWith.snoc ih hstep hQ

/-- The last step of a run. -/
theorem RunWith.exists_last (h : RunWith step P s₀ (tr ++ [l]) s) :
    ∃ s₁, RunWith step P s₀ tr s₁ ∧ step s₁ l s ∧ P tr s₁ l s := by
  generalize hall : tr ++ [l] = all at h
  cases h with
  | nil => exact (List.append_ne_nil_of_right_ne_nil tr (List.cons_ne_nil l []) hall).elim
  | @snoc tr₀ s₁ s l₀ hrun hstep hP =>
      rcases List.append_inj' hall rfl with ⟨rfl, hlabel⟩
      cases hlabel
      exact ⟨s₁, hrun, hstep, hP⟩

/-- Every label of a run is a step from a state that the labels before it lead to. -/
theorem RunWith.exists_step {tr tr' : List L} (h : RunWith step P s₀ (tr ++ l :: tr') s) :
    ∃ s₁ s₂, RunWith step P s₀ tr s₁ ∧ step s₁ l s₂ ∧ P tr s₁ l s₂ := by
  generalize hall : tr ++ l :: tr' = all at h
  induction h generalizing tr' with
  | nil => exact (List.append_ne_nil_of_right_ne_nil tr (List.cons_ne_nil l tr') hall).elim
  | @snoc tr₀ s s' l₀ hrun hstep hP ih =>
      -- the label is the last one, or it belongs to the run without the last step
      rcases List.eq_nil_or_concat tr' with rfl | ⟨mid, x, rfl⟩
      · rcases List.append_inj' hall rfl with ⟨rfl, hl⟩
        cases hl
        exact ⟨s, s', hrun, hstep, hP⟩
      · have hsplit : (tr ++ l :: mid) ++ [x] = tr₀ ++ [l₀] := by
          rw [← hall, List.concat_eq_append, List.append_assoc, List.cons_append]
        exact ih (List.append_inj' hsplit rfl).1

/-! ## Rules -/

/-- A property of trace and state that holds at the start and that every step of a run keeps
holds at the end of every run. -/
theorem RunWith.invariant (I : List L → S → Prop) (hnil : I [] s₀)
    (hsnoc : ∀ tr s l s', RunWith step P s₀ tr s → I tr s → step s l s' → P tr s l s' →
      I (tr ++ [l]) s')
    (h : RunWith step P s₀ tr s) : I tr s := by
  induction h with
  | nil => exact hnil
  | snoc hrun hstep hP ih => exact hsnoc _ _ _ _ hrun ih hstep hP

/-- The same rule for a property of the state alone. -/
theorem RunWith.invariant_state (I : S → Prop) (hinit : I s₀)
    (hkeep : ∀ tr s l s', RunWith step P s₀ tr s → I s → step s l s' → P tr s l s' → I s')
    (h : RunWith step P s₀ tr s) : I s :=
  RunWith.invariant (fun _ s => I s) hinit hkeep h

/-- What a label establishes and every later step keeps holds at the end; the property may mention
the labels since then. -/
theorem RunWith.after (I : List L → S → Prop) {tr₁ tr₂ : List L}
    (hl : ∀ s₁ s₂, RunWith step P s₀ tr₁ s₁ → step s₁ l s₂ → I [] s₂)
    (hsnoc : ∀ tr s l' s', RunWith step P s₀ (tr₁ ++ l :: tr) s → I tr s → step s l' s' →
      I (tr ++ [l']) s')
    (h : RunWith step P s₀ (tr₁ ++ l :: tr₂) s) : I tr₂ s := by
  induction tr₂ using List.reverseRecOn generalizing s with
  | nil =>
      rcases h.exists_last with ⟨s₁, hrun, hstep, -⟩
      exact hl s₁ s hrun hstep
  | append_singleton tr l' ih =>
      rw [← List.cons_append, ← List.append_assoc] at h
      rcases h.exists_last with ⟨s₁, hrun, hstep, -⟩
      exact hsnoc tr s₁ l' s hrun (ih hrun) hstep

/-- One direction of `RunWith.congr`. -/
theorem RunWith.imp
    (himp : ∀ tr s l s', RunWith step P s₀ tr s → RunWith step Q s₀ tr s → step s l s' →
      P tr s l s' → Q tr s l s')
    (h : RunWith step P s₀ tr s) : RunWith step Q s₀ tr s := by
  induction h with
  | nil => exact RunWith.nil
  | snoc hrun hstep hP ih => exact RunWith.snoc ih hstep (himp _ _ _ _ hrun ih hstep hP)

/-- The labels up to a step are a prefix of the whole trace. -/
theorem RunWith.prefixed (h : RunWith step P s₀ tr s) :
    RunWith step (fun tr₁ _ l _ => tr₁ ++ [l] <+: tr) s₀ tr s := by
  induction h with
  | nil => exact RunWith.nil
  | @snoc tr s s' l _ hstep _ ih =>
      refine RunWith.snoc (ih.imp ?_) hstep List.prefix_rfl
      intro _ _ _ _ _ _ _ hle
      exact hle.trans (List.prefix_append tr [l])

/-- If `P` and `Q` agree on every step taken after a run that satisfies both, then the runs whose
steps satisfy `P` are the runs whose steps satisfy `Q`. -/
theorem RunWith.congr
    (hiff : ∀ tr s l s', RunWith step P s₀ tr s → RunWith step Q s₀ tr s → step s l s' →
      (P tr s l s' ↔ Q tr s l s')) :
    RunWith step P s₀ tr s ↔ RunWith step Q s₀ tr s := by
  constructor
  · exact RunWith.imp fun tr s l s' hP hQ hstep => (hiff tr s l s' hP hQ hstep).1
  · exact RunWith.imp fun tr s l s' hQ hP hstep => (hiff tr s l s' hP hQ hstep).2

end Lib
