import Aevum.Lib.Run

/-!
# Replicas — two runs with the same visible labels

Replicas of one system make the same visible steps; silent steps, which every replica makes on its
own, may come anywhere between.  `visible` gives what is visible of a label.

* `Run.exists_visible` : the last visible step of a run, with silent steps behind it;
* `Run.agree` : if silent steps stay within a relation and visible steps preserve it, then replicas
  with the same visible steps end in related states.
-/

namespace Lib

variable {S L O : Type*} {step : S → L → S → Prop} {s₀ s s' : S} {tr tr' : List L}
  {visible : L → Option O} {R : S → S → Prop}

/-- Silent steps alone stay within the relation. -/
theorem Run.silent (hR : Equivalence R)
    (hsilent : ∀ s l s', step s l s' → visible l = none → R s s') (h : Run step s₀ tr s)
    (hnone : tr.filterMap visible = []) : R s₀ s := by
  refine RunWith.invariant (fun tr s => tr.filterMap visible = [] → R s₀ s) (fun _ => hR.refl s₀)
    ?_ h hnone
  intro tr s₁ l s₂ _ ih hstep _ hnone
  rw [List.filterMap_append, List.append_eq_nil_iff] at hnone
  refine hR.trans (ih hnone.1) (hsilent s₁ l s₂ hstep ?_)
  cases hl : visible l with
  | none => rfl
  | some o =>
      rw [List.filterMap_cons_some hl] at hnone
      cases hnone.2

/-- The last visible step, and the steps before it. -/
theorem Run.exists_visible (hR : Equivalence R)
    (hsilent : ∀ s l s', step s l s' → visible l = none → R s s') (h : Run step s₀ tr s)
    {os : List O} {o : O} (hos : tr.filterMap visible = os ++ [o]) :
    ∃ tr₁ s₁ l s₂, Run step s₀ tr₁ s₁ ∧ tr₁.filterMap visible = os ∧ step s₁ l s₂ ∧
      visible l = some o ∧ R s₂ s := by
  refine RunWith.invariant (fun tr s => tr.filterMap visible = os ++ [o] →
    ∃ tr₁ s₁ l s₂, Run step s₀ tr₁ s₁ ∧ tr₁.filterMap visible = os ∧ step s₁ l s₂ ∧
      visible l = some o ∧ R s₂ s) ?_ ?_ h hos
  · intro hnil
    exact (List.append_ne_nil_of_right_ne_nil os (List.cons_ne_nil o []) hnil.symm).elim
  · intro tr s₁ l s₂ hrun ih hstep _ hos
    rw [List.filterMap_append] at hos
    cases hl : visible l with
    | none =>
        rw [List.filterMap_cons_none hl, List.filterMap_nil, List.append_nil] at hos
        rcases ih hos with ⟨tr₁, u₁, l₁, u₂, hrun₁, hos₁, hstep₁, hl₁, hagree⟩
        exact ⟨tr₁, u₁, l₁, u₂, hrun₁, hos₁, hstep₁, hl₁,
          hR.trans hagree (hsilent s₁ l s₂ hstep hl)⟩
    | some o' =>
        rw [List.filterMap_cons_some hl, List.filterMap_nil] at hos
        rcases List.append_inj' hos rfl with ⟨hos₁, ho⟩
        cases ho
        exact ⟨tr, s₁, l, s₂, hrun, hos₁, hstep, hl, hR.refl s₂⟩

/-- Replicas with the same visible steps end in related states. -/
theorem Run.agree (hR : Equivalence R)
    (hsilent : ∀ s l s', step s l s' → visible l = none → R s s')
    (hvisible : ∀ s l s₁ s' l' s₁' o, step s l s₁ → step s' l' s₁' → visible l = some o →
      visible l' = some o → R s s' → R s₁ s₁')
    (h : Run step s₀ tr s) (h' : Run step s₀ tr' s')
    (hsame : tr.filterMap visible = tr'.filterMap visible) : R s s' := by
  refine RunWith.invariant (fun tr s => ∀ tr' s', Run step s₀ tr' s' →
    tr.filterMap visible = tr'.filterMap visible → R s s') ?_ ?_ h tr' s' h' hsame
  · intro tr' s' h' hsame
    exact h'.silent hR hsilent hsame.symm
  · intro tr s₁ l s₂ _ ih hstep _ tr' s' h' hsame
    rw [List.filterMap_append] at hsame
    cases hl : visible l with
    | none =>
        rw [List.filterMap_cons_none hl, List.filterMap_nil, List.append_nil] at hsame
        exact hR.trans (hR.symm (hsilent s₁ l s₂ hstep hl)) (ih tr' s' h' hsame)
    | some o =>
        -- the other replica has made the same visible step last
        rw [List.filterMap_cons_some hl, List.filterMap_nil] at hsame
        rcases h'.exists_visible hR hsilent hsame.symm with
          ⟨tr₁, u₁, l', u₂, hrun₁, hos, hstep', hl', hagree⟩
        exact hR.trans (hvisible _ _ _ _ _ _ o hstep hstep' hl hl' (ih tr₁ u₁ hrun₁ hos.symm))
          hagree

end Lib
