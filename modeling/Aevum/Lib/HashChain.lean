import Mathlib.Data.List.Chain
import Mathlib.Data.List.Forall2

/-!
# HashChain — append-only chains

A chain is a list of blocks, oldest first, each of which names the hash of the block before it and
lies higher.  The blocks, their hashes and their heights are arbitrary; `Linked.snoc` is the rule
by which a chain grows, and `Linked.forall₂_of_last` says that the hash of its last block fixes it.
-/

namespace Lib

variable {B H : Type*}

/-- Every block names its predecessor and lies above it. -/
def Linked (hash prev : B → H) (height : B → ℕ) (l : List B) : Prop :=
  l.IsChain fun a b => prev b = hash a ∧ height a < height b

namespace Linked

variable {hash prev : B → H} {height : B → ℕ} {l : List B} {b : B}

theorem single (b : B) : Linked hash prev height [b] := List.isChain_singleton b

/-- A chain grows by a block on top of its last one. -/
theorem snoc (h : Linked hash prev height l)
    (hlast : ∀ a ∈ l.getLast?, prev b = hash a ∧ height a < height b) :
    Linked hash prev height (l ++ [b]) := by
  refine List.isChain_append.2 ⟨h, List.isChain_singleton b, ?_⟩
  intro a ha c hc
  rw [List.head?_cons, Option.mem_def, Option.some_inj] at hc
  exact hc ▸ hlast a ha

/-- Along a chain the heights increase, so no two blocks share one. -/
theorem pairwise_height (h : Linked hash prev height l) :
    l.Pairwise fun a b => height a < height b := by
  have : Trans (fun a b : B => height a < height b) (fun a b : B => height a < height b)
      (fun a b : B => height a < height b) := ⟨fun hab hbc => Nat.lt_trans hab hbc⟩
  exact List.isChain_iff_pairwise.1 (h.imp fun _ _ hab => hab.2)

/-- What the last block of a chain says about the block before it. -/
theorem of_snoc (h : Linked hash prev height (l ++ [b])) :
    Linked hash prev height l ∧ ∀ a ∈ l.getLast?, prev b = hash a ∧ height a < height b := by
  rcases List.isChain_append.1 h with ⟨hl, -, hlast⟩
  exact ⟨hl, fun a ha => hlast a ha b rfl⟩

/-- A block no higher than the first one is the first one. -/
theorem eq_nil_of_le (h : Linked hash prev height (l ++ [b]))
    (hle : ∀ a ∈ (l ++ [b]).head?, height b ≤ height a) : l = [] := by
  cases l with
  | nil => rfl
  | cons a rest =>
      have hlt := (List.pairwise_append.1 h.pairwise_height).2.2 a List.mem_cons_self b
        List.mem_cons_self
      exact absurd hlt (not_lt_of_ge (hle a rfl))

/-- Two chains that start at one height and whose last blocks have one hash are the same chain, as
far as a hash fixes its block. -/
theorem forall₂_of_last {same : B → B → Prop} {l' : List B}
    (hsame : ∀ a ∈ l, ∀ b ∈ l', hash a = hash b → same a b)
    (hprev : ∀ a b, same a b → prev a = prev b ∧ height a = height b)
    (h : Linked hash prev height l) (h' : Linked hash prev height l')
    (hhead : ∀ a ∈ l.head?, ∀ b ∈ l'.head?, height a = height b)
    (hlast : l.getLast?.map hash = l'.getLast?.map hash) : List.Forall₂ same l l' := by
  induction l using List.reverseRecOn generalizing l' with
  | nil =>
      rw [List.getLast?_nil, Option.map_none, eq_comm, Option.map_eq_none_iff,
        List.getLast?_eq_none_iff] at hlast
      rw [hlast]
      exact List.Forall₂.nil
  | append_singleton front a ih =>
      rcases List.eq_nil_or_concat l' with rfl | ⟨front', b, rfl⟩
      · rw [List.getLast?_concat] at hlast
        cases hlast
      rw [List.concat_eq_append] at *
      rw [List.getLast?_concat, List.getLast?_concat] at hlast
      have hab := hsame a (List.mem_append_right _ List.mem_cons_self) b
        (List.mem_append_right _ List.mem_cons_self) (Option.some.inj hlast)
      rcases hprev a b hab with ⟨hprevs, hheights⟩
      rcases h.of_snoc with ⟨hfront, hbelow⟩
      rcases h'.of_snoc with ⟨hfront', hbelow'⟩
      refine List.rel_append ?_ (List.Forall₂.cons hab List.Forall₂.nil)
      cases hx : front.getLast? with
      | none =>
          -- both are first blocks
          rw [List.getLast?_eq_none_iff] at hx
          subst hx
          have hnil : front' = [] := h'.eq_nil_of_le fun c hc =>
            (hheights ▸ hhead a rfl c hc :).le
          rw [hnil]
          exact List.Forall₂.nil
      | some x =>
          cases hy : front'.getLast? with
          | none =>
              rw [List.getLast?_eq_none_iff] at hy
              subst hy
              have hnil : front = [] := h.eq_nil_of_le fun c hc =>
                (hheights.trans (hhead c hc b rfl).symm).le
              rw [hnil] at hx
              cases hx
          | some y =>
              have hx' : x ∈ front := List.mem_of_getLast? hx
              have hy' : y ∈ front' := List.mem_of_getLast? hy
              refine ih ?_ hfront hfront' ?_ ?_
              · intro c hc d hd
                exact hsame c (List.mem_append_left _ hc) d (List.mem_append_left _ hd)
              · intro c hc d hd
                exact hhead c (List.mem_head?_append_of_mem_head? hc) d
                  (List.mem_head?_append_of_mem_head? hd)
              · rw [hx, hy, Option.map_some, Option.map_some, ← (hbelow x hx).1,
                  ← (hbelow' y hy).1, hprevs]

end Linked
end Lib
