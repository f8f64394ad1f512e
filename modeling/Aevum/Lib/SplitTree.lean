import Aevum.Lib.Tiling
import Mathlib.Data.List.Nodup
import Mathlib.Logic.Relation

/-!
# SplitTree — trees that grow at their leaves

A value is replaced by two values or changed in place, and the values it came from are remembered:
this is a binary tree whose inner nodes are the values that were split.  This file defines

* `SplitTree` with its `value`, `leaves` and `nodes`;
* `replaceLeaf` : one step, at a path and with an arbitrary operation on a leaf, with the rule
  `replaceLeaf_induction` for what a step does to a tree;
* `Built E t` : the values of every inner node and of its children are related by `E`;
* `IsChild t p c` : `c` is the value of a child of a node with value `p`;

and proves that a step keeps `Built`, that every node leads back to the root (`reaches_root`), and,
when the values stand for intervals and `E` halves them, that the leaves tile the interval of the
root and that no two nodes have the same interval.
-/

namespace Lib

inductive SplitTree (α : Type*)
  | leaf (a : α)
  | node (a : α) (l r : SplitTree α)

namespace SplitTree

variable {α : Type*}

def value : SplitTree α → α
  | leaf a => a
  | node a _ _ => a

/-- From left to right. -/
def leaves : SplitTree α → List α
  | leaf a => [a]
  | node _ l r => l.leaves ++ r.leaves

/-- The values of all nodes, leaves included. -/
def nodes : SplitTree α → List α
  | leaf a => [a]
  | node a l r => a :: (l.nodes ++ r.nodes)

def depth : SplitTree α → ℕ
  | leaf _ => 0
  | node _ l r => max l.depth r.depth + 1

theorem leaves_subset_nodes (t : SplitTree α) : t.leaves ⊆ t.nodes := by
  induction t with
  | leaf a => exact List.Subset.refl _
  | node a l r ihl ihr =>
      intro x hx
      rcases List.mem_append.1 hx with hx | hx
      · exact List.mem_cons_of_mem a (List.mem_append_left _ (ihl hx))
      · exact List.mem_cons_of_mem a (List.mem_append_right _ (ihr hx))

/-! ## One step -/

/-- The operation `f` at the leaf that the path leads to; `false` is the left child. -/
def replaceLeaf (f : α → Option (SplitTree α)) : List Bool → SplitTree α → Option (SplitTree α)
  | [], leaf a => f a
  | false :: path, node a l r => (replaceLeaf f path l).map fun l' => node a l' r
  | true :: path, node a l r => (replaceLeaf f path r).map fun r' => node a l r'
  | _, _ => none

variable {f : α → Option (SplitTree α)} {E : α → α → α → Prop} {V : α → Prop}

/-- A step changes a leaf, or goes on in one of the children. -/
theorem replaceLeaf_induction {P : SplitTree α → SplitTree α → Prop}
    (hleaf : ∀ a s, f a = some s → P (leaf a) s)
    (hleft : ∀ a l r l', P l l' → P (node a l r) (node a l' r))
    (hright : ∀ a l r r', P r r' → P (node a l r) (node a l r'))
    {path : List Bool} {t t' : SplitTree α} (h : replaceLeaf f path t = some t') : P t t' := by
  induction t generalizing path t' with
  | leaf a =>
      cases path with
      | nil => exact hleaf a t' h
      | cons d rest => cases d <;> cases h
  | node a l r ihl ihr =>
      cases path with
      | nil => cases h
      | cons d rest =>
          cases d with
          | false =>
              rcases Option.map_eq_some_iff.1 h with ⟨l', hl, rfl⟩
              exact hleft a l r l' (ihl hl)
          | true =>
              rcases Option.map_eq_some_iff.1 h with ⟨r', hr, rfl⟩
              exact hright a l r r' (ihr hr)

theorem forall_mem_node {a : α} {l r : SplitTree α} :
    (∀ x ∈ (node a l r).nodes, V x) ↔ V a ∧ (∀ x ∈ l.nodes, V x) ∧ ∀ x ∈ r.nodes, V x := by
  rw [nodes, List.forall_mem_cons, List.forall_mem_append]

/-- What holds of all nodes stays so, if it holds of all nodes that an operation puts in. -/
theorem forall_nodes_replaceLeaf {path : List Bool} {t t' : SplitTree α}
    (h : replaceLeaf f path t = some t')
    (hf : ∀ a s, V a → f a = some s → ∀ b ∈ s.nodes, V b) :
    (∀ a ∈ t.nodes, V a) → ∀ a ∈ t'.nodes, V a := by
  refine replaceLeaf_induction (P := fun t t' => (∀ a ∈ t.nodes, V a) → ∀ a ∈ t'.nodes, V a)
    ?_ ?_ ?_ h
  · intro a s hfa ht
    exact hf a s (ht a (List.mem_singleton_self a)) hfa
  · intro a l r l' ih ht
    rw [forall_mem_node] at ht ⊢
    exact ⟨ht.1, ih ht.2.1, ht.2.2⟩
  · intro a l r r' ih ht
    rw [forall_mem_node] at ht ⊢
    exact ⟨ht.1, ht.2.1, ih ht.2.2⟩

/-- An operation that changes leaves in place changes no more than what it changes of them. -/
theorem map_nodes_replaceLeaf {β : Type*} {g : α → β} {path : List Bool} {t t' : SplitTree α}
    (h : replaceLeaf f path t = some t')
    (hf : ∀ a s, V a → f a = some s → s.nodes.map g = [g a]) :
    (∀ a ∈ t.nodes, V a) → t'.nodes.map g = t.nodes.map g := by
  refine replaceLeaf_induction
    (P := fun t t' => (∀ a ∈ t.nodes, V a) → t'.nodes.map g = t.nodes.map g) ?_ ?_ ?_ h
  · intro a s hfa ht
    exact hf a s (ht a (List.mem_singleton_self a)) hfa
  · intro a l r l' ih ht
    simp only [nodes, List.map_cons, List.map_append, ih (forall_mem_node.1 ht).2.1]
  · intro a l r r' ih ht
    simp only [nodes, List.map_cons, List.map_append, ih (forall_mem_node.1 ht).2.2]

/-! ## Trees built by splitting -/

/-- Every inner node and its children are related. -/
def Built (E : α → α → α → Prop) : SplitTree α → Prop
  | leaf _ => True
  | node a l r => E a l.value r.value ∧ l.Built E ∧ r.Built E

/-- Related values can stand for each other in the place of a child. -/
structure Exchangeable (E : α → α → α → Prop) (R : α → α → Prop) : Prop where
  refl : ∀ a, R a a
  left : ∀ p a b s, R a b → E p a s → E p b s
  right : ∀ p a b s, R a b → E p s a → E p s b

/-- A step keeps a tree built, and its value up to `R`. -/
theorem built_replaceLeaf {R : α → α → Prop} {path : List Bool} {t t' : SplitTree α}
    (hR : Exchangeable E R) (h : replaceLeaf f path t = some t')
    (hf : ∀ a s, V a → f a = some s → s.Built E ∧ R a s.value) :
    (∀ a ∈ t.nodes, V a) → t.Built E → t'.Built E ∧ R t.value t'.value := by
  refine replaceLeaf_induction
    (P := fun t t' => (∀ a ∈ t.nodes, V a) → t.Built E → t'.Built E ∧ R t.value t'.value)
    ?_ ?_ ?_ h
  · intro a s hfa hV _
    exact hf a s (hV a (List.mem_singleton_self a)) hfa
  · rintro a l r l' ih hV ⟨hedge, hl, hr⟩
    -- the left child may have changed in place
    rcases ih (forall_mem_node.1 hV).2.1 hl with ⟨hbuilt, hvalue⟩
    exact ⟨⟨hR.left _ _ _ _ hvalue hedge, hbuilt, hr⟩, hR.refl a⟩
  · rintro a l r r' ih hV ⟨hedge, hl, hr⟩
    rcases ih (forall_mem_node.1 hV).2.2 hr with ⟨hbuilt, hvalue⟩
    exact ⟨⟨hR.right _ _ _ _ hvalue hedge, hl, hbuilt⟩, hR.refl a⟩

theorem Built.imp {E' : α → α → α → Prop} (himp : ∀ p x y, E p x y → E' p x y)
    {t : SplitTree α} (ht : t.Built E) : t.Built E' := by
  induction t with
  | leaf a => trivial
  | node a l r ihl ihr => exact ⟨himp _ _ _ ht.1, ihl ht.2.1, ihr ht.2.2⟩

/-! ## The way to the root -/

/-- `c` is the value of a child of a node with value `p`. -/
def IsChild : SplitTree α → α → α → Prop
  | leaf _, _, _ => False
  | node a l r, p, c => (p = a ∧ (c = l.value ∨ c = r.value)) ∨ l.IsChild p c ∨ r.IsChild p c

theorem IsChild.parent_mem {t : SplitTree α} {p c : α} (h : t.IsChild p c) : p ∈ t.nodes := by
  induction t with
  | leaf a => cases h
  | node a l r ihl ihr =>
      rcases h with ⟨rfl, -⟩ | h | h
      · exact List.mem_cons_self
      · exact List.mem_cons_of_mem a (List.mem_append_left _ (ihl h))
      · exact List.mem_cons_of_mem a (List.mem_append_right _ (ihr h))

/-- The edge between a node and its parent, with the other child. -/
theorem IsChild.exists_edge {t : SplitTree α} {p c : α} (h : t.IsChild p c) (ht : t.Built E) :
    ∃ s, E p c s ∨ E p s c := by
  induction t with
  | leaf a => cases h
  | node a l r ihl ihr =>
      rcases h with ⟨rfl, rfl | rfl⟩ | h | h
      · exact ⟨r.value, Or.inl ht.1⟩
      · exact ⟨l.value, Or.inr ht.1⟩
      · exact ihl h ht.2.1
      · exact ihr h ht.2.2

/-- From every node the parents lead to the root. -/
theorem reaches_root (t : SplitTree α) :
    ∀ c ∈ t.nodes, Relation.ReflTransGen (fun c p => t.IsChild p c) c t.value := by
  induction t with
  | leaf a =>
      intro c hc
      rw [List.mem_singleton.1 hc]
      exact Relation.ReflTransGen.refl
  | node a l r ihl ihr =>
      intro c hc
      rcases List.mem_cons.1 hc with rfl | hc
      · exact Relation.ReflTransGen.refl
      rcases List.mem_append.1 hc with hc | hc
      · -- to the root of the left subtree, and one step further
        have hup : Relation.ReflTransGen (fun c p => (node a l r).IsChild p c) c l.value :=
          Relation.ReflTransGen.mono (fun _ _ h => Or.inr (Or.inl h)) _ _ (ihl c hc)
        exact hup.tail (Or.inl ⟨rfl, Or.inl rfl⟩)
      · have hup : Relation.ReflTransGen (fun c p => (node a l r).IsChild p c) c r.value :=
          Relation.ReflTransGen.mono (fun _ _ h => Or.inr (Or.inr h)) _ _ (ihr c hc)
        exact hup.tail (Or.inl ⟨rfl, Or.inr rfl⟩)

/-! ## Intervals -/

section Intervals

variable {lo hi : α → ℕ} {t : SplitTree α}

/-- The children stand for the two non-empty parts of the interval of `p`. -/
structure Halves (lo hi : α → ℕ) (p x y : α) : Prop where
  start : lo x = lo p
  meet : hi x + 1 = lo y
  stop : hi y = hi p
  left : lo x ≤ hi x
  right : lo y ≤ hi y

theorem Halves.congr_left {p x x' y : α} (h : Halves lo hi p x y) (hlo : lo x' = lo x)
    (hhi : hi x' = hi x) : Halves lo hi p x' y where
  start := hlo.trans h.start
  meet := by rw [hhi, h.meet]
  stop := h.stop
  left := by rw [hlo, hhi]; exact h.left
  right := h.right

theorem Halves.congr_right {p x y y' : α} (h : Halves lo hi p x y) (hlo : lo y' = lo y)
    (hhi : hi y' = hi y) : Halves lo hi p x y' where
  start := h.start
  meet := h.meet.trans hlo.symm
  stop := hhi.trans h.stop
  left := h.left
  right := by rw [hlo, hhi]; exact h.right

theorem Halves.left_inside {p x y : α} (h : Halves lo hi p x y) :
    lo p ≤ lo x ∧ lo x ≤ hi x ∧ hi x < hi p := by
  have hlt : hi x < hi p := by
    calc
      hi x < lo y := by rw [← h.meet]; exact Nat.lt_succ_self _
      _ ≤ hi y := h.right
      _ = hi p := h.stop
  exact ⟨h.start.ge, h.left, hlt⟩

theorem Halves.right_inside {p x y : α} (h : Halves lo hi p x y) :
    lo p < lo y ∧ lo y ≤ hi y ∧ hi y ≤ hi p := by
  have hlt : lo p < lo y := by
    calc
      lo p = lo x := h.start.symm
      _ ≤ hi x := h.left
      _ < lo y := by rw [← h.meet]; exact Nat.lt_succ_self _
  exact ⟨hlt, h.right, h.stop.le⟩

/-- The leaves tile the interval of the root. -/
theorem tiles_leaves (ht : t.Built (Halves lo hi)) (hv : lo t.value ≤ hi t.value) :
    Tiles lo hi (lo t.value) t.leaves (hi t.value + 1) := by
  induction t with
  | leaf a => exact Tiles.single hv
  | node a l r ihl ihr =>
      rcases ht with ⟨hedge, hl, hr⟩
      have hleft := ihl hl hedge.left
      have hright := ihr hr hedge.right
      -- the left part ends where the right one begins
      rw [hedge.start, hedge.meet] at hleft
      rw [hedge.stop] at hright
      exact hleft.append hright

/-- Every node lies in the interval of the root. -/
theorem nodes_within (ht : t.Built (Halves lo hi)) (hv : lo t.value ≤ hi t.value) :
    ∀ x ∈ t.nodes, lo t.value ≤ lo x ∧ lo x ≤ hi x ∧ hi x ≤ hi t.value := by
  induction t with
  | leaf a =>
      intro x hx
      rw [List.mem_singleton.1 hx]
      exact ⟨le_refl _, hv, le_refl _⟩
  | node a l r ihl ihr =>
      rcases ht with ⟨hedge, hl, hr⟩
      have hstart := hedge.start
      have hmeet := hedge.meet
      have hstop := hedge.stop
      have hleft := hedge.left
      have hright := hedge.right
      intro x hx
      rcases List.mem_cons.1 hx with rfl | hx
      · exact ⟨le_refl _, hv, le_refl _⟩
      simp only [value]
      rcases List.mem_append.1 hx with hx | hx
      · have hin := ihl hl hleft x hx
        omega
      · have hin := ihr hr hright x hx
        omega

/-- No two nodes stand for the same interval. -/
theorem intervals_nodup (ht : t.Built (Halves lo hi)) :
    (t.nodes.map fun x => (lo x, hi x)).Nodup := by
  induction t with
  | leaf a => exact List.nodup_singleton _
  | node a l r ihl ihr =>
      rcases ht with ⟨hedge, hl, hr⟩
      have hmeet := hedge.meet
      have hleft := hedge.left
      have hright := hedge.right
      rw [nodes, List.map_cons, List.map_append, List.nodup_cons]
      constructor
      · -- a node below ends earlier or starts later
        intro hmem
        have hstart := hedge.start
        have hstop := hedge.stop
        rcases List.mem_append.1 hmem with hmem | hmem
        · rcases List.mem_map.1 hmem with ⟨x, hx, heq⟩
          have hin := nodes_within hl hleft x hx
          rw [Prod.mk.injEq] at heq
          omega
        · rcases List.mem_map.1 hmem with ⟨x, hx, heq⟩
          have hin := nodes_within hr hright x hx
          rw [Prod.mk.injEq] at heq
          omega
      · -- the two subtrees lie on different sides of the split point
        refine List.nodup_append.2 ⟨ihl hl, ihr hr, ?_⟩
        rintro u hu w hw rfl
        rcases List.mem_map.1 hu with ⟨x, hx, rfl⟩
        rcases List.mem_map.1 hw with ⟨y, hy, heq⟩
        have hinx := nodes_within hl hleft x hx
        have hiny := nodes_within hr hright y hy
        rw [Prod.mk.injEq] at heq
        omega

end Intervals

end SplitTree
end Lib
