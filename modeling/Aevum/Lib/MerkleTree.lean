import Aevum.Lib.Lists

/-!
# MerkleTree — roots of padded hash trees

A level of digests is reduced to the next one by hashing neighbours, a last node without neighbour
being hashed with itself, until one digest is left.  This file defines:

* `pairs`, `parents` : one level;
* `climb`, `root` : the loop over all levels;
* `climbPairs` : every pair hashed on the way;
* `CollisionFree` : what is asked of the hash, on those pairs only.

Padding alone does not commit to the length of a list: `[a, b, c]` and `[a, b, c, c]` have one
root.  What it leaves open is `Repeats`: one list may go on with nodes that the other one has too.
So lists of distinct leaves are committed to, and so are lists of one known length.  Trees of
different heights are kept apart by the difference between a leaf and a node; see `root_repeats`,
`root_inj` and `root_inj_of_length`.
-/

namespace Lib
namespace MerkleTree

variable {D : Type*}

/-! ## One level -/

/-- The neighbours of a level; a last node without neighbour is its own. -/
def pairs : List D → List (D × D)
  | [] => []
  | [a] => [(a, a)]
  | a :: b :: rest => (a, b) :: pairs rest

/-- The level above. -/
def parents (node : D → D → D) (l : List D) : List D :=
  (pairs l).map fun p => node p.1 p.2

theorem length_pairs (l : List D) : (pairs l).length = (l.length + 1) / 2 := by
  induction l using pairs.induct with
  | case1 => simp [pairs]
  | case2 a => simp [pairs]
  | case3 a b rest ih =>
      simp only [pairs, List.length_cons, ih]
      omega

theorem length_parents (node : D → D → D) (l : List D) :
    (parents node l).length = (l.length + 1) / 2 := by
  rw [parents, List.length_map, length_pairs]

theorem mem_of_mem_pairs {l : List D} {p : D × D} (h : p ∈ pairs l) : p.1 ∈ l ∧ p.2 ∈ l := by
  induction l using pairs.induct with
  | case1 => cases h
  | case2 a =>
      rw [pairs, List.mem_singleton] at h
      subst h
      exact ⟨List.mem_cons_self, List.mem_cons_self⟩
  | case3 a b rest ih =>
      rw [pairs, List.mem_cons] at h
      rcases h with rfl | h
      · exact ⟨List.mem_cons_self, List.mem_cons_of_mem _ List.mem_cons_self⟩
      · have hrest := ih h
        exact ⟨List.mem_cons_of_mem _ (List.mem_cons_of_mem _ hrest.1),
          List.mem_cons_of_mem _ (List.mem_cons_of_mem _ hrest.2)⟩

theorem mem_pairs_of_mem {l : List D} {d : D} (h : d ∈ l) :
    ∃ p ∈ pairs l, d = p.1 ∨ d = p.2 := by
  induction l using pairs.induct with
  | case1 => cases h
  | case2 a =>
      exact ⟨(a, a), List.mem_singleton_self _, Or.inl (List.mem_singleton.1 h)⟩
  | case3 a b rest ih =>
      rw [pairs]
      rcases List.mem_cons.1 h with rfl | h
      · exact ⟨(d, b), List.mem_cons_self, Or.inl rfl⟩
      rcases List.mem_cons.1 h with rfl | h
      · exact ⟨(a, d), List.mem_cons_self, Or.inr rfl⟩
      · rcases ih h with ⟨p, hp, hd⟩
        exact ⟨p, List.mem_cons_of_mem _ hp, hd⟩

/-- A level whose pairs are pairs of another one has its nodes there. -/
theorem subset_of_pairs_subset {l l' : List D} (h : pairs l ⊆ pairs l') : l ⊆ l' := by
  intro d hd
  rcases mem_pairs_of_mem hd with ⟨p, hp, rfl | rfl⟩
  · exact (mem_of_mem_pairs (h hp)).1
  · exact (mem_of_mem_pairs (h hp)).2

/-- Of two levels, one continues the other as soon as this is so of their pairs; a padded last
node may turn the direction round. -/
theorem isPrefix_of_pairs {l l' : List D} (h : pairs l <+: pairs l') :
    l <+: l' ∨ l' <+: l := by
  induction l using pairs.induct generalizing l' with
  | case1 => exact Or.inl List.nil_prefix
  | case2 a =>
      cases l' using pairs.fun_cases with
      | case1 => exact Or.inr List.nil_prefix
      | case2 b =>
          simp only [pairs, List.cons_prefix_cons, Prod.mk.injEq] at h
          rcases h with ⟨⟨rfl, -⟩, -⟩
          exact Or.inl (List.prefix_refl _)
      | case3 b c rest =>
          simp only [pairs, List.cons_prefix_cons, Prod.mk.injEq] at h
          rcases h with ⟨⟨rfl, rfl⟩, -⟩
          exact Or.inl ⟨_ :: rest, rfl⟩
  | case3 a b rest ih =>
      cases l' using pairs.fun_cases with
      | case1 => exact Or.inr List.nil_prefix
      | case2 c =>
          -- the pad of the other level stands for the second of two equal nodes
          simp only [pairs, List.cons_prefix_cons, Prod.mk.injEq] at h
          rcases h with ⟨⟨rfl, rfl⟩, -⟩
          exact Or.inr ⟨_ :: rest, rfl⟩
      | case3 c d rest' =>
          simp only [pairs, List.cons_prefix_cons, Prod.mk.injEq] at h
          rcases h with ⟨⟨rfl, rfl⟩, hrest⟩
          simp only [List.cons_prefix_cons, true_and]
          exact ih hrest

/-- Levels of the same length are determined by their pairs. -/
theorem pairs_inj_of_length {l l' : List D} (hlen : l.length = l'.length)
    (h : pairs l = pairs l') : l = l' := by
  have hself : pairs l <+: pairs l' := by rw [h]
  rcases isPrefix_of_pairs hself with hpre | hpre
  · exact hpre.eq_of_length hlen
  · exact (hpre.eq_of_length hlen.symm).symm

/-! ## Repeats -/

/-- Two lists that differ at most in nodes one of them repeats at its end. -/
structure Repeats (l l' : List D) : Prop where
  isPrefix : l <+: l' ∨ l' <+: l
  subset : l ⊆ l'
  superset : l' ⊆ l

namespace Repeats

variable {l l' : List D}

theorem refl (l : List D) : Repeats l l :=
  ⟨Or.inl (List.prefix_refl l), List.Subset.refl l, List.Subset.refl l⟩

/-- The level below. -/
theorem of_pairs (h : Repeats (pairs l) (pairs l')) : Repeats l l' where
  isPrefix := by
    rcases h.isPrefix with hpre | hpre
    · exact isPrefix_of_pairs hpre
    · exact (isPrefix_of_pairs hpre).symm
  subset := subset_of_pairs_subset h.subset
  superset := subset_of_pairs_subset h.superset

/-- Where both lists have a node, it is the same. -/
theorem getElem_eq (h : Repeats l l') {i : Nat} {d d' : D} (hd : l[i]? = some d)
    (hd' : l'[i]? = some d') : d = d' := by
  have happ (m t : List D) {c : D} (hc : m[i]? = some c) : (m ++ t)[i]? = some c := by
    rw [List.getElem?_append_left (List.getElem?_eq_some_iff.1 hc).1, hc]
  rcases h.isPrefix with ⟨t, rfl⟩ | ⟨t, rfl⟩
  · exact Option.some_inj.1 ((happ l t hd).symm.trans hd')
  · exact Option.some_inj.1 (hd.symm.trans (happ l' t hd'))

/-- Lists without repetition have nothing to differ in. -/
theorem eq_of_nodup (h : Repeats l l') (hl : l.Nodup) (hl' : l'.Nodup) : l = l' := by
  have hperm : l.Perm l' :=
    (List.perm_ext_iff_of_nodup hl hl').2 fun d => ⟨fun hd => h.subset hd, fun hd => h.superset hd⟩
  rcases h.isPrefix with hpre | hpre
  · exact hpre.eq_of_length hperm.length_eq
  · exact (hpre.eq_of_length hperm.length_eq.symm).symm

/-- Lists that differ do so in how often they have a node of both. -/
theorem exists_count_ne [DecidableEq D] (h : Repeats l l') (hne : l ≠ l') :
    ∃ d ∈ l, d ∈ l' ∧ l.count d ≠ l'.count d := by
  rcases h.isPrefix with ⟨t, rfl⟩ | ⟨t, rfl⟩
  · cases t with
    | nil => exact (hne (List.append_nil l).symm).elim
    | cons d t =>
        have hd : d ∈ l ++ d :: t := List.mem_append_right l List.mem_cons_self
        refine ⟨d, h.superset hd, hd, ?_⟩
        rw [List.count_append, List.count_cons_self]
        omega
  · cases t with
    | nil => exact (hne (List.append_nil l')).elim
    | cons d t =>
        have hd : d ∈ l' ++ d :: t := List.mem_append_right l' List.mem_cons_self
        refine ⟨d, hd, h.subset hd, ?_⟩
        rw [List.count_append, List.count_cons_self]
        omega

end Repeats

/-- A hash that is injective on the elements of both lists hides no repeat. -/
theorem Repeats.of_map {A B : Type*} {f : A → B} {S : Set A} (hf : Set.InjOn f S) {l l' : List A}
    (hl : ∀ a ∈ l, a ∈ S) (hl' : ∀ a ∈ l', a ∈ S) (h : Repeats (l.map f) (l'.map f)) :
    Repeats l l' where
  isPrefix := by
    rcases h.isPrefix with hpre | hpre
    · exact Or.inl (isPrefix_of_map hf hl hl' hpre)
    · exact Or.inr (isPrefix_of_map hf hl' hl hpre)
  subset := subset_of_map_subset hf hl hl' h.subset
  superset := subset_of_map_subset hf hl' hl h.superset

/-! ## All levels -/

/-- The loop `while level.len() > 1`. -/
def climb (node : D → D → D) : Nat → List D → List D
  | 0, l => l
  | fuel + 1, l => if 1 < l.length then climb node fuel (parents node l) else l

/-- The pairs hashed by `climb`. -/
def climbPairs (node : D → D → D) : Nat → List D → List (D × D)
  | 0, _ => []
  | fuel + 1, l =>
      if 1 < l.length then pairs l ++ climbPairs node fuel (parents node l) else []

variable {node : D → D → D}

/-- The loop either stops at once or goes on with the level above. -/
theorem climb_cases (node : D → D → D) (fuel : Nat) (l : List D) :
    (climb node fuel l = l ∧ climbPairs node fuel l = []) ∨
      ∃ rest, fuel = rest + 1 ∧ 1 < l.length ∧
        climb node fuel l = climb node rest (parents node l) ∧
        climbPairs node fuel l = pairs l ++ climbPairs node rest (parents node l) := by
  cases fuel with
  | zero => exact Or.inl ⟨rfl, rfl⟩
  | succ rest =>
      by_cases hlen : 1 < l.length
      · exact Or.inr ⟨rest, rfl, hlen, if_pos hlen, if_pos hlen⟩
      · exact Or.inl ⟨if_neg hlen, if_neg hlen⟩

theorem climb_ne_nil (node : D → D → D) (fuel : Nat) {l : List D} (h : l ≠ []) :
    climb node fuel l ≠ [] := by
  induction fuel generalizing l with
  | zero => exact h
  | succ fuel ih =>
      rw [climb]
      split
      · rename_i hlen
        refine ih (List.ne_nil_of_length_pos ?_)
        rw [length_parents]
        omega
      · exact h

/-- With as much fuel as there are leaves the loop runs to its end. -/
theorem length_climb (node : D → D → D) {fuel : Nat} {l : List D} (h : l ≠ [])
    (hfuel : l.length ≤ fuel) : (climb node fuel l).length = 1 := by
  induction fuel generalizing l with
  | zero => exact (h (List.length_eq_zero_iff.1 (Nat.le_zero.1 hfuel))).elim
  | succ fuel ih =>
      rw [climb]
      split
      · rename_i hlen
        have hpar := length_parents node l
        exact ih (List.ne_nil_of_length_pos (by omega)) (by omega)
      · have hpos := List.length_pos_of_ne_nil h
        omega

/-- The root of a non-empty list of leaves. -/
def root (node : D → D → D) (l : List D) (h : l ≠ []) : D :=
  (climb node l.length l).head (climb_ne_nil node l.length h)

theorem climb_eq_root {l : List D} (h : l ≠ []) : climb node l.length l = [root node l h] := by
  rcases List.length_eq_one_iff.1 (length_climb node h (le_refl l.length)) with ⟨d, hd⟩
  simp only [root, hd, List.head_cons]

/-- What the loop returns is a leaf or the hash of a pair. -/
theorem mem_climb {fuel : Nat} {l : List D} {d : D} (h : d ∈ climb node fuel l) :
    d ∈ l ∨ ∃ p ∈ climbPairs node fuel l, d = node p.1 p.2 := by
  induction fuel generalizing l with
  | zero => exact Or.inl h
  | succ fuel ih =>
      rcases climb_cases node (fuel + 1) l with ⟨hstop, -⟩ | ⟨rest, hfuel, -, hnext, hpairs⟩
      · rw [hstop] at h
        exact Or.inl h
      · cases hfuel
        rw [hnext] at h
        rw [hpairs]
        rcases ih h with hpar | ⟨p, hp, rfl⟩
        · rcases List.mem_map.1 hpar with ⟨p, hp, rfl⟩
          exact Or.inr ⟨p, List.mem_append_left _ hp, rfl⟩
        · exact Or.inr ⟨p, List.mem_append_right _ hp, rfl⟩

theorem root_mem (node : D → D → D) {l : List D} (h : l ≠ []) :
    root node l h ∈ l ∨ ∃ p ∈ climbPairs node l.length l, root node l h = node p.1 p.2 :=
  mem_climb (by rw [climb_eq_root h]; exact List.mem_singleton_self _)

/-! ## Commitment -/

/-- The hash is injective on the pairs of `S` and never returns a digest of `L` there. -/
structure CollisionFree (node : D → D → D) (L : Set D) (S : Set (D × D)) : Prop where
  inj : Set.InjOn (fun p : D × D => node p.1 p.2) S
  notMem : ∀ p ∈ S, node p.1 p.2 ∉ L

/-- When the encodings of leaves and nodes cannot be confused, it is enough that the digest does not
collide on what is fed to it. -/
theorem CollisionFree.of_digest {A B : Type*} {digest : B → D} {leaf : A → B} {enc : D → D → B}
    {F : Set B} (hF : Set.InjOn digest F)
    (henc : ∀ a b a' b', enc a b = enc a' b' → a = a' ∧ b = b')
    (hleaf : ∀ x a b, leaf x ≠ enc a b) :
    CollisionFree (fun a b => digest (enc a b)) {d | ∃ x, leaf x ∈ F ∧ d = digest (leaf x)}
      {p | enc p.1 p.2 ∈ F} where
  inj := by
    intro p hp q hq heq
    rcases henc _ _ _ _ (hF hp hq heq) with ⟨hfst, hsnd⟩
    exact Prod.ext hfst hsnd
  notMem := by
    rintro p hp ⟨x, hx, heq⟩
    exact hleaf x p.1 p.2 (hF hx hp heq.symm)

/-- `d` is the root of a perfect tree of height `n` over `L`, built from pairs of `S`. -/
inductive Rank (node : D → D → D) (L : Set D) (S : Set (D × D)) : ℕ → D → Prop where
  | leaf {d : D} : d ∈ L → Rank node L S 0 d
  | node {n : ℕ} {a b : D} :
      (a, b) ∈ S → Rank node L S n a → Rank node L S n b → Rank node L S (n + 1) (node a b)

variable {L : Set D} {S : Set (D × D)} {n m : ℕ} {d : D}

/-- A digest has at most one height. -/
theorem Rank.unique (hfree : CollisionFree node L S) (h : Rank node L S n d)
    (h' : Rank node L S m d) : n = m := by
  induction h generalizing m with
  | leaf hd =>
      -- a leaf is not the hash of a pair
      cases h' with
      | leaf _ => rfl
      | node hab _ _ => exact (hfree.notMem _ hab hd).elim
  | @node n a b hab ha hb iha ihb =>
      generalize hd : node a b = d at h'
      cases h' with
      | leaf hleaf => exact (hfree.notMem _ hab (hd ▸ hleaf)).elim
      | @node k a' b' hab' ha' hb' =>
          have hpair : (a, b) = (a', b') := hfree.inj hab hab' hd
          cases hpair
          rw [iha ha']

theorem rank_parents {l : List D} (hS : ∀ p ∈ pairs l, p ∈ S)
    (hl : ∀ d ∈ l, Rank node L S n d) : ∀ d ∈ parents node l, Rank node L S (n + 1) d := by
  intro d hd
  rcases List.mem_map.1 hd with ⟨p, hp, rfl⟩
  have hmem := mem_of_mem_pairs hp
  exact Rank.node (hS p hp) (hl _ hmem.1) (hl _ hmem.2)

/-- Climbing never lowers the height. -/
theorem rank_climb {fuel : Nat} {l : List D} (hS : ∀ p ∈ climbPairs node fuel l, p ∈ S)
    (hl : ∀ d ∈ l, Rank node L S n d) :
    ∀ d ∈ climb node fuel l, ∃ m, n ≤ m ∧ Rank node L S m d := by
  induction fuel generalizing l n with
  | zero => exact fun d hd => ⟨n, le_refl n, hl d hd⟩
  | succ fuel ih =>
      rcases climb_cases node (fuel + 1) l with ⟨hstop, -⟩ | ⟨rest, hfuel, -, hnext, hpairs⟩
      · rw [hstop]
        exact fun d hd => ⟨n, le_refl n, hl d hd⟩
      · cases hfuel
        rw [hpairs, List.forall_mem_append] at hS
        rw [hnext]
        intro d hd
        rcases ih hS.2 (rank_parents hS.1 hl) d hd with ⟨m, hm, hrank⟩
        exact ⟨m, by omega, hrank⟩

/-- A level that is not climbed is not the end of a longer climb from the same height. -/
theorem climb_parents_ne (hfree : CollisionFree node L S) {fuel : Nat} {l l' : List D}
    (hne : l ≠ []) (hS : ∀ p ∈ pairs l ++ climbPairs node fuel (parents node l), p ∈ S)
    (hl : ∀ d ∈ l, Rank node L S n d) (hl' : ∀ d ∈ l', Rank node L S n d) :
    climb node fuel (parents node l) ≠ l' := by
  rintro rfl
  rw [List.forall_mem_append] at hS
  have hpar : parents node l ≠ [] := List.ne_nil_of_length_pos (by
    have hlen := length_parents node l
    have hpos := List.length_pos_of_ne_nil hne
    omega)
  rcases List.exists_mem_of_ne_nil _ (climb_ne_nil node fuel hpar) with ⟨d, hd⟩
  rcases rank_climb hS.2 (rank_parents hS.1 hl) d hd with ⟨m, hm, hrank⟩
  have hsame := Rank.unique hfree (hl' d hd) hrank
  omega

/-- Two levels of one height from which the loop reaches the same level differ at most in
repeats, however often it went round for each of them. -/
theorem climb_repeats (hfree : CollisionFree node L S) {fuel fuel' : Nat} {l l' : List D}
    (hS : ∀ p ∈ climbPairs node fuel l, p ∈ S) (hS' : ∀ p ∈ climbPairs node fuel' l', p ∈ S)
    (hl : ∀ d ∈ l, Rank node L S n d) (hl' : ∀ d ∈ l', Rank node L S n d)
    (h : climb node fuel l = climb node fuel' l') : Repeats l l' := by
  induction fuel generalizing fuel' l l' n with
  | zero =>
      rcases climb_cases node fuel' l' with ⟨hstop', -⟩ | ⟨rest', -, hlen', hnext', hpairs'⟩
      · rw [hstop'] at h
        exact h ▸ Repeats.refl l
      · rw [hnext'] at h
        rw [hpairs'] at hS'
        have hne' := List.ne_nil_of_length_pos (Nat.lt_of_succ_lt hlen')
        exact (climb_parents_ne hfree hne' hS' hl' hl h.symm).elim
  | succ fuel ih =>
      -- each of the two loops stops or goes on; only if they do the same can the results agree
      rcases climb_cases node (fuel + 1) l with ⟨hstop, -⟩ | ⟨rest, hfuel, hlen, hnext, hpairs⟩ <;>
      rcases climb_cases node fuel' l' with ⟨hstop', -⟩ | ⟨rest', -, hlen', hnext', hpairs'⟩
      · rw [hstop, hstop'] at h
        exact h ▸ Repeats.refl l
      · rw [hstop, hnext'] at h
        rw [hpairs'] at hS'
        have hne' := List.ne_nil_of_length_pos (Nat.lt_of_succ_lt hlen')
        exact (climb_parents_ne hfree hne' hS' hl' hl h.symm).elim
      · rw [hnext, hstop'] at h
        rw [hpairs] at hS
        have hne := List.ne_nil_of_length_pos (Nat.lt_of_succ_lt hlen)
        exact (climb_parents_ne hfree hne hS hl hl' h).elim
      · -- both go on, one level up the digests are of height `n + 1`
        cases hfuel
        rw [hnext, hnext'] at h
        rw [hpairs, List.forall_mem_append] at hS
        rw [hpairs', List.forall_mem_append] at hS'
        have hparents : Repeats (parents node l) (parents node l') :=
          ih hS.2 hS'.2 (rank_parents hS.1 hl) (rank_parents hS'.1 hl') h
        exact (hparents.of_map hfree.inj hS.1 hS'.1).of_pairs

/-- Lists of leaves with the same root differ at most in repeats. -/
theorem root_repeats (hfree : CollisionFree node L S) {l l' : List D} (hne : l ≠ [])
    (hne' : l' ≠ []) (hl : ∀ d ∈ l, d ∈ L) (hl' : ∀ d ∈ l', d ∈ L)
    (hS : ∀ p ∈ climbPairs node l.length l, p ∈ S)
    (hS' : ∀ p ∈ climbPairs node l'.length l', p ∈ S)
    (h : root node l hne = root node l' hne') : Repeats l l' := by
  refine climb_repeats hfree hS hS' (fun d hd => Rank.leaf (hl d hd))
    (fun d hd => Rank.leaf (hl' d hd)) ?_
  rw [climb_eq_root hne, climb_eq_root hne', h]

/-- Lists of distinct leaves with the same root are equal. -/
theorem root_inj (hfree : CollisionFree node L S) {l l' : List D} (hne : l ≠ []) (hne' : l' ≠ [])
    (hnodup : l.Nodup) (hnodup' : l'.Nodup) (hl : ∀ d ∈ l, d ∈ L) (hl' : ∀ d ∈ l', d ∈ L)
    (hS : ∀ p ∈ climbPairs node l.length l, p ∈ S)
    (hS' : ∀ p ∈ climbPairs node l'.length l', p ∈ S)
    (h : root node l hne = root node l' hne') : l = l' :=
  (root_repeats hfree hne hne' hl hl' hS hS' h).eq_of_nodup hnodup hnodup'

/-- From levels of one length the loop goes round equally often, so a hash that is injective on
the pairs suffices. -/
theorem climb_inj_of_length {S : Set (D × D)}
    (hinj : Set.InjOn (fun p : D × D => node p.1 p.2) S) {fuel : Nat} {l l' : List D}
    (hlen : l.length = l'.length) (hS : ∀ p ∈ climbPairs node fuel l, p ∈ S)
    (hS' : ∀ p ∈ climbPairs node fuel l', p ∈ S)
    (h : climb node fuel l = climb node fuel l') : l = l' := by
  induction fuel generalizing l l' with
  | zero => exact h
  | succ fuel ih =>
      by_cases hstop : 1 < l.length
      · have hstop' : 1 < l'.length := hlen ▸ hstop
        rw [climb, climb, if_pos hstop, if_pos hstop'] at h
        rw [climbPairs, if_pos hstop, List.forall_mem_append] at hS
        rw [climbPairs, if_pos hstop', List.forall_mem_append] at hS'
        -- the levels above have one length too
        have hup : (parents node l).length = (parents node l').length := by
          rw [length_parents, length_parents, hlen]
        have hparents : parents node l = parents node l' := ih hup hS.2 hS'.2 h
        exact pairs_inj_of_length hlen (eq_of_map_eq_of_injOn hinj hS.1 hS'.1 hparents)
      · have hstop' : ¬ 1 < l'.length := hlen ▸ hstop
        rwa [climb, climb, if_neg hstop, if_neg hstop'] at h

/-- Lists of one length with the same root are equal; the leaves need not be told from nodes. -/
theorem root_inj_of_length {S : Set (D × D)} (hinj : Set.InjOn (fun p : D × D => node p.1 p.2) S)
    {l l' : List D} (hne : l ≠ []) (hne' : l' ≠ []) (hlen : l.length = l'.length)
    (hS : ∀ p ∈ climbPairs node l.length l, p ∈ S)
    (hS' : ∀ p ∈ climbPairs node l'.length l', p ∈ S)
    (h : root node l hne = root node l' hne') : l = l' := by
  have hclimb : climb node l.length l = climb node l'.length l' := by
    rw [climb_eq_root hne, climb_eq_root hne', h]
  rw [← hlen] at hS' hclimb
  exact climb_inj_of_length hinj hlen hS hS' hclimb

end MerkleTree
end Lib
