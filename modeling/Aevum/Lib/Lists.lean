import Mathlib.Data.Finset.Dedup
import Mathlib.Data.Finset.Insert
import Mathlib.Data.Finset.Lattice.Basic
import Mathlib.Data.Finset.Max
import Mathlib.Data.Finset.Union
import Mathlib.Data.List.Destutter
import Mathlib.Data.List.Sort
import Mathlib.Data.Set.Function

/-!
# Lists — lists that stand for sets

Programs keep sets in lists and make up for it with two loops: one that looks for a repeated
element and one that sorts.  This file defines

* `firstDup` : the search for a repetition with a growing set of what was seen;
* `sortBy` : a stable sort by a key, which is canonical when the keys are distinct;
* `firsts` : what is left of a list with lazy deletion, where only keys of a given set count and
  only the first element of each;

and proves how the first two behave under permutations and which elements the third leaves.
-/

namespace Lib

/-! ## Repetitions -/

section Sets

variable {α : Type*} [DecidableEq α]

/-- The first element of a list that is already in `seen` or occurs before in the list. -/
def firstDup (seen : Finset α) : List α → Option α
  | [] => none
  | a :: rest => if a ∈ seen then some a else firstDup (insert a seen) rest

theorem firstDup_eq_none {seen : Finset α} {l : List α} :
    firstDup seen l = none ↔ l.Nodup ∧ ∀ a ∈ l, a ∉ seen := by
  induction l generalizing seen with
  | nil => simp [firstDup]
  | cons a rest ih =>
      by_cases h : a ∈ seen
      · simp [firstDup, h]
      · rw [firstDup, if_neg h, ih, List.nodup_cons, List.forall_mem_cons]
        constructor
        · rintro ⟨hrest, hseen⟩
          refine ⟨⟨fun hmem => hseen a hmem (Finset.mem_insert_self a seen), hrest⟩, h, ?_⟩
          intro b hb hbs
          exact hseen b hb (Finset.mem_insert_of_mem hbs)
        · rintro ⟨⟨ha, hrest⟩, -, hseen⟩
          refine ⟨hrest, fun b hb hmem => ?_⟩
          rcases Finset.mem_insert.1 hmem with heq | hbs
          · exact ha (heq ▸ hb)
          · exact hseen b hb hbs

theorem firstDup_empty_eq_none {l : List α} : firstDup ∅ l = none ↔ l.Nodup := by
  simp [firstDup_eq_none]

/-- Inserting the elements of a list one by one gives its set of elements. -/
theorem foldl_insert_eq_toFinset (l : List α) (s : Finset α) :
    l.foldl (fun s a => insert a s) s = s ∪ l.toFinset := by
  induction l generalizing s with
  | nil => simp
  | cons a l ih =>
      rw [List.foldl_cons, ih, List.toFinset_cons, Finset.insert_union, Finset.union_insert]

end Sets

/-- A sorted list without equal neighbours has no repetitions at all. -/
theorem nodup_of_isChain_ne {K : Type*} [LE K] [Std.IsLinearOrder K] {l : List K}
    (hsorted : l.Pairwise (· ≤ ·)) (hchain : l.IsChain (· ≠ ·)) : l.Nodup := by
  induction l with
  | nil => exact List.nodup_nil
  | cons a l ih =>
      rw [List.pairwise_cons] at hsorted
      refine List.nodup_cons.2 ⟨fun hmem => ?_, ih hsorted.2 hchain.tail⟩
      cases l with
      | nil => cases hmem
      | cons b l =>
          -- the neighbour of `a` stands between `a` and its repetition
          rw [List.isChain_cons_cons] at hchain
          have hab : a ≤ b := hsorted.1 b List.mem_cons_self
          have hba : b ≤ a := by
            rcases List.mem_cons.1 hmem with heq | hmem
            · exact heq ▸ hab
            · exact (List.pairwise_cons.1 hsorted.2).1 a hmem
          exact hchain.1 (Std.le_antisymm hab hba)

/-- Sorted lists without repetitions are determined by their elements. -/
theorem eq_of_sorted_of_nodup {K : Type*} [LE K] [Std.IsLinearOrder K] {l l' : List K}
    (hl : l.Pairwise (· ≤ ·) ∧ l.Nodup) (hl' : l'.Pairwise (· ≤ ·) ∧ l'.Nodup)
    (h : ∀ a, a ∈ l ↔ a ∈ l') : l = l' :=
  ((List.perm_ext_iff_of_nodup hl.2 hl'.2).2 h).eq_of_pairwise
    (fun _ _ _ _ => Std.le_antisymm) hl.1 hl'.1

/-- Removing repetitions of neighbours removes no element. -/
theorem mem_destutter'_ne {A : Type*} [DecidableEq A] {a b : A} {l : List A} :
    a ∈ l.destutter' (· ≠ ·) b ↔ a ∈ b :: l := by
  induction l generalizing b with
  | nil => exact Iff.rfl
  | cons c l ih =>
      by_cases h : b ≠ c
      · rw [List.destutter'_cons_pos _ h, List.mem_cons, ih, ← List.mem_cons]
      · rw [List.destutter'_cons_neg _ h, ih, not_not.1 h]
        simp only [List.mem_cons, or_self_left]

theorem mem_destutter_ne {A : Type*} [DecidableEq A] {a : A} {l : List A} :
    a ∈ l.destutter (· ≠ ·) ↔ a ∈ l := by
  cases l with
  | nil => exact Iff.rfl
  | cons b l => exact mem_destutter'_ne

/-! ## Sorting by a key -/

section SortByKey

variable {V K : Type*} [LE K] [DecidableLE K]

/-- A stable sort by a key. -/
def sortBy (key : V → K) (l : List V) : List V :=
  l.insertionSort fun a b => key a ≤ key b

theorem sortBy_perm (key : V → K) (l : List V) : (sortBy key l).Perm l :=
  List.perm_insertionSort _ l

variable [Std.IsLinearOrder K]

theorem pairwise_sortBy (key : V → K) (l : List V) :
    (sortBy key l).Pairwise fun a b => key a ≤ key b := by
  have : Std.Total fun a b : V => key a ≤ key b := ⟨fun _ _ => Std.le_total⟩
  have : IsTrans V fun a b => key a ≤ key b := ⟨fun _ _ _ => Std.le_trans⟩
  exact List.pairwise_insertionSort _ l

/-- If only equal elements have equal keys, the sorted list does not depend on the order of the
list. -/
theorem sortBy_eq_of_perm_of_inj {key : V → K} {l l' : List V}
    (hinj : ∀ a ∈ l, ∀ b ∈ l, key a = key b → a = b) (hperm : l.Perm l') :
    sortBy key l = sortBy key l' := by
  have hsame : (sortBy key l).Perm (sortBy key l') :=
    ((sortBy_perm key l).trans hperm).trans (sortBy_perm key l').symm
  refine hsame.eq_of_pairwise ?_ (pairwise_sortBy key l) (pairwise_sortBy key l')
  intro a b ha hb hab hba
  have ha' : a ∈ l := (sortBy_perm key l).mem_iff.1 ha
  have hb' : b ∈ l := hperm.mem_iff.2 ((sortBy_perm key l').mem_iff.1 hb)
  exact hinj a ha' b hb' (Std.le_antisymm hab hba)

/-- So it is if the keys are distinct. -/
theorem sortBy_eq_of_perm {key : V → K} {l l' : List V} (hkeys : (l.map key).Nodup)
    (hperm : l.Perm l') : sortBy key l = sortBy key l' :=
  sortBy_eq_of_perm_of_inj (fun _ ha _ hb => List.inj_on_of_nodup_map hkeys ha hb) hperm

end SortByKey

/-! ## Prefixes -/

section Prefixes

variable {α : Type*} {P : α → Bool} {l : List α}

/-- Where a property fails once, it fails ever after. -/
theorem countP_eq_zero_of_head {a : α}
    (hmono : (a :: l).Pairwise fun x y => P y = true → P x = true) (ha : ¬ P a = true) :
    (a :: l).countP P = 0 := by
  rw [List.countP_eq_zero, List.forall_mem_cons]
  exact ⟨ha, fun b hb hPb => ha ((List.pairwise_cons.1 hmono).1 b hb hPb)⟩

/-- The first `c` elements have a property that holds of a prefix exactly when `c` elements have
it. -/
theorem forall_take_iff (hmono : l.Pairwise fun x y => P y = true → P x = true) {c : ℕ}
    (hc : c ≤ l.length) : (∀ a ∈ l.take c, P a = true) ↔ c ≤ l.countP P := by
  induction l generalizing c with
  | nil =>
      rw [List.length_nil] at hc
      simp [Nat.le_zero.1 hc]
  | cons a l ih =>
      cases c with
      | zero => simp
      | succ c =>
          rw [List.length_cons, Nat.succ_le_succ_iff] at hc
          by_cases ha : P a = true
          · rw [List.take_succ_cons, List.forall_mem_cons, List.countP_cons_of_pos ha,
              Nat.succ_le_succ_iff, ih (List.pairwise_cons.1 hmono).2 hc]
            exact and_iff_right ha
          · rw [countP_eq_zero_of_head hmono ha]
            refine iff_of_false (fun hall => ha (hall a ?_)) (by omega)
            rw [List.take_succ_cons]
            exact List.mem_cons_self

/-- What a prefix of a sorted list leaves out has no smaller key than what is in the prefix. -/
theorem le_of_notMem_take {key : α → ℕ} (hsorted : l.Pairwise fun x y => key x ≤ key y) {c : ℕ}
    {a b : α} (ha : a ∈ l) (hout : a ∉ l.take c) (hb : b ∈ l.take c) : key b ≤ key a := by
  rw [← List.take_append_drop c l] at ha hsorted
  have hdrop : a ∈ l.drop c := (List.mem_append.1 ha).resolve_left hout
  exact (List.pairwise_append.1 hsorted).2.2 b hb a hdrop

end Prefixes

/-- One element more passes a filter. -/
theorem filter_perm_cons {α : Type*} {p q : α → Bool} {l : List α} {a : α} (hl : l.Nodup)
    (ha : a ∈ l) (hp : p a = false) (hq : ∀ b ∈ l, q b = true ↔ b = a ∨ p b = true) :
    (l.filter q).Perm (a :: l.filter p) := by
  have hnodup : (a :: l.filter p).Nodup := by
    refine List.nodup_cons.2 ⟨fun hmem => ?_, hl.filter p⟩
    rw [List.mem_filter, hp] at hmem
    cases hmem.2
  refine (List.perm_ext_iff_of_nodup (hl.filter q) hnodup).2 fun b => ?_
  rw [List.mem_filter, List.mem_cons, List.mem_filter]
  constructor
  · rintro ⟨hb, hqb⟩
    exact ((hq b hb).1 hqb).imp_right fun hpb => ⟨hb, hpb⟩
  · rintro (rfl | ⟨hb, hpb⟩)
    · exact ⟨ha, (hq b ha).2 (Or.inl rfl)⟩
    · exact ⟨hb, (hq b hb).2 (Or.inr hpb)⟩

/-! ## First elements -/

section Firsts

variable {α K : Type*} [DecidableEq K] (key : α → K)

/-- The first element with each of the given keys, in the order of the list. -/
def firsts (keys : Finset K) : List α → List α
  | [] => []
  | a :: rest => if key a ∈ keys then a :: firsts (keys.erase (key a)) rest else firsts keys rest

@[simp] theorem firsts_nil (keys : Finset K) : firsts key keys [] = [] := rfl

theorem firsts_cons_of_mem {keys : Finset K} {a : α} (h : key a ∈ keys) (rest : List α) :
    firsts key keys (a :: rest) = a :: firsts key (keys.erase (key a)) rest :=
  if_pos h

theorem firsts_cons_of_notMem {keys : Finset K} {a : α} (h : key a ∉ keys) (rest : List α) :
    firsts key keys (a :: rest) = firsts key keys rest :=
  if_neg h

theorem firsts_sublist (keys : Finset K) (l : List α) : (firsts key keys l).Sublist l := by
  induction l generalizing keys with
  | nil => exact List.Sublist.slnil
  | cons a rest ih =>
      by_cases h : key a ∈ keys
      · rw [firsts_cons_of_mem key h]
        exact (ih (keys.erase (key a))).cons_cons a
      · rw [firsts_cons_of_notMem key h]
        exact (ih keys).cons a

/-- The given keys that occur in the list are those of the first elements. -/
theorem mem_map_firsts {keys : Finset K} {l : List α} {k : K} :
    k ∈ (firsts key keys l).map key ↔ k ∈ keys ∧ k ∈ l.map key := by
  induction l generalizing keys with
  | nil => simp
  | cons a rest ih =>
      by_cases h : key a ∈ keys
      · rw [firsts_cons_of_mem key h, List.map_cons, List.map_cons, List.mem_cons, List.mem_cons,
          ih, Finset.mem_erase]
        by_cases hk : k = key a
        · simp [hk, h]
        · simp [hk]
      · rw [firsts_cons_of_notMem key h, ih, List.map_cons, List.mem_cons]
        constructor
        · rintro ⟨hkeys, hrest⟩
          exact ⟨hkeys, Or.inr hrest⟩
        · rintro ⟨hkeys, rfl | hrest⟩
          · exact (h hkeys).elim
          · exact ⟨hkeys, hrest⟩

theorem nodup_map_firsts (keys : Finset K) (l : List α) : ((firsts key keys l).map key).Nodup := by
  induction l generalizing keys with
  | nil => exact List.nodup_nil
  | cons a rest ih =>
      by_cases h : key a ∈ keys
      · rw [firsts_cons_of_mem key h, List.map_cons, List.nodup_cons]
        refine ⟨fun hmem => ?_, ih (keys.erase (key a))⟩
        -- the key has been used up
        exact Finset.notMem_erase (key a) keys ((mem_map_firsts key).1 hmem).1
      · rw [firsts_cons_of_notMem key h]
        exact ih keys

end Firsts

/-! ## Images -/

/-- A function that is injective on the elements of two lists maps them to different lists. -/
theorem eq_of_map_eq_of_injOn {α β : Type*} {f : α → β} {S : Set α} (hf : Set.InjOn f S)
    {l l' : List α} (hl : ∀ a ∈ l, a ∈ S) (hl' : ∀ a ∈ l', a ∈ S) (h : l.map f = l'.map f) :
    l = l' := by
  induction l generalizing l' with
  | nil => exact (List.map_eq_nil_iff.1 h.symm).symm
  | cons a l ih =>
      cases l' with
      | nil => cases h
      | cons b l' =>
          rw [List.map_cons, List.map_cons, List.cons.injEq] at h
          rw [List.forall_mem_cons] at hl hl'
          rw [hf hl.1 hl'.1 h.1, ih hl.2 hl'.2 h.2]

theorem isPrefix_of_map {α β : Type*} {f : α → β} {S : Set α} (hf : Set.InjOn f S)
    {l l' : List α} (hl : ∀ a ∈ l, a ∈ S) (hl' : ∀ a ∈ l', a ∈ S)
    (h : l.map f <+: l'.map f) : l <+: l' := by
  have htake : l.map f = (l'.take l.length).map f := by
    rw [List.map_take]
    simpa using List.prefix_iff_eq_take.1 h
  have heq : l = l'.take l.length :=
    eq_of_map_eq_of_injOn hf hl (fun a ha => hl' a (List.mem_of_mem_take ha)) htake
  exact List.prefix_iff_eq_take.2 heq

theorem subset_of_map_subset {α β : Type*} {f : α → β} {S : Set α} (hf : Set.InjOn f S)
    {l l' : List α} (hl : ∀ a ∈ l, a ∈ S) (hl' : ∀ a ∈ l', a ∈ S)
    (h : l.map f ⊆ l'.map f) : l ⊆ l' := by
  intro a ha
  rcases List.mem_map.1 (h (List.mem_map_of_mem ha)) with ⟨b, hb, heq⟩
  have hba : b = a := hf (hl' b hb) (hl a ha) heq
  exact hba ▸ hb

/-- Injectivity on the elements of a list, in a form that can be evaluated. -/
theorem injOn_of_nodup {α β : Type*} [DecidableEq α] {f : α → β} {l : List α}
    (h : (l.dedup.map f).Nodup) : Set.InjOn f {a | a ∈ l} :=
  fun _ ha _ hb => List.inj_on_of_nodup_map h (List.mem_dedup.2 ha) (List.mem_dedup.2 hb)

theorem injOn_or_of_nodup {α β : Type*} [DecidableEq α] {f : α → β} {l l' : List α}
    (h : ((l ++ l').dedup.map f).Nodup) : Set.InjOn f {a | a ∈ l ∨ a ∈ l'} :=
  (injOn_of_nodup h).mono fun _ ha => List.mem_append.2 ha

/-! ## One element more -/

theorem countP_snoc {α : Type*} (p : α → Bool) (l : List α) (a : α) :
    (l ++ [a]).countP p = l.countP p + (p a).toNat := by
  rw [List.countP_append, List.countP_singleton]
  cases p a <;> rfl

/-! ## The last of a kind -/

/-- A list with an element of a kind, split at the last one. -/
theorem exists_last_of_kind {α : Type*} (P : α → Prop) {l : List α} (h : ∃ a ∈ l, P a) :
    ∃ pre a rest, l = pre ++ a :: rest ∧ P a ∧ ∀ b ∈ rest, ¬ P b := by
  induction l using List.reverseRecOn with
  | nil =>
      rcases h with ⟨a, hmem, -⟩
      cases hmem
  | append_singleton l b ih =>
      by_cases hb : P b
      · exact ⟨l, b, [], rfl, hb, fun c hc => (List.not_mem_nil hc).elim⟩
      · have hbefore : ∃ a ∈ l, P a := by
          rcases h with ⟨a, hmem, ha⟩
          rcases List.mem_append.1 hmem with hmem | hmem
          · exact ⟨a, hmem, ha⟩
          · exact absurd (List.mem_singleton.1 hmem ▸ ha) hb
        rcases ih hbefore with ⟨pre, a, rest, rfl, ha, hrest⟩
        refine ⟨pre, a, rest ++ [b], by simp, ha, fun c hc => ?_⟩
        rcases List.mem_append.1 hc with hc | hc
        · exact hrest c hc
        · exact List.mem_singleton.1 hc ▸ hb

/-- Of the elements of a list that another list leaves out, one has the least key. -/
theorem exists_least_notMem {α K : Type*} [DecidableEq α] [LinearOrder K] (key : α → K)
    {l l' : List α} {a : α} (ha : a ∈ l) (hout : a ∉ l') :
    ∃ m ∈ l, m ∉ l' ∧ key m ≤ key a ∧ ∀ b ∈ l, key b < key m → b ∈ l' := by
  have hmem : ∀ {b}, b ∈ l.toFinset \ l'.toFinset ↔ b ∈ l ∧ b ∉ l' := by
    intro b
    rw [Finset.mem_sdiff, List.mem_toFinset, List.mem_toFinset]
  rcases Finset.exists_min_image _ key ⟨a, hmem.2 ⟨ha, hout⟩⟩ with ⟨m, hm, hmin⟩
  refine ⟨m, (hmem.1 hm).1, (hmem.1 hm).2, hmin a (hmem.2 ⟨ha, hout⟩), fun b hb hlt => ?_⟩
  by_contra hnot
  exact not_lt_of_ge (hmin b (hmem.2 ⟨hb, hnot⟩)) hlt

/-! ## Forks -/

/-- Lists of which neither begins with the other part at some element. -/
theorem exists_fork {α κ : Type*} (key : α → κ) {l l' : List α}
    (h : ¬ l.map key <+: l'.map key) (h' : ¬ l'.map key <+: l.map key) :
    ∃ pre a rest pre' a' rest', l = pre ++ a :: rest ∧ l' = pre' ++ a' :: rest' ∧
      pre.map key = pre'.map key ∧ key a ≠ key a' := by
  induction l generalizing l' with
  | nil => exact absurd List.nil_prefix h
  | cons a l ih =>
      cases l' with
      | nil => exact absurd List.nil_prefix h'
      | cons a' l' =>
          by_cases hkey : key a = key a'
          · rw [List.map_cons, List.map_cons, hkey, List.prefix_cons_inj] at h h'
            rcases ih h h' with ⟨pre, b, rest, pre', b', rest', rfl, rfl, hpre, hne⟩
            refine ⟨a :: pre, b, rest, a' :: pre', b', rest', rfl, rfl, ?_, hne⟩
            rw [List.map_cons, List.map_cons, hkey, hpre]
          · exact ⟨[], a, l, [], a', l', rfl, rfl, rfl, hkey⟩

/-- The element behind a part of a list. -/
theorem getElem?_append_cons {α : Type*} (pre : List α) (a : α) (rest : List α) :
    (pre ++ a :: rest)[pre.length]? = some a := by
  rw [List.getElem?_append_right (Nat.le_refl _), Nat.sub_self]
  rfl

/-- A sublist of a list that grows by one element is an old one or ends with the element. -/
theorem sublist_snoc {α : Type*} {l l' : List α} {a : α} (h : l.Sublist (l' ++ [a])) :
    l.Sublist l' ∨ ∃ r, l = r ++ [a] ∧ r.Sublist l' := by
  rcases List.sublist_append_iff.1 h with ⟨r, r', rfl, hr, hr'⟩
  rcases List.sublist_singleton.1 hr' with rfl | rfl
  · rw [List.append_nil]
    exact Or.inl hr
  · exact Or.inr ⟨r, rfl, hr⟩

end Lib
