import Aevum.Lib.Lists
import Mathlib.Data.List.AList
import Mathlib.Algebra.BigOperators.Group.Finset.Basic
import Mathlib.Algebra.GroupWithZero.Nat

/-!
# FinMap — finite maps, their sums and bulk updates

Finite maps are Mathlib's association lists with distinct keys behind a small interface: `get?`,
`insert`, `erase` and `size`.  On top of it stands what programs do with maps in loops: sums over
the values, inserting or erasing a list of keys, building a map from values that carry their own
keys, and reading the values in key order.
-/

namespace Lib

/-- Finite maps from `K` to `V`. -/
def FinMap (K V : Type*) := AList (fun _ : K => V)

namespace FinMap

variable {K V : Type*}

/-! ## Interface -/

def empty : FinMap K V := (∅ : AList fun _ : K => V)

/-- The values of a map, in the order of its entries. -/
def values (m : FinMap K V) : List V :=
  (AList.entries m).map Sigma.snd

/-- The keys of a map, in the order of its entries. -/
def keys (m : FinMap K V) : List K := AList.keys m

theorem keys_nodup (m : FinMap K V) : m.keys.Nodup := AList.keys_nodup m

/-- The entries of a map as pairs. -/
def toList (m : FinMap K V) : List (K × V) :=
  (AList.entries m).map fun e => (e.1, e.2)

/-- The keys of the entries that satisfy `p`. -/
def keysWhere (p : K → V → Bool) (m : FinMap K V) : List K :=
  ((AList.entries m).filter fun e => p e.1 e.2).map Sigma.fst

/-- The number of entries. -/
def size (m : FinMap K V) : Nat :=
  (AList.entries m).length

/-- The sum of `f` over the values of a map. -/
def sumOf (f : V → ℕ) (m : FinMap K V) : ℕ :=
  (m.values.map f).sum

theorem sumOf_eq (f : V → ℕ) (m : FinMap K V) :
    sumOf f m = ((AList.entries m).map fun e => f e.2).sum := by
  simp [sumOf, values, Function.comp_def]

/-- The number of entries whose value satisfies `p`. -/
def count (p : V → Bool) (m : FinMap K V) : ℕ :=
  m.values.countP p

theorem count_eq_sumOf (p : V → Bool) (m : FinMap K V) :
    count p m = sumOf (fun v => (p v).toNat) m := by
  rw [count, sumOf]
  induction m.values with
  | nil => rfl
  | cons v vs ih =>
      rw [List.countP_cons, ih, List.map_cons, List.sum_cons]
      cases p v <;> simp [Nat.add_comm]

theorem size_eq_sumOf (m : FinMap K V) : m.size = sumOf (fun _ => 1) m := by
  simp [size, sumOf_eq]

@[simp] theorem values_empty : (empty : FinMap K V).values = [] := rfl

/-- The values of a map, sorted by key. -/
def orderedValues [LE K] [DecidableLE K] (m : FinMap K V) : List V :=
  (sortBy Sigma.fst (AList.entries m)).map Sigma.snd

theorem orderedValues_perm [LE K] [DecidableLE K] (m : FinMap K V) :
    m.orderedValues.Perm m.values := by
  have hsort := sortBy_perm Sigma.fst (AList.entries m)
  exact hsort.map fun e : Sigma fun _ : K => V => e.2

variable [DecidableEq K]

def get? (m : FinMap K V) (k : K) : Option V := AList.lookup k m

def insert (m : FinMap K V) (k : K) (v : V) : FinMap K V := AList.insert k v m

def erase (m : FinMap K V) (k : K) : FinMap K V := AList.erase k m

/-- The keys of a map as a set. -/
def keySet (m : FinMap K V) : Finset K := m.keys.toFinset

@[simp] theorem get?_empty (k : K) : (empty : FinMap K V).get? k = none := rfl

theorem get?_insert (m : FinMap K V) (k k' : K) (v : V) :
    (m.insert k v).get? k' = if k' = k then some v else m.get? k' := by
  by_cases h : k' = k
  · subst h
    rw [if_pos rfl]
    exact AList.lookup_insert m
  · rw [if_neg h]
    exact AList.lookup_insert_ne h

@[simp] theorem get?_insert_self (m : FinMap K V) (k : K) (v : V) :
    (m.insert k v).get? k = some v :=
  AList.lookup_insert m

theorem get?_insert_ne (m : FinMap K V) {k k' : K} (v : V) (h : k' ≠ k) :
    (m.insert k v).get? k' = m.get? k' :=
  AList.lookup_insert_ne h

/-- An entry is the new one or an old one. -/
theorem get?_insert_eq_some {m : FinMap K V} {k k' : K} {v v' : V} :
    (m.insert k v).get? k' = some v' ↔ k' = k ∧ v = v' ∨ k' ≠ k ∧ m.get? k' = some v' := by
  by_cases h : k' = k
  · subst h
    simp
  · rw [get?_insert_ne m v h]
    simp [h]

theorem get?_erase (m : FinMap K V) (k k' : K) :
    (m.erase k).get? k' = if k' = k then none else m.get? k' := by
  by_cases h : k' = k
  · subst h
    rw [if_pos rfl]
    exact AList.lookup_erase k' m
  · rw [if_neg h]
    exact AList.lookup_erase_ne h

theorem mem_keys {m : FinMap K V} {k : K} : k ∈ m.keys ↔ ∃ v, m.get? k = some v := by
  have hiff := AList.lookup_isSome (s := m) (a := k)
  rw [Option.isSome_iff_exists] at hiff
  exact hiff.symm

theorem mem_toList {m : FinMap K V} {k : K} {v : V} : (k, v) ∈ m.toList ↔ m.get? k = some v := by
  have hmem : (k, v) ∈ m.toList ↔ ⟨k, v⟩ ∈ AList.entries m := by
    simp [toList, Sigma.exists]
  exact hmem.trans AList.mem_lookup_iff.symm

theorem mem_keySet {m : FinMap K V} {k : K} : k ∈ m.keySet ↔ ∃ v, m.get? k = some v := by
  rw [keySet, List.mem_toFinset, mem_keys]

theorem keySet_erase (m : FinMap K V) (k : K) : (m.erase k).keySet = m.keySet.erase k := by
  ext k'
  rw [Finset.mem_erase, mem_keySet, mem_keySet, get?_erase]
  by_cases h : k' = k <;> simp [h]

theorem notMem_of_get?_eq_none {m : FinMap K V} {k : K} (h : m.get? k = none) :
    ¬ Membership.mem (γ := AList fun _ : K => V) m k :=
  AList.lookup_eq_none.1 h

/-- A list that names every key once is as long as the map. -/
theorem length_eq_size {ks : List K} {m : FinMap K V} (hks : ks.Nodup)
    (hmem : ∀ k, k ∈ ks ↔ ∃ v, m.get? k = some v) : ks.length = m.size := by
  have hperm : ks.Perm m.keys :=
    (List.perm_ext_iff_of_nodup hks m.keys_nodup).2 fun k => by rw [hmem, mem_keys]
  exact hperm.length_eq.trans (List.length_map _)

/-! ## Sums and sizes -/

/-- A sum over the values is a sum over the keys. -/
theorem sumOf_eq_sum_keySet (f : V → ℕ) (m : FinMap K V) :
    sumOf f m = ∑ k ∈ m.keySet, (m.get? k).elim 0 f := by
  have hentry : ∀ e ∈ AList.entries m, f e.2 = (m.get? e.1).elim 0 f := by
    intro e he
    have hget : m.get? e.1 = some e.2 := AList.mem_lookup_iff.2 he
    rw [hget]
    rfl
  have hkeys : m.keys = (AList.entries m).map Sigma.fst := rfl
  rw [sumOf_eq, List.map_congr_left hentry, keySet, List.sum_toFinset _ m.keys_nodup, hkeys,
    List.map_map]
  rfl

theorem size_eq_card_keySet (m : FinMap K V) : m.size = m.keySet.card := by
  rw [keySet, List.toFinset_card_of_nodup m.keys_nodup]
  exact (List.length_map _).symm

theorem sum_kerase (f : V → ℕ) (k : K) (l : List (Sigma fun _ : K => V)) :
    ((l.kerase k).map fun e => f e.2).sum + (l.dlookup k).elim 0 f =
      (l.map fun e => f e.2).sum := by
  induction l with
  | nil => rfl
  | cons e l ih =>
      rcases e with ⟨a, v⟩
      by_cases h : k = a
      · subst h
        simp [Nat.add_comm]
      · have hkerase : List.kerase k (⟨a, v⟩ :: l) = ⟨a, v⟩ :: List.kerase k l :=
          List.kerase_cons_ne h
        have hlookup : List.dlookup k (⟨a, v⟩ :: l) = List.dlookup k l :=
          List.dlookup_cons_ne l ⟨a, v⟩ h
        rw [hkerase, hlookup]
        simp only [List.map_cons, List.sum_cons]
        omega

theorem sumOf_erase (f : V → ℕ) (m : FinMap K V) (k : K) :
    sumOf f (m.erase k) + (m.get? k).elim 0 f = sumOf f m := by
  rw [sumOf_eq, sumOf_eq]
  exact sum_kerase f k (AList.entries m)

theorem sumOf_insert (f : V → ℕ) (m : FinMap K V) (k : K) (v : V) :
    sumOf f (m.insert k v) + (m.get? k).elim 0 f = sumOf f m + f v := by
  have herase := sumOf_erase f m k
  have hentries : sumOf f (m.insert k v) = f v + sumOf f (m.erase k) := by
    rw [sumOf_eq, sumOf_eq]
    rfl
  omega

theorem size_insert_of_get?_eq_none {m : FinMap K V} {k : K} (v : V) (h : m.get? k = none) :
    (m.insert k v).size = m.size + 1 := by
  have hentries := AList.entries_insert_of_notMem (b := v) (notMem_of_get?_eq_none h)
  exact congrArg List.length hentries

theorem size_erase_le (m : FinMap K V) (k : K) : (m.erase k).size ≤ m.size :=
  (List.kerase_sublist k (AList.entries m)).length_le

/-! ## Counting -/

theorem count_erase (p : V → Bool) (m : FinMap K V) (k : K) :
    count p (m.erase k) + (m.get? k).elim 0 (fun v => (p v).toNat) = count p m := by
  rw [count_eq_sumOf, count_eq_sumOf]
  exact sumOf_erase _ m k

theorem count_insert (p : V → Bool) (m : FinMap K V) (k : K) (v : V) :
    count p (m.insert k v) = count p (m.erase k) + (p v).toNat := by
  have herase := count_erase p m k
  have hinsert := sumOf_insert (fun v => (p v).toNat) m k v
  rw [← count_eq_sumOf, ← count_eq_sumOf] at hinsert
  omega

theorem size_erase (m : FinMap K V) (k : K) :
    (m.erase k).size + (m.get? k).elim 0 (fun _ => 1) = m.size := by
  have herase := sumOf_erase (fun _ => 1) m k
  rwa [← size_eq_sumOf, ← size_eq_sumOf] at herase

theorem erase_of_get?_eq_none {m : FinMap K V} {k : K} (h : m.get? k = none) : m.erase k = m := by
  have hentries : (AList.entries m).kerase k = AList.entries m :=
    List.kerase_of_notMem_keys (notMem_of_get?_eq_none h)
  exact AList.ext hentries

theorem size_insert (m : FinMap K V) (k : K) (v : V) :
    (m.insert k v).size = (m.erase k).size + 1 :=
  List.length_cons

theorem count_insert_of_get?_eq_none (p : V → Bool) {m : FinMap K V} {k : K} (v : V)
    (hget : m.get? k = none) : count p (m.insert k v) = count p m + (p v).toNat := by
  have herase := count_erase p m k
  rw [hget, Option.elim_none, Nat.add_zero] at herase
  rw [count_insert, herase]

/-- Overwriting an entry changes a count only through the value. -/
theorem count_insert_of_eq {p : V → Bool} {m : FinMap K V} {k : K} {v v' : V}
    (hget : m.get? k = some v) (hp : p v' = p v) : count p (m.insert k v') = count p m := by
  have herase := count_erase p m k
  rw [hget, Option.elim_some] at herase
  rw [count_insert, hp, herase]

theorem size_insert_of_get?_eq_some {m : FinMap K V} {k : K} {v : V} (v' : V)
    (hget : m.get? k = some v) : (m.insert k v').size = m.size := by
  have herase := size_erase m k
  rw [hget, Option.elim_some] at herase
  rw [size_insert, herase]

theorem insert_erase (m : FinMap K V) (k : K) (v : V) :
    (m.erase k).insert k v = m.insert k v := by
  have hentries : ((AList.entries m).kerase k).kerase k = (AList.entries m).kerase k :=
    List.kerase_of_notMem_keys (List.notMem_keys_kerase k (AList.nodupKeys m))
  exact AList.ext (congrArg (List.cons (⟨k, v⟩ : Sigma fun _ : K => V)) hentries)

/-- What is left was there before. -/
theorem get?_erase_eq_some {m : FinMap K V} {k k' : K} {v : V} :
    (m.erase k).get? k' = some v ↔ k' ≠ k ∧ m.get? k' = some v := by
  rw [get?_erase]
  split
  · next heq => exact iff_of_false nofun fun h => h.1 heq
  · next hne => exact (and_iff_right hne).symm

/-! ## Bulk updates -/

/-- Map every key of a list to one value. -/
def insertAll (ks : List K) (v : V) (m : FinMap K V) : FinMap K V :=
  ks.foldl (fun m k => m.insert k v) m

/-- Remove every key of a list. -/
def eraseAll (ks : List K) (m : FinMap K V) : FinMap K V :=
  ks.foldl (fun m k => m.erase k) m

/-- Keep only the entries that satisfy `p`. -/
def retain (p : K → V → Bool) (m : FinMap K V) : FinMap K V :=
  eraseAll (m.keysWhere fun k v => !p k v) m

theorem mem_keysWhere {p : K → V → Bool} {m : FinMap K V} {k : K} :
    k ∈ m.keysWhere p ↔ ∃ v, m.get? k = some v ∧ p k v = true := by
  have hmem : ∀ v, (⟨k, v⟩ : Sigma fun _ : K => V) ∈ AList.entries m ↔ m.get? k = some v :=
    fun _ => AList.mem_lookup_iff.symm
  constructor
  · intro h
    rcases List.mem_map.1 h with ⟨⟨k', v⟩, he, rfl⟩
    rcases List.mem_filter.1 he with ⟨he, hp⟩
    exact ⟨v, (hmem v).1 he, hp⟩
  · rintro ⟨v, hget, hp⟩
    exact List.mem_map.2 ⟨⟨k, v⟩, List.mem_filter.2 ⟨(hmem v).2 hget, hp⟩, rfl⟩

theorem get?_insertAll (ks : List K) (v : V) (m : FinMap K V) (k : K) :
    (insertAll ks v m).get? k = if k ∈ ks then some v else m.get? k := by
  induction ks generalizing m with
  | nil => simp [insertAll]
  | cons a ks ih =>
      have hstep : insertAll (a :: ks) v m = insertAll ks v (m.insert a v) := rfl
      rw [hstep, ih, get?_insert]
      by_cases hks : k ∈ ks
      · simp [hks]
      · by_cases hk : k = a <;> simp [hks, hk]

theorem get?_eraseAll (ks : List K) (m : FinMap K V) (k : K) :
    (eraseAll ks m).get? k = if k ∈ ks then none else m.get? k := by
  induction ks generalizing m with
  | nil => simp [eraseAll]
  | cons a ks ih =>
      have hstep : eraseAll (a :: ks) m = eraseAll ks (m.erase a) := rfl
      rw [hstep, ih, get?_erase]
      by_cases hks : k ∈ ks
      · simp [hks]
      · by_cases hk : k = a <;> simp [hks, hk]

theorem get?_retain (p : K → V → Bool) (m : FinMap K V) (k : K) :
    (m.retain p).get? k = (m.get? k).filter (p k) := by
  rw [retain, get?_eraseAll]
  cases hget : m.get? k with
  | none => simp
  | some v =>
      cases hp : p k v with
      | true => simp [mem_keysWhere, hget, hp, Option.filter]
      | false => simp [mem_keysWhere, hget, hp, Option.filter]

theorem get?_eraseAll_eq_some {ks : List K} {m : FinMap K V} {k : K} {v : V} :
    (eraseAll ks m).get? k = some v ↔ k ∉ ks ∧ m.get? k = some v := by
  rw [get?_eraseAll]
  split
  · next hmem => exact iff_of_false nofun fun h => h.1 hmem
  · next hnot => exact (and_iff_right hnot).symm

@[simp] theorem eraseAll_nil (m : FinMap K V) : eraseAll [] m = m := rfl

@[simp] theorem eraseAll_cons (k : K) (ks : List K) (m : FinMap K V) :
    eraseAll (k :: ks) m = eraseAll ks (m.erase k) := rfl

theorem eraseAll_append (ks ks' : List K) (m : FinMap K V) :
    eraseAll (ks ++ ks') m = eraseAll ks' (eraseAll ks m) :=
  List.foldl_append

theorem size_le_size_eraseAll (ks : List K) (m : FinMap K V) :
    m.size ≤ (eraseAll ks m).size + ks.length := by
  induction ks generalizing m with
  | nil => exact Nat.le_refl _
  | cons k ks ih =>
      have hone : m.size ≤ (m.erase k).size + 1 := by
        have herase := size_erase m k
        cases hk : m.get? k with
        | none =>
            rw [hk, Option.elim_none] at herase
            omega
        | some v =>
            rw [hk, Option.elim_some] at herase
            omega
      have hrest := ih (m.erase k)
      rw [eraseAll_cons, List.length_cons]
      omega

theorem size_eraseAll_le (ks : List K) (m : FinMap K V) : (eraseAll ks m).size ≤ m.size := by
  induction ks generalizing m with
  | nil => exact Nat.le_refl _
  | cons k ks ih => exact Nat.le_trans (ih (m.erase k)) (size_erase_le m k)

/-- No entry goes exactly when no key of the list is in use. -/
theorem size_eraseAll_eq_iff {ks : List K} {m : FinMap K V} :
    (eraseAll ks m).size = m.size ↔ ∀ k ∈ ks, m.get? k = none := by
  induction ks generalizing m with
  | nil => exact iff_of_true rfl nofun
  | cons k ks ih =>
      rw [eraseAll_cons, List.forall_mem_cons]
      cases hk : m.get? k with
      | none =>
          rw [erase_of_get?_eq_none hk, ih]
          exact (and_iff_right rfl).symm
      | some v =>
          -- this entry goes and none comes back
          have hsize := size_erase m k
          rw [hk, Option.elim_some] at hsize
          have hle := size_eraseAll_le ks (m.erase k)
          exact iff_of_false (by omega) fun h => Option.some_ne_none v h.1

/-- As many entries go as there are keys in the list exactly when the keys are distinct and all in
use. -/
theorem size_eraseAll_iff {ks : List K} {m : FinMap K V} :
    (eraseAll ks m).size + ks.length = m.size ↔ ks.Nodup ∧ ∀ k ∈ ks, ∃ v, m.get? k = some v := by
  induction ks generalizing m with
  | nil => simp
  | cons k ks ih =>
      have hsize := size_erase m k
      have hle := size_le_size_eraseAll ks (m.erase k)
      rw [eraseAll_cons, List.length_cons, List.nodup_cons, List.forall_mem_cons]
      cases hk : m.get? k with
      | none =>
          rw [hk, Option.elim_none] at hsize
          refine iff_of_false (by omega) ?_
          rintro ⟨-, ⟨v, hv⟩, -⟩
          cases hv
      | some v =>
          rw [hk, Option.elim_some] at hsize
          have hcount : (eraseAll ks (m.erase k)).size + (ks.length + 1) = m.size ↔
              (eraseAll ks (m.erase k)).size + ks.length = (m.erase k).size := by
            omega
          rw [hcount, ih]
          constructor
          · rintro ⟨hnodup, hall⟩
            refine ⟨⟨fun hmem => ?_, hnodup⟩, ⟨v, rfl⟩, fun k' hk' => ?_⟩
            · rcases hall k hmem with ⟨w, hw⟩
              rw [get?_erase, if_pos rfl] at hw
              cases hw
            · rcases hall k' hk' with ⟨w, hw⟩
              rw [get?_erase] at hw
              split at hw
              · cases hw
              · exact ⟨w, hw⟩
          · rintro ⟨⟨hnot, hnodup⟩, -, hall⟩
            refine ⟨hnodup, fun k' hk' => ?_⟩
            have hne : k' ≠ k := fun heq => hnot (heq ▸ hk')
            rw [get?_erase, if_neg hne]
            exact hall k' hk'

/-- What distinct keys contribute to a sum goes with them. -/
theorem sumOf_eraseAll (f : V → ℕ) {ks : List K} (hks : ks.Nodup) (m : FinMap K V) :
    sumOf f (eraseAll ks m) + (ks.map fun k => (m.get? k).elim 0 f).sum = sumOf f m := by
  induction ks generalizing m with
  | nil => simp
  | cons k ks ih =>
      rw [List.nodup_cons] at hks
      have herase := sumOf_erase f m k
      have hrest := ih hks.2 (m.erase k)
      -- the other keys are looked up in the smaller map as well
      have hsame : (ks.map fun k' => ((m.erase k).get? k').elim 0 f) =
          ks.map fun k' => (m.get? k').elim 0 f := by
        refine List.map_congr_left fun k' hk' => ?_
        have hne : k' ≠ k := fun heq => hks.1 (heq ▸ hk')
        rw [get?_erase, if_neg hne]
      rw [hsame] at hrest
      rw [eraseAll_cons, List.map_cons, List.sum_cons]
      omega

/-- Add values that carry their own keys. -/
def collect (key : V → K) (vs : List V) (m : FinMap K V) : FinMap K V :=
  vs.foldl (fun m v => m.insert (key v) v) m

theorem values_collect_perm (key : V → K) (vs : List V) (m : FinMap K V)
    (hnew : ∀ v ∈ vs, m.get? (key v) = none) (hdistinct : (vs.map key).Nodup) :
    (collect key vs m).values.Perm (vs ++ m.values) := by
  induction vs generalizing m with
  | nil => exact List.Perm.refl _
  | cons v vs ih =>
      rw [List.map_cons, List.nodup_cons] at hdistinct
      -- a new key is put in front
      have hvalues : (m.insert (key v) v).values = v :: m.values := by
        have hv := notMem_of_get?_eq_none (hnew v List.mem_cons_self)
        exact congrArg (List.map Sigma.snd) (AList.entries_insert_of_notMem hv)
      -- the keys to come are still new
      have hrest : ∀ w ∈ vs, (m.insert (key v) v).get? (key w) = none := by
        intro w hw
        have hne : key w ≠ key v := fun heq => hdistinct.1 (heq ▸ List.mem_map_of_mem hw)
        rw [get?_insert_ne m v hne]
        exact hnew w (List.mem_cons_of_mem v hw)
      have hperm := ih (m.insert (key v) v) hrest hdistinct.2
      rw [hvalues] at hperm
      exact hperm.trans List.perm_middle

/-- Nothing is lost when values with distinct keys are stored in an empty map. -/
theorem values_collect_empty_perm (key : V → K) (vs : List V) (h : (vs.map key).Nodup) :
    (collect key vs empty).values.Perm vs := by
  simpa using values_collect_perm key vs empty (fun v _ => get?_empty (key v)) h

end FinMap

end Lib
