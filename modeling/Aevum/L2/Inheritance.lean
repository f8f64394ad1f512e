import Aevum.L2.Transaction
import Aevum.Lib.Records

/-!
# L2.Inheritance — `l2_transaction.rs` (`inherit_dna`)

What the outputs of an L2 transaction inherit from its inputs: four running values, updated by the
inputs that are at least as far as every input in front of them.

* `inherited_foldl` : the loop bounds the records of the input list;
* `dominates_iff` : when the result bounds every input;
* `perm_inheritDna_iff` : when the order of the inputs does not matter.
-/

namespace Aevum
namespace L2

open Lib Crypto

/-! ## The loop -/

/-- The running values of `inherit_dna`. -/
@[ext] structure Taint where
  maxDistance : UInt16
  origin : UInt64
  oldestTs : UInt64
  restriction : UInt64
  deriving DecidableEq

namespace Taint

def start : Taint :=
  { maxDistance := 0
    origin := 0
    oldestTs := UInt64.maxValue
    restriction := 0 }

/-- One round of the loop. -/
def inherit (s : Taint) (i : L2Utxo) : Taint :=
  if i.taintDistance ≥ s.maxDistance then
    { maxDistance := i.taintDistance
      origin := i.taintOrigin
      oldestTs := min s.oldestTs i.taintTimestamp
      restriction := max s.restriction i.restrictionLevel }
  else
    s

end Taint

def L2Transaction.inheritDna (inputs : List L2Utxo) : UInt16 × UInt64 × UInt64 × UInt64 :=
  if inputs.isEmpty then
    (0, 0, 0, 0)
  else
    let s := inputs.foldl Taint.inherit Taint.start
    (s.maxDistance.satAdd 1, s.origin, s.oldestTs, s.restriction)

theorem L2Transaction.inheritDna_of_ne_nil {inputs : List L2Utxo} (h : inputs ≠ []) :
    inheritDna inputs =
      ((inputs.foldl Taint.inherit Taint.start).maxDistance.satAdd 1,
        (inputs.foldl Taint.inherit Taint.start).origin,
        (inputs.foldl Taint.inherit Taint.start).oldestTs,
        (inputs.foldl Taint.inherit Taint.start).restriction) := by
  rw [inheritDna, if_neg (mt List.isEmpty_iff.1 h)]

/-! ## What the loop computes -/

/-- The inputs the loop takes into account. -/
def Kept (inputs : List L2Utxo) (i : L2Utxo) : Prop :=
  IsRecord L2Utxo.taintDistance inputs i

/-- An input no other one exceeds. -/
def Farthest (inputs : List L2Utxo) (i : L2Utxo) : Prop :=
  i ∈ inputs ∧ ∀ j ∈ inputs, j.taintDistance ≤ i.taintDistance

instance (inputs : List L2Utxo) : DecidablePred (Farthest inputs) := fun i =>
  inferInstanceAs (Decidable (i ∈ inputs ∧ ∀ j ∈ inputs, j.taintDistance ≤ i.taintDistance))

theorem Farthest.kept {inputs : List L2Utxo} {i : L2Utxo} (h : Farthest inputs i) :
    Kept inputs i :=
  isRecord_of_greatest h.1 h.2

theorem Farthest.perm {inputs inputs' : List L2Utxo} {i : L2Utxo} (hp : inputs.Perm inputs')
    (h : Farthest inputs i) : Farthest inputs' i :=
  ⟨hp.mem_iff.1 h.1, fun j hj => h.2 j (hp.mem_iff.2 hj)⟩

theorem farthest_concat {inputs : List L2Utxo} {i j : L2Utxo} :
    Farthest (inputs ++ [i]) j ↔ j ∈ inputs ++ [i] ∧
      (∀ k ∈ inputs, k.taintDistance ≤ j.taintDistance) ∧ i.taintDistance ≤ j.taintDistance := by
  rw [Farthest, List.forall_mem_append, List.forall_mem_singleton]

/-- The running values after a list of inputs. -/
structure Inherited (inputs : List L2Utxo) (s : Taint) : Prop where
  farthest : ∃ i, Farthest inputs i ∧ i.taintDistance = s.maxDistance ∧ i.taintOrigin = s.origin
  oldest : IsLeast (L2Utxo.taintTimestamp '' {i | Kept inputs i}) s.oldestTs
  restriction : IsGreatest (L2Utxo.restrictionLevel '' {i | Kept inputs i}) s.restriction

namespace Inherited

variable {l : List L2Utxo} {s : Taint} {i j : L2Utxo}

theorem distance_le (h : Inherited l s) (hj : j ∈ l) : j.taintDistance ≤ s.maxDistance := by
  rcases h.farthest with ⟨k, hk, hmax, -⟩
  rw [← hmax]
  exact hk.2 j hj

theorem oldest_le (h : Inherited l s) (hj : Kept l j) : s.oldestTs ≤ j.taintTimestamp :=
  h.oldest.2 ⟨j, hj, rfl⟩

theorem le_restriction (h : Inherited l s) (hj : Kept l j) : j.restrictionLevel ≤ s.restriction :=
  h.restriction.2 ⟨j, hj, rfl⟩

theorem kept_concat_of_lt (h : Inherited l s) (hlt : i.taintDistance < s.maxDistance) :
    {j | Kept (l ++ [i]) j} = {j | Kept l j} := by
  ext j
  refine isRecord_concat.trans (or_iff_left ?_)
  rintro ⟨-, hall⟩
  rcases h.farthest with ⟨k, hk, hmax, -⟩
  rw [← hmax] at hlt
  exact UInt16.not_le.2 hlt (hall k hk.1)

theorem kept_concat_of_ge (h : Inherited l s) (hge : s.maxDistance ≤ i.taintDistance) :
    {j | Kept (l ++ [i]) j} = insert i {j | Kept l j} := by
  ext j
  have hall : ∀ c ∈ l, c.taintDistance ≤ i.taintDistance :=
    fun c hc => UInt16.le_trans (h.distance_le hc) hge
  exact isRecord_concat.trans ((or_congr_right (and_iff_left hall)).trans or_comm)

/-- An input that falls short of the distance so far is passed over. -/
theorem concat_of_lt (h : Inherited l s) (hlt : i.taintDistance < s.maxDistance) :
    Inherited (l ++ [i]) s where
  farthest := by
    rcases h.farthest with ⟨k, hk, hmax, horigin⟩
    have hle : i.taintDistance ≤ k.taintDistance := hmax ▸ UInt16.le_of_lt hlt
    exact ⟨k, farthest_concat.2 ⟨List.mem_append_left [i] hk.1, hk.2, hle⟩, hmax, horigin⟩
  oldest := by
    rw [h.kept_concat_of_lt hlt]
    exact h.oldest
  restriction := by
    rw [h.kept_concat_of_lt hlt]
    exact h.restriction

theorem concat_of_ge (h : Inherited l s) (hge : s.maxDistance ≤ i.taintDistance) :
    Inherited (l ++ [i])
      { maxDistance := i.taintDistance
        origin := i.taintOrigin
        oldestTs := min s.oldestTs i.taintTimestamp
        restriction := max s.restriction i.restrictionLevel } where
  farthest := by
    have hall : ∀ j ∈ l, j.taintDistance ≤ i.taintDistance :=
      fun j hj => UInt16.le_trans (h.distance_le hj) hge
    have hself : i ∈ l ++ [i] := List.mem_append_right l List.mem_cons_self
    exact ⟨i, farthest_concat.2 ⟨hself, hall, UInt16.le_refl _⟩, rfl, rfl⟩
  oldest := by
    rw [h.kept_concat_of_ge hge, Set.image_insert_eq]
    exact UInt64.isLeast_insert h.oldest
  restriction := by
    rw [h.kept_concat_of_ge hge, Set.image_insert_eq]
    exact UInt64.isGreatest_insert h.restriction

theorem concat (h : Inherited l s) (i : L2Utxo) : Inherited (l ++ [i]) (s.inherit i) := by
  unfold Taint.inherit
  split
  · rename_i hge
    exact h.concat_of_ge hge
  · rename_i hlt
    exact h.concat_of_lt (UInt16.not_le.1 hlt)

end Inherited

theorem inherited_singleton (i : L2Utxo) : Inherited [i] (Taint.start.inherit i) := by
  have hkept : {j | Kept [i] j} = {i} := by
    ext j
    refine isRecord_concat.trans ((or_iff_right not_isRecord_nil).trans (and_iff_left ?_))
    exact nofun
  have hround : Taint.start.inherit i =
      { maxDistance := i.taintDistance
        origin := i.taintOrigin
        oldestTs := i.taintTimestamp
        restriction := i.restrictionLevel } := by
    have hge : i.taintDistance ≥ Taint.start.maxDistance := UInt16.zero_le
    rw [Taint.inherit, if_pos hge]
    simp only [Taint.start, UInt64.zero_max, UInt64.maxValue_min]
  let := UInt64.linearOrder
  rw [hround]
  refine ⟨⟨i, ⟨List.mem_cons_self, ?_⟩, rfl, rfl⟩, ?_, ?_⟩
  · rw [List.forall_mem_singleton]
    exact UInt16.le_refl _
  · rw [hkept, Set.image_singleton]
    exact isLeast_singleton
  · rw [hkept, Set.image_singleton]
    exact isGreatest_singleton

/-- The loop takes the oldest timestamp and the greatest restriction of the inputs it keeps. -/
theorem inherited_foldl {inputs : List L2Utxo} (h : inputs ≠ []) :
    Inherited inputs (inputs.foldl Taint.inherit Taint.start) := by
  induction inputs using List.reverseRecOn with
  | nil => exact (h rfl).elim
  | append_singleton l i ih =>
      cases l with
      | nil => exact inherited_singleton i
      | cons j l =>
          rw [List.foldl_append]
          exact (ih (List.cons_ne_nil j l)).concat i

theorem exists_farthest {inputs : List L2Utxo} (h : inputs ≠ []) : ∃ i, Farthest inputs i := by
  rcases (inherited_foldl h).farthest with ⟨i, hi, -⟩
  exact ⟨i, hi⟩

/-! ## Laundering -/

/-- The inherited values bound those of every input, and the distance is one more than the
largest. -/
structure Dominates (dna : UInt16 × UInt64 × UInt64 × UInt64) (inputs : List L2Utxo) : Prop where
  distance : ∃ i, Farthest inputs i ∧ dna.1 = i.taintDistance.satAdd 1
  timestamp : ∀ i ∈ inputs, dna.2.2.1 ≤ i.taintTimestamp
  restriction : ∀ i ∈ inputs, i.restrictionLevel ≤ dna.2.2.2

/-- Nothing is laundered if and only if, for every input, one that the loop keeps is as old and
one that it keeps is as restricted. -/
theorem dominates_iff (inputs : List L2Utxo) (h : inputs ≠ []) :
    Dominates (L2Transaction.inheritDna inputs) inputs ↔
      ∀ i ∈ inputs, (∃ j, Kept inputs j ∧ j.taintTimestamp ≤ i.taintTimestamp) ∧
        ∃ j, Kept inputs j ∧ i.restrictionLevel ≤ j.restrictionLevel := by
  have hs := inherited_foldl h
  rw [L2Transaction.inheritDna_of_ne_nil h]
  constructor
  · intro hdom i hi
    rcases hs.oldest.1 with ⟨j, hj, hjt⟩
    rcases hs.restriction.1 with ⟨k, hk, hkr⟩
    refine ⟨⟨j, hj, ?_⟩, k, hk, ?_⟩
    · rw [hjt]
      exact hdom.timestamp i hi
    · rw [hkr]
      exact hdom.restriction i hi
  · intro hkept
    refine ⟨?_, fun i hi => ?_, fun i hi => ?_⟩
    · rcases hs.farthest with ⟨i, hi, hmax, -⟩
      exact ⟨i, hi, by rw [hmax]⟩
    · rcases (hkept i hi).1 with ⟨j, hj, hle⟩
      exact UInt64.le_trans (hs.oldest_le hj) hle
    · rcases (hkept i hi).2 with ⟨j, hj, hle⟩
      exact UInt64.le_trans hle (hs.le_restriction hj)

def sampleInput (distance : UInt16) (origin timestamp restriction : UInt64) : L2Utxo :=
  L2Utxo.new (sampleKey 1) 1000 Hash.zero 0 (distance, origin, timestamp, restriction)

theorem dominates_iff_sample :
    Dominates (L2Transaction.inheritDna [sampleInput 0 1 40 3, sampleInput 5 2 50 9])
      [sampleInput 0 1 40 3, sampleInput 5 2 50 9] := by
  refine (dominates_iff _ (List.cons_ne_nil _ _)).2 ?_
  have hfirst : Kept [sampleInput 0 1 40 3, sampleInput 5 2 50 9] (sampleInput 0 1 40 3) :=
    isRecord_cons_self _ _
  have hsecond : Kept [sampleInput 0 1 40 3, sampleInput 5 2 50 9] (sampleInput 5 2 50 9) :=
    Farthest.kept (by decide +kernel)
  intro i hi
  refine ⟨⟨_, hfirst, ?_⟩, _, hsecond, ?_⟩
  · revert i hi
    decide +kernel
  · revert i hi
    decide +kernel

/-- A clean input at distance 5 in front of a restricted one at distance 0: the outputs carry no
restriction. -/
theorem not_dominates :
    ¬ ∀ inputs : List L2Utxo, inputs ≠ [] →
      Dominates (L2Transaction.inheritDna inputs) inputs := by
  intro hclaim
  have hdom := hclaim [sampleInput 5 1 50 0, sampleInput 0 2 40 9] (List.cons_ne_nil _ _)
  have hbound := hdom.restriction (sampleInput 0 2 40 9) (by decide +kernel)
  revert hbound
  decide +kernel

/-! ## The order of the inputs -/

/-- The farthest inputs have one origin, and among them are an oldest and a most restricted
input. -/
structure Uniform (inputs : List L2Utxo) : Prop where
  origin : ∀ i j, Farthest inputs i → Farthest inputs j → i.taintOrigin = j.taintOrigin
  timestamp : ∀ i ∈ inputs, ∃ j, Farthest inputs j ∧ j.taintTimestamp ≤ i.taintTimestamp
  restriction : ∀ i ∈ inputs, ∃ j, Farthest inputs j ∧ i.restrictionLevel ≤ j.restrictionLevel

section Order

variable {inputs inputs' : List L2Utxo} {s s' : Taint} {i : L2Utxo}

theorem Uniform.perm (hp : inputs.Perm inputs') (h : Uniform inputs) : Uniform inputs' where
  origin := fun i j hi hj => h.origin i j (hi.perm hp.symm) (hj.perm hp.symm)
  timestamp := by
    intro i hi
    rcases h.timestamp i (hp.mem_iff.2 hi) with ⟨j, hj, hle⟩
    exact ⟨j, hj.perm hp, hle⟩
  restriction := by
    intro i hi
    rcases h.restriction i (hp.mem_iff.2 hi) with ⟨j, hj, hle⟩
    exact ⟨j, hj.perm hp, hle⟩

/-- In every order the loop keeps the farthest inputs. -/
theorem Uniform.oldestTs_le (h : Uniform inputs) (hp : inputs.Perm inputs')
    (hs : Inherited inputs s) (hs' : Inherited inputs' s') : s'.oldestTs ≤ s.oldestTs := by
  rcases hs.oldest.1 with ⟨i, hi, hit⟩
  rcases h.timestamp i hi.mem with ⟨j, hj, hle⟩
  rw [← hit]
  exact UInt64.le_trans (hs'.oldest_le (hj.perm hp).kept) hle

theorem Uniform.restriction_le (h : Uniform inputs) (hp : inputs.Perm inputs')
    (hs : Inherited inputs s) (hs' : Inherited inputs' s') : s.restriction ≤ s'.restriction := by
  rcases hs.restriction.1 with ⟨i, hi, hir⟩
  rcases h.restriction i hi.mem with ⟨j, hj, hle⟩
  rw [← hir]
  exact UInt64.le_trans hle (hs'.le_restriction (hj.perm hp).kept)

theorem Inherited.maxDistance_eq (hp : inputs.Perm inputs') (hs : Inherited inputs s)
    (hs' : Inherited inputs' s') : s'.maxDistance = s.maxDistance := by
  rcases hs.farthest with ⟨i, hi, hid, -⟩
  rcases hs'.farthest with ⟨j, hj, hjd, -⟩
  rw [← hid, ← hjd]
  exact UInt16.le_antisymm (hi.2 j (hp.mem_iff.2 hj.1)) (hj.2 i (hp.mem_iff.1 hi.1))

theorem Uniform.eq_of_perm (h : Uniform inputs) (hp : inputs.Perm inputs')
    (hs : Inherited inputs s) (hs' : Inherited inputs' s') : s' = s := by
  have horigin : s'.origin = s.origin := by
    rcases hs.farthest with ⟨i, hi, -, hio⟩
    rcases hs'.farthest with ⟨j, hj, -, hjo⟩
    rw [← hio, ← hjo]
    exact h.origin j i (hj.perm hp.symm) hi
  have holdest : s'.oldestTs = s.oldestTs :=
    UInt64.le_antisymm (h.oldestTs_le hp hs hs') ((h.perm hp).oldestTs_le hp.symm hs' hs)
  have hrestriction : s'.restriction = s.restriction :=
    UInt64.le_antisymm ((h.perm hp).restriction_le hp.symm hs' hs) (h.restriction_le hp hs hs')
  exact Taint.ext (hs.maxDistance_eq hp hs') horigin holdest hrestriction

/-- With the farthest inputs in front nothing else is kept. -/
theorem farthest_of_kept_filter (hne : inputs ≠ [])
    (hi : Kept (inputs.filter (Farthest inputs) ++ inputs.filter fun j => ¬ Farthest inputs j) i) :
    Farthest inputs i := by
  have hmem : i ∈ inputs := by
    rcases List.mem_append.1 hi.mem with hi | hi
    · exact List.mem_of_mem_filter hi
    · exact List.mem_of_mem_filter hi
  rcases hi.of_append with hi | hall
  · exact of_decide_eq_true (List.mem_filter.1 hi).2
  · rcases exists_farthest hne with ⟨j, hj⟩
    have hle := hall j (List.mem_filter.2 ⟨hj.1, decide_eq_true hj⟩)
    exact ⟨hmem, fun k hk => UInt16.le_trans (hj.2 k hk) hle⟩

theorem origin_concat (l : List L2Utxo) (h : ∀ j ∈ l, j.taintDistance ≤ i.taintDistance) :
    ((l ++ [i]).foldl Taint.inherit Taint.start).origin = i.taintOrigin := by
  have hge : i.taintDistance ≥ (l.foldl Taint.inherit Taint.start).maxDistance := by
    by_cases hne : l = []
    · rw [hne]
      exact UInt16.zero_le
    · rcases (inherited_foldl hne).farthest with ⟨j, hj, hmax, -⟩
      rw [← hmax]
      exact h j hj.1
  rw [List.foldl_append, List.foldl_cons, List.foldl_nil, Taint.inherit, if_pos hge]

/-- A list whose orders all inherit the same is uniform. -/
theorem uniform_of_perm (hne : inputs ≠ [])
    (h : ∀ l, inputs.Perm l →
      l.foldl Taint.inherit Taint.start = inputs.foldl Taint.inherit Taint.start) :
    Uniform inputs := by
  -- every farthest input can come last, every input first, all farthest inputs in front
  have hlast : ∀ i, Farthest inputs i →
      i.taintOrigin = (inputs.foldl Taint.inherit Taint.start).origin := by
    intro i hi
    have hp : inputs.Perm (inputs.erase i ++ [i]) :=
      (List.perm_cons_erase hi.1).trans (List.perm_append_singleton i (inputs.erase i)).symm
    rw [← h _ hp, origin_concat _ fun j hj => hi.2 j (List.mem_of_mem_erase hj)]
  have hfirst : ∀ i ∈ inputs, Inherited (i :: inputs.erase i)
      (inputs.foldl Taint.inherit Taint.start) := by
    intro i hi
    rw [← h _ (List.perm_cons_erase hi)]
    exact inherited_foldl (List.cons_ne_nil _ _)
  have hfront : Inherited
      (inputs.filter (Farthest inputs) ++ inputs.filter fun j => ¬ Farthest inputs j)
      (inputs.foldl Taint.inherit Taint.start) := by
    have hp : inputs.Perm
        (inputs.filter (Farthest inputs) ++ inputs.filter fun j => ¬ Farthest inputs j) := by
      have hfilter := List.filter_append_perm (fun j => decide (Farthest inputs j)) inputs
      simpa only [decide_not] using hfilter.symm
    rw [← h _ hp]
    exact inherited_foldl fun hnil => hne (List.nil_perm.1 (hnil ▸ hp).symm)
  refine ⟨fun i j hi hj => (hlast i hi).trans (hlast j hj).symm, fun i hi => ?_, fun i hi => ?_⟩
  · rcases hfront.oldest.1 with ⟨j, hj, heq⟩
    refine ⟨j, farthest_of_kept_filter hne hj, ?_⟩
    rw [heq]
    exact (hfirst i hi).oldest_le (isRecord_cons_self i _)
  · rcases hfront.restriction.1 with ⟨j, hj, heq⟩
    refine ⟨j, farthest_of_kept_filter hne hj, ?_⟩
    rw [heq]
    exact (hfirst i hi).le_restriction (isRecord_cons_self i _)

end Order

/-- The order of the inputs does not matter if and only if they are uniform. -/
theorem perm_inheritDna_iff (inputs : List L2Utxo) :
    (∀ inputs', inputs.Perm inputs' →
        L2Transaction.inheritDna inputs' = L2Transaction.inheritDna inputs) ↔
      Uniform inputs := by
  by_cases hne : inputs = []
  · subst hne
    constructor
    · intro _
      exact ⟨fun i _ hi => (List.not_mem_nil hi.1).elim, nofun, nofun⟩
    · rintro _ inputs' hp
      rw [List.nil_perm.1 hp]
  · constructor
    · intro h
      refine uniform_of_perm hne fun l hp => ?_
      have hne' : l ≠ [] := fun hnil => hne (List.perm_nil.1 (hnil ▸ hp))
      have heq := h l hp
      rw [L2Transaction.inheritDna_of_ne_nil hne', L2Transaction.inheritDna_of_ne_nil hne] at heq
      -- the distance is not read off the result, where it is saturated
      have hdistance := (inherited_foldl hne).maxDistance_eq hp (inherited_foldl hne')
      have hrest := congrArg Prod.snd heq
      exact Taint.ext hdistance (congrArg Prod.fst hrest)
        (congrArg (fun d => d.2.1) hrest) (congrArg (fun d => d.2.2) hrest)
    · intro h inputs' hp
      have hne' : inputs' ≠ [] := fun hnil => hne (List.perm_nil.1 (hnil ▸ hp))
      rw [L2Transaction.inheritDna_of_ne_nil hne', L2Transaction.inheritDna_of_ne_nil hne,
        h.eq_of_perm hp (inherited_foldl hne) (inherited_foldl hne')]

/-- Of two inputs with different restrictions the one in front decides. -/
theorem not_perm_inheritDna :
    ¬ ∀ inputs inputs' : List L2Utxo, inputs.Perm inputs' →
      L2Transaction.inheritDna inputs' = L2Transaction.inheritDna inputs := by
  intro hclaim
  have heq := hclaim [sampleInput 5 1 50 0, sampleInput 0 2 40 9]
    [sampleInput 0 2 40 9, sampleInput 5 1 50 0] (List.Perm.swap _ _ _)
  revert heq
  decide +kernel

end L2
end Aevum
