import Aevum.Core.SingleChain

/-!
# Core.HeightGaps — heights that skip

`apply_block_checked` bounds the height of a block from below only, and the error `HeightMismatch`
is declared but no check raises it.  `Contiguous` says that the heights applied are `0, 1, 2, ...`
and that the current epoch has not run ahead of them; `run_contiguous_iff` shows that this holds
throughout a run exactly when no block that gets through lies more than one above the current
height.
-/

namespace Aevum
namespace Core
namespace ChainState

open Lib Crypto

section Heights

variable {U : Type*} [ForeignTypes] [StateTransition U]

/-- Every block lies one above the block before it, the height counts the blocks after the genesis
block, and every height of an epoch before the current one has been applied. -/
structure Contiguous (tr : List (ChainEvent U)) (s : ChainState U) : Prop where
  succ : (appliedIn tr).IsChain fun a b => b.height.toNat = a.height.toNat + 1
  count : s.genesisApplied = true → s.height.toNat + 1 = (appliedIn tr).length
  epochs : ∀ h : ℕ, h / (StateTransition.epochLengthBlocks U).toNat < s.currentEpoch.toNat →
    ∃ b ∈ appliedIn tr, b.height.toNat = h

/-- The blocks applied have the heights `0, 1, 2, ...` up to the current one, whose epoch is not
before the current epoch. -/
structure Counted (tr : List (ChainEvent U)) (s : ChainState U) : Prop where
  heights : (appliedIn tr).map (fun b => b.height.toNat) = List.range (appliedIn tr).length
  before : s.genesisApplied = false → s.currentEpoch = 0
  count : s.genesisApplied = true → s.height.toNat + 1 = (appliedIn tr).length
  epoch_le : s.currentEpoch.toNat ≤ s.height.toNat / (StateTransition.epochLengthBlocks U).toNat

theorem Counted.contiguous {tr : List (ChainEvent U)} {s : ChainState U} (h : Counted tr s) :
    Contiguous tr s where
  succ := by
    have hrange : ((appliedIn tr).map fun b => b.height.toNat).IsChain fun m n => n = m + 1 := by
      rw [h.heights]
      exact (List.isChain_range _ _).2 fun _ _ => rfl
    exact List.isChain_of_isChain_map _ (fun _ _ hsucc => hsucc) hrange
  count := h.count
  epochs := by
    intro k hk
    -- an epoch has been left, so the genesis block has been applied
    have hstarted : s.genesisApplied = true := by
      refine Bool.eq_true_of_not_eq_false fun hfirst => ?_
      rw [h.before hfirst] at hk
      exact Nat.not_lt_zero _ hk
    have hlt : k < s.height.toNat := by
      by_contra hge
      have hmono := Nat.div_le_div_right (c := (StateTransition.epochLengthBlocks U).toNat)
        (Nat.le_of_not_lt hge)
      have hle := h.epoch_le
      omega
    have hmem : k ∈ (appliedIn tr).map fun b => b.height.toNat := by
      rw [h.heights, List.mem_range, ← h.count hstarted]
      omega
    rcases List.mem_map.1 hmem with ⟨b, hb, hheight⟩
    exact ⟨b, hb, hheight⟩

/-! ## One step -/

theorem counted_new [Blake3] : Counted [] (new : ChainState U) where
  heights := rfl
  before _ := rfl
  count h := by cases h
  epoch_le := Nat.zero_le _

/-- A call that applies no block. -/
theorem Counted.keep {tr : List (ChainEvent U)} {s s' : ChainState U} {e : ChainEvent U}
    (h : Counted tr s) (he : e.appliedBlock = none) (hheight : s'.height = s.height)
    (hgenesis : s'.genesisApplied = s.genesisApplied) (hepoch : s'.currentEpoch = s.currentEpoch) :
    Counted (tr ++ [e]) s' := by
  have happ : appliedIn (tr ++ [e]) = appliedIn tr := by
    rw [appliedIn_append, appliedIn, appliedIn, List.filterMap_cons_none he, List.filterMap_nil,
      List.append_nil]
  constructor
  · rw [happ]
    exact h.heights
  · rw [hgenesis, hepoch]
    exact h.before
  · rw [happ, hgenesis, hheight]
    exact h.count
  · rw [hepoch, hheight]
    exact h.epoch_le

/-- A call that applies a block whose height is the number of blocks before it. -/
theorem Counted.add {tr : List (ChainEvent U)} {s s' : ChainState U} {e : ChainEvent U} {b : Block}
    (h : Counted tr s) (he : e.appliedBlock = some b)
    (hnext : b.height.toNat = (appliedIn tr).length) (hheight : s'.height = b.height)
    (hgenesis : s'.genesisApplied = true)
    (hepoch : s'.currentEpoch.toNat ≤
      b.height.toNat / (StateTransition.epochLengthBlocks U).toNat) :
    Counted (tr ++ [e]) s' := by
  have happ : appliedIn (tr ++ [e]) = appliedIn tr ++ [b] := by
    rw [appliedIn_append, appliedIn, appliedIn, List.filterMap_cons_some he, List.filterMap_nil]
  constructor
  · rw [happ, List.map_append, h.heights, List.length_append, List.length_singleton,
      List.range_succ, List.map_singleton, hnext]
  · intro hfirst
    rw [hgenesis] at hfirst
    cases hfirst
  · intro _
    rw [happ, hheight, hnext, List.length_append, List.length_singleton]
  · rw [hheight]
    exact hepoch

variable [Blake3]

/-- A block that is about to be applied lies at most one above the current height. -/
def NoGap (_ : List (ChainEvent U)) (s : ChainState U) : ChainEvent U → ChainState U → Prop
  | .apply b ns _, _ => ∀ r, s.AcceptsBlock b ns r → b.height.toNat ≤ s.height.toNat + 1
  | .presence _ _ _, _ => False
  | .finalize _, _ => True

theorem NoGap.notPresence {tr : List (ChainEvent U)} {s s' : ChainState U} {e : ChainEvent U}
    (h : NoGap tr s e s') : e.NotPresence := by
  cases e with
  | apply b ns result => trivial
  | presence b ns result => exact h
  | finalize f => trivial

variable [JtUtxo U]

/-- A block that passes the checks enters no epoch before the current one. -/
theorem Counted.epoch_commitBlock {tr : List (ChainEvent U)} {s : ChainState U} {b : Block}
    {ns : List Hash} {r : StateRootData U} (h : Counted tr s) (hacc : s.AcceptsBlock b ns r) :
    (s.commitBlock b r).currentEpoch.toNat ≤
      b.height.toNat / (StateTransition.epochLengthBlocks U).toNat := by
  rw [commitBlock_currentEpoch, commit_currentEpoch]
  split
  · exact Nat.le_of_eq (UInt64.toNat_div b.height _)
  · have hle := UInt64.le_iff_toNat_le.1 hacc.passes.height_le
    exact Nat.le_trans h.epoch_le (Nat.div_le_div_right hle)

/-- A block that is applied without leaving a gap is counted. -/
theorem Counted.step {tr : List (ChainEvent U)} {s s' : ChainState U} {e : ChainEvent U}
    (h : Counted tr s) (htip : TipInv (appliedIn tr) s) (hstep : s.step e s')
    (hgap : NoGap tr s e s') : Counted (tr ++ [e]) s' := by
  cases step_kind hstep with
  | finalize f => exact h.keep rfl rfl rfl rfl
  | rejectApply b ns err => exact h.keep rfl rfl rfl rfl
  | rejectPresence b ns err => exact hgap.elim
  | genesis b ns r res hacc =>
      have hnil := (htip.before hacc.first).1
      refine h.add rfl ?_ hacc.height_eq.symm rfl ?_
      · rw [hnil, hacc.height_eq]
        rfl
      · rw [commitGenesis_currentEpoch, h.before hacc.first]
        exact Nat.zero_le _
  | block b ns r res hacc =>
      have hlt := UInt64.lt_iff_toNat_lt.1
        ((htip.after hacc.passes.started).height_lt hacc.passes)
      have hle := hgap r hacc
      have hcount := h.count hacc.passes.started
      exact h.add rfl (by omega) rfl hacc.passes.started (h.epoch_commitBlock hacc)
  | presence b ns r res hacc => exact hgap.elim

/-! ## Runs -/

/-- The steps of `apply_block_checked` and `finalize_up_to` that keep the heights contiguous. -/
def KeepsContiguous (tr : List (ChainEvent U)) (_ : ChainState U) (e : ChainEvent U)
    (s' : ChainState U) : Prop :=
  e.NotPresence ∧ Contiguous (tr ++ [e]) s'

theorem counted_run {tr : List (ChainEvent U)} {s : ChainState U}
    (hrun : RunWith step NoGap new tr s) : Counted tr s := by
  refine RunWith.invariant Counted counted_new ?_ hrun
  intro tr s e s' hrun ih hstep hgap
  have hblocks : BlockRun tr s := hrun.imp fun _ _ _ _ _ _ _ hgap => hgap.notPresence
  exact ih.step (tipInv_run hblocks) hstep hgap

/-- A block that was applied in one piece with the others left no gap. -/
theorem noGap_of_contiguous {tr : List (ChainEvent U)} {s s' : ChainState U} {e : ChainEvent U}
    (htip : TipInv (appliedIn tr) s) (hstep : s.step e s') (hkeep : KeepsContiguous tr s e s') :
    NoGap tr s e s' := by
  cases step_kind hstep with
  | finalize f => trivial
  | rejectApply b ns err =>
      intro r hacc
      have hcall := hacc.apply.symm.trans hstep.2
      exact absurd (congrArg Prod.snd hcall) nofun
  | rejectPresence b ns err => exact hkeep.1.elim
  | genesis b ns r res hacc => exact fun r' hacc' => (hacc'.height_ne hacc.height_eq).elim
  | block b ns r res hacc =>
      intro _ _
      rcases (htip.after hacc.passes.started).last with ⟨a, ha, -, hheight⟩
      have hsucc := hkeep.2.succ
      have happ : appliedIn (tr ++ [ChainEvent.apply b ns (.ok res)]) = appliedIn tr ++ [b] :=
        appliedIn_append tr _
      rw [happ] at hsucc
      -- the last two blocks of the chain
      have hlast := (List.isChain_append.1 hsucc).2.2 a ha b rfl
      rw [← hheight]
      exact Nat.le_of_eq hlast
  | presence b ns r res hacc => exact hkeep.1.elim

/-- Heights stay contiguous in a run exactly when no block that gets through leaves a gap. -/
theorem run_contiguous_iff {tr : List (ChainEvent U)} {s : ChainState U} :
    RunWith step KeepsContiguous new tr s ↔ RunWith step NoGap new tr s := by
  refine RunWith.congr fun tr s e s' _ hrun hstep => ?_
  have hblocks : BlockRun tr s := hrun.imp fun _ _ _ _ _ _ _ hgap => hgap.notPresence
  have htip := tipInv_run hblocks
  constructor
  · exact noGap_of_contiguous htip hstep
  · intro hgap
    exact ⟨hgap.notPresence, ((counted_run hrun).step htip hstep hgap).contiguous⟩

end Heights

section Sample

attribute [local instance] polyBlake3 unitTypes sampleTransition

/-- Heights do not advance one by one in every run: on top of the genesis block a block at height
3 is applied. -/
theorem not_run_contiguous :
    ¬ ∀ tr s, BlockRun tr (s : ChainState SampleUtxo) → Contiguous tr s := by
  intro hall
  have hrun : BlockRun sampleTrace₂ sampleState₂ :=
    RunWith.snoc (RunWith.snoc RunWith.nil (step_apply (by decide +kernel)) trivial)
      (step_apply (by decide +kernel)) trivial
  have hcount := (hall _ _ hrun).count (by decide +kernel)
  exact absurd hcount (by decide +kernel)

end Sample

end ChainState
end Core
end Aevum
