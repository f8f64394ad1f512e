import Aevum.Lib.HashChain
import Aevum.Core.ChainState

/-!
# Core.SingleChain — the chain state without presence records

As long as blocks are applied by `applyBlockChecked` alone, the two tips of the chain state agree
and the state describes one hash-linked chain.  `Describes blocks s` says which; it is established
by the genesis block and every later block extends it by one link.
-/

namespace Aevum
namespace Core
namespace ChainState

open Lib Crypto

section Chain

variable {U : Type*} [ForeignTypes]

/-! ## The chain behind a state -/

/-- A chain of blocks that starts with a genesis block. -/
structure FromGenesis (blocks : List Block) : Prop where
  genesis : ∃ g ∈ blocks.head?, g.height = 0 ∧ g.prevHash = Hash.zero
  linked : Linked Block.blockHash Block.prevHash (fun b => b.height.toNat) blocks

/-- The state stands at the end of the chain `blocks`. -/
structure Describes (blocks : List Block) (s : ChainState U) : Prop where
  chain : FromGenesis blocks
  last : ∃ b ∈ blocks.getLast?, b.blockHash = s.lastBlockHash ∧ b.height = s.height
  tip : s.canonicalTip = s.lastBlockHash
  canonicalHeight : s.canonicalHeight = s.height
  recorded : s.appliedBlocks.get? s.height = some s.lastBlockHash
  above : ∀ h, s.height < h → s.appliedBlocks.get? h = none

/-- Either nothing has been applied yet, or the state stands at the end of `blocks`. -/
structure TipInv (blocks : List Block) (s : ChainState U) : Prop where
  before : s.genesisApplied = false → blocks = [] ∧ s.appliedBlocks = FinMap.empty
  after : s.genesisApplied = true → Describes blocks s

theorem tipInv_new [Blake3] : TipInv [] (new : ChainState U) where
  before _ := ⟨rfl, rfl⟩
  after h := by cases h

theorem Describes.finalizeUpTo {blocks : List Block} {s : ChainState U} (h : Describes blocks s)
    (f : UInt64) : Describes blocks (s.finalizeUpTo f) :=
  ⟨h.chain, h.last, h.tip, h.canonicalHeight, h.recorded, h.above⟩

/-- The current height is recorded, so a fresh height is a larger one. -/
theorem Describes.height_lt {blocks : List Block} {s : ChainState U} {b : Block}
    (h : Describes blocks s) (hpass : s.Passes b) : s.height < b.height := by
  refine UInt64.lt_of_le_of_ne hpass.height_le fun heq => ?_
  have hfresh := hpass.fresh
  rw [← heq, h.recorded] at hfresh
  cases hfresh

variable [JtUtxo U]

theorem describes_genesis {s : ChainState U} {b : Block} (r : StateRootData U)
    (hempty : s.appliedBlocks = FinMap.empty) (hheight : b.height = 0)
    (hprev : b.prevHash = Hash.zero) : Describes [b] (s.commitGenesis b r) where
  chain := ⟨⟨b, rfl, hheight, hprev⟩, Linked.single b⟩
  last := ⟨b, rfl, rfl, hheight⟩
  tip := rfl
  canonicalHeight := rfl
  recorded := FinMap.get?_insert_self s.appliedBlocks 0 b.blockHash
  above := by
    intro h hpos
    have hne : h ≠ 0 := fun heq => UInt64.ne_of_lt hpos heq.symm
    rw [commitGenesis_appliedBlocks, FinMap.get?_insert_ne _ _ hne, hempty]
    rfl

variable [StateTransition U] [Blake3]

/-- A block that passes the checks extends the chain by one link. -/
theorem Describes.commitBlock {blocks : List Block} {s : ChainState U} {b : Block}
    {ns : List Hash} {r : StateRootData U} (h : Describes blocks s)
    (hacc : s.AcceptsBlock b ns r) : Describes (blocks ++ [b]) (s.commitBlock b r) := by
  -- the two tips are one, so both ways to pass the check name the last block
  have hprev : b.prevHash = s.lastBlockHash := by
    rcases hacc.passes.extends_tip with htip | hlast
    · rw [htip, h.tip]
    · exact hlast
  have hheight := h.height_lt hacc.passes
  have hmoves : s.movesTip b = true := by
    simp [movesTip, h.tip, hprev]
  rcases h.last with ⟨a, ha, hhash, haheight⟩
  refine ⟨⟨?_, h.chain.linked.snoc ?_⟩, ⟨b, by simp, rfl, rfl⟩, ?_, ?_, ?_, ?_⟩
  · rcases h.chain.genesis with ⟨g, hg, hgenesis⟩
    exact ⟨g, List.mem_head?_append_of_mem_head? hg, hgenesis⟩
  · intro c hc
    cases Option.mem_unique ha hc
    exact ⟨by rw [hprev, hhash], UInt64.lt_iff_toNat_lt.1 (haheight ▸ hheight)⟩
  · simp [hmoves]
  · simp [hmoves]
  · exact FinMap.get?_insert_self s.appliedBlocks b.height b.blockHash
  · intro k hk
    rw [commitBlock_height] at hk
    have hne : k ≠ b.height := fun heq => UInt64.ne_of_lt hk heq.symm
    rw [commitBlock_appliedBlocks, FinMap.get?_insert_ne _ _ hne]
    exact h.above k (UInt64.lt_trans hheight hk)

/-! ## Runs -/

theorem TipInv.step {tr : List (ChainEvent U)} {s s' : ChainState U} {e : ChainEvent U}
    (h : TipInv (appliedIn tr) s) (hstep : s.step e s') (hblock : e.NotPresence) :
    TipInv (appliedIn (tr ++ [e])) s' := by
  rw [appliedIn_append]
  cases step_kind hstep with
  | finalize f =>
      have hnone : appliedIn [ChainEvent.finalize (U := U) f] = [] := rfl
      rw [hnone, List.append_nil]
      exact ⟨h.before, fun hstarted => (h.after hstarted).finalizeUpTo f⟩
  | rejectApply b ns err =>
      have hnone : appliedIn [ChainEvent.apply b ns (.error err)] = [] := rfl
      rw [hnone, List.append_nil]
      exact h
  | rejectPresence b ns err => exact hblock.elim
  | genesis b ns r res hacc =>
      -- genesis comes first: nothing has been applied or recorded before it
      rcases h.before hacc.first with ⟨hnil, hempty⟩
      have hone : appliedIn [ChainEvent.apply (U := U) b ns (.ok res)] = [b] := rfl
      rw [hone, hnil, List.nil_append]
      exact ⟨nofun, fun _ => describes_genesis r hempty hacc.height_eq hacc.prev_eq⟩
  | block b ns r res hacc =>
      have hone : appliedIn [ChainEvent.apply (U := U) b ns (.ok res)] = [b] := rfl
      rw [hone]
      refine ⟨fun hfirst => ?_, fun _ => (h.after hacc.passes.started).commitBlock hacc⟩
      rw [commitBlock_genesisApplied, commit_genesisApplied, hacc.passes.started] at hfirst
      cases hfirst
  | presence b ns r res hacc => exact hblock.elim

/-- The runs of `apply_block_checked` and `finalize_up_to`. -/
abbrev BlockRun : List (ChainEvent U) → ChainState U → Prop :=
  RunWith step (fun _ _ e _ => e.NotPresence) new

theorem tipInv_run {tr : List (ChainEvent U)} {s : ChainState U} (hrun : BlockRun tr s) :
    TipInv (appliedIn tr) s :=
  RunWith.invariant (fun tr s => TipInv (appliedIn tr) s) tipInv_new
    (fun _ _ _ _ _ ih hstep hblock => ih.step hstep hblock) hrun

/-- A block that is applied lies above everything finalized before, unless it is the genesis
block. -/
theorem finalized_lt_of_apply {s s' : ChainState U} {b : Block} {ns : List Hash}
    {res : ApplyBlockResult} (hstep : s.step (.apply b ns (.ok res)) s') :
    b.height = 0 ∧ s.genesisApplied = false ∨ s.lastFinalizedHeight < b.height := by
  cases step_kind hstep with
  | genesis b ns r res hacc => exact Or.inl ⟨hacc.height_eq, hacc.first⟩
  | block b ns r res hacc => exact Or.inr hacc.passes.not_finalized

theorem apply_error {s s' : ChainState U} {b : Block} {ns : List Hash}
    {err : ChainStateError (StateTransition.TransitionError U)}
    (hstep : s.step (.apply b ns (.error err)) s') : s' = s := by
  cases step_kind hstep with
  | rejectApply b ns err => rfl

/-- Without presence records the chain state is one hash-linked chain that starts at the genesis
block, grows strictly, respects finality and is untouched by failing calls. -/
theorem single_chain {tr : List (ChainEvent U)} {s : ChainState U} (hrun : BlockRun tr s) :
    (s.genesisApplied = true → Describes (appliedIn tr) s) ∧
      (appliedIn tr).Pairwise (fun a b => a.height < b.height) ∧
      (∀ before b ns res after, tr = before ++ .apply b ns (.ok res) :: after →
        b.height ≠ 0 → ∀ f, .finalize f ∈ before → f < b.height) ∧
      (∀ b ns res s', s.step (.apply b ns (.ok res)) s' →
        b.height = 0 ∧ s.genesisApplied = false ∨ s.lastFinalizedHeight < b.height) ∧
      (∀ b ns err s', s.step (.apply b ns (.error err)) s' → s' = s) := by
  have hinv := tipInv_run hrun
  refine ⟨hinv.after, ?_, ?_, fun _ _ _ _ => finalized_lt_of_apply, fun _ _ _ _ => apply_error⟩
  · cases hstarted : s.genesisApplied with
    | false =>
        rw [(hinv.before hstarted).1]
        exact List.Pairwise.nil
    | true =>
        refine (hinv.after hstarted).chain.linked.pairwise_height.imp ?_
        exact fun hlt => UInt64.lt_iff_toNat_lt.2 hlt
  · rintro before b ns res after rfl hne f hf
    -- look at the state in which the call was made
    rcases hrun.exists_step with ⟨s₁, s₂, hrun₁, hstep, -⟩
    rcases finalized_lt_of_apply hstep with ⟨hzero, -⟩ | hlt
    · exact (hne hzero).elim
    · exact ((finalized_run hrun₁).lt_iff hne).1 hlt f hf

end Chain

section Sample

attribute [local instance] polyBlake3 unitTypes sampleTransition

/-- After the genesis block and a block at height 3 the two tips agree. -/
theorem single_chain_sample :
    sampleState₂.canonicalTip = sampleState₂.lastBlockHash ∧
      sampleState₂.canonicalHeight = sampleState₂.height := by
  have hrun : BlockRun sampleTrace₂ sampleState₂ :=
    RunWith.snoc (RunWith.snoc RunWith.nil (step_apply (by decide +kernel)) trivial)
      (step_apply (by decide +kernel)) trivial
  have hdescribes := (single_chain hrun).1 (by decide +kernel)
  exact ⟨hdescribes.tip, hdescribes.canonicalHeight⟩

end Sample

end ChainState
end Core
end Aevum
