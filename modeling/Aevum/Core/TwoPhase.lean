import Aevum.Core.SingleChain
import Aevum.Core.BlockCommitment

/-!
# Core.TwoPhase — preview a block, build it, apply it

A producer previews a candidate on the current state, builds a block from the preview and applies
the block later; other calls may come between.  `two_phase_commit` says when the block is accepted:
if and only if nothing has been applied since the preview, so that no block is ever built from a
stale preview.

* `only_finalized` : calls that apply nothing change the finalized height alone;
* `hashed_run` : every applied block carries its own hash;
* `nothing_applied` : a block on top of an old state is accepted only if nothing came after it.
-/

namespace Aevum
namespace Core

open Lib Crypto

/-- `state_transition::preview_block_candidate`, with the text of its error. -/
class StatePreviews (U : Type*) [ForeignTypes] where
  previewBlockCandidate : BlockCandidate → Hash → List U → List Hash → UInt64 → Hash → Hash →
    Except String StatePreview

/-- `ChainStateError::PreviewFailed`. -/
structure PreviewFailed where
  text : String

namespace ChainState

section Preview

variable {U : Type*} [ForeignTypes]

/-- `preview_block` takes the lock for reading only. -/
def previewBlock [StatePreviews U] (s : ChainState U) (candidate : BlockCandidate)
    (spentVec : List Hash) : Except PreviewFailed StatePreview :=
  (StatePreviews.previewBlockCandidate candidate s.lastBlockHash s.utxos.orderedValues spentVec
    s.cachedSupply s.dnaRoot s.oracleRoot).mapError PreviewFailed.mk

variable [JtUtxo U] [StateTransition U] [Blake3] {tr tr' : List (ChainEvent U)}
  {s s' : ChainState U}

/-- The calls of `apply_block_checked` and `finalize_up_to` from a state on. -/
abbrev BlockRunFrom (s : ChainState U) : List (ChainEvent U) → ChainState U → Prop :=
  RunWith step (fun _ _ e _ => e.NotPresence) s

/-! ## Calls that apply nothing -/

/-- Without an applied block there is at most a new finalized height. -/
theorem only_finalized (hrun : BlockRunFrom s tr s') (hnone : appliedIn tr = []) :
    ∃ f, s' = { s with lastFinalizedHeight := f } := by
  refine RunWith.invariant
    (fun tr s' => appliedIn tr = [] → ∃ f, s' = { s with lastFinalizedHeight := f })
    (fun _ => ⟨s.lastFinalizedHeight, rfl⟩) ?_ hrun hnone
  intro tr s₁ e s₂ _ ih hstep hblock hnone
  rw [appliedIn_append, List.append_eq_nil_iff] at hnone
  rcases ih hnone.1 with ⟨f, rfl⟩
  cases step_kind hstep with
  | finalize g => exact ⟨_, rfl⟩
  | rejectApply b ns err => exact ⟨f, rfl⟩
  | rejectPresence b ns err => exact hblock.elim
  | genesis b ns r res hacc => cases hnone.2
  | block b ns r res hacc => cases hnone.2
  | presence b ns r res hacc => exact hblock.elim

/-- Every applied block carries its own hash. -/
theorem hashed_run (hrun : BlockRun tr s) : ∀ b ∈ appliedIn tr, b.blockHash = b.computeHash := by
  refine RunWith.invariant (fun tr _ => ∀ b ∈ appliedIn tr, b.blockHash = b.computeHash) nofun ?_
    hrun
  intro tr s₁ e s₂ _ ih hstep hblock
  rw [appliedIn_append, List.forall_mem_append]
  refine ⟨ih, ?_⟩
  cases step_kind hstep with
  | finalize g => exact nofun
  | rejectApply b ns err => exact nofun
  | rejectPresence b ns err => exact nofun
  | genesis b ns r res hacc => exact List.forall_mem_singleton.2 hacc.hash_eq.symm
  | block b ns r res hacc => exact List.forall_mem_singleton.2 hacc.hash_eq.symm
  | presence b ns r res hacc => exact hblock.elim

/-! ## Blocks on top of an old state -/

/-- The state stands on the last block that was applied. -/
theorem exists_last (hrun : BlockRun tr s) (hstarted : s.genesisApplied = true) :
    ∃ a ∈ (appliedIn tr).getLast?, a.blockHash = s.lastBlockHash ∧ a.height = s.height :=
  ((tipInv_run hrun).after hstarted).last

/-- The genesis block stays applied. -/
theorem started_of_append (hrun : BlockRun tr s) (hrun' : BlockRunFrom s tr' s')
    (hstarted : s.genesisApplied = true) : s'.genesisApplied = true := by
  cases hstarted' : s'.genesisApplied with
  | true => rfl
  | false =>
      -- nothing would have been applied at all
      have hnil := ((tipInv_run (hrun.append hrun')).before hstarted').1
      rw [appliedIn_append, List.append_eq_nil_iff] at hnil
      rcases exists_last hrun hstarted with ⟨a, ha, -⟩
      rw [hnil.1] at ha
      cases ha

/-- If the last block is still the one of the old state, no block has been applied since. -/
theorem nothing_applied {F : Set (List UInt8)} (hF : Set.InjOn Blake3.digest F)
    (hrun : BlockRun tr s) (hrun' : BlockRunFrom s tr' s') (hstarted : s.genesisApplied = true)
    (hfed : ∀ b ∈ appliedIn (tr ++ tr'), b.hashInput ∈ F)
    (hlast : s'.lastBlockHash = s.lastBlockHash) : appliedIn tr' = [] := by
  have hall : BlockRun (tr ++ tr') s' := hrun.append hrun'
  have hhashed := hashed_run hall
  have hheights := (single_chain hall).2.1
  rcases exists_last hrun hstarted with ⟨a, ha, hahash, -⟩
  rcases exists_last hall (started_of_append hrun hrun' hstarted) with ⟨d, hd, hdhash, -⟩
  rw [appliedIn_append] at hd hhashed hheights hfed
  rcases List.eq_nil_or_concat (appliedIn tr') with hnil | ⟨front, d', hconcat⟩
  · exact hnil
  · -- the newest block would have the hash of a block below it
    rw [hconcat, List.concat_eq_append, ← List.append_assoc, List.getLast?_concat] at hd
    cases hd
    have hmem : a ∈ appliedIn tr := List.mem_of_getLast? ha
    have hlater : d ∈ appliedIn tr' := by
      rw [hconcat, List.concat_eq_append]
      exact List.mem_append_right _ List.mem_cons_self
    have hlt : a.height < d.height := (List.pairwise_append.1 hheights).2.2 a hmem d hlater
    have hin := List.mem_append_left (appliedIn tr') hmem
    have hinLater := List.mem_append_right (appliedIn tr) hlater
    have hcompute : a.computeHash = d.computeHash := by
      rw [← hhashed a hin, ← hhashed d hinLater, hahash, hdhash, hlast]
    have hsame := Block.hashInput_inj (hF (hfed a hin) (hfed d hinLater) hcompute)
    rw [hsame.height] at hlt
    exact (UInt64.lt_irrefl _ hlt).elim

/-! ## The second phase -/

/-- A block built on top of `s` is accepted later on if and only if no block has been applied in
between, nothing is finalized at its height and it can be executed on `s`. -/
theorem accepted_iff {F : Set (List UInt8)} (hF : Set.InjOn Blake3.digest F)
    (hrun : BlockRun tr s) (hrun' : BlockRunFrom s tr' s') (hstarted : s.genesisApplied = true)
    (hfed : ∀ b ∈ appliedIn (tr ++ tr'), b.hashInput ∈ F) {b : Block} {ns : List Hash}
    (hhash : b.computeHash = b.blockHash) (hprev : b.prevHash = s.lastBlockHash)
    (hns : Enumerates ns s') :
    (∃ res s'', s'.step (.apply b ns (.ok res)) s'') ↔
      appliedIn tr' = [] ∧ s.height < b.height ∧
        (∀ f, .finalize f ∈ tr ++ tr' → f < b.height) ∧ ∃ r, s.execute b ns = .ok r := by
  have hall : BlockRun (tr ++ tr') s' := hrun.append hrun'
  have hstarted' := started_of_append hrun hrun' hstarted
  have hdescribes' := (tipInv_run hall).after hstarted'
  constructor
  · rintro ⟨res, s'', hstep⟩
    cases step_kind hstep with
    | genesis b ns r res hacc => exact absurd hstarted' (Bool.not_eq_true _ ▸ hacc.first)
    | block b ns r res hacc =>
        -- both ways to pass name the last block
        have hlast : s'.lastBlockHash = s.lastBlockHash := by
          rw [← hprev]
          rcases hacc.passes.extends_tip with htip | hlast
          · rw [htip, hdescribes'.tip]
          · exact hlast.symm
        have hnone := nothing_applied hF hrun hrun' hstarted hfed hlast
        have hheight := hdescribes'.height_lt hacc.passes
        have hfinal := ((finalized_run hall).lt_iff hacc.height_ne).1 hacc.passes.not_finalized
        rcases only_finalized hrun' hnone with ⟨f, rfl⟩
        exact ⟨hnone, hheight, hfinal, r, hacc.executed⟩
  · rintro ⟨hnone, hheight, hfinal, r, hexec⟩
    have hne : b.height ≠ 0 := by
      rintro hzero
      rw [hzero] at hheight
      exact UInt64.not_lt_zero hheight
    have hbelow := ((finalized_run hall).lt_iff hne).2 hfinal
    rcases only_finalized hrun' hnone with ⟨f, rfl⟩
    have hcanonical : s.canonicalHeight = s.height := hdescribes'.canonicalHeight
    have hacc : AcceptsBlock { s with lastFinalizedHeight := f } b ns r :=
      { hash_eq := hhash
        height_ne := hne
        passes :=
          { started := hstarted
            not_finalized := hbelow
            height_le := UInt64.le_of_lt hheight
            shallow := fun h => UInt64.lt_asymm hheight (hcanonical ▸ h.1)
            extends_tip := Or.inr hprev
            fresh := hdescribes'.above b.height hheight }
        executed := hexec }
    exact ⟨_, _, hns, hacc.apply⟩

/-- Two phases make one atomic step.  A block that is built from a preview on `s` is accepted later
on if and only if no block has been applied in between, nothing is finalized at its height and it
can be executed on `s`; and when it is accepted, the preview would still give the same. -/
theorem two_phase_commit [StatePreviews U] {F : Set (List UInt8)}
    (hF : Set.InjOn Blake3.digest F) (hrun : BlockRun tr s) (hrun' : BlockRunFrom s tr' s')
    (hstarted : s.genesisApplied = true) (hfed : ∀ b ∈ appliedIn (tr ++ tr'), b.hashInput ∈ F)
    {c : BlockCandidate} {p : StatePreview} {b : Block} {ns ns' : List Hash}
    (hprev : c.prevHash = s.lastBlockHash) (hpreview : s.previewBlock c ns = .ok p)
    (hbuild : Block.fromCandidate c p = .ok b) (hns' : Enumerates ns' s') :
    ((∃ res s'', s'.step (.apply b ns' (.ok res)) s'') ↔
      appliedIn tr' = [] ∧ s.height < c.height ∧
        (∀ f, .finalize f ∈ tr ++ tr' → f < c.height) ∧ ∃ r, s.execute b ns' = .ok r) ∧
      ((∃ res s'', s'.step (.apply b ns' (.ok res)) s'') → s'.previewBlock c ns = .ok p) := by
  rcases Block.fromCandidate_ok hbuild with ⟨hhash, -, -, hheight⟩
  have hiff := accepted_iff hF hrun hrun' hstarted hfed hhash.symm
    ((Block.fromCandidate_prevHash hbuild).trans hprev) hns'
  rw [hheight] at hiff
  refine ⟨hiff, fun haccepted => ?_⟩
  rcases only_finalized hrun' (hiff.1 haccepted).1 with ⟨f, rfl⟩
  exact hpreview

end Preview

section Sample

attribute [local instance] polyBlake3 unitTypes sampleTransition

/-- A preview that computes the root after one more output of 50. -/
@[reducible] def samplePreviews : StatePreviews SampleUtxo where
  previewBlockCandidate c _ utxos spent supply dna oracle :=
    let tag := c.height.toUInt8
    match computeStateRoot c.height (supply + 50) (utxos ++ [⟨50, tag⟩])
      (spent ++ [ByteArr.fill 32 tag]) dna oracle with
    | .ok r => .ok ⟨⟨r.hash⟩, r.totalSupply⟩
    | .error _ => .error "state"

attribute [local instance] samplePreviews

/-- A candidate on top of the sample genesis block. -/
def sampleCandidate : BlockCandidate :=
  { prevHash := sampleGenesis.blockHash
    height := 3
    pohTickStart := 0
    pohTickEnd := 0
    transactions := []
    isPresenceBlock := true
    settlementCheckpoint := none }

def samplePreview : StatePreview :=
  (sampleState₁.previewBlock sampleCandidate []).toOption.get (by decide +kernel)

def sampleBuilt : Block :=
  (Block.fromCandidate sampleCandidate samplePreview).toOption.get (by decide +kernel)

abbrev sampleTrace₁ : List (ChainEvent SampleUtxo) :=
  [.apply sampleGenesis [] (new.applyBlockChecked sampleGenesis []).2]

/-- Finalizing the genesis block does not stand in the way of the next block. -/
theorem two_phase_commit_sample :
    ∃ res s', (sampleState₁.finalizeUpTo 0).step (.apply sampleBuilt [] (.ok res)) s' := by
  have hrun : BlockRun sampleTrace₁ sampleState₁ :=
    RunWith.snoc RunWith.nil (step_apply (by decide +kernel)) trivial
  have hrun' : BlockRunFrom sampleState₁ [.finalize 0] (sampleState₁.finalizeUpTo 0) :=
    RunWith.snoc RunWith.nil rfl trivial
  have hinj : Set.InjOn Blake3.digest
      {bs | bs ∈ (appliedIn (sampleTrace₁ ++ [.finalize 0])).map Block.hashInput} :=
    injOn_of_nodup (by decide +kernel)
  have hfinal : ∀ f, .finalize f ∈ sampleTrace₁ ++ [.finalize 0] → f < sampleCandidate.height := by
    intro f hf
    cases List.mem_singleton.1 ((List.mem_cons.1 hf).resolve_left nofun)
    decide
  have hpreview : sampleState₁.previewBlock sampleCandidate [] = .ok samplePreview := eq_ok_get _
  have hbuild : Block.fromCandidate sampleCandidate samplePreview = .ok sampleBuilt := eq_ok_get _
  have hns : Enumerates [] (sampleState₁.finalizeUpTo 0) := by decide +kernel
  have hcommit := two_phase_commit hinj hrun hrun' (by decide +kernel)
    (fun b hb => List.mem_map_of_mem hb) (by decide +kernel) hpreview hbuild hns
  exact hcommit.1.2 ⟨rfl, by decide +kernel, hfinal, _, eq_ok_get (by decide +kernel)⟩

end Sample

end ChainState
end Core
end Aevum
