import Aevum.Lib.Replicas
import Aevum.Core.ChainView
import Aevum.Core.TwoPhase

/-!
# Core.Replicas — two nodes that keep the chain state

Every node applies the blocks and the records that it receives, finalizes heights on its own, and
hands the spent nullifiers to `state_transition::apply_block` in whatever order its `HashSet`
iterates.

* `replicas_agree` : nodes that have applied the same blocks and records are in the same state, but
  for what each has finalized;
* `same_tip_same_chain` : nodes without presence records that stand on the same tip have applied
  blocks with the same headers.
-/

namespace Aevum
namespace Core
namespace ChainState

open Lib Crypto

section Replicas

variable {U : Type*} [ForeignTypes] [StateTransition U]

/-! ## The same calls -/

/-- What a call has applied, and by which operation. -/
inductive Effect
  | block (b : Block)
  | record (b : Block)

def ChainEvent.effect : ChainEvent U → Option Effect
  | .apply b _ (.ok _) => some (.block b)
  | .presence b _ (.ok _) => some (.record b)
  | _ => none

/-- Equal but for the order of the spent nullifiers. -/
structure SameRoot (r r' : StateRootData U) : Prop where
  newUtxos : r.newUtxos = r'.newUtxos
  spentNullifiers : r.spentNullifiers.toFinset = r'.spentNullifiers.toFinset
  hash : r.hash = r'.hash
  dnaRoot : r.dnaRoot = r'.dnaRoot
  oracleRoot : r.oracleRoot = r'.oracleRoot
  totalSupply : r.totalSupply = r'.totalSupply

variable (U) in
/-- The result of `state_transition::apply_block` does not depend on the order in which a `HashSet`
iterates. -/
def OrderFree : Prop :=
  ∀ (b : Block) (prev : Hash) (utxos : List U) (ns ns' : List Hash) (supply : UInt64)
    (dna oracle : Hash) (r r' : StateRootData U), ns.Perm ns' →
      StateTransition.applyBlock b prev utxos ns supply dna oracle = .ok r →
      StateTransition.applyBlock b prev utxos ns' supply dna oracle = .ok r' → SameRoot r r'

/-- The same state but for what has been finalized. -/
def Agree (s s' : ChainState U) : Prop := ∃ f, s' = { s with lastFinalizedHeight := f }

omit [ForeignTypes] [StateTransition U] in
theorem agree_equivalence : Equivalence (Agree (U := U)) where
  refl s := ⟨s.lastFinalizedHeight, rfl⟩
  symm := by
    rintro s _ ⟨f, rfl⟩
    exact ⟨s.lastFinalizedHeight, rfl⟩
  trans := by
    rintro s _ _ ⟨f, rfl⟩ ⟨g, rfl⟩
    exact ⟨g, rfl⟩

variable [JtUtxo U]

theorem SameRoot.commit_eq {r r' : StateRootData U} (h : SameRoot r r') (s : ChainState U)
    (b : Block) : s.commit b r = s.commit b r' := by
  have hspent : r.spentNullifiers.foldl (fun ns n => insert n ns) (∅ : Finset Hash) =
      r'.spentNullifiers.foldl (fun ns n => insert n ns) ∅ := by
    rw [foldl_insert_eq_toFinset, foldl_insert_eq_toFinset, h.spentNullifiers]
  simp only [commit, hspent, h.newUtxos, h.hash, h.dnaRoot, h.oracleRoot, h.totalSupply]

omit [JtUtxo U] in
/-- Both nodes list the same set. -/
theorem OrderFree.execute (hfree : OrderFree U) {s : ChainState U} {f : UInt64} {b : Block}
    {ns ns' : List Hash} {r r' : StateRootData U} (hns : Enumerates ns s)
    (hns' : Enumerates ns' { s with lastFinalizedHeight := f }) (h : s.execute b ns = .ok r)
    (h' : ChainState.execute { s with lastFinalizedHeight := f } b ns' = .ok r') :
    SameRoot r r' := by
  have hperm : ns.Perm ns' := by
    refine (List.perm_ext_iff_of_nodup hns.1 hns'.1).2 fun n => ?_
    rw [← List.mem_toFinset, ← List.mem_toFinset, hns.2, hns'.2]
  exact hfree _ _ _ _ _ _ _ _ _ _ hperm h h'

variable [Blake3] {s s' s₁ s₁' : ChainState U} {e e' : ChainEvent U}

theorem agree_of_silent (h : s.step e s') (hsilent : e.effect = none) : Agree s s' := by
  cases step_kind h with
  | finalize f => exact ⟨_, rfl⟩
  | rejectApply b ns err => exact ⟨_, rfl⟩
  | rejectPresence b ns err => exact ⟨_, rfl⟩
  | genesis b ns r res hacc => cases hsilent
  | block b ns r res hacc => cases hsilent
  | presence b ns r res hacc => cases hsilent

/-- Nodes in the same state stay in the same state when they apply the same. -/
theorem Agree.step (hfree : OrderFree U) (h : s.step e s₁) (h' : s'.step e' s₁') {o : Effect}
    (ho : e.effect = some o) (ho' : e'.effect = some o) (hagree : Agree s s') : Agree s₁ s₁' := by
  rcases hagree with ⟨f, rfl⟩
  cases step_kind h with
  | finalize g => cases ho
  | rejectApply b ns err => cases ho
  | rejectPresence b ns err => cases ho
  | genesis b ns r res hacc =>
      cases ho
      cases step_kind h' with
      | genesis b' ns' r' res' hacc' =>
          cases ho'
          cases hacc.executed.symm.trans hacc'.executed
          exact ⟨f, rfl⟩
      | block b' ns' r' res' hacc' =>
          exact absurd hacc.first (Bool.not_eq_false _ ▸ hacc'.passes.started)
      | _ => cases ho'
  | block b ns r res hacc =>
      cases ho
      cases step_kind h' with
      | genesis b' ns' r' res' hacc' =>
          exact absurd hacc'.first (Bool.not_eq_false _ ▸ hacc.passes.started)
      | block b' ns' r' res' hacc' =>
          cases ho'
          have hroot := hfree.execute h.1 h'.1 hacc.executed hacc'.executed
          refine ⟨f, ?_⟩
          rw [commitBlock, commitBlock, hroot.commit_eq]
          rfl
      | _ => cases ho'
  | presence b ns r res hacc =>
      cases ho
      cases step_kind h' with
      | presence b' ns' r' res' hacc' =>
          cases ho'
          have hroot := hfree.execute h.1 h'.1 hacc.executed hacc'.executed
          refine ⟨f, ?_⟩
          rw [hroot.commit_eq]
          rfl
      | _ => cases ho'

/-- Nodes that have applied the same blocks and records in the same order are in the same state, but
for what each has finalized: neither failed calls nor the order of their sets tells them apart. -/
theorem replicas_agree (hfree : OrderFree U) {tr tr' : List (ChainEvent U)}
    (h : Run step new tr s) (h' : Run step new tr' s')
    (hsame : tr.filterMap ChainEvent.effect = tr'.filterMap ChainEvent.effect) : Agree s s' :=
  Run.agree agree_equivalence (fun _ _ _ hstep => agree_of_silent hstep)
    (fun _ _ _ _ _ _ _ hstep hstep' ho ho' hagree => hagree.step hfree hstep hstep' ho ho') h h'
    hsame

/-! ## The same tip -/

omit [StateTransition U] [JtUtxo U] in
/-- The hash of a block that carries its own hash is that of its header. -/
theorem blockHash_eq_of_sameHeader {b b' : Block} (hb : b.blockHash = b.computeHash)
    (hb' : b'.blockHash = b'.computeHash) (h : b.SameHeader b') : b.blockHash = b'.blockHash := by
  have hinput : b.hashInput = b'.hashInput := by
    rw [Block.hashInput_eq, Block.hashInput_eq, h.height, h.prevHash, h.pohTickStart, h.pohTickEnd,
      h.transactionsRoot, h.stateRoot, h.totalSupply, h.isPresenceBlock, h.settlementCheckpoint]
  rw [hb, hb', Block.computeHash, Block.computeHash, hinput]

omit [StateTransition U] [JtUtxo U] [Blake3] in
/-- Chains with the same headers have the same anchor, as far as its header goes. -/
theorem sameHeader_epochAnchor {g g' : Block} {rest rest' : List Block} (hg : g.SameHeader g')
    (h : List.Forall₂ Block.SameHeader rest rest') :
    (epochAnchor g rest).SameHeader (epochAnchor g' rest') := by
  induction h generalizing g g' with
  | nil => exact hg
  | @cons b b' rest rest' hb _ ih =>
      rw [epochAnchor_cons, epochAnchor_cons, hb.settlementCheckpoint]
      refine ih ?_
      split
      · exact hb
      · exact hg

omit [StateTransition U] [JtUtxo U] in
/-- Blocks that carry their own hash have the same header when they have the same hash. -/
theorem sameHeader_of_blockHash {F : Set (List UInt8)} (hF : Set.InjOn Blake3.digest F)
    {b b' : Block} (hb : b.blockHash = b.computeHash) (hb' : b'.blockHash = b'.computeHash)
    (hfed : b.hashInput ∈ F) (hfed' : b'.hashInput ∈ F) (h : b.blockHash = b'.blockHash) :
    b.SameHeader b' := by
  rw [hb, hb'] at h
  exact Block.hashInput_inj (hF hfed hfed' h)

/-- Without presence records a tip fixes the chain below it: two nodes that stand on blocks of one
hash have applied blocks with the same headers, and show the same height, tip and epoch. -/
theorem same_tip_same_chain {F : Set (List UInt8)} (hF : Set.InjOn Blake3.digest F)
    {tr tr' : List (ChainEvent U)} (h : BlockRun tr s) (h' : BlockRun tr' s')
    (hstarted : s.genesisApplied = true) (hstarted' : s'.genesisApplied = true)
    (hfed : ∀ b ∈ appliedIn tr, b.hashInput ∈ F) (hfed' : ∀ b ∈ appliedIn tr', b.hashInput ∈ F)
    (htip : s.lastBlockHash = s'.lastBlockHash) :
    List.Forall₂ Block.SameHeader (appliedIn tr) (appliedIn tr') ∧ s.height = s'.height ∧
      s.canonicalTip = s'.canonicalTip ∧ s.canonicalHeight = s'.canonicalHeight ∧
      s.epochAnchorHash = s'.epochAnchorHash ∧ s.currentEpoch = s'.currentEpoch := by
  have hd := (tipInv_run h).after hstarted
  have hd' := (tipInv_run h').after hstarted'
  have hhashed := hashed_run h
  have hhashed' := hashed_run h'
  have hsame : ∀ a ∈ appliedIn tr, ∀ b ∈ appliedIn tr', a.blockHash = b.blockHash →
      a.SameHeader b := fun a ha b hb =>
    sameHeader_of_blockHash hF (hhashed a ha) (hhashed' b hb) (hfed a ha) (hfed' b hb)
  rcases hd.last with ⟨a, ha, hahash, haheight⟩
  rcases hd'.last with ⟨a', ha', hahash', haheight'⟩
  have hheight : s.height = s'.height := by
    rw [← haheight, ← haheight']
    exact (hsame a (List.mem_of_getLast? ha) a' (List.mem_of_getLast? ha')
      (by rw [hahash, hahash', htip])).height
  have hchains : List.Forall₂ Block.SameHeader (appliedIn tr) (appliedIn tr') := by
    refine Linked.forall₂_of_last hsame (fun b b' hb => ⟨hb.prevHash, ?_⟩) hd.chain.linked
      hd'.chain.linked ?_ ?_
    · rw [hb.height]
    · -- both chains start at height 0
      rcases hd.chain.genesis with ⟨g, hg, hzero, -⟩
      rcases hd'.chain.genesis with ⟨g', hg', hzero', -⟩
      intro b hb b' hb'
      cases Option.mem_unique hg hb
      cases Option.mem_unique hg' hb'
      rw [hzero, hzero']
    · rw [Option.mem_def.1 ha, Option.mem_def.1 ha', Option.map_some, Option.map_some, hahash,
        hahash', htip]
  refine ⟨hchains, hheight, ?_, ?_, ?_⟩
  · rw [hd.tip, hd'.tip, htip]
  · rw [hd.canonicalHeight, hd'.canonicalHeight, hheight]
  · rcases viewInv_of_started h hstarted with ⟨g, rest, result, hblocks, -, hshows⟩
    rcases viewInv_of_started h' hstarted' with ⟨g', rest', result', hblocks', -, hshows'⟩
    rw [hblocks, hblocks', List.forall₂_cons] at hchains
    have hanchor := sameHeader_epochAnchor hchains.1 hchains.2
    have hmem := epochAnchor_mem g rest
    have hmem' := epochAnchor_mem g' rest'
    rw [← hblocks] at hmem
    rw [← hblocks'] at hmem'
    rw [← hshows.anchor, ← hshows'.anchor, ← hshows.epoch, ← hshows'.epoch, hanchor.height]
    exact ⟨blockHash_eq_of_sameHeader (hhashed _ hmem) (hhashed' _ hmem') hanchor, rfl⟩

end Replicas

section Sample

attribute [local instance] polyBlake3 unitTypes sampleTransition

theorem sampleTransition_orderFree : OrderFree SampleUtxo := by
  intro b prev utxos ns ns' supply dna oracle r r' hperm h h'
  have hspent : (if b.height = 0 then ns else ns ++ [ByteArr.fill 32 b.height.toUInt8]).Perm
      (if b.height = 0 then ns' else ns' ++ [ByteArr.fill 32 b.height.toUInt8]) := by
    split
    · exact hperm
    · exact hperm.append_right _
  simp only [StateTransition.applyBlock] at h h'
  split at h
  · cases h
  rw [if_neg ‹_›] at h'
  split at h
  · rename_i r₁ hroot
    split at h'
    · rename_i r₂ hroot'
      cases h
      cases h'
      rcases computeStateRoot_eq_ok.1 hroot with ⟨hwell, rfl⟩
      rcases computeStateRoot_eq_ok.1 hroot' with ⟨-, rfl⟩
      exact
        { newUtxos := rfl
          spentNullifiers := List.toFinset_eq_of_perm _ _ hspent
          hash := stateHash_perm hwell (List.Perm.refl _) hspent
          dnaRoot := rfl
          oracleRoot := rfl
          totalSupply := rfl }
    · cases h'
  · cases h

theorem sampleTrace₂_run : BlockRun sampleTrace₂ sampleState₂ :=
  RunWith.snoc (RunWith.snoc RunWith.nil (step_apply (by decide +kernel)) trivial)
    (step_apply (by decide +kernel)) trivial

/-- One node finalizes, the other one does not. -/
theorem replicas_agree_sample : Agree sampleState₂ (sampleState₂.finalizeUpTo 3) := by
  have hrun : Run step new sampleTrace₂ sampleState₂ :=
    RunWith.imp (fun _ _ _ _ _ _ _ _ => trivial) sampleTrace₂_run
  have hrun' : Run step new (sampleTrace₂ ++ [.finalize 3]) (sampleState₂.finalizeUpTo 3) :=
    hrun.snoc rfl
  exact replicas_agree sampleTransition_orderFree hrun hrun' (by
    rw [List.filterMap_append]
    exact (List.append_nil _).symm)

theorem same_tip_same_chain_sample :
    sampleState₂.epochAnchorHash = (sampleState₂.finalizeUpTo 3).epochAnchorHash := by
  have hrun' : BlockRun (sampleTrace₂ ++ [.finalize 3]) (sampleState₂.finalizeUpTo 3) :=
    RunWith.snoc sampleTrace₂_run rfl trivial
  let inputs := (appliedIn (sampleTrace₂ ++ [.finalize 3])).map Block.hashInput
  have hinj : Set.InjOn Blake3.digest {bs | bs ∈ inputs} := injOn_of_nodup (by decide +kernel)
  have hfed' : ∀ b ∈ appliedIn (sampleTrace₂ ++ [.finalize 3]), b.hashInput ∈ inputs :=
    fun b hb => List.mem_map_of_mem hb
  have hfed : ∀ b ∈ appliedIn sampleTrace₂, b.hashInput ∈ inputs := by
    intro b hb
    apply hfed' b
    rw [appliedIn_append]
    exact List.mem_append_left _ hb
  have htip : sampleState₂.lastBlockHash = (sampleState₂.finalizeUpTo 3).lastBlockHash := by
    rw [finalizeUpTo_lastBlockHash]
  exact (same_tip_same_chain hinj sampleTrace₂_run hrun' (by decide +kernel) (by decide +kernel)
    hfed hfed' htip).2.2.2.2.1

end Sample

end ChainState
end Core
end Aevum
