import Aevum.Core.ChainState

/-!
# Core.ChainView — what the getters of the chain state show

The getters read `height`, `cached_supply`, `state_root`, `last_block_hash`, `epoch_anchor_hash`,
`current_epoch` and `genesis_applied`.  Blocks, presence records and finalizations may be called in
any order; `getters_agree` says what is shown after any of these runs.

* `epochAnchor` : the block that anchors the current epoch;
* `Shows` : the state is described by the blocks applied and by the last result.
-/

namespace Aevum
namespace Core
namespace ChainState

open Lib Crypto

section View

variable {U : Type*} [ForeignTypes]

/-- The last block with a settlement checkpoint, or the genesis block before there is one. -/
def epochAnchor (genesis : Block) (rest : List Block) : Block :=
  (rest.filter (·.settlementCheckpoint.isSome)).getLast?.getD genesis

theorem epochAnchor_concat (genesis : Block) (rest : List Block) (b : Block) :
    epochAnchor genesis (rest ++ [b]) =
      if b.settlementCheckpoint.isSome then b else epochAnchor genesis rest := by
  rw [epochAnchor, List.filter_append, List.filter_singleton]
  cases b.settlementCheckpoint.isSome with
  | true => simp
  | false => simp [epochAnchor]

theorem epochAnchor_cons (genesis : Block) (b : Block) (rest : List Block) :
    epochAnchor genesis (b :: rest) =
      epochAnchor (if b.settlementCheckpoint.isSome then b else genesis) rest := by
  rw [epochAnchor, epochAnchor, List.filter_cons]
  split
  · rw [List.getLast?_cons]
    rfl
  · rfl

theorem epochAnchor_mem (genesis : Block) (rest : List Block) :
    epochAnchor genesis rest ∈ genesis :: rest := by
  rw [epochAnchor]
  cases h : (rest.filter (·.settlementCheckpoint.isSome)).getLast? with
  | none => exact List.mem_cons_self
  | some b => exact List.mem_cons_of_mem _ (List.mem_of_mem_filter (List.mem_of_getLast? h))

/-- Before the genesis block the state is the initial one, but for what has been finalized. -/
structure Untouched [Blake3] (blocks : List Block) (s : ChainState U) : Prop where
  blocks : blocks = []
  state : ∃ f, s = { (new : ChainState U) with lastFinalizedHeight := f }

/-- What the getters show once a genesis block has been applied. -/
structure Shows [StateTransition U] (genesis : Block) (rest : List Block)
    (result : ApplyBlockResult) (s : ChainState U) : Prop where
  isGenesis : genesis.isGenesis = true ∧ isCoinbaseOnly genesis.transactions = true
  last : ((genesis :: rest).getLast (List.cons_ne_nil _ _)).blockHash = s.lastBlockHash ∧
    ((genesis :: rest).getLast (List.cons_ne_nil _ _)).height = s.height
  anchor : (epochAnchor genesis rest).blockHash = s.epochAnchorHash
  epoch : (epochAnchor genesis rest).height / StateTransition.epochLengthBlocks U = s.currentEpoch
  height : result.newHeight = s.height
  supply : result.newSupply = s.cachedSupply
  stateRoot : result.stateRoot = s.stateRoot
  utxoCount : result.utxoCount = s.utxos.size
  spentCount : result.spentCount = s.spentNullifiers.card

variable [StateTransition U]

/-- What a successful call returned. -/
def ChainEvent.okResult : ChainEvent U → Option ApplyBlockResult
  | .apply _ _ (.ok res) => some res
  | .presence _ _ (.ok res) => some res
  | _ => none

/-- The result of the last successful call. -/
def lastResult (tr : List (ChainEvent U)) : Option ApplyBlockResult :=
  (tr.filterMap ChainEvent.okResult).getLast?

theorem lastResult_concat (tr : List (ChainEvent U)) (e : ChainEvent U) :
    lastResult (tr ++ [e]) = e.okResult.or (lastResult tr) := by
  rw [lastResult, List.filterMap_append, List.getLast?_append]
  cases h : e.okResult <;> simp [h, lastResult]

variable [JtUtxo U] [Blake3]

omit [Blake3] in
/-- A block or a record changes what is shown in the same way. -/
theorem Shows.commit {genesis : Block} {rest : List Block} {result : ApplyBlockResult}
    {s : ChainState U} (h : Shows genesis rest result s) (b : Block) (r : StateRootData U) :
    Shows genesis (rest ++ [b]) ((s.commit b r).resultOf b r) (s.commit b r) where
  isGenesis := h.isGenesis
  last := by
    simp only [← List.cons_append, List.getLast_append_singleton]
    exact ⟨rfl, rfl⟩
  anchor := by
    rw [epochAnchor_concat, commit_epochAnchorHash, apply_ite Block.blockHash, h.anchor]
  epoch := by
    rw [epochAnchor_concat, commit_currentEpoch, ← h.epoch]
    split <;> rfl
  height := rfl
  supply := rfl
  stateRoot := rfl
  utxoCount := rfl
  spentCount := rfl

omit [Blake3] in
/-- The recorded heights are not shown. -/
theorem Shows.commitBlock {genesis : Block} {rest : List Block} {result : ApplyBlockResult}
    {s : ChainState U} (h : Shows genesis rest result s) (b : Block) (r : StateRootData U) :
    Shows genesis (rest ++ [b]) ((s.commitBlock b r).resultOf b r) (s.commitBlock b r) := by
  have hcommit := h.commit b r
  exact ⟨hcommit.isGenesis, hcommit.last, hcommit.anchor, hcommit.epoch, rfl, rfl, rfl, rfl, rfl⟩

theorem shows_genesis {s : ChainState U} {b : Block} {r : StateRootData U}
    (hacc : s.AcceptsGenesis b r) (hspent : s.spentNullifiers = ∅) (hepoch : s.currentEpoch = 0) :
    Shows b [] (genesisResult (s.commitGenesis b r) r) (s.commitGenesis b r) where
  isGenesis := by
    refine ⟨?_, hacc.coinbase⟩
    rw [Block.isGenesis, hacc.height_eq, hacc.prev_eq]
    rfl
  last := ⟨rfl, hacc.height_eq⟩
  anchor := rfl
  epoch := by
    -- the genesis block has height 0, so it is in epoch 0
    have hanchor : epochAnchor b [] = b := rfl
    rw [hanchor, hacc.height_eq, commitGenesis_currentEpoch, hepoch, UInt64.zero_div]
  height := rfl
  supply := rfl
  stateRoot := rfl
  utxoCount := rfl
  spentCount := by
    rw [commitGenesis_spentNullifiers, hspent]
    rfl

/-! ## Runs -/

/-- What a call applies and returns: nothing, the genesis block, or a block on top of it. -/
inductive Outcome (s : ChainState U) :
    Option Block → Option ApplyBlockResult → ChainState U → Prop where
  | nothing (f : UInt64) : Outcome s none none { s with lastFinalizedHeight := f }
  | genesis {b : Block} {r : StateRootData U} (hacc : s.AcceptsGenesis b r) :
      Outcome s (some b) (some (genesisResult (s.commitGenesis b r) r)) (s.commitGenesis b r)
  | block {b : Block} {r : StateRootData U} (hstarted : s.genesisApplied = true) :
      Outcome s (some b) (some ((s.commitBlock b r).resultOf b r)) (s.commitBlock b r)
  | presence {b : Block} {r : StateRootData U} (hstarted : s.genesisApplied = true) :
      Outcome s (some b) (some ((s.commit b r).resultOf b r)) (s.commit b r)

theorem outcome_of_step {s s' : ChainState U} {e : ChainEvent U} (h : s.step e s') :
    Outcome s e.appliedBlock e.okResult s' := by
  cases e with
  | finalize f =>
      cases h
      exact Outcome.nothing _
  | apply b ns result =>
      rcases h with ⟨-, hcall⟩
      rcases s.applyBlockChecked_cases b ns with ⟨e, heq⟩ | ⟨r, hacc, heq⟩ | ⟨r, hacc, heq⟩
      · cases heq.symm.trans hcall
        exact Outcome.nothing s.lastFinalizedHeight
      · cases heq.symm.trans hcall
        exact Outcome.genesis hacc
      · cases heq.symm.trans hcall
        exact Outcome.block hacc.passes.started
  | presence b ns result =>
      rcases h with ⟨-, hcall⟩
      rcases s.applyPresenceRecord_cases b ns with ⟨e, heq⟩ | ⟨r, hacc, heq⟩
      · cases heq.symm.trans hcall
        exact Outcome.nothing s.lastFinalizedHeight
      · cases heq.symm.trans hcall
        exact Outcome.presence hacc.started

/-- Nothing has been applied, or a genesis block and other blocks after it. -/
def ViewInv (tr : List (ChainEvent U)) (s : ChainState U) : Prop :=
  s.genesisApplied = false ∧ Untouched (appliedIn tr) s ∨
    s.genesisApplied = true ∧ ∃ genesis rest result, appliedIn tr = genesis :: rest ∧
      lastResult tr = some result ∧ Shows genesis rest result s

omit [JtUtxo U] in
theorem viewInv_new : ViewInv [] (new : ChainState U) :=
  Or.inl ⟨rfl, rfl, 0, rfl⟩

omit [JtUtxo U] in
/-- One more block on top of the genesis block. -/
theorem ViewInv.snoc {tr : List (ChainEvent U)} {s s' : ChainState U} {e : ChainEvent U} {b : Block}
    {res : ApplyBlockResult} (h : ViewInv tr s) (hstarted : s.genesisApplied = true)
    (hstarted' : s'.genesisApplied = true) (hblock : e.appliedBlock = some b)
    (hres : e.okResult = some res)
    (hshows : ∀ genesis rest result, Shows genesis rest result s →
      Shows genesis (rest ++ [b]) res s') : ViewInv (tr ++ [e]) s' := by
  rcases h with ⟨hfirst, -⟩ | ⟨-, genesis, rest, result, hblocks, -, h⟩
  · rw [hstarted] at hfirst
    cases hfirst
  · refine Or.inr ⟨hstarted', genesis, rest ++ [b], res, ?_, ?_, hshows _ _ _ h⟩
    · have hone : appliedIn [e] = [b] := by
        rw [appliedIn, List.filterMap_cons_some hblock]
        rfl
      rw [appliedIn_append, hblocks, hone, List.cons_append]
    · rw [lastResult_concat, hres, Option.some_or]

theorem ViewInv.step {tr : List (ChainEvent U)} {s s' : ChainState U} {e : ChainEvent U}
    (h : ViewInv tr s) (hstep : s.step e s') : ViewInv (tr ++ [e]) s' := by
  have houtcome := outcome_of_step hstep
  generalize hblock : e.appliedBlock = block at houtcome
  generalize hres : e.okResult = result at houtcome
  cases houtcome with
  | nothing f =>
      have hnone : appliedIn [e] = [] := List.filterMap_cons_none hblock
      have hsame : appliedIn (tr ++ [e]) = appliedIn tr := by
        rw [appliedIn_append, hnone, List.append_nil]
      have hsameResult : lastResult (tr ++ [e]) = lastResult tr := by
        rw [lastResult_concat, hres, Option.none_or]
      rw [ViewInv, hsame, hsameResult]
      rcases h with ⟨hfirst, hblocks, g, rfl⟩ | ⟨hstarted, genesis, rest, result, hblocks, hlast, h⟩
      · exact Or.inl ⟨hfirst, hblocks, f, rfl⟩
      · refine Or.inr ⟨hstarted, genesis, rest, result, hblocks, hlast, ?_⟩
        exact ⟨h.isGenesis, h.last, h.anchor, h.epoch, h.height, h.supply, h.stateRoot,
          h.utxoCount, h.spentCount⟩
  | @genesis b r hacc =>
      -- nothing has been applied before the genesis block
      rcases h with ⟨-, hblocks, g, rfl⟩ | ⟨hstarted, -⟩
      · refine Or.inr ⟨rfl, b, [], _, ?_, ?_, shows_genesis hacc rfl rfl⟩
        · rw [appliedIn_append, hblocks, appliedIn, List.nil_append,
            List.filterMap_cons_some hblock]
          rfl
        · rw [lastResult_concat, hres, Option.some_or]
      · have hfirst := hacc.first
        rw [hstarted] at hfirst
        cases hfirst
  | block hstarted =>
      exact h.snoc hstarted hstarted hblock hres fun _ _ _ hshows => hshows.commitBlock _ _
  | presence hstarted =>
      exact h.snoc hstarted hstarted hblock hres fun _ _ _ hshows => hshows.commit _ _

theorem viewInv_run {P : List (ChainEvent U) → ChainState U → ChainEvent U → ChainState U → Prop}
    {tr : List (ChainEvent U)} {s : ChainState U} (hrun : RunWith step P new tr s) :
    ViewInv tr s :=
  RunWith.invariant ViewInv viewInv_new (fun _ _ _ _ _ ih hstep _ => ih.step hstep) hrun

/-- After every run of blocks, presence records and finalizations in any order the getters show the
last block applied, the block that anchors the epoch, and what the last successful call returned;
before the genesis block they show the initial state. -/
theorem getters_agree {tr : List (ChainEvent U)} {s : ChainState U} (hrun : Run step new tr s) :
    ViewInv tr s :=
  viewInv_run hrun

/-- The same for runs with a condition on their steps, once they have started. -/
theorem viewInv_of_started {P : List (ChainEvent U) → ChainState U → ChainEvent U → ChainState U →
    Prop} {tr : List (ChainEvent U)} {s : ChainState U} (hrun : RunWith step P new tr s)
    (hstarted : s.genesisApplied = true) :
    ∃ genesis rest result, appliedIn tr = genesis :: rest ∧ lastResult tr = some result ∧
      Shows genesis rest result s := by
  rcases viewInv_run hrun with ⟨hfirst, -⟩ | ⟨-, h⟩
  · rw [hstarted] at hfirst
    cases hfirst
  · exact h

end View

section Sample

attribute [local instance] polyBlake3 unitTypes sampleTransition

/-- After the genesis block and a block at height 3. -/
theorem getters_agree_sample : ViewInv sampleTrace₂ sampleState₂ :=
  getters_agree (Run.snoc (Run.single (step_apply (by decide +kernel)))
    (step_apply (by decide +kernel)))

end Sample

end ChainState
end Core
end Aevum
