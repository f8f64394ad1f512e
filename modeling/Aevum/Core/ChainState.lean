import Aevum.Lib.FinMap
import Aevum.Lib.Run
import Aevum.Core.Block

/-!
# Core.ChainState — `chain_state.rs`

The chain state and its three write operations.  Every write operation of the source takes the
lock for its whole body, so the calls of a run follow one another; an operation returns the new
state together with its result, and what a failed call leaves behind is visible.

The module `state_transition` is not part of the repository: `StateTransition.applyBlock` is an
arbitrary function of the arguments it is called with.  The spent nullifiers are handed to it as a
list in the iteration order of a `HashSet`; that list is an argument of the operations here, and a
step allows every list that enumerates the set.
-/

namespace Aevum
namespace Core

open Lib Crypto

/-- What `chain_state.rs` uses of the modules `state_transition` and `emission`. -/
class StateTransition (U : Type*) [ForeignTypes] where
  TransitionError : Type
  applyBlock : Block → Hash → List U → List Hash → UInt64 → Hash → Hash →
    Except TransitionError (StateRootData U)
  epochLengthBlocks : UInt64

def maxReorgDepth : UInt64 := 64

structure ApplyBlockResult where
  newHeight : UInt64
  newSupply : UInt64
  stateRoot : Hash
  utxoCount : Nat
  spentCount : Nat
  deriving DecidableEq

/-- The errors of the three operations. -/
inductive ChainStateError (E : Type)
  | execution (e : E)
  | blockAlreadyApplied (height : UInt64) (hash : Hash)
  | forkRejected (height : UInt64) (existing new : Hash)
  | belowFinalized (height finalized : UInt64)
  | reorgTooDeep (current attempted max : UInt64)
  | invalidBlockHash
  | prevHashMismatch (expected got : Hash)
  | heightRegression (current got : UInt64)
  | genesisAlreadyApplied
  | genesisNotApplied
  | genesisPrevHashNotZero
  | genesisNotEmpty

/-- `ChainStateInner`. -/
structure ChainState (U : Type*) where
  utxos : FinMap Hash U
  spentNullifiers : Finset Hash
  stateRoot : Hash
  dnaRoot : Hash
  oracleRoot : Hash
  cachedSupply : UInt64
  height : UInt64
  lastBlockHash : Hash
  canonicalTip : Hash
  canonicalHeight : UInt64
  lastFinalizedHeight : UInt64
  appliedBlocks : FinMap UInt64 Hash
  genesisApplied : Bool
  epochAnchorHash : Hash
  currentEpoch : UInt64

namespace ChainState

variable {U : Type*}

/-- `ns` lists every spent nullifier once. -/
def Enumerates (ns : List Hash) (s : ChainState U) : Prop :=
  ns.Nodup ∧ ns.toFinset = s.spentNullifiers

instance (ns : List Hash) (s : ChainState U) : Decidable (Enumerates ns s) :=
  inferInstanceAs (Decidable (ns.Nodup ∧ ns.toFinset = s.spentNullifiers))

def new [Blake3] : ChainState U :=
  { utxos := FinMap.empty
    spentNullifiers := ∅
    stateRoot := genesisStateRoot.hash
    dnaRoot := Hash.zero
    oracleRoot := Hash.zero
    cachedSupply := 0
    height := 0
    lastBlockHash := Hash.zero
    canonicalTip := Hash.zero
    canonicalHeight := 0
    lastFinalizedHeight := 0
    appliedBlocks := FinMap.empty
    genesisApplied := false
    epochAnchorHash := Hash.zero
    currentEpoch := 0 }

@[simps]
def finalizeUpTo (s : ChainState U) (height : UInt64) : ChainState U :=
  { s with
    lastFinalizedHeight :=
      if height > s.lastFinalizedHeight then height else s.lastFinalizedHeight }

section Calls

variable [ForeignTypes] [StateTransition U]

/-! ## Checks -/

variable (U) in
/-- What a call returns. -/
abbrev CallResult :=
  Except (ChainStateError (StateTransition.TransitionError U)) ApplyBlockResult

/-- One transaction, and it is a coinbase. -/
def isCoinbaseOnly : List Transaction → Bool
  | [tx] => tx.isCoinbase
  | _ => false

/-- The checks of `apply_block_checked` that follow the genesis branch. -/
def checkBlock (s : ChainState U) (b : Block) :
    Except (ChainStateError (StateTransition.TransitionError U)) Unit :=
  if ¬ s.genesisApplied then
    .error .genesisNotApplied
  else if b.height ≤ s.lastFinalizedHeight then
    .error (.belowFinalized b.height s.lastFinalizedHeight)
  else if b.height < s.height then
    .error (.heightRegression s.height b.height)
  -- equal heights pass the check above; they meet `applied_blocks` further down
  else if b.height < s.canonicalHeight ∧ s.canonicalHeight - b.height > maxReorgDepth then
    .error (.reorgTooDeep s.canonicalHeight b.height maxReorgDepth)
  else if b.prevHash ≠ s.canonicalTip ∧ b.prevHash ≠ s.lastBlockHash then
    .error (.prevHashMismatch s.lastBlockHash b.prevHash)
  else
    match s.appliedBlocks.get? b.height with
    | some existing =>
        -- another block at this height, or the same one again
        if existing ≠ b.blockHash then
          .error (.forkRejected b.height existing b.blockHash)
        else
          .error (.blockAlreadyApplied b.height b.blockHash)
    | none => .ok ()

/-- `state_transition::apply_block` on the stored state. -/
def execute (s : ChainState U) (b : Block) (spentVec : List Hash) :
    Except (StateTransition.TransitionError U) (StateRootData U) :=
  StateTransition.applyBlock b s.lastBlockHash s.utxos.orderedValues spentVec s.cachedSupply
    s.dnaRoot s.oracleRoot

/-- `state_transition::apply_block` on the empty state. -/
def executeGenesis (b : Block) : Except (StateTransition.TransitionError U) (StateRootData U) :=
  StateTransition.applyBlock b Hash.zero [] [] 0 Hash.zero Hash.zero

/-- The conditions under which `checkBlock` lets a block pass. -/
structure Passes (s : ChainState U) (b : Block) : Prop where
  started : s.genesisApplied = true
  not_finalized : s.lastFinalizedHeight < b.height
  height_le : s.height ≤ b.height
  shallow : ¬ (b.height < s.canonicalHeight ∧ s.canonicalHeight - b.height > maxReorgDepth)
  extends_tip : b.prevHash = s.canonicalTip ∨ b.prevHash = s.lastBlockHash
  fresh : s.appliedBlocks.get? b.height = none

theorem checkBlock_eq_ok {s : ChainState U} {b : Block} :
    s.checkBlock b = .ok () ↔ s.Passes b := by
  constructor
  · intro h
    unfold checkBlock at h
    split at h
    · cases h
    rename_i hstarted
    split at h
    · cases h
    rename_i hfinal
    split at h
    · cases h
    rename_i hheight
    split at h
    · cases h
    rename_i hshallow
    split at h
    · cases h
    rename_i hprev
    split at h
    · split at h <;> cases h
    rename_i hfresh
    rw [not_and_or, not_not, not_not] at hprev
    exact ⟨not_not.1 hstarted, UInt64.not_le.1 hfinal, UInt64.not_lt.1 hheight, hshallow, hprev,
      hfresh⟩
  · intro h
    have hprev : ¬ (b.prevHash ≠ s.canonicalTip ∧ b.prevHash ≠ s.lastBlockHash) := by
      rw [not_and_or, not_not, not_not]
      exact h.extends_tip
    rw [checkBlock, if_neg (not_not.2 h.started), if_neg (UInt64.not_le.2 h.not_finalized),
      if_neg (UInt64.not_lt.2 h.height_le), if_neg h.shallow, if_neg hprev, h.fresh]

/-! ## Updates -/

/-- The result record that both return. -/
def resultOf (s : ChainState U) (b : Block) (result : StateRootData U) : ApplyBlockResult :=
  { newHeight := b.height
    newSupply := result.totalSupply
    stateRoot := result.hash
    utxoCount := s.utxos.size
    spentCount := s.spentNullifiers.card }

/-- The result record of the genesis branch. -/
def genesisResult (s : ChainState U) (r : StateRootData U) : ApplyBlockResult :=
  { newHeight := 0
    newSupply := r.totalSupply
    stateRoot := r.hash
    utxoCount := s.utxos.size
    spentCount := 0 }

variable [JtUtxo U]

/-- The condition under which a block becomes the canonical tip. -/
def movesTip (s : ChainState U) (b : Block) : Bool :=
  b.prevHash = s.canonicalTip ∨ b.height > s.canonicalHeight

/-- The field updates that `apply_block_checked` and `apply_presence_record` have in common. -/
@[simps]
def commit (s : ChainState U) (b : Block) (result : StateRootData U) : ChainState U :=
  { s with
    utxos := FinMap.collect JtUtxo.nullifier result.newUtxos FinMap.empty
    spentNullifiers := result.spentNullifiers.foldl (fun ns n => insert n ns) ∅
    stateRoot := result.hash
    dnaRoot := result.dnaRoot
    oracleRoot := result.oracleRoot
    cachedSupply := result.totalSupply
    height := b.height
    lastBlockHash := b.blockHash
    canonicalTip := if s.movesTip b then b.blockHash else s.canonicalTip
    canonicalHeight := if s.movesTip b then b.height else s.canonicalHeight
    epochAnchorHash :=
      if b.settlementCheckpoint.isSome then b.blockHash else s.epochAnchorHash
    currentEpoch :=
      if b.settlementCheckpoint.isSome then b.height / StateTransition.epochLengthBlocks U
      else s.currentEpoch }

/-- The state after the genesis block. -/
@[simps]
def commitGenesis (s : ChainState U) (b : Block) (result : StateRootData U) : ChainState U :=
  { s with
    stateRoot := result.hash
    dnaRoot := Hash.zero
    oracleRoot := Hash.zero
    cachedSupply := result.totalSupply
    height := 0
    lastBlockHash := b.blockHash
    canonicalTip := b.blockHash
    canonicalHeight := 0
    appliedBlocks := s.appliedBlocks.insert 0 b.blockHash
    genesisApplied := true
    epochAnchorHash := b.blockHash
    utxos := FinMap.collect JtUtxo.nullifier result.newUtxos FinMap.empty }

/-- The state after any other block; only here `applied_blocks` is written. -/
@[simps]
def commitBlock (s : ChainState U) (b : Block) (result : StateRootData U) : ChainState U :=
  { s.commit b result with
    appliedBlocks := s.appliedBlocks.insert b.height b.blockHash }

/-! ## Operations -/

def applyGenesis (s : ChainState U) (b : Block) : ChainState U × CallResult U :=
  if s.genesisApplied then
    (s, .error .genesisAlreadyApplied)
  else if b.prevHash ≠ Hash.zero then
    (s, .error .genesisPrevHashNotZero)
  else if ¬ isCoinbaseOnly b.transactions then
    (s, .error .genesisNotEmpty)
  else
    match executeGenesis (U := U) b with
    | .error e => (s, .error (.execution e))
    | .ok result =>
        let s := s.commitGenesis b result
        (s, .ok (genesisResult s result))

def applyPresenceRecord (s : ChainState U) (b : Block) (spentVec : List Hash) :
    ChainState U × CallResult U :=
  if ¬ s.genesisApplied then
    (s, .error .genesisNotApplied)
  else
    match s.execute b spentVec with
    | .error e => (s, .error (.execution e))
    | .ok result =>
        let s := s.commit b result
        (s, .ok (s.resultOf b result))

def applyBlockChecked [Blake3] (s : ChainState U) (b : Block) (spentVec : List Hash) :
    ChainState U × CallResult U :=
  if b.computeHash ≠ b.blockHash then
    (s, .error .invalidBlockHash)
  else if b.height = 0 then
    -- the genesis branch makes checks of its own and none of `checkBlock`
    s.applyGenesis b
  else
    match s.checkBlock b with
    | .error e => (s, .error e)
    | .ok () =>
        match s.execute b spentVec with
        | .error e => (s, .error (.execution e))
        | .ok result =>
            let s := s.commitBlock b result
            (s, .ok (s.resultOf b result))

/-! ## What a call does -/

/-- The checks of `apply_presence_record`, all passed. -/
structure AcceptsPresence (s : ChainState U) (b : Block) (spentVec : List Hash)
    (r : StateRootData U) : Prop where
  started : s.genesisApplied = true
  executed : s.execute b spentVec = .ok r

theorem applyPresenceRecord_cases (s : ChainState U) (b : Block) (spentVec : List Hash) :
    (∃ e, s.applyPresenceRecord b spentVec = (s, .error e)) ∨
      ∃ r, s.AcceptsPresence b spentVec r ∧ s.applyPresenceRecord b spentVec =
        (s.commit b r, .ok ((s.commit b r).resultOf b r)) := by
  unfold applyPresenceRecord
  split
  · exact Or.inl ⟨_, rfl⟩
  rename_i hstarted
  split
  · exact Or.inl ⟨_, rfl⟩
  rename_i r hexec
  exact Or.inr ⟨r, ⟨not_not.1 hstarted, hexec⟩, rfl⟩

theorem AcceptsPresence.apply {s : ChainState U} {b : Block} {ns : List Hash}
    {r : StateRootData U} (h : s.AcceptsPresence b ns r) :
    s.applyPresenceRecord b ns = (s.commit b r, .ok ((s.commit b r).resultOf b r)) := by
  rw [applyPresenceRecord, if_neg (not_not.2 h.started), h.executed]

variable [Blake3]

/-- The checks of the genesis branch, all passed. -/
structure AcceptsGenesis (s : ChainState U) (b : Block) (r : StateRootData U) : Prop where
  hash_eq : b.computeHash = b.blockHash
  height_eq : b.height = 0
  first : s.genesisApplied = false
  prev_eq : b.prevHash = Hash.zero
  coinbase : isCoinbaseOnly b.transactions = true
  executed : executeGenesis b = .ok r

/-- The checks of `apply_block_checked` for any other block, all passed. -/
structure AcceptsBlock (s : ChainState U) (b : Block) (spentVec : List Hash)
    (r : StateRootData U) : Prop where
  hash_eq : b.computeHash = b.blockHash
  height_ne : b.height ≠ 0
  passes : s.Passes b
  executed : s.execute b spentVec = .ok r

theorem applyGenesis_cases (s : ChainState U) (b : Block) (hhash : b.computeHash = b.blockHash)
    (hheight : b.height = 0) :
    (∃ e, s.applyGenesis b = (s, .error e)) ∨
      ∃ r, s.AcceptsGenesis b r ∧
        s.applyGenesis b = (s.commitGenesis b r, .ok (genesisResult (s.commitGenesis b r) r)) := by
  unfold applyGenesis
  split
  · exact Or.inl ⟨_, rfl⟩
  rename_i hfirst
  split
  · exact Or.inl ⟨_, rfl⟩
  rename_i hprev
  split
  · exact Or.inl ⟨_, rfl⟩
  rename_i hcoinbase
  split
  · exact Or.inl ⟨_, rfl⟩
  rename_i r hexec
  refine Or.inr ⟨r, ⟨hhash, hheight, ?_, not_not.1 hprev, not_not.1 hcoinbase, hexec⟩, rfl⟩
  exact Bool.eq_false_of_not_eq_true hfirst

/-- A call of `apply_block_checked` fails and changes nothing, applies the genesis block, or
applies a block that passed every check. -/
theorem applyBlockChecked_cases (s : ChainState U) (b : Block) (spentVec : List Hash) :
    (∃ e, s.applyBlockChecked b spentVec = (s, .error e)) ∨
      (∃ r, s.AcceptsGenesis b r ∧ s.applyBlockChecked b spentVec =
        (s.commitGenesis b r, .ok (genesisResult (s.commitGenesis b r) r))) ∨
      (∃ r, s.AcceptsBlock b spentVec r ∧ s.applyBlockChecked b spentVec =
        (s.commitBlock b r, .ok ((s.commitBlock b r).resultOf b r))) := by
  unfold applyBlockChecked
  split
  · exact Or.inl ⟨_, rfl⟩
  rename_i hhash
  split
  · rename_i hheight
    -- height zero: the genesis branch returns from the function
    rcases s.applyGenesis_cases b (not_not.1 hhash) hheight with ⟨e, heq⟩ | ⟨r, hacc, heq⟩
    · exact Or.inl ⟨e, heq⟩
    · exact Or.inr (Or.inl ⟨r, hacc, heq⟩)
  rename_i hheight
  split
  · exact Or.inl ⟨_, rfl⟩
  rename_i hcheck
  split
  · exact Or.inl ⟨_, rfl⟩
  rename_i r hexec
  exact Or.inr (Or.inr ⟨r, ⟨not_not.1 hhash, hheight, checkBlock_eq_ok.1 hcheck, hexec⟩, rfl⟩)

theorem AcceptsBlock.apply {s : ChainState U} {b : Block} {ns : List Hash} {r : StateRootData U}
    (h : s.AcceptsBlock b ns r) :
    s.applyBlockChecked b ns = (s.commitBlock b r, .ok ((s.commitBlock b r).resultOf b r)) := by
  rw [applyBlockChecked, if_neg (not_not.2 h.hash_eq), if_neg h.height_ne,
    checkBlock_eq_ok.2 h.passes, h.executed]

end Calls

/-! ## Runs -/

section Runs

variable [ForeignTypes] [StateTransition U]

variable (U) in
/-- One call with what it returned. -/
inductive ChainEvent
  | apply (b : Block) (spentVec : List Hash) (result : CallResult U)
  | presence (b : Block) (spentVec : List Hash) (result : CallResult U)
  | finalize (height : UInt64)

/-- The block a call has applied. -/
def ChainEvent.appliedBlock : ChainEvent U → Option Block
  | .apply b _ (.ok _) => some b
  | .presence b _ (.ok _) => some b
  | _ => none

theorem appliedBlock_presence {b : Block} {ns : List Hash} {result : CallResult U}
    (h : result.isOk) : (ChainEvent.presence b ns result).appliedBlock = some b := by
  cases result with
  | error err => cases h
  | ok res => rfl

/-- The call is not one of `apply_presence_record`. -/
def ChainEvent.NotPresence : ChainEvent U → Prop
  | .presence _ _ _ => False
  | _ => True

/-- The blocks applied in a trace, in order. -/
def appliedIn (tr : List (ChainEvent U)) : List Block :=
  tr.filterMap ChainEvent.appliedBlock

theorem appliedIn_append (tr tr' : List (ChainEvent U)) :
    appliedIn (tr ++ tr') = appliedIn tr ++ appliedIn tr' :=
  List.filterMap_append

/-- `f` is the largest height finalized in a trace, or zero. -/
structure Finalized (tr : List (ChainEvent U)) (f : UInt64) : Prop where
  upper : ∀ g, .finalize g ∈ tr → g ≤ f
  attained : f = 0 ∨ .finalize f ∈ tr

theorem Finalized.snoc {tr : List (ChainEvent U)} {f : UInt64} (h : Finalized tr f)
    {e : ChainEvent U} (hother : ∀ g, ChainEvent.finalize g ≠ e) : Finalized (tr ++ [e]) f where
  upper g hg := by
    rw [List.mem_append, List.mem_singleton] at hg
    exact h.upper g (hg.resolve_right (hother g))
  attained := h.attained.imp_right fun hmem => List.mem_append_left [e] hmem

theorem Finalized.finalize {tr : List (ChainEvent U)} {f : UInt64} (h : Finalized tr f)
    (g : UInt64) : Finalized (tr ++ [.finalize g]) (if g > f then g else f) where
  upper k hk := by
    -- finalized earlier, or just now
    rw [List.mem_append, List.mem_singleton, ChainEvent.finalize.injEq] at hk
    rcases hk with hold | rfl
    · have hle := h.upper k hold
      split
      · rename_i hgt
        exact UInt64.le_trans hle (UInt64.le_of_lt hgt)
      · exact hle
    · split
      · exact UInt64.le_refl k
      · rename_i hngt
        exact UInt64.not_lt.1 hngt
  attained := by
    split
    · exact Or.inr (by simp)
    · exact h.attained.imp_right fun hmem => List.mem_append_left _ hmem

/-- Lying above the finalized height means lying above everything finalized. -/
theorem Finalized.lt_iff {tr : List (ChainEvent U)} {f k : UInt64} (h : Finalized tr f)
    (hk : k ≠ 0) : f < k ↔ ∀ g, .finalize g ∈ tr → g < k := by
  constructor
  · exact fun hlt g hg => UInt64.lt_of_le_of_lt (h.upper g hg) hlt
  · intro hall
    rcases h.attained with rfl | hmem
    · exact UInt64.lt_of_le_of_ne UInt64.zero_le (Ne.symm hk)
    · exact hall f hmem

variable [JtUtxo U] [Blake3]

/-- The calls a state allows, and the states they lead to. -/
def step (s : ChainState U) : ChainEvent U → ChainState U → Prop
  | .apply b spentVec result, s' =>
      Enumerates spentVec s ∧ s.applyBlockChecked b spentVec = (s', result)
  | .presence b spentVec result, s' =>
      Enumerates spentVec s ∧ s.applyPresenceRecord b spentVec = (s', result)
  | .finalize height, s' => s' = s.finalizeUpTo height

/-- Any call may come next, with what it returns. -/
theorem step_apply {s : ChainState U} {b : Block} {ns : List Hash} (h : Enumerates ns s) :
    s.step (.apply b ns (s.applyBlockChecked b ns).2) (s.applyBlockChecked b ns).1 :=
  ⟨h, rfl⟩

theorem step_presence {s : ChainState U} {b : Block} {ns : List Hash} (h : Enumerates ns s) :
    s.step (.presence b ns (s.applyPresenceRecord b ns).2) (s.applyPresenceRecord b ns).1 :=
  ⟨h, rfl⟩

/-- The kinds of steps. -/
inductive StepKind (s : ChainState U) : ChainEvent U → ChainState U → Prop where
  | finalize (h : UInt64) : StepKind s (.finalize h) (s.finalizeUpTo h)
  | rejectApply (b : Block) (ns : List Hash)
      (err : ChainStateError (StateTransition.TransitionError U)) :
      StepKind s (.apply b ns (.error err)) s
  | rejectPresence (b : Block) (ns : List Hash)
      (err : ChainStateError (StateTransition.TransitionError U)) :
      StepKind s (.presence b ns (.error err)) s
  | genesis (b : Block) (ns : List Hash) (r : StateRootData U) (res : ApplyBlockResult)
      (hacc : s.AcceptsGenesis b r) : StepKind s (.apply b ns (.ok res)) (s.commitGenesis b r)
  | block (b : Block) (ns : List Hash) (r : StateRootData U) (res : ApplyBlockResult)
      (hacc : s.AcceptsBlock b ns r) : StepKind s (.apply b ns (.ok res)) (s.commitBlock b r)
  | presence (b : Block) (ns : List Hash) (r : StateRootData U) (res : ApplyBlockResult)
      (hacc : s.AcceptsPresence b ns r) : StepKind s (.presence b ns (.ok res)) (s.commit b r)

theorem step_kind {s s' : ChainState U} {e : ChainEvent U} (h : s.step e s') :
    StepKind s e s' := by
  cases e with
  | finalize height =>
      cases h
      exact StepKind.finalize height
  | apply b ns result =>
      rcases h with ⟨-, hcall⟩
      -- rejected, genesis, or a block that passed every check
      rcases s.applyBlockChecked_cases b ns with ⟨e, heq⟩ | ⟨r, hacc, heq⟩ | ⟨r, hacc, heq⟩
      · rw [heq] at hcall
        cases hcall
        exact StepKind.rejectApply b ns e
      · rw [heq] at hcall
        cases hcall
        exact StepKind.genesis b ns r _ hacc
      · rw [heq] at hcall
        cases hcall
        exact StepKind.block b ns r _ hacc
  | presence b ns result =>
      rcases h with ⟨-, hcall⟩
      rcases s.applyPresenceRecord_cases b ns with ⟨e, heq⟩ | ⟨r, hacc, heq⟩
      · rw [heq] at hcall
        cases hcall
        exact StepKind.rejectPresence b ns e
      · rw [heq] at hcall
        cases hcall
        exact StepKind.presence b ns r _ hacc

/-- In every run the state holds the largest height finalized so far. -/
theorem finalized_run {P : List (ChainEvent U) → ChainState U → ChainEvent U → ChainState U → Prop}
    {tr : List (ChainEvent U)} {s : ChainState U} (hrun : RunWith step P new tr s) :
    Finalized tr s.lastFinalizedHeight := by
  refine RunWith.invariant (fun tr s => Finalized tr s.lastFinalizedHeight)
    ⟨nofun, Or.inl rfl⟩ ?_ hrun
  intro tr s e s' _ ih hstep _
  cases step_kind hstep with
  | finalize f => exact ih.finalize f
  | rejectApply b ns err => exact ih.snoc nofun
  | rejectPresence b ns err => exact ih.snoc nofun
  | genesis b ns r res hacc => exact ih.snoc nofun
  | block b ns r res hacc => exact ih.snoc nofun
  | presence b ns r res hacc => exact ih.snoc nofun

end Runs

/-! ## A chain to evaluate -/

section Sample

attribute [local instance] polyBlake3 unitTypes

/-- A transition that checks the previous hash, creates one output of 50 in every block and spends
one nullifier in every block but the first. -/
@[reducible] def sampleTransition : StateTransition SampleUtxo where
  TransitionError := Unit
  applyBlock b prev utxos spent supply dna oracle :=
    if b.prevHash ≠ prev then
      .error ()
    else
      let tag := b.height.toUInt8
      let spent := if b.height = 0 then spent else spent ++ [ByteArr.fill 32 tag]
      match computeStateRoot b.height (supply + 50) (utxos ++ [⟨50, tag⟩]) spent dna oracle with
      | .ok r => .ok r
      | .error _ => .error ()
  epochLengthBlocks := 100

attribute [local instance] sampleTransition

def sampleGenesis : Block :=
  Block.new Hash.zero 0 0 0 [Transaction.newCoinbase [] 0 chainIdMainnet] Hash.zero 50

/-- An empty block on top of `prev`. -/
def sampleBlock (prev : Hash) (height : UInt64) : Block :=
  Block.new prev height 0 0 [] Hash.zero 0

abbrev sampleState₁ : ChainState SampleUtxo := (new.applyBlockChecked sampleGenesis []).1

abbrev sampleBlock₂ : Block := sampleBlock sampleGenesis.blockHash 3

abbrev sampleState₂ : ChainState SampleUtxo := (sampleState₁.applyBlockChecked sampleBlock₂ []).1

abbrev sampleTrace₂ : List (ChainEvent SampleUtxo) :=
  [.apply sampleGenesis [] (new.applyBlockChecked sampleGenesis []).2,
    .apply sampleBlock₂ [] (sampleState₁.applyBlockChecked sampleBlock₂ []).2]

end Sample

end ChainState
end Core
end Aevum
