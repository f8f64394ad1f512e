import Aevum.Core.ChainState

/-!
# Core.StoredState — the cached root and supply describe the stored state

The result of `state_transition::apply_block` is a list of UTXOs and a list of nullifiers; the
chain state keeps them in a map and in a set, on three paths.  Nothing is lost on the way, because
a state root only exists for distinct keys, and the root computed from what is stored is the root
that was returned, because it does not depend on the order of the lists.
-/

namespace Aevum
namespace Core
namespace ChainState

open Lib Crypto

/-! ## Storing a result -/

section Maps

variable {U : Type*} [JtUtxo U]

/-- The maps hold the lists of `r`, each element once. -/
structure Stores (s : ChainState U) (r : StateRootData U) : Prop where
  utxos : s.utxos.values.Perm r.newUtxos
  spent : s.spentNullifiers = r.spentNullifiers.toFinset
  spent_card : s.spentNullifiers.card = r.spentNullifiers.length

theorem perm_collect {supply : UInt64} {us : List U} {ns : List Hash}
    (h : WellFormed supply us ns) :
    (FinMap.collect JtUtxo.nullifier us FinMap.empty).values.Perm us :=
  FinMap.values_collect_empty_perm JtUtxo.nullifier us h.utxos_nodup

variable [ForeignTypes]

/-- The genesis path leaves the set of nullifiers alone, which is empty then. -/
theorem stores_commitGenesis {s : ChainState U} (b : Block) {r : StateRootData U}
    (hwf : WellFormed r.totalSupply r.newUtxos r.spentNullifiers)
    (hnone : r.spentNullifiers = []) (hempty : s.spentNullifiers = ∅) :
    (s.commitGenesis b r).Stores r where
  utxos := perm_collect hwf
  spent := by
    rw [commitGenesis_spentNullifiers, hempty, hnone]
    rfl
  spent_card := by
    rw [commitGenesis_spentNullifiers, hempty, hnone]
    rfl

theorem stores_commit [StateTransition U] {s : ChainState U} (b : Block) {r : StateRootData U}
    (hwf : WellFormed r.totalSupply r.newUtxos r.spentNullifiers) : (s.commit b r).Stores r where
  utxos := perm_collect hwf
  spent := by
    rw [commit_spentNullifiers, foldl_insert_eq_toFinset, Finset.empty_union]
  spent_card := by
    rw [commit_spentNullifiers, foldl_insert_eq_toFinset, Finset.empty_union,
      List.toFinset_card_of_nodup hwf.spent_nodup]

end Maps

/-! ## The stored root -/

section Roots

variable {U : Type*} [JtUtxo U] [Blake3]

/-- Some enumeration of the stored state is well formed and has the stored root. -/
def RootInv (s : ChainState U) : Prop :=
  ∃ us ns, us.Perm s.utxos.values ∧ Enumerates ns s ∧ WellFormed s.cachedSupply us ns ∧
    stateHash s.height s.cachedSupply us ns s.dnaRoot s.oracleRoot = s.stateRoot

/-- If one enumeration has the stored root, then all have. -/
theorem RootInv.computeStateRoot {s : ChainState U} (h : RootInv s) {us : List U}
    {ns : List Hash} (hus : us.Perm s.utxos.values) (hns : Enumerates ns s) :
    ∃ r, computeStateRoot s.height s.cachedSupply us ns s.dnaRoot s.oracleRoot = .ok r ∧
      r.hash = s.stateRoot := by
  rcases h with ⟨us', ns', hus', hns', hwf, hroot⟩
  have hutxos : us'.Perm us := hus'.trans hus.symm
  have hspent : ns'.Perm ns :=
    List.perm_of_nodup_nodup_toFinset_eq hns'.1 hns.1 (hns'.2.trans hns.2.symm)
  refine ⟨_, computeStateRoot_of_wellFormed (hwf.perm hutxos hspent), ?_⟩
  rw [← hroot]
  exact (stateHash_perm hwf hutxos hspent).symm

theorem RootInv.supply {s : ChainState U} (h : RootInv s) :
    (s.utxos.values.map fun u => (JtUtxo.amount u).toNat).sum = s.cachedSupply.toNat := by
  rcases h with ⟨us, ns, hus, -, hwf, -⟩
  rw [← hwf.supply, (hus.map _).sum_eq]

theorem rootInv_new : RootInv (new : ChainState U) :=
  ⟨[], [], List.Perm.refl _, ⟨List.nodup_nil, rfl⟩, ⟨rfl, List.nodup_nil, List.nodup_nil⟩, rfl⟩

theorem RootInv.finalizeUpTo {s : ChainState U} (h : RootInv s) (f : UInt64) :
    RootInv (s.finalizeUpTo f) := h

/-! ## Runs -/

variable [ForeignTypes] [StateTransition U]

variable (U) in
/-- `apply_block` returns a result only together with its state root, and for a genesis block with
zero roots and no spent nullifiers. -/
structure ReturnsStateRoot : Prop where
  root : ∀ (b : Block) (prev : Hash) (utxos : List U) (spent : List Hash) (supply : UInt64)
    (dna oracle : Hash) (r : StateRootData U),
    StateTransition.applyBlock b prev utxos spent supply dna oracle = .ok r →
      Core.computeStateRoot b.height r.totalSupply r.newUtxos r.spentNullifiers r.dnaRoot
        r.oracleRoot = .ok r
  genesis : ∀ (b : Block) (r : StateRootData U), b.height = 0 → executeGenesis b = .ok r →
    r.dnaRoot = Hash.zero ∧ r.oracleRoot = Hash.zero ∧ r.spentNullifiers = []

theorem ReturnsStateRoot.of_execute (h : ReturnsStateRoot U) {s : ChainState U} {b : Block}
    {ns : List Hash} {r : StateRootData U} (hexec : s.execute b ns = .ok r) :
    WellFormed r.totalSupply r.newUtxos r.spentNullifiers ∧
      stateHash b.height r.totalSupply r.newUtxos r.spentNullifiers r.dnaRoot r.oracleRoot =
        r.hash := by
  rcases computeStateRoot_eq_ok.1 (h.root b _ _ _ _ _ _ r hexec) with ⟨hwf, hr⟩
  exact ⟨hwf, (congrArg StateRootData.hash hr).symm⟩

/-- Both paths that share `commit` establish the invariant. -/
theorem ReturnsStateRoot.rootInv_commit (h : ReturnsStateRoot U) {s : ChainState U} {b : Block}
    {ns : List Hash} {r : StateRootData U} (hexec : s.execute b ns = .ok r) :
    RootInv (s.commit b r) := by
  rcases h.of_execute hexec with ⟨hwf, hroot⟩
  have hstores := stores_commit (s := s) b hwf
  exact ⟨r.newUtxos, r.spentNullifiers, hstores.utxos.symm, ⟨hwf.spent_nodup, hstores.spent.symm⟩,
    hwf, hroot⟩

theorem ReturnsStateRoot.of_genesis (h : ReturnsStateRoot U) {b : Block}
    {r : StateRootData U} (hheight : b.height = 0) (hexec : executeGenesis b = .ok r) :
    WellFormed r.totalSupply r.newUtxos r.spentNullifiers ∧ r.spentNullifiers = [] ∧
      stateHash 0 r.totalSupply r.newUtxos [] Hash.zero Hash.zero = r.hash := by
  rcases computeStateRoot_eq_ok.1 (h.root b _ _ _ _ _ _ r hexec) with ⟨hwf, hr⟩
  rcases h.genesis b r hheight hexec with ⟨hdna, horacle, hnone⟩
  have hhash := congrArg StateRootData.hash hr
  rw [rootData, hheight, hdna, horacle, hnone] at hhash
  exact ⟨hwf, hnone, hhash.symm⟩

theorem ReturnsStateRoot.rootInv_commitGenesis (h : ReturnsStateRoot U) {s : ChainState U}
    {b : Block} {r : StateRootData U} (hheight : b.height = 0) (hexec : executeGenesis b = .ok r)
    (hempty : s.spentNullifiers = ∅) : RootInv (s.commitGenesis b r) := by
  rcases h.of_genesis hheight hexec with ⟨hwf, hnone, hroot⟩
  have hstores := stores_commitGenesis (s := s) b hwf hnone hempty
  rw [hnone] at hwf
  exact ⟨r.newUtxos, [], hstores.utxos.symm, ⟨List.nodup_nil, hempty.symm⟩, hwf, hroot⟩

/-- What `apply_block` returned to a call that applied its block. -/
def Returned (s : ChainState U) : ChainEvent U → StateRootData U → Prop
  | .apply b ns (.ok _), r =>
      (if b.height = 0 then executeGenesis b else s.execute b ns) = .ok r
  | .presence b ns (.ok _), r => s.execute b ns = .ok r
  | _, _ => False

/-- The invariant of all runs. -/
structure StoredInv (s : ChainState U) : Prop where
  root : RootInv s
  before : s.genesisApplied = false → s.spentNullifiers = ∅

/-- One step keeps the invariant and stores what was returned. -/
theorem StoredInv.step (hret : ReturnsStateRoot U) {s s' : ChainState U} {e : ChainEvent U}
    (h : StoredInv s) (hstep : s.step e s') :
    StoredInv s' ∧ (∀ r, s.Returned e r → s'.Stores r) ∧
      (e.appliedBlock = none → s'.utxos = s.utxos ∧ s'.spentNullifiers = s.spentNullifiers) := by
  cases step_kind hstep with
  | finalize f => exact ⟨⟨h.root.finalizeUpTo f, h.before⟩, nofun, fun _ => ⟨rfl, rfl⟩⟩
  | rejectApply b ns err => exact ⟨h, nofun, fun _ => ⟨rfl, rfl⟩⟩
  | rejectPresence b ns err => exact ⟨h, nofun, fun _ => ⟨rfl, rfl⟩⟩
  | genesis b ns r res hacc =>
      -- `apply_genesis` does not write the nullifiers, it relies on the set being empty
      have hempty := h.before hacc.first
      have hroot := hret.rootInv_commitGenesis hacc.height_eq hacc.executed hempty
      refine ⟨⟨hroot, fun hfirst => ?_⟩, ?_, fun hnone => ?_⟩
      · cases hfirst
      · intro r' hr'
        rw [Returned, if_pos hacc.height_eq, hacc.executed] at hr'
        cases hr'
        rcases hret.of_genesis hacc.height_eq hacc.executed with ⟨hwf, hnone, -⟩
        exact stores_commitGenesis b hwf hnone hempty
      · cases hnone
  | block b ns r res hacc =>
      refine ⟨⟨hret.rootInv_commit hacc.executed, fun hfirst => ?_⟩, ?_, fun hnone => ?_⟩
      · rw [commitBlock_genesisApplied, commit_genesisApplied, hacc.passes.started] at hfirst
        cases hfirst
      · intro r' hr'
        rw [Returned, if_neg hacc.height_ne, hacc.executed] at hr'
        cases hr'
        have hstores := stores_commit (s := s) b (hret.of_execute hacc.executed).1
        exact ⟨hstores.utxos, hstores.spent, hstores.spent_card⟩
      · cases hnone
  | presence b ns r res hacc =>
      refine ⟨⟨hret.rootInv_commit hacc.executed, fun hfirst => ?_⟩, ?_, fun hnone => ?_⟩
      · rw [commit_genesisApplied, hacc.started] at hfirst
        cases hfirst
      · intro r' hr'
        rw [Returned, hacc.executed] at hr'
        cases hr'
        exact stores_commit b (hret.of_execute hacc.executed).1
      · cases hnone

theorem storedInv_run (hret : ReturnsStateRoot U) {tr : List (ChainEvent U)} {s : ChainState U}
    (hrun : Run step new tr s) : StoredInv s :=
  RunWith.invariant_state StoredInv ⟨rootInv_new, fun _ => rfl⟩
    (fun _ _ _ _ _ ih hstep _ => (ih.step hret hstep).1) hrun

/-- In every reachable state the cached supply and the state root are those of the stored UTXOs
and nullifiers, and the maps hold the whole last result. -/
theorem stored_state_described (hret : ReturnsStateRoot U) {tr : List (ChainEvent U)}
    {s : ChainState U} (hrun : Run step new tr s) :
    (s.utxos.values.map fun u => (JtUtxo.amount u).toNat).sum = s.cachedSupply.toNat ∧
      (∀ us ns, us.Perm s.utxos.values → Enumerates ns s →
        ∃ r, Core.computeStateRoot s.height s.cachedSupply us ns s.dnaRoot s.oracleRoot = .ok r ∧
          r.hash = s.stateRoot) ∧
      (∀ e s' r, s.step e s' → s.Returned e r → s'.Stores r) ∧
      (∀ e s', s.step e s' → e.appliedBlock = none →
        s'.utxos = s.utxos ∧ s'.spentNullifiers = s.spentNullifiers) := by
  have hinv := storedInv_run hret hrun
  exact ⟨hinv.root.supply, fun us ns hus hns => hinv.root.computeStateRoot hus hns,
    fun e s' r hstep => (hinv.step hret hstep).2.1 r,
    fun e s' hstep => (hinv.step hret hstep).2.2⟩

end Roots

section Sample

attribute [local instance] polyBlake3 unitTypes sampleTransition

theorem sampleTransition_returns : ReturnsStateRoot SampleUtxo where
  root b prev utxos spent supply dna oracle r h := by
    simp only [StateTransition.applyBlock] at h
    split at h
    · cases h
    split at h
    · rename_i r' hroot
      cases h
      have hr := (computeStateRoot_eq_ok.1 hroot).2
      rw [hr] at hroot ⊢
      exact hroot
    · cases h
  genesis b r hheight h := by
    simp only [executeGenesis, StateTransition.applyBlock, if_pos hheight] at h
    split at h
    · cases h
    split at h
    · rename_i r' hroot
      cases h
      rw [(computeStateRoot_eq_ok.1 hroot).2]
      exact ⟨rfl, rfl, rfl⟩
    · cases h

/-- Two blocks leave two UTXOs of 50 and one nullifier, and their root is the stored one. -/
theorem stored_state_described_sample :
    sampleState₂.cachedSupply = 100 ∧
      ∃ r, computeStateRoot sampleState₂.height sampleState₂.cachedSupply
        sampleState₂.utxos.orderedValues [ByteArr.fill 32 3] sampleState₂.dnaRoot
        sampleState₂.oracleRoot = .ok r ∧ r.hash = sampleState₂.stateRoot := by
  have hrun : Run step new sampleTrace₂ sampleState₂ :=
    Run.snoc (Run.single (step_apply (by decide +kernel))) (step_apply (by decide +kernel))
  refine ⟨by decide +kernel, ?_⟩
  exact (stored_state_described sampleTransition_returns hrun).2.1 _ _
    (FinMap.orderedValues_perm sampleState₂.utxos) (by decide +kernel)

end Sample

end ChainState
end Core
end Aevum
