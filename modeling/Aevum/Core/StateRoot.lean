import Aevum.Lib.MerkleTree
import Aevum.Crypto

/-!
# Core.StateRoot — `state_root.rs`

The commitment to the chain state: two Merkle trees over the sorted UTXOs and the sorted spent
nullifiers, and one hash over their roots, the height, the supply and two further roots.

`computeStateRoot` and `computeStatePreview` make the same checks and feed the same hash; what they
share is `checkState` and `stateHash`.  The module `jt_utxo` is not part of the repository, so a
UTXO is known here by the three getters this file calls.
-/

namespace Aevum
namespace Core

open Lib Crypto

/-- The getters of `JtUtxo`. -/
class JtUtxo (U : Type*) where
  amount : U → UInt64
  nullifier : U → Hash
  consensusBytes : U → List UInt8

inductive StateError
  | supplyMismatch (expected computed : UInt64)
  | supplyOverflow
  | duplicateNullifier (n : Hash)
  | duplicateUtxoNullifier (n : Hash)
  deriving DecidableEq

structure StateRoot where
  hash : Hash
  deriving DecidableEq

structure StatePreview where
  stateRoot : StateRoot
  newTotalSupply : UInt64
  deriving DecidableEq

structure StateRootData (U : Type*) where
  hash : Hash
  blockHeight : UInt64
  totalSupply : UInt64
  dnaRoot : Hash
  oracleRoot : Hash
  utxoCount : Nat
  spentNullifierCount : Nat
  newUtxos : List U
  spentNullifiers : List Hash

namespace StateRootData

variable {U : Type*}

def intoPreview (r : StateRootData U) : StatePreview :=
  { stateRoot := ⟨r.hash⟩
    newTotalSupply := r.totalSupply }

end StateRootData

theorem toOption_map {ε α β : Type*} (f : α → β) (x : Except ε α) :
    (x.map f).toOption = x.toOption.map f := by
  cases x <;> rfl

/-! ## Hashes -/

section Hashes

variable [Blake3]

def emptyTreeBytes : List UInt8 := ascii "AEVUM_EMPTY_TREE_V5"

def emptyTreeHash : Hash := Blake3.digest emptyTreeBytes

/-- The bytes of a leaf. -/
def leafBytes (domain : List UInt8) (e : List UInt8 × List UInt8) : List UInt8 :=
  domain ++ e.1 ++ e.2

def nodeDomain : List UInt8 := ascii "AEVUM_MERKLE_NODE_V5"

/-- The bytes of an inner node. -/
def nodeBytes (a b : Hash) : List UInt8 :=
  nodeDomain ++ a.bytes ++ b.bytes

def hashLeaf (domain : List UInt8) (e : List UInt8 × List UInt8) : Hash :=
  Blake3.digest (leafBytes domain e)

def hashNode (a b : Hash) : Hash := Blake3.digest (nodeBytes a b)

def computeMerkleRoot (entries : List (List UInt8 × List UInt8)) (domain : List UInt8) : Hash :=
  if h : entries = [] then
    emptyTreeHash
  else
    MerkleTree.root hashNode (entries.map (hashLeaf domain)) (mt List.map_eq_nil_iff.1 h)

/-- The bytes of the state root itself. -/
def stateRootBytes (blockHeight totalSupply : UInt64) (utxoRoot nullifierRoot dnaRoot
    oracleRoot : Hash) : List UInt8 :=
  ascii "AEVUM_STATE_ROOT_V5" ++ (u64Bytes blockHeight).bytes ++ (u64Bytes totalSupply).bytes ++
    utxoRoot.bytes ++ nullifierRoot.bytes ++ dnaRoot.bytes ++ oracleRoot.bytes

def computeStateRootHash (blockHeight totalSupply : UInt64) (utxoRoot nullifierRoot dnaRoot
    oracleRoot : Hash) : Hash :=
  Blake3.digest
    (stateRootBytes blockHeight totalSupply utxoRoot nullifierRoot dnaRoot oracleRoot)

def genesisStateRoot : StateRoot :=
  ⟨computeStateRootHash 0 0 emptyTreeHash emptyTreeHash Hash.zero Hash.zero⟩

end Hashes

/-! ## Inputs -/

section Inputs

variable {U : Type*} [JtUtxo U]

/-- The leaves of the UTXO tree, in the order of the list. -/
def utxoEntries (utxos : List U) : List (List UInt8 × List UInt8) :=
  utxos.map fun u => ((JtUtxo.nullifier u).bytes, JtUtxo.consensusBytes u)

/-- The leaves of the nullifier tree, in the order of the list. -/
def nullifierEntries (spentNullifiers : List Hash) : List (List UInt8 × List UInt8) :=
  spentNullifiers.map fun n => (n.bytes, n.bytes)

def utxoDomain : List UInt8 := ascii "AEVUM_UTXO_V5"

def nullifierDomain : List UInt8 := ascii "AEVUM_NULLIFIER_V5"

/-- The fold `try_fold(0u64, checked_add)`. -/
def computedSupply (utxos : List U) : Option UInt64 :=
  utxos.foldlM (fun acc u => acc.checkedAdd (JtUtxo.amount u)) 0

/-- The four checks that `computeStateRoot` and `computeStatePreview` start with. -/
def checkState (totalSupply : UInt64) (utxos : List U) (spentNullifiers : List Hash) :
    Except StateError Unit :=
  match computedSupply utxos with
  | none => .error .supplyOverflow
  | some computed =>
      -- the declared supply is compared before any duplicate is looked for
      if totalSupply ≠ computed then
        .error (.supplyMismatch totalSupply computed)
      else
        match firstDup ∅ (utxos.map JtUtxo.nullifier) with
        | some n => .error (.duplicateUtxoNullifier n)
        | none =>
            match firstDup ∅ spentNullifiers with
            | some n => .error (.duplicateNullifier n)
            | none => .ok ()

/-- What the checks establish. -/
structure WellFormed (totalSupply : UInt64) (utxos : List U) (spentNullifiers : List Hash) :
    Prop where
  supply : (utxos.map fun u => (JtUtxo.amount u).toNat).sum = totalSupply.toNat
  utxos_nodup : (utxos.map JtUtxo.nullifier).Nodup
  spent_nodup : spentNullifiers.Nodup

theorem computedSupply_eq_some {utxos : List U} {t : UInt64} :
    computedSupply utxos = some t ↔
      (utxos.map fun u => (JtUtxo.amount u).toNat).sum = t.toNat := by
  simp [computedSupply, UInt64.foldlM_checkedAdd]

theorem checkState_eq_ok {totalSupply : UInt64} {utxos : List U} {spentNullifiers : List Hash} :
    checkState totalSupply utxos spentNullifiers = .ok () ↔
      WellFormed totalSupply utxos spentNullifiers := by
  constructor
  · intro h
    unfold checkState at h
    split at h
    · cases h
    rename_i computed hsupply
    split at h
    · cases h
    rename_i heq
    split at h
    · cases h
    rename_i hutxos
    split at h
    · cases h
    rename_i hspent
    rw [← not_not.1 heq] at hsupply
    exact ⟨computedSupply_eq_some.1 hsupply, firstDup_empty_eq_none.1 hutxos,
      firstDup_empty_eq_none.1 hspent⟩
  · intro h
    simp [checkState, computedSupply_eq_some.2 h.supply, firstDup_empty_eq_none.2 h.utxos_nodup,
      firstDup_empty_eq_none.2 h.spent_nodup]

theorem WellFormed.perm {totalSupply : UInt64} {utxos utxos' : List U} {spent spent' : List Hash}
    (h : WellFormed totalSupply utxos spent) (hutxos : utxos.Perm utxos')
    (hspent : spent.Perm spent') : WellFormed totalSupply utxos' spent' where
  supply := by rw [← h.supply, (hutxos.map _).sum_eq]
  utxos_nodup := (hutxos.map _).nodup_iff.1 h.utxos_nodup
  spent_nodup := hspent.nodup_iff.1 h.spent_nodup

/-- Leaves with distinct 32-byte keys have one sorted order. -/
theorem sortBy_entries_perm {α : Type*} (key : α → Hash) (val : α → List UInt8) {l l' : List α}
    (hkeys : (l.map key).Nodup) (hperm : l.Perm l') :
    sortBy Prod.fst (l.map fun a => ((key a).bytes, val a)) =
      sortBy Prod.fst (l'.map fun a => ((key a).bytes, val a)) := by
  refine sortBy_eq_of_perm ?_ (hperm.map _)
  have hbytes : (l.map fun a => ((key a).bytes, val a)).map Prod.fst =
      (l.map key).map ByteArr.bytes := by
    simp [Function.comp_def]
  rw [hbytes]
  exact hkeys.map fun _ _ h => ByteArr.ext h

theorem sortBy_utxoEntries_perm {utxos utxos' : List U}
    (hkeys : (utxos.map JtUtxo.nullifier).Nodup) (hperm : utxos.Perm utxos') :
    sortBy Prod.fst (utxoEntries utxos) = sortBy Prod.fst (utxoEntries utxos') :=
  sortBy_entries_perm JtUtxo.nullifier JtUtxo.consensusBytes hkeys hperm

theorem sortBy_nullifierEntries_perm {spent spent' : List Hash} (hkeys : spent.Nodup)
    (hperm : spent.Perm spent') :
    sortBy Prod.fst (nullifierEntries spent) = sortBy Prod.fst (nullifierEntries spent') :=
  sortBy_entries_perm id (fun n => n.bytes) (by rwa [List.map_id]) hperm

end Inputs

/-! ## The state root -/

section Roots

variable [Blake3] {U : Type*} [JtUtxo U]

def computeMerkleRoots (utxos : List U) (spentNullifiers : List Hash) : Hash × Hash :=
  let eh := emptyTreeHash
  let utxoRoot :=
    if utxos.isEmpty then eh
    else computeMerkleRoot (sortBy Prod.fst (utxoEntries utxos)) utxoDomain
  let nullifierRoot :=
    if spentNullifiers.isEmpty then eh
    else computeMerkleRoot (sortBy Prod.fst (nullifierEntries spentNullifiers)) nullifierDomain
  (utxoRoot, nullifierRoot)

/-- The hash over both trees, once the checks have passed. -/
def stateHash (blockHeight totalSupply : UInt64) (utxos : List U) (spentNullifiers : List Hash)
    (dnaRoot oracleRoot : Hash) : Hash :=
  let roots := computeMerkleRoots utxos spentNullifiers
  computeStateRootHash blockHeight totalSupply roots.1 roots.2 dnaRoot oracleRoot

def computeStateRoot (blockHeight totalSupply : UInt64) (utxos : List U)
    (spentNullifiers : List Hash) (dnaRoot oracleRoot : Hash) :
    Except StateError (StateRootData U) :=
  match checkState totalSupply utxos spentNullifiers with
  | .error e => .error e
  | .ok () =>
      .ok
        { hash := stateHash blockHeight totalSupply utxos spentNullifiers dnaRoot oracleRoot
          blockHeight := blockHeight
          totalSupply := totalSupply
          dnaRoot := dnaRoot
          oracleRoot := oracleRoot
          utxoCount := utxos.length
          spentNullifierCount := spentNullifiers.length
          newUtxos := utxos
          spentNullifiers := spentNullifiers }

def computeStatePreview (blockHeight totalSupply : UInt64) (utxos : List U)
    (spentNullifiers : List Hash) (dnaRoot oracleRoot : Hash) : Except StateError StatePreview :=
  match checkState totalSupply utxos spentNullifiers with
  | .error e => .error e
  | .ok () =>
      .ok
        { stateRoot :=
            ⟨stateHash blockHeight totalSupply utxos spentNullifiers dnaRoot oracleRoot⟩
          newTotalSupply := totalSupply }

variable {height supply : UInt64} {utxos utxos' : List U} {spent spent' : List Hash}
  {dna oracle : Hash} {r : StateRootData U}

/-- The result on well-formed input. -/
def rootData (height supply : UInt64) (utxos : List U) (spent : List Hash) (dna oracle : Hash) :
    StateRootData U :=
  { hash := stateHash height supply utxos spent dna oracle
    blockHeight := height
    totalSupply := supply
    dnaRoot := dna
    oracleRoot := oracle
    utxoCount := utxos.length
    spentNullifierCount := spent.length
    newUtxos := utxos
    spentNullifiers := spent }

theorem computeStateRoot_of_wellFormed (h : WellFormed supply utxos spent) :
    computeStateRoot height supply utxos spent dna oracle =
      .ok (rootData height supply utxos spent dna oracle) := by
  rw [computeStateRoot, checkState_eq_ok.2 h]
  rfl

theorem computeStateRoot_eq_ok :
    computeStateRoot height supply utxos spent dna oracle = .ok r ↔
      WellFormed supply utxos spent ∧ r = rootData height supply utxos spent dna oracle := by
  constructor
  · intro h
    have hcheck : checkState supply utxos spent = .ok () := by
      unfold computeStateRoot at h
      split at h
      · cases h
      · assumption
    have hwf := checkState_eq_ok.1 hcheck
    rw [computeStateRoot_of_wellFormed hwf] at h
    cases h
    exact ⟨hwf, rfl⟩
  · rintro ⟨hwf, rfl⟩
    exact computeStateRoot_of_wellFormed hwf

theorem toOption_computeStateRoot_of_not (h : ¬ WellFormed supply utxos spent) :
    (computeStateRoot height supply utxos spent dna oracle).toOption = none := by
  cases hres : computeStateRoot height supply utxos spent dna oracle with
  | error e => rfl
  | ok r => exact (h (computeStateRoot_eq_ok.1 hres).1).elim

/-- The preview is the full computation without its data, errors included. -/
theorem computeStatePreview_eq_map (height supply : UInt64) (utxos : List U) (spent : List Hash)
    (dna oracle : Hash) :
    computeStatePreview height supply utxos spent dna oracle =
      (computeStateRoot height supply utxos spent dna oracle).map StateRootData.intoPreview := by
  unfold computeStatePreview computeStateRoot
  cases checkState supply utxos spent <;> rfl

/-! ## Permuted inputs -/

/-- The hash depends on the two lists only up to permutation. -/
theorem stateHash_perm (h : WellFormed supply utxos spent) (hutxos : utxos.Perm utxos')
    (hspent : spent.Perm spent') :
    stateHash height supply utxos spent dna oracle =
      stateHash height supply utxos' spent' dna oracle := by
  have hroots : computeMerkleRoots utxos spent = computeMerkleRoots utxos' spent' := by
    simp only [computeMerkleRoots, List.isEmpty_iff]
    rw [sortBy_utxoEntries_perm h.utxos_nodup hutxos,
      sortBy_nullifierEntries_perm h.spent_nodup hspent]
    simp only [← List.length_eq_zero_iff, hutxos.length_eq, hspent.length_eq]
  simp only [stateHash, hroots]

/-- Permuted lists pass together, and get the same hash. -/
theorem computeStateRoot_perm (height supply : UInt64) (dna oracle : Hash)
    (hutxos : utxos.Perm utxos') (hspent : spent.Perm spent') :
    (computeStateRoot height supply utxos spent dna oracle).toOption.map
        StateRootData.intoPreview =
      (computeStateRoot height supply utxos' spent' dna oracle).toOption.map
        StateRootData.intoPreview := by
  by_cases h : WellFormed supply utxos spent
  · rw [computeStateRoot_of_wellFormed h,
      computeStateRoot_of_wellFormed (h.perm hutxos hspent)]
    simp [Except.toOption, StateRootData.intoPreview, rootData, stateHash_perm h hutxos hspent]
  · have h' : ¬ WellFormed supply utxos' spent' := fun hwf =>
      h (hwf.perm hutxos.symm hspent.symm)
    rw [toOption_computeStateRoot_of_not h, toOption_computeStateRoot_of_not h']

end Roots

/-! ## UTXOs to evaluate -/

section Sample

structure SampleUtxo where
  amount : UInt64
  tag : UInt8
  deriving DecidableEq

instance : JtUtxo SampleUtxo where
  amount u := u.amount
  nullifier u := ByteArr.fill 32 u.tag
  consensusBytes u := [u.tag]

end Sample

end Core
end Aevum
