import Aevum.Core.StateRoot

/-!
# Core.Commitment — what a state root says about a state

`StateContent` is what a state is, apart from the order in which it is enumerated: the scalars and
two finite sets.  The state root is a commitment to it:

* `stateRoot_order_independent` : permuting the two lists changes nothing;
* `content_eq_of_hash_eq` : equal hashes mean equal contents, if the digest does not collide on
  the byte strings fed to it in the two computations.

The second part rests on `computeMerkleRoot_inj`: below a fixed leaf domain the Merkle root
determines the sorted leaves.
-/

namespace Aevum
namespace Core

open Lib Crypto

/-! ## Domains -/

/-- A leaf domain that cannot be confused with an inner node or with the empty tree. -/
structure LeafDomain (domain : List UInt8) : Prop where
  node : Separated domain nodeDomain
  empty : Separated domain emptyTreeBytes

theorem leafDomain_utxo : LeafDomain utxoDomain := ⟨by decide, by decide⟩

theorem leafDomain_nullifier : LeafDomain nullifierDomain := ⟨by decide, by decide⟩

theorem nodeBytes_ne_empty (a b : Hash) : nodeBytes a b ≠ emptyTreeBytes := by
  have hsep : Separated nodeDomain emptyTreeBytes := by decide
  have hne := hsep.append_ne (a.bytes ++ b.bytes) []
  rwa [List.append_nil, ← List.append_assoc] at hne

theorem LeafDomain.ne_empty {domain : List UInt8} (h : LeafDomain domain)
    (e : List UInt8 × List UInt8) : leafBytes domain e ≠ emptyTreeBytes := by
  have hne := h.empty.append_ne (e.1 ++ e.2) []
  rwa [List.append_nil, ← List.append_assoc] at hne

theorem LeafDomain.ne_node {domain : List UInt8} (h : LeafDomain domain)
    (e : List UInt8 × List UInt8) (a b : Hash) : leafBytes domain e ≠ nodeBytes a b := by
  have hne := h.node.append_ne (e.1 ++ e.2) (a.bytes ++ b.bytes)
  rwa [← List.append_assoc, ← List.append_assoc] at hne

theorem nodeBytes_inj {a b a' b' : Hash} (h : nodeBytes a b = nodeBytes a' b') :
    a = a' ∧ b = b' := by
  rw [nodeBytes, nodeBytes, List.append_assoc, List.append_assoc] at h
  rcases ByteArr.append_inj (List.append_cancel_left h) with ⟨ha, hb⟩
  exact ⟨ha, ByteArr.ext hb⟩

theorem leafBytes_inj {domain : List UInt8} {e e' : List UInt8 × List UInt8}
    (hlen : e.1.length = e'.1.length) (h : leafBytes domain e = leafBytes domain e') :
    e = e' := by
  rw [leafBytes, leafBytes, List.append_assoc, List.append_assoc] at h
  rcases List.append_inj (List.append_cancel_left h) hlen with ⟨hkey, hval⟩
  exact Prod.ext hkey hval

/-! ## One tree -/

section Trees

variable [Blake3]

/-- The byte strings that `computeMerkleRoot` feeds to the hasher. -/
def rootFed (entries : List (List UInt8 × List UInt8)) (domain : List UInt8) :
    List (List UInt8) :=
  let leaves := entries.map (hashLeaf domain)
  entries.map (leafBytes domain) ++
    (MerkleTree.climbPairs hashNode leaves.length leaves).map fun p => nodeBytes p.1 p.2

/-- Entries as the two trees have them: 32-byte keys, no key twice. -/
structure Keyed (entries : List (List UInt8 × List UInt8)) : Prop where
  length_key : ∀ e ∈ entries, e.1.length = 32
  nodup : (entries.map Prod.fst).Nodup

variable {F : Set (List UInt8)} {domain : List UInt8}
  {entries entries' : List (List UInt8 × List UInt8)}

/-- The leaf digests over byte strings of `F`. -/
def leafSet (F : Set (List UInt8)) (domain : List UInt8) : Set Hash :=
  {d | ∃ e, leafBytes domain e ∈ F ∧ d = hashLeaf domain e}

/-- The pairs whose node bytes are in `F`. -/
def nodeSet (F : Set (List UInt8)) : Set (Hash × Hash) :=
  {p | nodeBytes p.1 p.2 ∈ F}

theorem collisionFree_of_injOn (hF : Set.InjOn Blake3.digest F) (hdomain : LeafDomain domain) :
    MerkleTree.CollisionFree hashNode (leafSet F domain) (nodeSet F) :=
  MerkleTree.CollisionFree.of_digest hF (fun _ _ _ _ => nodeBytes_inj) hdomain.ne_node

theorem leaves_nodup (hF : Set.InjOn Blake3.digest F) (hkeyed : Keyed entries)
    (hleaf : ∀ e ∈ entries, leafBytes domain e ∈ F) :
    (entries.map (hashLeaf domain)).Nodup := by
  refine (List.Nodup.of_map _ hkeyed.nodup).map_on ?_
  intro e he e' he' heq
  have hlen : e.1.length = e'.1.length := by
    rw [hkeyed.length_key e he, hkeyed.length_key e' he']
  exact leafBytes_inj hlen (hF (hleaf e he) (hleaf e' he') heq)

/-- A non-empty tree does not have the root of the empty one. -/
theorem computeMerkleRoot_ne_empty (hF : Set.InjOn Blake3.digest F) (hdomain : LeafDomain domain)
    (hempty : emptyTreeBytes ∈ F) (hfed : ∀ bs ∈ rootFed entries domain, bs ∈ F)
    (hne : entries ≠ []) : computeMerkleRoot entries domain ≠ emptyTreeHash := by
  intro h
  rw [rootFed, List.forall_mem_append] at hfed
  rw [computeMerkleRoot, dif_neg hne] at h
  rcases MerkleTree.root_mem hashNode (mt List.map_eq_nil_iff.1 hne) with hleaf |
    ⟨p, hp, heq⟩
  · rcases List.mem_map.1 hleaf with ⟨e, he, heq⟩
    rw [← heq] at h
    have hmem := hfed.1 _ (List.mem_map_of_mem he)
    exact hdomain.ne_empty e (hF hmem hempty h)
  · rw [heq] at h
    have hmem := hfed.2 _ (List.mem_map_of_mem hp)
    exact nodeBytes_ne_empty p.1 p.2 (hF hmem hempty h)

/-- The root determines the sorted leaves, whatever the sizes of the two trees. -/
theorem computeMerkleRoot_inj (hF : Set.InjOn Blake3.digest F) (hdomain : LeafDomain domain)
    (hempty : emptyTreeBytes ∈ F) (hfed : ∀ bs ∈ rootFed entries domain, bs ∈ F)
    (hfed' : ∀ bs ∈ rootFed entries' domain, bs ∈ F) (hkeyed : Keyed entries)
    (hkeyed' : Keyed entries')
    (h : computeMerkleRoot entries domain = computeMerkleRoot entries' domain) :
    entries = entries' := by
  -- either both trees are empty, or neither is and the roots are those of the leaf digests
  have hnil : computeMerkleRoot [] domain = emptyTreeHash := rfl
  by_cases hne : entries = []
  · by_cases hne' : entries' = []
    · rw [hne, hne']
    · rw [hne, hnil] at h
      exact (computeMerkleRoot_ne_empty hF hdomain hempty hfed' hne' h.symm).elim
  by_cases hne' : entries' = []
  · rw [hne', hnil] at h
    exact (computeMerkleRoot_ne_empty hF hdomain hempty hfed hne h).elim
  rw [computeMerkleRoot, computeMerkleRoot, dif_neg hne, dif_neg hne'] at h
  rw [rootFed, List.forall_mem_append, List.forall_mem_map, List.forall_mem_map] at hfed hfed'
  have hleaves : entries.map (hashLeaf domain) = entries'.map (hashLeaf domain) := by
    refine MerkleTree.root_inj (collisionFree_of_injOn hF hdomain) _ _
      (leaves_nodup hF hkeyed hfed.1) (leaves_nodup hF hkeyed' hfed'.1) ?_ ?_ hfed.2 hfed'.2 h
    · exact List.forall_mem_map.2 fun e he => ⟨e, hfed.1 e he, rfl⟩
    · exact List.forall_mem_map.2 fun e he => ⟨e, hfed'.1 e he, rfl⟩
  have hinj : Set.InjOn (hashLeaf domain) {e | leafBytes domain e ∈ F ∧ e.1.length = 32} :=
    fun e he e' he' heq => leafBytes_inj (he.2.trans he'.2.symm) (hF he.1 he'.1 heq)
  exact eq_of_map_eq_of_injOn hinj (fun e he => ⟨hfed.1 e he, hkeyed.length_key e he⟩)
    (fun e he => ⟨hfed'.1 e he, hkeyed'.length_key e he⟩) hleaves

end Trees

/-! ## Contents -/

/-- The arguments of `computeStateRoot`. -/
structure StateInput (U : Type*) where
  blockHeight : UInt64
  totalSupply : UInt64
  utxos : List U
  spentNullifiers : List Hash
  dnaRoot : Hash
  oracleRoot : Hash

/-- A state, apart from the order in which it is enumerated. -/
structure StateContent where
  blockHeight : UInt64
  totalSupply : UInt64
  utxos : Finset (Hash × List UInt8)
  spentNullifiers : Finset Hash
  dnaRoot : Hash
  oracleRoot : Hash
  deriving DecidableEq

namespace StateInput

variable {U : Type*} [JtUtxo U]

def content (i : StateInput U) : StateContent :=
  { blockHeight := i.blockHeight
    totalSupply := i.totalSupply
    utxos := (i.utxos.map fun u => (JtUtxo.nullifier u, JtUtxo.consensusBytes u)).toFinset
    spentNullifiers := i.spentNullifiers.toFinset
    dnaRoot := i.dnaRoot
    oracleRoot := i.oracleRoot }

/-- The sorted leaves of the UTXO tree. -/
def utxoLeaves (i : StateInput U) : List (List UInt8 × List UInt8) :=
  sortBy Prod.fst (utxoEntries i.utxos)

/-- The sorted leaves of the nullifier tree. -/
def nullifierLeaves (i : StateInput U) : List (List UInt8 × List UInt8) :=
  sortBy Prod.fst (nullifierEntries i.spentNullifiers)

theorem mem_content_utxos {i : StateInput U} {n : Hash} {v : List UInt8} :
    (n, v) ∈ i.content.utxos ↔ (n.bytes, v) ∈ i.utxoLeaves := by
  rw [utxoLeaves, (sortBy_perm _ _).mem_iff]
  simp [content, utxoEntries, ByteArr.bytes_inj]

theorem mem_content_spentNullifiers {i : StateInput U} {n : Hash} :
    n ∈ i.content.spentNullifiers ↔ (n.bytes, n.bytes) ∈ i.nullifierLeaves := by
  rw [nullifierLeaves, (sortBy_perm _ _).mem_iff]
  simp [content, nullifierEntries, ByteArr.bytes_inj]

theorem keyed_sortBy {entries : List (List UInt8 × List UInt8)}
    (hlen : ∀ e ∈ entries, e.1.length = 32) (hnodup : (entries.map Prod.fst).Nodup) :
    Keyed (sortBy Prod.fst entries) where
  length_key e he := hlen e ((sortBy_perm _ _).mem_iff.1 he)
  nodup := ((sortBy_perm _ _).map Prod.fst).nodup_iff.2 hnodup

theorem keyed_utxoLeaves {i : StateInput U}
    (h : WellFormed i.totalSupply i.utxos i.spentNullifiers) : Keyed i.utxoLeaves := by
  refine keyed_sortBy ?_ ?_
  · exact List.forall_mem_map.2 fun u _ => (JtUtxo.nullifier u).length_eq
  · have hbytes := h.utxos_nodup.map (f := ByteArr.bytes) fun _ _ heq => ByteArr.ext heq
    rw [List.map_map] at hbytes
    rw [utxoEntries, List.map_map]
    exact hbytes

theorem keyed_nullifierLeaves {i : StateInput U}
    (h : WellFormed i.totalSupply i.utxos i.spentNullifiers) : Keyed i.nullifierLeaves := by
  refine keyed_sortBy ?_ ?_
  · exact List.forall_mem_map.2 fun n _ => n.length_eq
  · rw [nullifierEntries, List.map_map]
    exact h.spent_nodup.map fun _ _ heq => ByteArr.ext heq

variable [Blake3]

def computeStateRoot (i : StateInput U) : Except StateError (StateRootData U) :=
  Core.computeStateRoot i.blockHeight i.totalSupply i.utxos i.spentNullifiers i.dnaRoot
    i.oracleRoot

def utxoRoot (i : StateInput U) : Hash := computeMerkleRoot i.utxoLeaves utxoDomain

def nullifierRoot (i : StateInput U) : Hash :=
  computeMerkleRoot i.nullifierLeaves nullifierDomain

/-- The bytes of the outermost hash. -/
def outerBytes (i : StateInput U) : List UInt8 :=
  stateRootBytes i.blockHeight i.totalSupply i.utxoRoot i.nullifierRoot i.dnaRoot i.oracleRoot

/-- Every byte string that `computeStateRoot` feeds to a hasher. -/
def fed (i : StateInput U) : List (List UInt8) :=
  emptyTreeBytes :: i.outerBytes ::
    (rootFed i.utxoLeaves utxoDomain ++ rootFed i.nullifierLeaves nullifierDomain)

theorem computeMerkleRoots_eq (i : StateInput U) :
    computeMerkleRoots i.utxos i.spentNullifiers = (i.utxoRoot, i.nullifierRoot) := by
  have hutxo : (if i.utxos.isEmpty then emptyTreeHash else i.utxoRoot) = i.utxoRoot := by
    split
    · rename_i h
      rw [utxoRoot, utxoLeaves, List.isEmpty_iff.1 h]
      rfl
    · rfl
  have hnullifier :
      (if i.spentNullifiers.isEmpty then emptyTreeHash else i.nullifierRoot) =
        i.nullifierRoot := by
    split
    · rename_i h
      rw [nullifierRoot, nullifierLeaves, List.isEmpty_iff.1 h]
      rfl
    · rfl
  exact Prod.ext hutxo hnullifier

theorem hash_eq {i : StateInput U} {r : StateRootData U} (h : i.computeStateRoot = .ok r) :
    r.hash = Blake3.digest i.outerBytes := by
  rw [(computeStateRoot_eq_ok.1 h).2]
  simp only [rootData, stateHash, computeMerkleRoots_eq]
  rfl

/-- The outermost hash determines the scalars and both roots. -/
theorem outerBytes_inj {i i' : StateInput U} (h : i.outerBytes = i'.outerBytes) :
    i.blockHeight = i'.blockHeight ∧ i.totalSupply = i'.totalSupply ∧ i.utxoRoot = i'.utxoRoot ∧
      i.nullifierRoot = i'.nullifierRoot ∧ i.dnaRoot = i'.dnaRoot ∧
        i.oracleRoot = i'.oracleRoot := by
  simp only [outerBytes, stateRootBytes, List.append_assoc] at h
  rcases ByteArr.append_inj (List.append_cancel_left h) with ⟨hheight, h⟩
  rcases ByteArr.append_inj h with ⟨hsupply, h⟩
  rcases ByteArr.append_inj h with ⟨hutxo, h⟩
  rcases ByteArr.append_inj h with ⟨hnullifier, h⟩
  rcases ByteArr.append_inj h with ⟨hdna, horacle⟩
  exact ⟨u64Bytes_inj hheight, u64Bytes_inj hsupply, hutxo, hnullifier, hdna,
    ByteArr.ext horacle⟩

/-- Equal state roots commit to equal contents. -/
theorem content_eq_of_hash_eq {i i' : StateInput U} {r r' : StateRootData U}
    (h : i.computeStateRoot = .ok r) (h' : i'.computeStateRoot = .ok r')
    (hdigest : Set.InjOn Blake3.digest {bs | bs ∈ i.fed ∨ bs ∈ i'.fed})
    (hhash : r.hash = r'.hash) : i.content = i'.content := by
  have hwf := (computeStateRoot_eq_ok.1 h).1
  have hwf' := (computeStateRoot_eq_ok.1 h').1
  have hempty : emptyTreeBytes ∈ {bs | bs ∈ i.fed ∨ bs ∈ i'.fed} :=
    Or.inl List.mem_cons_self
  -- from the outermost hash inwards: scalars and roots, then the leaves of both trees
  have houter : i.outerBytes = i'.outerBytes := by
    rw [hash_eq h, hash_eq h'] at hhash
    exact hdigest (Or.inl (by simp [fed])) (Or.inr (by simp [fed])) hhash
  rcases outerBytes_inj houter with ⟨hheight, hsupply, hutxo, hnullifier, hdna, horacle⟩
  have hutxos : i.utxoLeaves = i'.utxoLeaves :=
    computeMerkleRoot_inj hdigest leafDomain_utxo hempty
      (fun bs hbs => Or.inl (by simp [fed, hbs])) (fun bs hbs => Or.inr (by simp [fed, hbs]))
      (keyed_utxoLeaves hwf) (keyed_utxoLeaves hwf') hutxo
  have hspent : i.nullifierLeaves = i'.nullifierLeaves :=
    computeMerkleRoot_inj hdigest leafDomain_nullifier hempty
      (fun bs hbs => Or.inl (by simp [fed, hbs])) (fun bs hbs => Or.inr (by simp [fed, hbs]))
      (keyed_nullifierLeaves hwf) (keyed_nullifierLeaves hwf') hnullifier
  have hutxoSet : i.content.utxos = i'.content.utxos := by
    ext ⟨n, v⟩
    rw [mem_content_utxos, mem_content_utxos, hutxos]
  have hspentSet : i.content.spentNullifiers = i'.content.spentNullifiers := by
    ext n
    rw [mem_content_spentNullifiers, mem_content_spentNullifiers, hspent]
  simp only [content] at hutxoSet hspentSet ⊢
  rw [hutxoSet, hspentSet, hheight, hsupply, hdna, horacle]

end StateInput

/-! ## Order -/

section Order

variable [Blake3] {U : Type*} [JtUtxo U]

/-- Whatever the order of the two lists, both functions succeed together, with one hash and one
supply. -/
theorem stateRoot_order_independent (height supply : UInt64) {utxos utxos' : List U}
    {spent spent' : List Hash} (dna oracle : Hash) (hutxos : utxos.Perm utxos')
    (hspent : spent.Perm spent') :
    (computeStateRoot height supply utxos spent dna oracle).toOption.map
          (fun r => (r.hash, r.totalSupply)) =
        (computeStateRoot height supply utxos' spent' dna oracle).toOption.map
          (fun r => (r.hash, r.totalSupply)) ∧
      (computeStatePreview height supply utxos spent dna oracle).toOption =
        (computeStatePreview height supply utxos' spent' dna oracle).toOption ∧
      computeStatePreview height supply utxos spent dna oracle =
        (computeStateRoot height supply utxos spent dna oracle).map
          StateRootData.intoPreview := by
  -- the preview is a view of the state root, so one permutation lemma serves both
  have hroot := computeStateRoot_perm height supply dna oracle hutxos hspent
  refine ⟨?_, ?_, computeStatePreview_eq_map height supply utxos spent dna oracle⟩
  · have hpair := congrArg
      (Option.map fun p : StatePreview => (p.stateRoot.hash, p.newTotalSupply)) hroot
    rw [Option.map_map, Option.map_map] at hpair
    exact hpair
  · rw [computeStatePreview_eq_map, computeStatePreview_eq_map, toOption_map, toOption_map]
    exact hroot

end Order

/-! ## Inputs to evaluate -/

section Sample

attribute [local instance] polyBlake3

/-- Three UTXOs and two nullifiers, so that both trees pad a level or two. -/
def sampleInput : StateInput SampleUtxo :=
  { blockHeight := 5
    totalSupply := 60
    utxos := [⟨10, 3⟩, ⟨20, 1⟩, ⟨30, 2⟩]
    spentNullifiers := [ByteArr.fill 32 9, ByteArr.fill 32 7, ByteArr.fill 32 8]
    dnaRoot := Hash.zero
    oracleRoot := Hash.zero }

/-- The same state, enumerated in another order. -/
def sampleInput' : StateInput SampleUtxo :=
  { sampleInput with
    utxos := [⟨30, 2⟩, ⟨10, 3⟩, ⟨20, 1⟩]
    spentNullifiers := [ByteArr.fill 32 8, ByteArr.fill 32 9, ByteArr.fill 32 7] }

theorem sampleInput_wellFormed :
    WellFormed sampleInput.totalSupply sampleInput.utxos sampleInput.spentNullifiers :=
  ⟨by decide +kernel, by decide +kernel, by decide +kernel⟩

theorem sampleInput_wellFormed' :
    WellFormed sampleInput'.totalSupply sampleInput'.utxos sampleInput'.spentNullifiers :=
  ⟨by decide +kernel, by decide +kernel, by decide +kernel⟩

theorem content_eq_of_hash_eq_sample : sampleInput.content = sampleInput'.content :=
  StateInput.content_eq_of_hash_eq (computeStateRoot_of_wellFormed sampleInput_wellFormed)
    (computeStateRoot_of_wellFormed sampleInput_wellFormed')
    (injOn_or_of_nodup (by decide +kernel)) (by decide +kernel)

theorem stateRoot_order_independent_sample :
    (computeStateRoot 5 60 sampleInput.utxos sampleInput.spentNullifiers Hash.zero
        Hash.zero).toOption.map (fun r => (r.hash, r.totalSupply)) =
      (computeStateRoot 5 60 sampleInput'.utxos sampleInput'.spentNullifiers Hash.zero
        Hash.zero).toOption.map (fun r => (r.hash, r.totalSupply)) :=
  (stateRoot_order_independent 5 60 Hash.zero Hash.zero (by decide +kernel)
    (by decide +kernel)).1

end Sample

end Core
end Aevum
