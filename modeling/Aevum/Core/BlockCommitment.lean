import Aevum.Core.BlockRules
import Aevum.Core.TransactionHash
import Mathlib.Data.List.Duplicate

/-!
# Core.BlockCommitment — what a block hash says about the transactions

A block hash commits to the root of a Merkle tree over the transaction hashes, and this root to
the list of hashes up to repeats at its end: an odd level is padded with its last node.

* `Committed.repeats` : blocks of one hash have transaction hashes that differ at most in repeats;
* `Valid.exists_without_inputs` : in a valid block, a hash that occurs twice belongs to a standard
  transaction without inputs;
* `txHashes_eq_iff` : so two valid blocks of one hash have the same transaction hashes exactly when
  they do not differ in how often such a transaction occurs.
-/

namespace Aevum
namespace Core

open Lib Crypto

/-! ## Preimages -/

/-- The bytes of an inner node of the transaction tree. -/
def transactionNodeBytes (a b : Hash) : List UInt8 :=
  ascii "AEVUM_MERKLE_V15" ++ a.bytes ++ b.bytes

theorem transactionNodeBytes_inj (a b a' b' : Hash)
    (h : transactionNodeBytes a b = transactionNodeBytes a' b') : a = a' ∧ b = b' := by
  rw [transactionNodeBytes, transactionNodeBytes, List.append_assoc, List.append_assoc] at h
  rcases ByteArr.append_inj (List.append_cancel_left h) with ⟨ha, hb⟩
  exact ⟨ha, ByteArr.ext hb⟩

/-- What follows the presence flag. -/
def checkpointBytes (cp : Option SettlementCheckpoint) : List UInt8 :=
  match cp with
  | some cp => cp.hashInput
  | none => []

/-- A missing checkpoint is told from a present one by the end of the preimage. -/
theorem checkpointBytes_inj {cp cp' : Option SettlementCheckpoint}
    (h : checkpointBytes cp = checkpointBytes cp') : cp = cp' := by
  -- an absent checkpoint adds nothing and a present one 56 bytes
  have hlen (c : SettlementCheckpoint) : c.hashInput.length = 56 := by
    simp [SettlementCheckpoint.hashInput, ByteArr.length_eq]
  cases cp with
  | none =>
      cases cp' with
      | none => rfl
      | some c' =>
          have hzero := (congrArg List.length h).trans (hlen c')
          cases hzero
  | some c =>
      cases cp' with
      | none =>
          have hzero := (hlen c).symm.trans (congrArg List.length h)
          cases hzero
      | some c' =>
          simp only [checkpointBytes, SettlementCheckpoint.hashInput, List.append_assoc] at h
          rcases ByteArr.append_inj h with ⟨hepoch, h⟩
          rcases ByteArr.append_inj h with ⟨hcursor, h⟩
          rcases ByteArr.append_inj h with ⟨htotal, h⟩
          rcases c with ⟨epoch, cursor, total, commitment⟩
          rcases c' with ⟨epoch', cursor', total', commitment'⟩
          rw [Option.some_inj, SettlementCheckpoint.mk.injEq]
          exact ⟨u64Bytes_inj hepoch, u64Bytes_inj hcursor, u64Bytes_inj htotal, ByteArr.ext h⟩

section Preimages

variable [ForeignTypes]

theorem Transaction.hashInput_ne_node (tx : Transaction) (a b : Hash) :
    tx.hashInput ≠ transactionNodeBytes a b := by
  have hsep : Separated (ascii "AEVUM_TX_V4") (ascii "AEVUM_MERKLE_V15") := by decide
  rw [Transaction.hashInput_eq, transactionNodeBytes, List.append_assoc]
  exact hsep.append_ne _ _

variable [Blake3]

/-- The byte strings hashed below a transactions root, transaction hashes included. -/
def transactionsFed (txs : List Transaction) : List (List UInt8) :=
  txs.map Transaction.hashInput ++
    (MerkleTree.climbPairs hashTransactionNode txs.length (txs.map (·.txHash))).map fun p =>
      transactionNodeBytes p.1 p.2

/-- Lists of transactions that carry their own hashes and have one root. -/
theorem repeats_of_root_eq {F : Set (List UInt8)} {txs txs' : List Transaction}
    (hF : Set.InjOn Blake3.digest F) (hne : txs ≠ []) (hne' : txs' ≠ [])
    (hashed : ∀ tx ∈ txs, tx.txHash = tx.recomputeHash)
    (hashed' : ∀ tx ∈ txs', tx.txHash = tx.recomputeHash)
    (hfed : ∀ bs ∈ transactionsFed txs, bs ∈ F) (hfed' : ∀ bs ∈ transactionsFed txs', bs ∈ F)
    (h : computeTransactionsRoot txs = computeTransactionsRoot txs') :
    MerkleTree.Repeats (txs.map (·.txHash)) (txs'.map (·.txHash)) := by
  have hfree := MerkleTree.CollisionFree.of_digest hF
    transactionNodeBytes_inj Transaction.hashInput_ne_node
  rw [transactionsFed, List.forall_mem_append, List.forall_mem_map, List.forall_mem_map]
    at hfed hfed'
  rw [computeTransactionsRoot, computeTransactionsRoot, dif_neg hne, dif_neg hne'] at h
  -- leaves are digests of transactions, and these are not the bytes of a node
  refine MerkleTree.root_repeats hfree _ _ ?_ ?_ ?_ ?_ h
  · exact List.forall_mem_map.2 fun tx htx => ⟨tx, hfed.1 tx htx, hashed tx htx⟩
  · exact List.forall_mem_map.2 fun tx htx => ⟨tx, hfed'.1 tx htx, hashed' tx htx⟩
  · rw [List.length_map]
    exact hfed.2
  · rw [List.length_map]
    exact hfed'.2

end Preimages

namespace Block

section Commitments

variable [ForeignTypes]

/-- The part of a block that is hashed directly. -/
structure SameHeader (b b' : Block) : Prop where
  height : b.height = b'.height
  prevHash : b.prevHash = b'.prevHash
  pohTickStart : b.pohTickStart = b'.pohTickStart
  pohTickEnd : b.pohTickEnd = b'.pohTickEnd
  transactionsRoot : b.transactionsRoot = b'.transactionsRoot
  stateRoot : b.stateRoot = b'.stateRoot
  totalSupply : b.totalSupply = b'.totalSupply
  isPresenceBlock : b.isPresenceBlock = b'.isPresenceBlock
  settlementCheckpoint : b.settlementCheckpoint = b'.settlementCheckpoint

theorem hashInput_eq (b : Block) :
    b.hashInput = ascii "AEVUM_BLOCK" ++ ((u64Bytes b.height).bytes ++
      (b.prevHash.bytes ++ ((u64Bytes b.pohTickStart).bytes ++ ((u64Bytes b.pohTickEnd).bytes ++
        (b.transactionsRoot.bytes ++ (b.stateRoot.hash.bytes ++ ((u64Bytes b.totalSupply).bytes ++
          ([if b.isPresenceBlock then 1 else 0] ++
            checkpointBytes b.settlementCheckpoint)))))))) := by
  simp only [hashInput, List.append_assoc]
  rfl

theorem hashInput_inj {b b' : Block} (h : b.hashInput = b'.hashInput) : b.SameHeader b' := by
  rw [hashInput_eq, hashInput_eq] at h
  rcases ByteArr.append_inj (List.append_cancel_left h) with ⟨hheight, h⟩
  rcases ByteArr.append_inj h with ⟨hprev, h⟩
  rcases ByteArr.append_inj h with ⟨hstart, h⟩
  rcases ByteArr.append_inj h with ⟨hend, h⟩
  rcases ByteArr.append_inj h with ⟨hroot, h⟩
  rcases ByteArr.append_inj h with ⟨hstate, h⟩
  rcases ByteArr.append_inj h with ⟨hsupply, h⟩
  rcases List.append_inj h rfl with ⟨hflag, h⟩
  refine
    { height := u64Bytes_inj hheight
      prevHash := hprev
      pohTickStart := u64Bytes_inj hstart
      pohTickEnd := u64Bytes_inj hend
      transactionsRoot := hroot
      stateRoot := congrArg StateRoot.mk hstate
      totalSupply := u64Bytes_inj hsupply
      isPresenceBlock := ?_
      settlementCheckpoint := checkpointBytes_inj h }
  -- the flag is one byte, 1 or 0
  revert hflag
  cases b.isPresenceBlock <;> cases b'.isPresenceBlock <;> decide

/-! ## Committed blocks -/

variable [Blake3]

def txHashes (b : Block) : List Hash := b.transactions.map (·.txHash)

/-- Every byte string hashed for a block, transaction hashes included. -/
def fed (b : Block) : List (List UInt8) := b.hashInput :: transactionsFed b.transactions

theorem hashInput_mem_fed {b : Block} {tx : Transaction} (h : tx ∈ b.transactions) :
    tx.hashInput ∈ b.fed :=
  List.mem_cons_of_mem _ (List.mem_append_left _ (List.mem_map_of_mem h))

/-- A block that carries the hashes of its own contents. -/
structure Committed (b : Block) : Prop where
  blockHash : b.blockHash = b.computeHash
  root : b.transactionsRoot = computeTransactionsRoot b.transactions
  hashed : ∀ tx ∈ b.transactions, tx.txHash = tx.recomputeHash

/-- The constructor fills in the root and the hash of the candidate's contents. -/
theorem fromCandidate_ok {c : BlockCandidate} {p : StatePreview} {b : Block}
    (h : fromCandidate c p = .ok b) :
    b.blockHash = b.computeHash ∧ b.transactionsRoot = computeTransactionsRoot b.transactions ∧
      b.transactions = c.transactions ∧ b.height = c.height := by
  unfold fromCandidate at h
  split at h
  · cases h
  split at h
  · cases h
  · cases h
    exact ⟨rfl, rfl, rfl, rfl⟩

theorem fromCandidate_prevHash {c : BlockCandidate} {p : StatePreview} {b : Block}
    (h : fromCandidate c p = .ok b) : b.prevHash = c.prevHash := by
  unfold fromCandidate at h
  split at h
  · cases h
  split at h
  · cases h
  · cases h
    rfl

variable {b b' : Block}

theorem Committed.sameHeader (hb : b.Committed) (hb' : b'.Committed)
    (hdigest : Set.InjOn Blake3.digest {bs | bs ∈ b.fed ∨ bs ∈ b'.fed})
    (hhash : b.blockHash = b'.blockHash) : b.SameHeader b' := by
  rw [hb.blockHash, hb'.blockHash] at hhash
  exact hashInput_inj
    (hdigest (Or.inl List.mem_cons_self) (Or.inr List.mem_cons_self) hhash)

/-- Blocks of one hash have transaction hashes that differ at most in repeats. -/
theorem Committed.repeats (hb : b.Committed) (hb' : b'.Committed) (hne : b.transactions ≠ [])
    (hne' : b'.transactions ≠ [])
    (hdigest : Set.InjOn Blake3.digest {bs | bs ∈ b.fed ∨ bs ∈ b'.fed})
    (hhash : b.blockHash = b'.blockHash) : MerkleTree.Repeats b.txHashes b'.txHashes := by
  have hheader := hb.sameHeader hb' hdigest hhash
  have hroot := hheader.transactionsRoot
  rw [hb.root, hb'.root] at hroot
  exact repeats_of_root_eq hdigest hne hne' hb.hashed hb'.hashed
    (fun bs hbs => Or.inl (List.mem_cons_of_mem _ hbs))
    (fun bs hbs => Or.inr (List.mem_cons_of_mem _ hbs)) hroot

/-- Of heartbeats and coinbases a valid block has one at most. -/
theorem Valid.standard_of_pair (hvalid : b.Valid) {tx tx' : Transaction}
    (hpair : [tx, tx'].Sublist b.transactions) (htype : tx.txType = tx'.txType) :
    tx.txType = .standard := by
  cases hcase : tx.txType with
  | standard => rfl
  | heartbeat =>
      have htwo : [tx, tx'].countP Transaction.isHeartbeat = 2 := by
        simp [Transaction.isHeartbeat, ← htype, hcase]
      have hle := hpair.countP_le (p := Transaction.isHeartbeat)
      have hone : b.expectedHeartbeats ≤ 1 := by
        unfold expectedHeartbeats
        split <;> omega
      have hheartbeats := hvalid.heartbeats
      omega
  | coinbase =>
      have htwo : [tx, tx'].countP Transaction.isCoinbase = 2 := by
        simp [Transaction.isCoinbase, ← htype, hcase]
      have hle := hpair.countP_le (p := Transaction.isCoinbase)
      have hcoinbases := hvalid.coinbases
      omega

/-- Two standard transactions of a valid block do not start with inputs of one nullifier. -/
theorem Valid.nullifier_ne_of_pair (hvalid : b.Valid) {tx tx' : Transaction}
    (hpair : [tx, tx'].Sublist b.transactions) (hstandard : tx.txType = .standard)
    (hstandard' : tx'.txType = .standard) {i i' : TxInput} {rest rest' : List TxInput}
    (hin : tx.inputs = i :: rest) (hin' : tx'.inputs = i' :: rest') :
    i.nullifier ≠ i'.nullifier := by
  have hnodup := (List.nodup_flatMap.1 hvalid.nullifiers_nodup).2.sublist hpair
  have hdisjoint := List.rel_of_pairwise_cons hnodup List.mem_cons_self
  simp only [Function.onFun, hstandard, hstandard', if_true, hin, hin', List.map_cons] at hdisjoint
  intro heq
  refine hdisjoint List.mem_cons_self ?_
  rw [heq]
  exact List.mem_cons_self

/-- A hash that occurs twice in a valid block belongs to a standard transaction without inputs:
heartbeats and coinbases occur once, and a repeated input would repeat its nullifier. -/
theorem Valid.exists_without_inputs (hvalid : b.Valid) (hb : b.Committed)
    (hdigest : Set.InjOn Blake3.digest {bs | bs ∈ b.fed}) {d : Hash}
    (hcount : 2 ≤ b.txHashes.count d) :
    ∃ tx ∈ b.transactions, tx.txHash = d ∧ tx.txType = .standard ∧ tx.inputs = [] := by
  -- the two occurrences, in the order of the block
  have hdup : [d, d].Sublist b.txHashes :=
    List.duplicate_iff_sublist.1 (List.duplicate_iff_two_le_count.2 hcount)
  rcases List.sublist_map_iff.1 hdup with ⟨pair, hpair, hmap⟩
  rcases List.map_eq_cons_iff.1 hmap.symm with ⟨tx, rest, rfl, htx, hrest⟩
  rcases List.map_eq_cons_iff.1 hrest with ⟨tx', rest', rfl, htx', hnil⟩
  cases List.map_eq_nil_iff.1 hnil
  have hmem : tx ∈ b.transactions := hpair.subset List.mem_cons_self
  have hmem' : tx' ∈ b.transactions := hpair.subset (List.mem_cons_of_mem _ List.mem_cons_self)
  have hinput : tx.hashInput = tx'.hashInput := by
    have hsame : tx.recomputeHash = tx'.recomputeHash := by
      rw [← hb.hashed tx hmem, ← hb.hashed tx' hmem', htx, htx']
    exact hdigest (hashInput_mem_fed hmem) (hashInput_mem_fed hmem') hsame
  have htype : tx.txType = tx'.txType := (Transaction.hashInput_front hinput).2.2.1
  have hstandard := hvalid.standard_of_pair hpair htype
  have hstandard' : tx'.txType = .standard := htype ▸ hstandard
  cases hin : tx.inputs with
  | nil => exact ⟨tx, hmem, htx, hstandard, hin⟩
  | cons i rest =>
      cases hin' : tx'.inputs with
      | nil => exact ⟨tx', hmem', htx', hstandard', hin'⟩
      | cons i' rest' =>
          have hnullifier := Transaction.nullifier_of_hashInput_eq hin hin' hinput
          exact (hvalid.nullifier_ne_of_pair hpair hstandard hstandard' hin hin' hnullifier).elim

/-! ## One hash, one list -/

/-- Two valid blocks of one hash have the same transaction hashes exactly when every standard
transaction without inputs occurs in both equally often. -/
theorem txHashes_eq_iff (h : b.validateInternal = .ok ()) (h' : b'.validateInternal = .ok ())
    (hashed : ∀ tx ∈ b.transactions, tx.txHash = tx.recomputeHash)
    (hashed' : ∀ tx ∈ b'.transactions, tx.txHash = tx.recomputeHash)
    (hhash : b.blockHash = b'.blockHash)
    (hdigest : Set.InjOn Blake3.digest {bs | bs ∈ b.fed ∨ bs ∈ b'.fed}) :
    b.txHashes = b'.txHashes ↔
      ∀ tx ∈ b.transactions ++ b'.transactions, tx.txType = .standard → tx.inputs = [] →
        b.txHashes.count tx.txHash = b'.txHashes.count tx.txHash := by
  have hvalid := validateInternal_eq_ok.1 h
  have hvalid' := validateInternal_eq_ok.1 h'
  have hb : b.Committed := ⟨hvalid.blockHash, hvalid.root, hashed⟩
  have hb' : b'.Committed := ⟨hvalid'.blockHash, hvalid'.root, hashed'⟩
  constructor
  · intro heq tx _ _ _
    rw [heq]
  · intro hcount
    by_contra hne
    have hrepeats := hb.repeats hb' hvalid.nonempty hvalid'.nonempty hdigest hhash
    rcases hrepeats.exists_count_ne hne with ⟨d, hd, hd', hdiff⟩
    have hpos := List.one_le_count_iff.2 hd
    have hpos' := List.one_le_count_iff.2 hd'
    -- the hash occurs in both, so it occurs twice in one of them
    by_cases htwo : 2 ≤ b.txHashes.count d
    · rcases hvalid.exists_without_inputs hb (hdigest.mono fun bs hbs => Or.inl hbs) htwo with
        ⟨tx, htx, rfl, hstandard, hinputs⟩
      exact hdiff (hcount tx (List.mem_append_left _ htx) hstandard hinputs)
    · have htwo' : 2 ≤ b'.txHashes.count d := by omega
      rcases hvalid'.exists_without_inputs hb' (hdigest.mono fun bs hbs => Or.inr hbs) htwo' with
        ⟨tx, htx, rfl, hstandard, hinputs⟩
      exact hdiff (hcount tx (List.mem_append_right _ htx) hstandard hinputs)

end Commitments

/-! ## Blocks to evaluate -/

section Sample

attribute [local instance] polyBlake3 unitTypes

/-- A heartbeat, a coinbase and the given transactions. -/
def sampleChainBlock (txs : List Transaction) : Block :=
  Block.new (ByteArr.fill 32 7) 1 10 20
    (Transaction.newHeartbeat [] 2 :: Transaction.newCoinbase [] 10 2 :: txs)
    (ByteArr.fill 32 8) 100

/-- A standard transaction with an input that is signed by the given bytes. -/
def sampleSigned (signature : List UInt8) : Transaction :=
  let i : TxInput :=
    { txHash := ByteArr.fill 32 1
      outputIndex := 0
      nullifier := ByteArr.fill 32 3
      signature := signature
      publicKey := sampleKey 1
      signedHash := Hash.zero
      nonce := 0 }
  (Transaction.newRaw 1 2 [i] [] 5 15 0).computeHash

/-- A standard transaction that only pays a fee. -/
def sampleFee : Transaction := (Transaction.newRaw 1 2 [] [] 5 15 0).computeHash

/-- The constructors of transactions end with `compute_hash`. -/
theorem sampleChainBlock_hashed {txs : List Transaction}
    (hashed : ∀ tx ∈ txs, tx.txHash = tx.recomputeHash) :
    ∀ tx ∈ (sampleChainBlock txs).transactions, tx.txHash = tx.recomputeHash :=
  List.forall_mem_cons.2 ⟨Transaction.txHash_computeHash _,
    List.forall_mem_cons.2 ⟨Transaction.txHash_computeHash _, hashed⟩⟩

theorem sampleSigned_hashed (signature : List UInt8) :
    ∀ tx ∈ [sampleSigned signature, sampleFee], tx.txHash = tx.recomputeHash :=
  List.forall_mem_cons.2 ⟨Transaction.txHash_computeHash _,
    List.forall_mem_singleton.2 (Transaction.txHash_computeHash _)⟩

theorem txHashes_eq_sample :
    (sampleChainBlock [sampleSigned [1], sampleFee]).txHashes =
      (sampleChainBlock [sampleSigned [2], sampleFee]).txHashes :=
  (txHashes_eq_iff (by decide +kernel) (by decide +kernel)
    (sampleChainBlock_hashed (sampleSigned_hashed [1]))
    (sampleChainBlock_hashed (sampleSigned_hashed [2])) (by decide +kernel)
    (injOn_or_of_nodup (by decide +kernel))).2
      (by decide +kernel)

/-- The padding of an odd level, spelled out as one more transaction. -/
theorem not_txHashes_eq :
    ¬ ∀ b b' : Block, b.validateInternal = .ok () → b'.validateInternal = .ok () →
      (∀ tx ∈ b.transactions, tx.txHash = tx.recomputeHash) →
      (∀ tx ∈ b'.transactions, tx.txHash = tx.recomputeHash) → b.blockHash = b'.blockHash →
      Set.InjOn Blake3.digest {bs | bs ∈ b.fed ∨ bs ∈ b'.fed} → b.txHashes = b'.txHashes := by
  intro h
  have hfee : sampleFee.txHash = sampleFee.recomputeHash := Transaction.txHash_computeHash _
  have heq := h (sampleChainBlock [sampleFee]) (sampleChainBlock [sampleFee, sampleFee])
    (by decide +kernel) (by decide +kernel) (sampleChainBlock_hashed (by simp [hfee]))
    (sampleChainBlock_hashed (by simp [hfee])) (by decide +kernel)
    (injOn_or_of_nodup (by decide +kernel))
  exact absurd heq (by decide +kernel)

end Sample

end Block

end Core
end Aevum
