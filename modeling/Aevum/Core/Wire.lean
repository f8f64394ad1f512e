import Aevum.Core.BlockCommitment
import Aevum.Lib.Checks

/-!
# Core.Wire — `wire.rs`

The network form of a block and `wire_decode`, which builds a `Block` from it by way of
`Block::from_candidate` and compares the hash.

* `wireDecode_committed` : a decoded block carries the hashes of its own contents;
* `wireDecode_content` : so two decoded blocks of one hash agree, at every place both have, in the
  fields that `recompute_hash` hashes.

The fields of an output that `recompute_hash` leaves out can be altered on the way; see
`not_wireDecode_same`.
-/

namespace Aevum
namespace Core

open Lib Crypto

/-- What the decoder asks of types from other modules, beside `ForeignTypes`. -/
class WireTypes extends ForeignTypes where
  /-- `ZkProof { scheme: ProofScheme::Halo2, version: 1, data }`. -/
  halo2Proof : List UInt8 → ZkProof
  /-- The `Debug` form of a `Hash`. -/
  debugHash : Hash → String

def wireVersion : UInt16 := 9

def maxTxInputs : Nat := 1024

def maxTxOutputs : Nat := 1024

def maxWitnesses : Nat := 32

def maxWireBlockSize : Nat := 16 * 1024 * 1024

def maxTxsPerBlock : Nat := 100000

/-! ## Data -/

/-- The bound is checked when a vector is deserialized; the field itself is public. -/
structure BoundedVec (T : Type) (max : Nat) where
  items : List T

structure TxInputWire where
  txHash : ByteArr 32
  outputIndex : UInt32
  nullifier : ByteArr 32
  signature : List UInt8
  publicKey : ByteArr 32
  signedHash : ByteArr 32
  nonce : UInt64

structure TxOutputWire [ForeignTypes] where
  amount : UInt64
  owner : ByteArr 32
  amountCommitment : ByteArr 32
  tagCommitment : ByteArr 32
  nullifier : ByteArr 32
  serial : UInt64
  zkProof : List UInt8
  txHash : ByteArr 32
  viewKeyPublic : ByteArr 32
  encryptedAmount : ByteArr 8
  authTag : ByteArr 8
  restrictionLevel : UInt64
  outputIndex : UInt32
  taintDistance : UInt16
  taintOrigin : UInt64
  taintTimestamp : UInt64
  dna : ForeignTypes.TokenDNA

structure TxWire [ForeignTypes] where
  version : UInt32
  chainId : UInt32
  txType : UInt8
  inputs : BoundedVec TxInputWire maxTxInputs
  outputs : BoundedVec TxOutputWire maxTxOutputs
  fee : UInt64
  pohTick : UInt64
  locktime : UInt64
  heartbeatWitnesses : BoundedVec (List UInt8) maxWitnesses

structure BlockWire [ForeignTypes] where
  wireVersion : UInt16
  blockHash : ByteArr 32
  prevHash : ByteArr 32
  height : UInt64
  pohTickStart : UInt64
  pohTickEnd : UInt64
  transactionsRoot : ByteArr 32
  transactions : BoundedVec TxWire maxTxsPerBlock
  stateRoot : ByteArr 32
  totalSupply : UInt64
  isPresenceBlock : Bool
  blockSize : Nat
  settlementCheckpoint : Option SettlementCheckpoint

inductive WireError
  | versionMismatch
  | blockTooLarge
  | txTooLarge
  | tooManyTx
  | tooManyInputs
  | tooManyOutputs
  | invalidTxType
  | deserialization (reason : String)
  deriving DecidableEq

/-! ## Decoding -/

section Decoding

variable [WireTypes]

/-- `BlockError::to_string`, which is the derived `Debug` form. -/
def BlockError.toText : BlockError → String
  | .zeroStateRoot height => "ZeroStateRoot \x7b height: " ++ toString height ++ " \x7d"
  | .zeroSupply height supply =>
      "ZeroSupply \x7b height: " ++ toString height ++ ", supply: " ++ toString supply ++ " \x7d"
  | .invalidBlockHash expected actual =>
      "InvalidBlockHash \x7b expected: " ++ WireTypes.debugHash expected ++ ", actual: " ++
        WireTypes.debugHash actual ++ " \x7d"
  | .tooLarge size max =>
      "TooLarge \x7b size: " ++ toString size ++ ", max: " ++ toString max ++ " \x7d"
  | .tooManyTransactions count max =>
      "TooManyTransactions \x7b count: " ++ toString count ++ ", max: " ++ toString max ++ " \x7d"
  | .invalidPoHTicks start stop =>
      "InvalidPoHTicks \x7b start: " ++ toString start ++ ", end: " ++ toString stop ++ " \x7d"
  | .invalidTransactionsRoot expected actual =>
      "InvalidTransactionsRoot \x7b expected: " ++ WireTypes.debugHash expected ++ ", actual: " ++
        WireTypes.debugHash actual ++ " \x7d"
  | .consensus reason => "Consensus(" ++ reason.quote ++ ")"

variable [PublicKeys]

/-- `PublicKey::from_bytes(bytes).map_err(|_| WireError::Deserialization(reason))`. -/
def decodeKey (bytes : ByteArr 32) (reason : String) : Except WireError PublicKey :=
  match PublicKeys.fromBytes bytes with
  | some key => .ok key
  | none => .error (.deserialization reason)

def TxInputWire.wireDecode (w : TxInputWire) : Except WireError TxInput := do
  let publicKey ← decodeKey w.publicKey "invalid input pubkey"
  .ok
    { txHash := w.txHash
      outputIndex := w.outputIndex
      nullifier := w.nullifier
      signature := w.signature
      publicKey := publicKey
      signedHash := w.signedHash
      nonce := w.nonce }

def TxOutputWire.wireDecode (w : TxOutputWire) : Except WireError TxOutput := do
  let owner ← decodeKey w.owner "invalid output owner"
  .ok
    { amount := w.amount
      owner := owner
      amountCommitment := w.amountCommitment
      tagCommitment := w.tagCommitment
      nullifier := w.nullifier
      serial := w.serial
      zkProof := WireTypes.halo2Proof w.zkProof
      txHash := w.txHash
      viewKeyPublic := w.viewKeyPublic
      encryptedAmount := w.encryptedAmount
      authTag := w.authTag
      restrictionLevel := w.restrictionLevel
      outputIndex := w.outputIndex
      taintDistance := w.taintDistance
      taintOrigin := w.taintOrigin
      taintTimestamp := w.taintTimestamp
      dna := w.dna
      dnaRangeId := none }

/-- `match self.tx_type`. -/
def decodeTxType (t : UInt8) : Except WireError TransactionType :=
  if t = 0 then .ok .standard
  else if t = 1 then .ok .coinbase
  else if t = 2 then .ok .heartbeat
  else .error .invalidTxType

variable [Blake3]

def TxWire.wireDecode (w : TxWire) : Except WireError Transaction := do
  let txType ← decodeTxType w.txType
  let inputs ← w.inputs.items.mapM TxInputWire.wireDecode
  let outputs ← w.outputs.items.mapM TxOutputWire.wireDecode
  let tx : Transaction :=
    { version := w.version
      chainId := w.chainId
      txType := txType
      inputs := inputs
      outputs := outputs
      fee := w.fee
      txHash := Hash.zero
      pohTick := w.pohTick
      locktime := w.locktime
      heartbeatWitnesses := w.heartbeatWitnesses.items }
  .ok { tx with txHash := tx.recomputeHash }

def BlockWire.candidate (w : BlockWire) (txs : List Transaction) : BlockCandidate :=
  { prevHash := w.prevHash
    height := w.height
    pohTickStart := w.pohTickStart
    pohTickEnd := w.pohTickEnd
    transactions := txs
    isPresenceBlock := w.isPresenceBlock
    settlementCheckpoint := w.settlementCheckpoint }

def BlockWire.preview (w : BlockWire) : StatePreview :=
  { stateRoot := ⟨w.stateRoot⟩
    newTotalSupply := w.totalSupply }

def BlockWire.wireDecode (w : BlockWire) : Except WireError Block := do
  failIf (w.wireVersion ≠ Core.wireVersion) .versionMismatch
  failIf (w.blockSize > maxWireBlockSize) .blockTooLarge
  let txs ← w.transactions.items.mapM TxWire.wireDecode
  match Block.fromCandidate (w.candidate txs) w.preview with
  | .error e => .error (.deserialization e.toText)
  | .ok block => do
      failIf (block.blockHash ≠ w.blockHash) (.deserialization "block hash mismatch")
      .ok block

/-! ## Decoded blocks -/

theorem TxWire.wireDecode_ok {w : TxWire} {tx : Transaction} (h : w.wireDecode = .ok tx) :
    tx.txHash = tx.recomputeHash ∧ ∀ o ∈ tx.outputs, o.dnaRangeId = none := by
  rcases bind_eq_ok.1 h with ⟨txType, -, h⟩
  rcases bind_eq_ok.1 h with ⟨inputs, -, h⟩
  rcases bind_eq_ok.1 h with ⟨outputs, houtputs, hok⟩
  cases hok
  refine ⟨rfl, fun o ho => ?_⟩
  rcases exists_of_mapM_eq_ok houtputs o ho with ⟨wo, -, hwo⟩
  rcases bind_eq_ok.1 hwo with ⟨owner, -, hok⟩
  cases hok
  rfl

namespace BlockWire

variable {w w' : BlockWire} {b b' : Block}

/-- The steps of a successful decoding. -/
theorem wireDecode_steps (h : w.wireDecode = .ok b) :
    ∃ txs, w.transactions.items.mapM TxWire.wireDecode = .ok txs ∧
      Block.fromCandidate (w.candidate txs) w.preview = .ok b ∧
        b.blockHash = w.blockHash := by
  rw [wireDecode, failIf_bind_eq_ok, failIf_bind_eq_ok] at h
  rcases bind_eq_ok.1 h.2.2 with ⟨txs, htxs, h⟩
  cases hblock : Block.fromCandidate (w.candidate txs) w.preview with
  | error e =>
      rw [hblock] at h
      cases h
  | ok block =>
      rw [hblock] at h
      rcases failIf_bind_eq_ok.1 h with ⟨hhash, hok⟩
      cases hok
      exact ⟨txs, htxs, hblock, not_not.1 hhash⟩

theorem wireDecode_committed (h : w.wireDecode = .ok b) : b.Committed := by
  rcases wireDecode_steps h with ⟨txs, htxs, hblock, -⟩
  rcases Block.fromCandidate_ok hblock with ⟨hhash, hroot, htransactions, -⟩
  refine ⟨hhash, hroot, fun tx htx => ?_⟩
  rw [htransactions] at htx
  rcases exists_of_mapM_eq_ok htxs tx htx with ⟨wtx, -, hwtx⟩
  exact (TxWire.wireDecode_ok hwtx).1

theorem wireDecode_dnaRangeId (h : w.wireDecode = .ok b) {tx : Transaction}
    (htx : tx ∈ b.transactions) : ∀ o ∈ tx.outputs, o.dnaRangeId = none := by
  rcases wireDecode_steps h with ⟨txs, htxs, hblock, -⟩
  rw [(Block.fromCandidate_ok hblock).2.2.1] at htx
  rcases exists_of_mapM_eq_ok htxs tx htx with ⟨wtx, -, hwtx⟩
  exact (TxWire.wireDecode_ok hwtx).2

/-- Agreement of two decoded transactions: everything that is hashed, the hash itself, and the
range ids of the outputs, which are not on the wire. -/
structure SameDecoded (tx tx' : Transaction) : Prop extends tx.SameContent tx' where
  txHash : tx.txHash = tx'.txHash
  dnaRangeId : tx.outputs.map (·.dnaRangeId) = tx'.outputs.map (·.dnaRangeId)

/-- Decoded blocks of one hash agree wherever both have a transaction. -/
theorem wireDecode_content (h : w.wireDecode = .ok b) (h' : w'.wireDecode = .ok b')
    (hhash : w.blockHash = w'.blockHash)
    (hdigest : Set.InjOn Blake3.digest {bs | bs ∈ b.fed ∨ bs ∈ b'.fed}) {i : Nat}
    {tx tx' : Transaction} (hi : b.transactions[i]? = some tx)
    (hi' : b'.transactions[i]? = some tx') (hshort : tx.Short) (hshort' : tx'.Short) :
    SameDecoded tx tx' := by
  have hb := wireDecode_committed h
  have hb' := wireDecode_committed h'
  have hmem := List.mem_of_getElem? hi
  have hmem' := List.mem_of_getElem? hi'
  have hblock : b.blockHash = b'.blockHash := by
    rcases wireDecode_steps h with ⟨-, -, -, heq⟩
    rcases wireDecode_steps h' with ⟨-, -, -, heq'⟩
    rw [heq, heq', hhash]
  -- block hash, Merkle root, transaction hash: one after the other
  have hrepeats := hb.repeats hb' (List.ne_nil_of_mem hmem) (List.ne_nil_of_mem hmem') hdigest
    hblock
  have htx : tx.txHash = tx'.txHash := by
    have hget : b.txHashes[i]? = some tx.txHash := by simp [Block.txHashes, hi]
    have hget' : b'.txHashes[i]? = some tx'.txHash := by simp [Block.txHashes, hi']
    exact hrepeats.getElem_eq hget hget'
  have hinput : tx.hashInput = tx'.hashInput := by
    have hsame : tx.recomputeHash = tx'.recomputeHash := by
      rw [← hb.hashed tx hmem, ← hb'.hashed tx' hmem', htx]
    exact hdigest (Or.inl (Block.hashInput_mem_fed hmem)) (Or.inr (Block.hashInput_mem_fed hmem'))
      hsame
  have hcontent := Transaction.hashInput_inj hshort hshort' hinput
  refine ⟨hcontent, htx, ?_⟩
  rw [List.map_eq_replicate_iff.2 (wireDecode_dnaRangeId h hmem),
    List.map_eq_replicate_iff.2 (wireDecode_dnaRangeId h' hmem'), hcontent.outputs.length_eq]

end BlockWire

/-- A transaction without the signatures of its inputs. -/
def Transaction.eraseSignatures (tx : Transaction) : Transaction :=
  { tx with inputs := tx.inputs.map fun i => { i with signature := [] } }

end Decoding

/-! ## Wire blocks to evaluate -/

/-- Proofs are byte strings and DNA is a number. -/
@[reducible] def bytesTypes : WireTypes :=
  { ZkProof := List UInt8
    emptyProof := []
    TokenDNA := UInt64
    defaultDna := 0
    halo2Proof := fun data => data
    debugHash := fun _ => "" }

namespace BlockWire

section Sample

attribute [local instance] polyBlake3 anyKey bytesTypes

/-- An output; `tag` stands in the fields that are not hashed. -/
def sampleOutput (tag : UInt8) : TxOutputWire :=
  { amount := 5
    owner := ByteArr.fill 32 1
    amountCommitment := ByteArr.fill 32 2
    tagCommitment := ByteArr.fill 32 3
    nullifier := ByteArr.fill 32 4
    serial := 6
    zkProof := [tag]
    txHash := ByteArr.fill 32 tag
    viewKeyPublic := ByteArr.fill 32 tag
    encryptedAmount := ByteArr.fill 8 tag
    authTag := ByteArr.fill 8 tag
    restrictionLevel := 0
    outputIndex := 0
    taintDistance := 1
    taintOrigin := 2
    taintTimestamp := 3
    dna := tag.toUInt64 }

/-- A block with one transaction, without its hash. -/
def sampleUnsealed (tag : UInt8) : BlockWire :=
  { wireVersion := 9
    blockHash := Hash.zero
    prevHash := ByteArr.fill 32 7
    height := 1
    pohTickStart := 10
    pohTickEnd := 20
    transactionsRoot := Hash.zero
    transactions := ⟨[{
      version := 1
      chainId := 2
      txType := 0
      inputs := ⟨[]⟩
      outputs := ⟨[sampleOutput tag]⟩
      fee := 5
      pohTick := 15
      locktime := 0
      heartbeatWitnesses := ⟨[]⟩ }]⟩
    stateRoot := ByteArr.fill 32 8
    totalSupply := 100
    isPresenceBlock := true
    blockSize := 500
    settlementCheckpoint := none }

/-- The same block with the hash that the decoder computes. -/
def sampleWire (tag : UInt8) : BlockWire :=
  let w := sampleUnsealed tag
  let computed : Except WireError Hash := do
    let txs ← w.transactions.items.mapM TxWire.wireDecode
    match Block.fromCandidate (w.candidate txs) w.preview with
    | .error e => .error (.deserialization e.toText)
    | .ok block => .ok block.blockHash
  { w with blockHash := computed.toOption.getD Hash.zero }

theorem sampleWire_isSome (tag : UInt8) (h : tag = 1 ∨ tag = 2) :
    (sampleWire tag).wireDecode.toOption.isSome := by
  rcases h with rfl | rfl <;> decide +kernel

def sampleBlock₁ : Block :=
  (sampleWire 1).wireDecode.toOption.get (sampleWire_isSome 1 (by decide))

def sampleBlock₂ : Block :=
  (sampleWire 2).wireDecode.toOption.get (sampleWire_isSome 2 (by decide))

/-- The bytes hashed in the two blocks have different digests. -/
theorem sampleBlocks_injOn :
    Set.InjOn Blake3.digest {bs | bs ∈ sampleBlock₁.fed ∨ bs ∈ sampleBlock₂.fed} :=
  injOn_or_of_nodup (by decide +kernel)

theorem wireDecode_content_sample :
    SameDecoded (sampleBlock₁.transactions.get ⟨0, by decide +kernel⟩)
      (sampleBlock₂.transactions.get ⟨0, by decide +kernel⟩) :=
  wireDecode_content (eq_ok_get (sampleWire_isSome 1 (by decide)))
    (eq_ok_get (sampleWire_isSome 2 (by decide))) (by decide +kernel) sampleBlocks_injOn
    (List.getElem?_eq_getElem _) (List.getElem?_eq_getElem _) (by decide +kernel)
    (by decide +kernel)

/-- A relay replaces the proof, the view key, the encrypted amount, the tag, the parent hash and
the DNA of an output; the block hash stays, and the decoder accepts both. -/
theorem not_wireDecode_same :
    ¬ ∀ (w w' : BlockWire) (b b' : Block), w.wireDecode = .ok b → w'.wireDecode = .ok b' →
      w.blockHash = w'.blockHash → Set.InjOn Blake3.digest {bs | bs ∈ b.fed ∨ bs ∈ b'.fed} →
      b.transactions.map Transaction.eraseSignatures =
        b'.transactions.map Transaction.eraseSignatures := by
  intro h
  have hsame := h (sampleWire 1) (sampleWire 2) sampleBlock₁ sampleBlock₂
    (eq_ok_get (sampleWire_isSome 1 (by decide))) (eq_ok_get (sampleWire_isSome 2 (by decide)))
    (by decide +kernel) sampleBlocks_injOn
  have htags := congrArg (fun txs => txs.map fun tx => tx.outputs.map (·.authTag)) hsame
  exact absurd htags (by decide +kernel)

end Sample

end BlockWire

end Core
end Aevum
