import Aevum.Core.Transaction
import Aevum.Lib.Codec

/-!
# Core.TransactionHash — what `recompute_hash` commits to

The preimage of a transaction hash holds the lists of a transaction behind their lengths, and of
an input or output it holds some of the fields:

* `TxInput.SameContent`, `TxOutput.SameContent`, `Transaction.SameContent` : agreement in the
  fields that are hashed;
* `hashInput_inj` : equal preimages mean the same content, as long as the lengths fit the `u32`
  that frames them;
* `preimage_unambiguous` : the same with the lengths of the lists;
* `nullifier_of_hashInput_eq` : without that proviso, what two equal preimages still share.
-/

namespace Aevum
namespace Core

open Lib Crypto

theorem TransactionType.toByte_inj {t t' : TransactionType} (h : t.toByte = t'.toByte) :
    t = t' := by
  cases t <;> cases t' <;> first | rfl | exact absurd h (by decide)

/-! ## Inputs and outputs -/

/-- Agreement in every field but `signature`. -/
structure TxInput.SameContent (i i' : TxInput) : Prop where
  txHash : i.txHash = i'.txHash
  outputIndex : i.outputIndex = i'.outputIndex
  nullifier : i.nullifier = i'.nullifier
  publicKey : i.publicKey = i'.publicKey
  signedHash : i.signedHash = i'.signedHash
  nonce : i.nonce = i'.nonce

theorem TxInput.delimited : Delimited Set.univ TxInput.hashInput TxInput.SameContent := by
  intro i _ i' _ xs ys h
  simp only [hashInput, List.append_assoc] at h
  rcases ByteArr.append_inj h with ⟨htx, h⟩
  rcases ByteArr.append_inj h with ⟨hindex, h⟩
  rcases ByteArr.append_inj h with ⟨hnullifier, h⟩
  rcases ByteArr.append_inj h with ⟨hkey, h⟩
  rcases ByteArr.append_inj h with ⟨hsigned, h⟩
  rcases ByteArr.append_inj h with ⟨hnonce, h⟩
  have hpublic : i.publicKey = i'.publicKey := congrArg PublicKey.mk hkey
  exact ⟨⟨htx, u32Bytes_inj hindex, hnullifier, hpublic, hsigned, u64Bytes_inj hnonce⟩, h⟩

section Outputs

variable [ForeignTypes]

/-- Agreement in the fields that are hashed; the proof, the view key, the encrypted amount, the
tag, the hash of the parent, the DNA and its range are not. -/
structure TxOutput.SameContent (o o' : TxOutput) : Prop where
  amount : o.amount = o'.amount
  owner : o.owner = o'.owner
  amountCommitment : o.amountCommitment = o'.amountCommitment
  tagCommitment : o.tagCommitment = o'.tagCommitment
  nullifier : o.nullifier = o'.nullifier
  serial : o.serial = o'.serial
  restrictionLevel : o.restrictionLevel = o'.restrictionLevel
  outputIndex : o.outputIndex = o'.outputIndex
  taintDistance : o.taintDistance = o'.taintDistance
  taintOrigin : o.taintOrigin = o'.taintOrigin
  taintTimestamp : o.taintTimestamp = o'.taintTimestamp

theorem TxOutput.delimited : Delimited Set.univ TxOutput.hashInput TxOutput.SameContent := by
  intro o _ o' _ xs ys h
  simp only [hashInput, List.append_assoc] at h
  rcases ByteArr.append_inj h with ⟨hamount, h⟩
  rcases ByteArr.append_inj h with ⟨howner, h⟩
  rcases ByteArr.append_inj h with ⟨hcommitment, h⟩
  rcases ByteArr.append_inj h with ⟨htag, h⟩
  rcases ByteArr.append_inj h with ⟨hnullifier, h⟩
  rcases ByteArr.append_inj h with ⟨hserial, h⟩
  rcases ByteArr.append_inj h with ⟨hlevel, h⟩
  rcases ByteArr.append_inj h with ⟨hindex, h⟩
  rcases ByteArr.append_inj h with ⟨hdistance, h⟩
  rcases ByteArr.append_inj h with ⟨horigin, h⟩
  rcases ByteArr.append_inj h with ⟨htimestamp, h⟩
  refine ⟨?_, h⟩
  exact
    { amount := u64Bytes_inj hamount
      owner := congrArg PublicKey.mk howner
      amountCommitment := hcommitment
      tagCommitment := htag
      nullifier := hnullifier
      serial := u64Bytes_inj hserial
      restrictionLevel := u64Bytes_inj hlevel
      outputIndex := u32Bytes_inj hindex
      taintDistance := u16Bytes_inj hdistance
      taintOrigin := u64Bytes_inj horigin
      taintTimestamp := u64Bytes_inj htimestamp }

end Outputs

/-! ## Transactions -/

namespace Transaction

variable [ForeignTypes] {tx tx' : Transaction}

/-- Agreement in everything that is hashed. -/
structure SameContent (tx tx' : Transaction) : Prop where
  version : tx.version = tx'.version
  chainId : tx.chainId = tx'.chainId
  txType : tx.txType = tx'.txType
  inputs : List.Forall₂ TxInput.SameContent tx.inputs tx'.inputs
  outputs : List.Forall₂ TxOutput.SameContent tx.outputs tx'.outputs
  fee : tx.fee = tx'.fee
  pohTick : tx.pohTick = tx'.pohTick
  locktime : tx.locktime = tx'.locktime
  heartbeatWitnesses : tx.heartbeatWitnesses = tx'.heartbeatWitnesses

/-- The lengths that `recompute_hash` casts to `u32` fit. -/
structure Short (tx : Transaction) : Prop where
  inputs : tx.inputs.length < 2 ^ 32
  outputs : tx.outputs.length < 2 ^ 32
  witnesses : tx.heartbeatWitnesses.length < 2 ^ 32
  witness : ∀ w ∈ tx.heartbeatWitnesses, w.length < 2 ^ 32

instance (tx : Transaction) : Decidable tx.Short :=
  decidable_of_iff (tx.inputs.length < 2 ^ 32 ∧ tx.outputs.length < 2 ^ 32 ∧
      tx.heartbeatWitnesses.length < 2 ^ 32 ∧ ∀ w ∈ tx.heartbeatWitnesses, w.length < 2 ^ 32)
    ⟨fun h => ⟨h.1, h.2.1, h.2.2.1, h.2.2.2⟩,
      fun h => ⟨h.inputs, h.outputs, h.witnesses, h.witness⟩⟩

/-- The preimage behind the inputs. -/
def hashTail (tx : Transaction) : List UInt8 :=
  (lenBytes tx.outputs.length).bytes ++ (tx.outputs.flatMap TxOutput.hashInput ++
    ((u64Bytes tx.fee).bytes ++ ((u64Bytes tx.pohTick).bytes ++ ((u64Bytes tx.locktime).bytes ++
      ((lenBytes tx.heartbeatWitnesses.length).bytes ++
        tx.heartbeatWitnesses.flatMap fun w => (lenBytes w.length).bytes ++ w)))))

theorem hashInput_eq (tx : Transaction) :
    tx.hashInput = ascii "AEVUM_TX_V4" ++ ((u32Bytes tx.chainId).bytes ++
      ((u32Bytes tx.version).bytes ++ ([tx.txType.toByte] ++
        ((lenBytes tx.inputs.length).bytes ++
          (tx.inputs.flatMap TxInput.hashInput ++ tx.hashTail))))) := by
  simp only [hashInput, hashTail, List.append_assoc]

/-- The part in front of the inputs has a fixed layout. -/
theorem hashInput_front (h : tx.hashInput = tx'.hashInput) :
    tx.chainId = tx'.chainId ∧ tx.version = tx'.version ∧ tx.txType = tx'.txType ∧
      (lenBytes tx.inputs.length).bytes ++
          (tx.inputs.flatMap TxInput.hashInput ++ tx.hashTail) =
        (lenBytes tx'.inputs.length).bytes ++
          (tx'.inputs.flatMap TxInput.hashInput ++ tx'.hashTail) := by
  rw [hashInput_eq, hashInput_eq] at h
  rcases ByteArr.append_inj (List.append_cancel_left h) with ⟨hchain, h⟩
  rcases ByteArr.append_inj h with ⟨hversion, h⟩
  rcases List.append_inj h rfl with ⟨htype, h⟩
  exact ⟨u32Bytes_inj hchain, u32Bytes_inj hversion,
    TransactionType.toByte_inj (List.cons.inj htype).1, h⟩

theorem hashInput_inj (hshort : tx.Short) (hshort' : tx'.Short)
    (h : tx.hashInput = tx'.hashInput) : tx.SameContent tx' := by
  rcases hashInput_front h with ⟨hchain, hversion, htype, h⟩
  rcases TxInput.delimited.counted hshort.inputs hshort'.inputs (fun _ _ => trivial)
    (fun _ _ => trivial) h with ⟨hinputs, h⟩
  simp only [hashTail] at h
  rcases TxOutput.delimited.counted hshort.outputs hshort'.outputs (fun _ _ => trivial)
    (fun _ _ => trivial) h with ⟨houtputs, h⟩
  rcases ByteArr.append_inj h with ⟨hfee, h⟩
  rcases ByteArr.append_inj h with ⟨hpoh, h⟩
  rcases ByteArr.append_inj h with ⟨hlock, h⟩
  -- nothing follows the witnesses
  rw [← List.append_nil (tx.heartbeatWitnesses.flatMap _),
    ← List.append_nil (tx'.heartbeatWitnesses.flatMap _)] at h
  rcases delimited_lenPrefixed.counted hshort.witnesses hshort'.witnesses hshort.witness
    hshort'.witness h with ⟨hwitnesses, -⟩
  exact
    { version := hversion
      chainId := hchain
      txType := htype
      inputs := hinputs
      outputs := houtputs
      fee := u64Bytes_inj hfee
      pohTick := u64Bytes_inj hpoh
      locktime := u64Bytes_inj hlock
      heartbeatWitnesses := List.forall₂_eq_eq_eq ▸ hwitnesses }

theorem SameContent.lengths (h : tx.SameContent tx') :
    tx.inputs.length = tx'.inputs.length ∧ tx.outputs.length = tx'.outputs.length ∧
      tx.heartbeatWitnesses.length = tx'.heartbeatWitnesses.length :=
  ⟨h.inputs.length_eq, h.outputs.length_eq, congrArg List.length h.heartbeatWitnesses⟩

/-- What is fed to the hasher can be read back. -/
theorem preimage_unambiguous (tx tx' : Transaction) (hshort : tx.Short) (hshort' : tx'.Short)
    (h : tx.hashInput = tx'.hashInput) :
    tx.SameContent tx' ∧ tx.inputs.length = tx'.inputs.length ∧
      tx.outputs.length = tx'.outputs.length ∧
      tx.heartbeatWitnesses.length = tx'.heartbeatWitnesses.length := by
  have hcontent := hashInput_inj hshort hshort' h
  exact ⟨hcontent, hcontent.lengths⟩

/-- The first inputs stand at one place, whatever the lengths are. -/
theorem nullifier_of_hashInput_eq {i i' : TxInput} {rest rest' : List TxInput}
    (hinputs : tx.inputs = i :: rest) (hinputs' : tx'.inputs = i' :: rest')
    (h : tx.hashInput = tx'.hashInput) : i.nullifier = i'.nullifier := by
  rcases hashInput_front h with ⟨-, -, -, h⟩
  rcases ByteArr.append_inj h with ⟨-, h⟩
  rw [hinputs, hinputs', List.flatMap_cons, List.flatMap_cons, List.append_assoc,
    List.append_assoc] at h
  exact (TxInput.delimited i trivial i' trivial _ _ h).1.nullifier

end Transaction

section Sample

attribute [local instance] unitTypes

/-- A transaction with one input, which bears the signature, and one output. -/
def sampleOneInput (signature : List UInt8) : Transaction :=
  Transaction.newRaw 1 chainIdMainnet
    [{ txHash := Hash.zero
       outputIndex := 3
       nullifier := ByteArr.fill 32 7
       signature := signature
       publicKey := ⟨ByteArr.fill 32 1⟩
       signedHash := ByteArr.fill 32 9
       nonce := 4 }]
    [{ amount := 50
       owner := ⟨ByteArr.fill 32 2⟩
       amountCommitment := ByteArr.fill 32 0
       tagCommitment := ByteArr.fill 32 0
       nullifier := ByteArr.fill 32 8
       serial := 5
       zkProof := ForeignTypes.emptyProof
       txHash := Hash.zero
       viewKeyPublic := ByteArr.fill 32 0
       encryptedAmount := ByteArr.fill 8 0
       authTag := ByteArr.fill 8 0
       restrictionLevel := 0x1000
       outputIndex := 0
       taintDistance := 1
       taintOrigin := 2
       taintTimestamp := 3
       dna := ForeignTypes.defaultDna
       dnaRangeId := none }] 10 1 0

/-- The signature of an input is not hashed. -/
theorem preimage_unambiguous_sample :
    (sampleOneInput [1]).SameContent (sampleOneInput []) ∧
      (sampleOneInput [1]).inputs.length = (sampleOneInput []).inputs.length ∧
      (sampleOneInput [1]).outputs.length = (sampleOneInput []).outputs.length ∧
      (sampleOneInput [1]).heartbeatWitnesses.length =
        (sampleOneInput []).heartbeatWitnesses.length :=
  Transaction.preimage_unambiguous (sampleOneInput [1]) (sampleOneInput []) (by decide)
    (by decide) (by decide +kernel)

end Sample

end Core
end Aevum
