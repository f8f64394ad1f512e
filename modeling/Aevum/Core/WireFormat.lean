import Aevum.Core.Wire
import Aevum.Core.WireZeroCopy

/-!
# Core.WireFormat — the bytes of a wire block and its zero-copy view

`BlockWire` derives its serialization; under the default configuration of bincode integers have a
fixed width, least significant byte first, arrays have no prefix, sequences start with their length
in eight bytes, and options with a tag.  The bytes of a `TokenDNA`, which is not part of the
repository, are a parameter.

`BlockView::parse` expects the fields where bincode puts them, but under another version number:
it reads the header of a wire block if and only if the block says that its version is `5`, and
`wire_decode` accepts version `9` only (`not_readsHeader_of_wireDecode`).
-/

namespace Aevum
namespace Core

open Lib Crypto

/-! ## Bincode -/

def boolBytes (b : Bool) : List UInt8 := [if b then 1 else 0]

def seqBytes {α : Type} (enc : α → List UInt8) (l : List α) : List UInt8 :=
  (sizeBytes l.length).bytes ++ l.flatMap enc

def taggedBytes {α : Type} (enc : α → List UInt8) : Option α → List UInt8
  | none => [0]
  | some a => 1 :: enc a

def SettlementCheckpoint.bincode (s : SettlementCheckpoint) : List UInt8 :=
  (u64Bytes s.epochId).bytes ++ (u64Bytes s.cursor).bytes ++
    (u64Bytes s.totalParticipants).bytes ++ s.participantsCommitment.bytes

def TxInputWire.bincode (i : TxInputWire) : List UInt8 :=
  i.txHash.bytes ++ (u32Bytes i.outputIndex).bytes ++ i.nullifier.bytes ++
    seqBytes (fun b => [b]) i.signature ++ i.publicKey.bytes ++ i.signedHash.bytes ++
    (u64Bytes i.nonce).bytes

section Bytes

variable [ForeignTypes] (dnaBytes : ForeignTypes.TokenDNA → List UInt8)

def TxOutputWire.bincode (o : TxOutputWire) : List UInt8 :=
  (u64Bytes o.amount).bytes ++ o.owner.bytes ++ o.amountCommitment.bytes ++
    o.tagCommitment.bytes ++ o.nullifier.bytes ++ (u64Bytes o.serial).bytes ++
    seqBytes (fun b => [b]) o.zkProof ++ o.txHash.bytes ++ o.viewKeyPublic.bytes ++
    o.encryptedAmount.bytes ++ o.authTag.bytes ++ (u64Bytes o.restrictionLevel).bytes ++
    (u32Bytes o.outputIndex).bytes ++ (u16Bytes o.taintDistance).bytes ++
    (u64Bytes o.taintOrigin).bytes ++ (u64Bytes o.taintTimestamp).bytes ++ dnaBytes o.dna

def TxWire.bincode (t : TxWire) : List UInt8 :=
  (u32Bytes t.version).bytes ++ (u32Bytes t.chainId).bytes ++ [t.txType] ++
    seqBytes TxInputWire.bincode t.inputs.items ++
    seqBytes (TxOutputWire.bincode dnaBytes) t.outputs.items ++
    (u64Bytes t.fee).bytes ++ (u64Bytes t.pohTick).bytes ++ (u64Bytes t.locktime).bytes ++
    seqBytes (seqBytes fun b => [b]) t.heartbeatWitnesses.items

namespace BlockWire

def bincode (w : BlockWire) : List UInt8 :=
  (u16Bytes w.wireVersion).bytes ++ w.blockHash.bytes ++ w.prevHash.bytes ++
    (u64Bytes w.height).bytes ++ (u64Bytes w.pohTickStart).bytes ++
    (u64Bytes w.pohTickEnd).bytes ++ w.transactionsRoot.bytes ++
    seqBytes (TxWire.bincode dnaBytes) w.transactions.items ++ w.stateRoot.bytes ++
    (u64Bytes w.totalSupply).bytes ++ boolBytes w.isPresenceBlock ++
    (sizeBytes w.blockSize).bytes ++
    taggedBytes SettlementCheckpoint.bincode w.settlementCheckpoint

/-! ## The zero-copy view -/

/-- `BlockView::parse` of the bytes of `w` is a view with the header fields of `w`. -/
def ReadsHeader (w : BlockWire) : Prop :=
  ∃ v, BlockView.parse (w.bincode dnaBytes) = some v ∧
    v.height = w.height ∧ v.pohStart = w.pohTickStart ∧ v.pohEnd = w.pohTickEnd ∧
    v.prevHash = w.prevHash ∧ v.blockHash = w.blockHash ∧
    v.txCount.toNat = w.transactions.items.length

/-- The view that shows the header of `w`. -/
def view (w : BlockWire) : BlockView :=
  { height := w.height
    pohStart := w.pohTickStart
    pohEnd := w.pohTickEnd
    prevHash := w.prevHash
    blockHash := w.blockHash
    txCount := UInt32.ofNat w.transactions.items.length
    raw := w.bincode dnaBytes }

variable {dnaBytes} {w : BlockWire}

theorem parse_bincode_eq_none (h : w.wireVersion ≠ expectedWireVersion) :
    BlockView.parse (w.bincode dnaBytes) = none := by
  simp only [bincode, List.append_assoc]
  exact BlockView.parse_eq_none h _

/-- Under the expected version, bincode and `BlockView::parse` agree about the header. -/
theorem bincode_eq (dnaBytes : ForeignTypes.TokenDNA → List UInt8)
    (h : w.wireVersion = expectedWireVersion) :
    ∃ rest, w.bincode dnaBytes =
      (w.view dnaBytes).headerBytes w.transactionsRoot w.transactions.items.length ++ rest := by
  -- the rest is whatever stands behind the low half of the number of transactions
  apply Exists.intro
  simp only [bincode, seqBytes, sizeBytes_eq, BlockView.headerBytes, view, h, List.append_assoc]
  rfl

/-- The view reads the header of a block of its version.  It takes the low half of the number of
transactions for the number, so this one must fit. -/
theorem readsHeader_iff (hlen : w.transactions.items.length < 2 ^ 32) :
    w.ReadsHeader dnaBytes ↔ w.wireVersion = expectedWireVersion := by
  constructor
  · rintro ⟨v, hv, -⟩
    by_contra hversion
    rw [parse_bincode_eq_none hversion] at hv
    cases hv
  · intro hversion
    rcases bincode_eq dnaBytes hversion with ⟨rest, hbytes⟩
    have hdecodes := BlockView.decodes_reader (w.bincode dnaBytes) (v := w.view dnaBytes)
      w.transactionsRoot hlen rfl rfl
    rcases hdecodes.new rest with ⟨c', hc⟩
    rw [← hbytes] at hc
    refine ⟨w.view dnaBytes, congrArg Prod.fst hc, rfl, rfl, rfl, rfl, rfl, ?_⟩
    exact UInt32.toNat_ofNat_of_lt' hlen

end BlockWire

end Bytes

/-! ## Accepted blocks -/

namespace BlockWire

section Accepted

variable [WireTypes] [PublicKeys] [Blake3]

theorem wireDecode_version {w : BlockWire} {b : Block} (h : w.wireDecode = .ok b) :
    w.wireVersion = Core.wireVersion := by
  rw [wireDecode, failIf_bind_eq_ok] at h
  exact not_not.1 h.1

/-- The view of the bytes of a block that `wire_decode` accepts does not show the block.  The
version alone is in the way: the view shows every wire block of version `5`, and no other one. -/
theorem not_readsHeader_of_wireDecode (dnaBytes : ForeignTypes.TokenDNA → List UInt8)
    {w : BlockWire} {b : Block} (h : w.wireDecode = .ok b) :
    ¬ w.ReadsHeader dnaBytes ∧
      ∀ w' : BlockWire, w'.transactions.items.length < 2 ^ 32 →
        (w'.ReadsHeader dnaBytes ↔ w'.wireVersion = expectedWireVersion) := by
  refine ⟨?_, fun w' hlen => readsHeader_iff hlen⟩
  rintro ⟨v, hv, -⟩
  have hversion : w.wireVersion ≠ expectedWireVersion := by
    rw [wireDecode_version h]
    decide
  rw [parse_bincode_eq_none hversion] at hv
  cases hv

end Accepted

section Sample

attribute [local instance] polyBlake3 anyKey bytesTypes

/-- The DNA of the samples is a number. -/
def sampleDnaBytes (d : UInt64) : List UInt8 := (u64Bytes d).bytes

/-- A block of version `9`, and the same one under version `5`. -/
theorem not_readsHeader_of_wireDecode_sample :
    ¬ (sampleWire 1).ReadsHeader sampleDnaBytes ∧
      { sampleWire 1 with wireVersion := 5 }.ReadsHeader sampleDnaBytes := by
  rcases not_readsHeader_of_wireDecode sampleDnaBytes
    (eq_ok_get (sampleWire_isSome 1 (by decide))) with ⟨hnot, hreads⟩
  exact ⟨hnot, (hreads _ (by decide)).2 rfl⟩

/-- A block of version `9` is decoded, and its bytes have no view. -/
theorem not_readsHeader :
    ¬ ∀ (w : BlockWire) (b : Block), w.wireDecode = .ok b → w.ReadsHeader sampleDnaBytes := by
  intro h
  rcases h (sampleWire 1) _ (eq_ok_get (sampleWire_isSome 1 (by decide))) with ⟨v, hv, -⟩
  have hnone : BlockView.parse ((sampleWire 1).bincode sampleDnaBytes) = none := by decide +kernel
  rw [hnone] at hv
  cases hv

end Sample

end BlockWire

end Core
end Aevum
