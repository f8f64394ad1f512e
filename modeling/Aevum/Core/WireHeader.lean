import Aevum.Core.Wire

/-!
# Core.WireHeader — the header of a wire block and the header of the decoded block

`wire_decode` copies the header fields of a wire block, or compares them, with two exceptions: the
transactions root and the block size of the result are computed from the transactions.  The root on
the wire is not looked at, the size only has to be below the limit (`wireDecode_header`).
-/

namespace Aevum
namespace Core

open Lib Crypto

/-- The fields of a block other than its transactions. -/
structure BlockHeader where
  blockHash : Hash
  prevHash : Hash
  height : UInt64
  pohTickStart : UInt64
  pohTickEnd : UInt64
  transactionsRoot : Hash
  stateRoot : StateRoot
  totalSupply : UInt64
  isPresenceBlock : Bool
  blockSize : Nat
  settlementCheckpoint : Option SettlementCheckpoint
  deriving DecidableEq

section Headers

variable [WireTypes]

def Block.header (b : Block) : BlockHeader :=
  { blockHash := b.blockHash
    prevHash := b.prevHash
    height := b.height
    pohTickStart := b.pohTickStart
    pohTickEnd := b.pohTickEnd
    transactionsRoot := b.transactionsRoot
    stateRoot := b.stateRoot
    totalSupply := b.totalSupply
    isPresenceBlock := b.isPresenceBlock
    blockSize := b.blockSize
    settlementCheckpoint := b.settlementCheckpoint }

namespace BlockWire

def header (w : BlockWire) : BlockHeader :=
  { blockHash := w.blockHash
    prevHash := w.prevHash
    height := w.height
    pohTickStart := w.pohTickStart
    pohTickEnd := w.pohTickEnd
    transactionsRoot := w.transactionsRoot
    stateRoot := ⟨w.stateRoot⟩
    totalSupply := w.totalSupply
    isPresenceBlock := w.isPresenceBlock
    blockSize := w.blockSize
    settlementCheckpoint := w.settlementCheckpoint }

variable [Blake3] {w : BlockWire} {b : Block}

/-- `from_candidate` on what the wire block says. -/
theorem header_of_fromCandidate {txs : List Transaction}
    (h : Block.fromCandidate (w.candidate txs) w.preview = .ok b) :
    b.transactions = txs ∧
      b.header =
        { w.header with
          blockHash := b.blockHash
          transactionsRoot := computeTransactionsRoot txs
          blockSize := estimatedBlockSize txs.length } := by
  unfold Block.fromCandidate at h
  split at h
  · cases h
  split at h
  · cases h
  cases h
  exact ⟨rfl, rfl⟩

variable [PublicKeys]

/-- The decoded block has the header of the wire block but for the transactions root and the block
size, which come from the transactions; two wire blocks that decode to one block differ in these two
at most. -/
theorem wireDecode_header (h : w.wireDecode = .ok b) :
    b.header =
        { w.header with
          transactionsRoot := computeTransactionsRoot b.transactions
          blockSize := estimatedBlockSize b.transactions.length } ∧
      ∀ w' : BlockWire, w'.wireDecode = .ok b →
        w'.header =
          { w.header with
            transactionsRoot := w'.transactionsRoot
            blockSize := w'.blockSize } := by
  have hheader : ∀ {v : BlockWire}, v.wireDecode = .ok b →
      b.header =
        { v.header with
          transactionsRoot := computeTransactionsRoot b.transactions
          blockSize := estimatedBlockSize b.transactions.length } := by
    intro v hv
    rcases wireDecode_steps hv with ⟨txs, -, hblock, hhash⟩
    rcases header_of_fromCandidate hblock with ⟨rfl, hfields⟩
    -- the hash is the one field that is compared
    rw [hfields, hhash]
    rfl
  refine ⟨hheader h, fun w' h' => ?_⟩
  have hsame := (hheader h').symm.trans (hheader h)
  simp only [BlockHeader.mk.injEq] at hsame
  simp only [header, BlockHeader.mk.injEq]
  simp only [header] at hsame
  tauto

end BlockWire

end Headers

namespace BlockWire

section Sample

attribute [local instance] polyBlake3 anyKey bytesTypes

theorem wireDecode_header_sample :
    sampleBlock₁.header =
        { (sampleWire 1).header with
          transactionsRoot := computeTransactionsRoot sampleBlock₁.transactions
          blockSize := estimatedBlockSize sampleBlock₁.transactions.length } ∧
      ∀ w' : BlockWire, w'.wireDecode = .ok sampleBlock₁ →
        w'.header =
          { (sampleWire 1).header with
            transactionsRoot := w'.transactionsRoot
            blockSize := w'.blockSize } :=
  wireDecode_header (eq_ok_get (sampleWire_isSome 1 (by decide)))

/-- The sample block says that its transactions root is zero and its size `500`. -/
theorem not_wireDecode_header :
    (¬ ∀ (w : BlockWire) (b : Block), w.wireDecode = .ok b →
        b.transactionsRoot = w.transactionsRoot) ∧
      (¬ ∀ (w : BlockWire) (b : Block), w.wireDecode = .ok b → b.blockSize = w.blockSize) ∧
      ¬ ∀ (w w' : BlockWire) (b : Block), w.wireDecode = .ok b → w'.wireDecode = .ok b →
        w.header = w'.header := by
  have hok : (sampleWire 1).wireDecode = .ok sampleBlock₁ :=
    eq_ok_get (sampleWire_isSome 1 (by decide))
  refine ⟨fun h => ?_, fun h => ?_, fun h => ?_⟩
  · exact absurd (h _ _ hok) (by decide +kernel)
  · exact absurd (h _ _ hok) (by decide +kernel)
  · -- neither of the two fields is read
    have hok' : { sampleWire 1 with
        transactionsRoot := ByteArr.fill 32 1
        blockSize := 600 }.wireDecode = .ok sampleBlock₁ := hok
    exact absurd (h _ _ _ hok hok') (by decide +kernel)

end Sample

end BlockWire

end Core
end Aevum
