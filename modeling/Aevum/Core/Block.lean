import Aevum.Core.StateRoot
import Aevum.Core.Transaction

/-!
# Core.Block — `block.rs`

Blocks, their hash and the two-phase constructor.  The types `StateRoot` and `StatePreview` of the
source file stand in `Core.StateRoot`, which does not depend on blocks.
-/

namespace Aevum
namespace Core

open Lib Crypto

/-! ## Data -/

structure SettlementCheckpoint where
  epochId : UInt64
  cursor : UInt64
  totalParticipants : UInt64
  participantsCommitment : ByteArr 32
  deriving DecidableEq

structure BlockCandidate [ForeignTypes] where
  prevHash : Hash
  height : UInt64
  pohTickStart : UInt64
  pohTickEnd : UInt64
  transactions : List Transaction
  isPresenceBlock : Bool
  settlementCheckpoint : Option SettlementCheckpoint

inductive BlockError
  | zeroStateRoot (height : UInt64)
  | zeroSupply (height supply : UInt64)
  | invalidBlockHash (expected actual : Hash)
  | tooLarge (size max : Nat)
  | tooManyTransactions (count max : Nat)
  | invalidPoHTicks (start stop : UInt64)
  | invalidTransactionsRoot (expected actual : Hash)
  | consensus (reason : String)
  deriving DecidableEq

structure Block [ForeignTypes] where
  prevHash : Hash
  height : UInt64
  pohTickStart : UInt64
  pohTickEnd : UInt64
  transactionsRoot : Hash
  transactions : List Transaction
  stateRoot : StateRoot
  totalSupply : UInt64
  blockHash : Hash
  blockSize : Nat
  isPresenceBlock : Bool
  settlementCheckpoint : Option SettlementCheckpoint

/-! ## Hashes -/

section Hashes

variable [Blake3] [ForeignTypes]

def hashTransactionNode (a b : Hash) : Hash :=
  Blake3.digest (ascii "AEVUM_MERKLE_V15" ++ a.bytes ++ b.bytes)

def computeTransactionsRoot (txs : List Transaction) : Hash :=
  if h : txs = [] then
    Hash.zero
  else
    MerkleTree.root hashTransactionNode (txs.map (·.txHash)) (mt List.map_eq_nil_iff.1 h)

/-- The fields of a checkpoint that `compute_hash` feeds to the hasher. -/
def SettlementCheckpoint.hashInput (cp : SettlementCheckpoint) : List UInt8 :=
  (u64Bytes cp.epochId).bytes ++ (u64Bytes cp.cursor).bytes ++
    (u64Bytes cp.totalParticipants).bytes ++ cp.participantsCommitment.bytes

/-- The field `block_size` of a block with `count` transactions. -/
def estimatedBlockSize (count : Nat) : Nat :=
  usizeSatAdd 256 (usizeSatMul count 512)

end Hashes

namespace Block

variable [ForeignTypes]

/-- The bytes `compute_hash` feeds to the hasher. -/
def hashInput (b : Block) : List UInt8 :=
  ascii "AEVUM_BLOCK" ++ (u64Bytes b.height).bytes ++ b.prevHash.bytes ++
    (u64Bytes b.pohTickStart).bytes ++ (u64Bytes b.pohTickEnd).bytes ++
    b.transactionsRoot.bytes ++ b.stateRoot.hash.bytes ++ (u64Bytes b.totalSupply).bytes ++
    [if b.isPresenceBlock then 1 else 0] ++
    match b.settlementCheckpoint with
    | some cp => cp.hashInput
    | none => []

variable [Blake3]

def computeHash (b : Block) : Hash := Blake3.digest b.hashInput

def fromCandidate (candidate : BlockCandidate) (preview : StatePreview) :
    Except BlockError Block :=
  if preview.stateRoot = ⟨Hash.zero⟩ ∧ candidate.height > 0 then
    .error (.zeroStateRoot candidate.height)
  else if preview.newTotalSupply = 0 ∧ candidate.height > 0 then
    .error (.zeroSupply candidate.height preview.newTotalSupply)
  else
    let block : Block :=
      { prevHash := candidate.prevHash
        height := candidate.height
        pohTickStart := candidate.pohTickStart
        pohTickEnd := candidate.pohTickEnd
        transactionsRoot := computeTransactionsRoot candidate.transactions
        transactions := candidate.transactions
        stateRoot := preview.stateRoot
        totalSupply := preview.newTotalSupply
        blockHash := Hash.zero
        blockSize := estimatedBlockSize candidate.transactions.length
        isPresenceBlock := candidate.isPresenceBlock
        settlementCheckpoint := candidate.settlementCheckpoint }
    .ok { block with blockHash := block.computeHash }

def new (prevHash : Hash) (height pohStart pohEnd : UInt64) (transactions : List Transaction)
    (stateRoot : Hash) (totalSupply : UInt64) : Block :=
  let block : Block :=
    { prevHash := prevHash
      height := height
      pohTickStart := pohStart
      pohTickEnd := pohEnd
      transactionsRoot := computeTransactionsRoot transactions
      transactions := transactions
      stateRoot := ⟨stateRoot⟩
      totalSupply := totalSupply
      blockHash := Hash.zero
      blockSize := estimatedBlockSize transactions.length
      isPresenceBlock := true
      settlementCheckpoint := none }
  { block with blockHash := block.computeHash }

def isGenesis (b : Block) : Bool := b.height = 0 ∧ b.prevHash = Hash.zero

end Block

end Core
end Aevum
