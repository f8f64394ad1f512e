import Aevum.Crypto

/-!
# Core.Transaction — `transaction.rs`

Transactions of the base layer and their canonical hash.

The types `ZkProof` and `TokenDNA` come from modules that are not part of the repository; they are
the two components of `ForeignTypes`, each with the one value this file asks them for.
-/

namespace Aevum
namespace Core

open Lib Crypto

/-- `jt_utxo::ZkProof` and `dna::TokenDNA`. -/
class ForeignTypes where
  ZkProof : Type
  emptyProof : ZkProof
  TokenDNA : Type
  defaultDna : TokenDNA

/-- `AmountCommitment([u8; 32])`. -/
abbrev AmountCommitment := ByteArr 32

/-- `TagCommitment([u8; 32])`. -/
abbrev TagCommitment := ByteArr 32

def chainIdMainnet : UInt32 := 2

def coinbaseRestrictionLevel : UInt64 := 0x2000

/-! ## Data -/

inductive TransactionType
  | standard
  | coinbase
  | heartbeat
  deriving DecidableEq

/-- The discriminant, `tx_type as u8`. -/
def TransactionType.toByte : TransactionType → UInt8
  | .standard => 0
  | .coinbase => 1
  | .heartbeat => 2

structure TxInput where
  txHash : Hash
  outputIndex : UInt32
  nullifier : Hash
  signature : List UInt8
  publicKey : PublicKey
  signedHash : Hash
  nonce : UInt64
  deriving DecidableEq

structure TxOutput [ForeignTypes] where
  amount : UInt64
  owner : PublicKey
  amountCommitment : AmountCommitment
  tagCommitment : TagCommitment
  nullifier : Hash
  serial : UInt64
  zkProof : ForeignTypes.ZkProof
  txHash : Hash
  viewKeyPublic : ByteArr 32
  encryptedAmount : ByteArr 8
  authTag : ByteArr 8
  restrictionLevel : UInt64
  outputIndex : UInt32
  taintDistance : UInt16
  taintOrigin : UInt64
  taintTimestamp : UInt64
  dna : ForeignTypes.TokenDNA
  dnaRangeId : Option Hash

structure Transaction [ForeignTypes] where
  version : UInt32
  chainId : UInt32
  txType : TransactionType
  inputs : List TxInput
  outputs : List TxOutput
  fee : UInt64
  txHash : Hash
  pohTick : UInt64
  locktime : UInt64
  heartbeatWitnesses : List (List UInt8)

/-! ## Hashes -/

namespace TxInput

/-- The fields of an input that `recompute_hash` feeds to the hasher. -/
def hashInput (i : TxInput) : List UInt8 :=
  i.txHash.bytes ++ (u32Bytes i.outputIndex).bytes ++ i.nullifier.bytes ++
    i.publicKey.toBytes.bytes ++ i.signedHash.bytes ++ (u64Bytes i.nonce).bytes

end TxInput

variable [ForeignTypes]

namespace TxOutput

/-- The fields of an output that `recompute_hash` feeds to the hasher. -/
def hashInput (o : TxOutput) : List UInt8 :=
  (u64Bytes o.amount).bytes ++ o.owner.toBytes.bytes ++ o.amountCommitment.bytes ++
    o.tagCommitment.bytes ++ o.nullifier.bytes ++ (u64Bytes o.serial).bytes ++
    (u64Bytes o.restrictionLevel).bytes ++ (u32Bytes o.outputIndex).bytes ++
    (u16Bytes o.taintDistance).bytes ++ (u64Bytes o.taintOrigin).bytes ++
    (u64Bytes o.taintTimestamp).bytes

/-- `TxOutput::new_coinbase`. -/
def newCoinbase [Blake3] (owner : PublicKey) (amount serial : UInt64) (outputIndex : UInt32) :
    TxOutput :=
  { amount := amount
    owner := owner
    amountCommitment := ByteArr.fill 32 0
    tagCommitment := ByteArr.fill 32 0
    nullifier := Blake3.digest (ascii "AEVUM_COINBASE_NULLIFIER_V1" ++ owner.toBytes.bytes ++
      (u64Bytes serial).bytes)
    serial := serial
    zkProof := ForeignTypes.emptyProof
    txHash := Hash.zero
    viewKeyPublic := ByteArr.fill 32 0
    encryptedAmount := ByteArr.fill 8 0
    authTag := ByteArr.fill 8 0
    restrictionLevel := coinbaseRestrictionLevel
    outputIndex := outputIndex
    taintDistance := 0
    taintOrigin := 0x2000
    taintTimestamp := 0
    dna := ForeignTypes.defaultDna
    dnaRangeId := none }

end TxOutput

namespace Transaction

/-- The bytes `recompute_hash` feeds to the hasher. -/
def hashInput (tx : Transaction) : List UInt8 :=
  ascii "AEVUM_TX_V4" ++ (u32Bytes tx.chainId).bytes ++ (u32Bytes tx.version).bytes ++
    [tx.txType.toByte] ++
    (lenBytes tx.inputs.length).bytes ++ tx.inputs.flatMap TxInput.hashInput ++
    (lenBytes tx.outputs.length).bytes ++ tx.outputs.flatMap TxOutput.hashInput ++
    (u64Bytes tx.fee).bytes ++ (u64Bytes tx.pohTick).bytes ++ (u64Bytes tx.locktime).bytes ++
    (lenBytes tx.heartbeatWitnesses.length).bytes ++
    tx.heartbeatWitnesses.flatMap fun w => (lenBytes w.length).bytes ++ w

def recomputeHash [Blake3] (tx : Transaction) : Hash :=
  Blake3.digest tx.hashInput

/-- `compute_hash(&mut self)`. -/
def computeHash [Blake3] (tx : Transaction) : Transaction :=
  { tx with txHash := tx.recomputeHash }

/-- The hash is not one of the fields that are hashed. -/
theorem txHash_computeHash [Blake3] (tx : Transaction) :
    tx.computeHash.txHash = tx.computeHash.recomputeHash := rfl

def isCoinbase (tx : Transaction) : Bool := tx.txType = .coinbase

def isHeartbeat (tx : Transaction) : Bool := tx.txType = .heartbeat

/-! ## Constructors -/

def newRaw (version chainId : UInt32) (inputs : List TxInput) (outputs : List TxOutput)
    (fee pohTick locktime : UInt64) : Transaction :=
  { version := version
    chainId := chainId
    txType := .standard
    inputs := inputs
    outputs := outputs
    fee := fee
    txHash := Hash.zero
    pohTick := pohTick
    locktime := locktime
    heartbeatWitnesses := [] }

def new [Blake3] (inputs : List TxInput) (outputs : List TxOutput) (fee : UInt64) : Transaction :=
  (newRaw 1 chainIdMainnet inputs outputs fee 0 0).computeHash

def newHeartbeat [Blake3] (witnesses : List (List UInt8)) (chainId : UInt32) : Transaction :=
  computeHash
    { version := 1
      chainId := chainId
      txType := .heartbeat
      inputs := []
      outputs := []
      fee := 0
      txHash := Hash.zero
      pohTick := 0
      locktime := 0
      heartbeatWitnesses := witnesses }

def newCoinbase [Blake3] (outputs : List TxOutput) (pohTick : UInt64) (chainId : UInt32) :
    Transaction :=
  computeHash
    { version := 1
      chainId := chainId
      txType := .coinbase
      inputs := []
      outputs := outputs
      fee := 0
      txHash := Hash.zero
      pohTick := pohTick
      locktime := 0
      heartbeatWitnesses := [] }

end Transaction

/-! ## Types to run the model with -/

@[reducible] def unitTypes : ForeignTypes :=
  { ZkProof := Unit
    emptyProof := ()
    TokenDNA := Unit
    defaultDna := () }

end Core
end Aevum
