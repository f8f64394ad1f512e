import Aevum.Core.Transaction
import Aevum.Lib.Checks
import Aevum.Lib.Lists
import Mathlib.Data.List.Destutter
import Mathlib.Data.Set.Function

/-!
# Core.Presence — `presence.rs`

Presence records: what a node has seen, signed and chained to the records of others.

The hash of a record is computed from its header, the hashes of its transactions and the hashes of
its parents, the two lists one after the other without their lengths.  So records with one hash
agree in everything but the place where the first list ends (`sameContent_iff_of_hashInput_eq`).
-/

namespace Aevum
namespace Core

open Lib Crypto

def maxTransactionsPerRecord : Nat := 10000

def maxParentRecords : Nat := 64

def maxRecordFutureDriftSecs : UInt64 := 30

/-! ## Data -/

inductive PresenceRecordType
  | presenceHeartbeat
  | transactionBatch
  | stateUpdate
  deriving DecidableEq

def PresenceRecordType.asByte : PresenceRecordType → UInt8
  | .presenceHeartbeat => 0
  | .transactionBatch => 1
  | .stateUpdate => 2

theorem PresenceRecordType.asByte_inj {t t' : PresenceRecordType} (h : t.asByte = t'.asByte) :
    t = t' := by
  cases t <;> cases t' <;> first | rfl | cases h

structure PresenceRecord [ForeignTypes] where
  version : UInt32
  chainId : UInt32
  epochId : UInt64
  epochAnchorHash : Hash
  sequence : UInt64
  nodeId : ByteArr 32
  recordType : PresenceRecordType
  timestamp : UInt64
  transactions : List Transaction
  parentRecords : List Hash
  recordHash : Hash
  signature : Signature

/-- Lists as `sort` and `dedup` leave them. -/
def Canonical (hashes : List Hash) : Prop :=
  hashes.Pairwise (· ≤ ·) ∧ hashes.Nodup

instance (hashes : List Hash) : Decidable (Canonical hashes) :=
  inferInstanceAs (Decidable (_ ∧ _))

/-- `parent_records.sort(); parent_records.dedup();`. -/
def canonicalize (hashes : List Hash) : List Hash :=
  (sortBy id hashes).destutter (· ≠ ·)

theorem canonical_canonicalize (hashes : List Hash) : Canonical (canonicalize hashes) := by
  have hsorted : (canonicalize hashes).Pairwise (· ≤ ·) :=
    (pairwise_sortBy id hashes).sublist (List.destutter_sublist _ _)
  exact ⟨hsorted, nodup_of_isChain_ne hsorted (List.isChain_destutter _ _)⟩

namespace PresenceRecord

section Records

variable [ForeignTypes]

def firstInEpoch (version chainId : UInt32) (epochId : UInt64) (epochAnchorHash : Hash)
    (nodeId : ByteArr 32) (recordType : PresenceRecordType) (timestamp : UInt64)
    (transactions : List Transaction) : PresenceRecord :=
  { version := version
    chainId := chainId
    epochId := epochId
    epochAnchorHash := epochAnchorHash
    sequence := 0
    nodeId := nodeId
    recordType := recordType
    timestamp := timestamp
    transactions := transactions
    parentRecords := [epochAnchorHash]
    recordHash := Hash.zero
    signature := ByteArr.fill 64 0 }

def withParents (version chainId : UInt32) (epochId : UInt64) (epochAnchorHash : Hash)
    (sequence : UInt64) (nodeId : ByteArr 32) (recordType : PresenceRecordType)
    (timestamp : UInt64) (transactions : List Transaction) (parentRecords : List Hash) :
    PresenceRecord :=
  { version := version
    chainId := chainId
    epochId := epochId
    epochAnchorHash := epochAnchorHash
    sequence := sequence
    nodeId := nodeId
    recordType := recordType
    timestamp := timestamp
    transactions := transactions
    parentRecords := canonicalize parentRecords
    recordHash := Hash.zero
    signature := ByteArr.fill 64 0 }

/-! ## Hashing and checks -/

/-- The bytes `compute_hash` feeds to the hasher. -/
def hashInput (r : PresenceRecord) : List UInt8 :=
  ascii "AEVUM_PRESENCE_RECORD_V2" ++ (u32Bytes r.version).bytes ++ (u32Bytes r.chainId).bytes ++
    (u64Bytes r.epochId).bytes ++ r.epochAnchorHash.bytes ++ (u64Bytes r.sequence).bytes ++
    r.nodeId.bytes ++ [r.recordType.asByte] ++ (u64Bytes r.timestamp).bytes ++
    r.transactions.flatMap (fun tx => tx.txHash.bytes) ++
    r.parentRecords.flatMap (fun parent => parent.bytes)

def computeHash [Blake3] (r : PresenceRecord) : Hash := Blake3.digest r.hashInput

def finalize [Blake3] (r : PresenceRecord) (currentTime : UInt64) :
    Except String PresenceRecord := do
  failIf (r.transactions.length > maxTransactionsPerRecord) "too many transactions"
  failIf (r.parentRecords.isEmpty) "parent_records cannot be empty"
  failIf (r.parentRecords.length > maxParentRecords) "too many parent records"
  failIf (r.timestamp > currentTime.satAdd maxRecordFutureDriftSecs) "timestamp too far in future"
  let r := { r with parentRecords := canonicalize r.parentRecords }
  return { r with recordHash := r.computeHash }

def verifyHashIntegrity [Blake3] (r : PresenceRecord) : Bool :=
  r.recordHash == r.computeHash

def verifySignature [Signatures] (r : PresenceRecord) (pubkey : PublicKey) : Bool :=
  Signatures.verify pubkey r.recordHash.bytes r.signature

def verify [Blake3] [Signatures] (r : PresenceRecord) (pubkey : PublicKey) : Bool :=
  r.verifyHashIntegrity && r.verifySignature pubkey

/-! ## What a hash determines -/

/-- The hashes of the transactions of a record. -/
def txHashes (r : PresenceRecord) : List Hash :=
  r.transactions.map (·.txHash)

/-- Agreement in everything that a record says. -/
structure SameContent (r r' : PresenceRecord) : Prop where
  version : r.version = r'.version
  chainId : r.chainId = r'.chainId
  epochId : r.epochId = r'.epochId
  epochAnchorHash : r.epochAnchorHash = r'.epochAnchorHash
  sequence : r.sequence = r'.sequence
  nodeId : r.nodeId = r'.nodeId
  recordType : r.recordType = r'.recordType
  timestamp : r.timestamp = r'.timestamp
  txHashes : r.txHashes = r'.txHashes
  parentRecords : r.parentRecords = r'.parentRecords

variable {r r' : PresenceRecord}

theorem flatMap_hashes (r : PresenceRecord) :
    r.transactions.flatMap (fun tx => tx.txHash.bytes) ++
        r.parentRecords.flatMap (fun parent => parent.bytes) =
      (r.txHashes ++ r.parentRecords).flatMap ByteArr.bytes := by
  rw [txHashes, List.flatMap_append, List.flatMap_map]

/-- The hashed bytes determine the header and the two lists of hashes together, but not the place
where the first one ends. -/
theorem sameContent_iff_of_hashInput_eq (h : r.hashInput = r'.hashInput) :
    SameContent r r' ↔ r.transactions.length = r'.transactions.length := by
  simp only [hashInput, List.append_assoc, flatMap_hashes] at h
  rcases ByteArr.append_inj (List.append_cancel_left h) with ⟨hversion, h⟩
  rcases ByteArr.append_inj h with ⟨hchain, h⟩
  rcases ByteArr.append_inj h with ⟨hepoch, h⟩
  rcases ByteArr.append_inj h with ⟨hanchor, h⟩
  rcases ByteArr.append_inj h with ⟨hsequence, h⟩
  rcases ByteArr.append_inj h with ⟨hnode, h⟩
  rcases List.append_inj h rfl with ⟨htype, h⟩
  rcases ByteArr.append_inj h with ⟨htimestamp, h⟩
  -- all hashes have 32 bytes, so what remains is one list of hashes
  have hhashes := ByteArr.flatMap_bytes_inj (by decide) h
  constructor
  · intro hsame
    simpa [txHashes] using congrArg List.length hsame.txHashes
  · intro hlength
    -- the length of its first part tells where the parents begin
    rcases List.append_inj hhashes (by simpa [txHashes] using hlength) with ⟨htxs, hparents⟩
    exact
      { version := u32Bytes_inj hversion
        chainId := u32Bytes_inj hchain
        epochId := u64Bytes_inj hepoch
        epochAnchorHash := hanchor
        sequence := u64Bytes_inj hsequence
        nodeId := hnode
        recordType := PresenceRecordType.asByte_inj (List.cons.inj htype).1
        timestamp := u64Bytes_inj htimestamp
        txHashes := htxs
        parentRecords := hparents }

variable [Blake3] [Signatures]

/-- Verified records with one hash have the same content exactly when they have equally many
transactions. -/
theorem sameContent_iff {pubkey : PublicKey} (hverify : r.verify pubkey)
    (hverify' : r'.verify pubkey) (hhash : r.recordHash = r'.recordHash)
    (hdigest : Set.InjOn Blake3.digest {r.hashInput, r'.hashInput}) :
    SameContent r r' ↔ r.transactions.length = r'.transactions.length := by
  have hintegrity : ∀ {r : PresenceRecord}, r.verify pubkey → r.recordHash = r.computeHash := by
    intro r hr
    exact beq_iff_eq.1 (Bool.and_eq_true_iff.1 hr).1
  refine sameContent_iff_of_hashInput_eq (hdigest (by simp) (by simp) ?_)
  calc
    r.computeHash = r.recordHash := (hintegrity hverify).symm
    _ = r'.recordHash := hhash
    _ = r'.computeHash := hintegrity hverify'

end Records

/-! ## Two readings of one hash -/

section Sample

attribute [local instance] polyBlake3 anySignature unitTypes

/-- A batch of transactions with its hash. -/
def sampleRecord (transactions : List Transaction) (parentRecords : List Hash) : PresenceRecord :=
  let r := withParents 2 1 7 Hash.zero 3 (ByteArr.fill 32 9) .transactionBatch 1000 transactions
    parentRecords
  { r with recordHash := r.computeHash }

def sampleTx (b : UInt8) : Transaction :=
  Transaction.newHeartbeat [[b]] chainIdMainnet

/-- Two transactions and one parent. -/
def twoTransactions : PresenceRecord :=
  sampleRecord [sampleTx 1, sampleTx 2] [ByteArr.fill 32 255]

/-- The same hashes, with the second transaction read as a parent. -/
def twoParents : PresenceRecord :=
  sampleRecord [sampleTx 1] [(sampleTx 2).txHash, ByteArr.fill 32 255]

theorem sameContent_iff_sample :
    SameContent twoTransactions { twoTransactions with signature := ByteArr.fill 64 1 } ↔
      twoTransactions.transactions.length = twoTransactions.transactions.length := by
  have hverify : twoTransactions.verify (sampleKey 1) := by decide +kernel
  have hinj : Set.InjOn Blake3.digest {twoTransactions.hashInput, twoTransactions.hashInput} := by
    rw [Set.pair_eq_singleton]
    exact Set.injOn_singleton _ _
  exact sameContent_iff hverify hverify rfl hinj

/-- One hash and one signature stand for two different records. -/
theorem twoReadings :
    ∃ pubkey, twoTransactions.verify pubkey ∧ twoParents.verify pubkey ∧
      Canonical twoTransactions.parentRecords ∧ Canonical twoParents.parentRecords ∧
      twoTransactions.recordHash = twoParents.recordHash ∧
      Set.InjOn Blake3.digest {twoTransactions.hashInput, twoParents.hashInput} ∧
      ¬ SameContent twoTransactions twoParents := by
  have hinput : twoTransactions.hashInput = twoParents.hashInput := by decide +kernel
  refine ⟨sampleKey 1, by decide +kernel, by decide +kernel, by decide +kernel, by decide +kernel,
    by decide +kernel, ?_, fun hsame => ?_⟩
  · rw [hinput, Set.pair_eq_singleton]
    exact Set.injOn_singleton _ _
  · have hlength := congrArg List.length hsame.parentRecords
    revert hlength
    decide +kernel

end Sample

end PresenceRecord
end Core
end Aevum
