import Aevum.Crypto

/-!
# L2.Transaction — `l2_transaction.rs`

The L2 transaction with its canonical hash, its validity check and the split of its fee, and the
output record `L2Utxo`.

`L2Transaction::from` and `to` are called `fromKey` and `toKey` here.
-/

namespace Aevum
namespace L2

open Lib Crypto

/-! ## Transactions -/

def founderShareBps : Nat := 1000

def txDomainHash : List UInt8 := ascii "AEVUM_L2_TX_V4_DOMAIN"

def sigDomain : List UInt8 := ascii "AEVUM_L2_TX_V4_SIG"

structure L2Transaction where
  version : UInt16
  fromKey : PublicKey
  toKey : PublicKey
  amount : UInt64
  fee : UInt64
  nonce : UInt64
  txHash : Hash
  signature : Signature
  timestamp : UInt64
  taintDistance : UInt16
  taintOrigin : UInt64
  taintTimestamp : UInt64
  restrictionLevel : UInt64
  bindingSalt : UInt64
  deriving DecidableEq

namespace L2Transaction

/-- The bytes `compute_hash` feeds to the hasher. -/
def hashInput (tx : L2Transaction) : List UInt8 :=
  txDomainHash ++ (u16Bytes tx.version).bytes ++ tx.fromKey.toBytes.bytes ++
    tx.toKey.toBytes.bytes ++ (u64Bytes tx.amount).bytes ++ (u64Bytes tx.fee).bytes ++
    (u64Bytes tx.nonce).bytes ++ (u64Bytes tx.timestamp).bytes ++
    (u16Bytes tx.taintDistance).bytes ++ (u64Bytes tx.taintOrigin).bytes ++
    (u64Bytes tx.taintTimestamp).bytes ++ (u64Bytes tx.restrictionLevel).bytes ++
    (u64Bytes tx.bindingSalt).bytes

def computeHash [Blake3] (tx : L2Transaction) : Hash :=
  Blake3.digest tx.hashInput

def verifySignature [Signatures] (tx : L2Transaction) : Bool :=
  Signatures.verify tx.fromKey (sigDomain ++ tx.txHash.bytes) tx.signature

def isValid [Blake3] [Signatures] (tx : L2Transaction) : Bool :=
  if tx.amount = 0 then
    false
  else if tx.computeHash ≠ tx.txHash then
    false
  else
    tx.verifySignature

/-- `L2Transaction::new_unsigned`. -/
def newUnsigned [Blake3] (version : UInt16) (fromKey toKey : PublicKey)
    (amount fee nonce : UInt64) (dna : UInt16 × UInt64 × UInt64 × UInt64)
    (timestamp bindingSalt : UInt64) : L2Transaction :=
  let tx : L2Transaction :=
    { version := version
      fromKey := fromKey
      toKey := toKey
      amount := amount
      fee := fee
      nonce := nonce
      txHash := Hash.zero
      signature := ByteArr.fill 64 0
      timestamp := timestamp
      taintDistance := dna.1
      taintOrigin := dna.2.1
      taintTimestamp := dna.2.2.1
      restrictionLevel := dna.2.2.2
      bindingSalt := bindingSalt }
  { tx with txHash := tx.computeHash }

/-- `L2Transaction::sign`; only the hash is signed. -/
def sign [Signatures] [Signers] (tx : L2Transaction) (keypair : Keypair) : L2Transaction :=
  { tx with signature := Signers.sign keypair.privateKey (sigDomain ++ tx.txHash.bytes) }

/-! ## Fees -/

/-- `founder_cut` multiplies in `u128`, where a 64-bit fee times the share cannot saturate. -/
def founderCut (fee : UInt64) : UInt64 :=
  UInt64.ofNat (min (fee.toNat * founderShareBps) (2 ^ 128 - 1) / 10000)

def communityCut (fee : UInt64) : UInt64 :=
  fee.satSub (founderCut fee)

theorem toNat_founderCut (fee : UInt64) : (founderCut fee).toNat = fee.toNat / 10 := by
  have hfee := fee.toNat_lt
  simp only [founderCut, founderShareBps, UInt64.toNat_ofNat']
  omega

/-- The two cuts of a fee add up to the fee. -/
theorem founderCut_add_communityCut (fee : UInt64) :
    (founderCut fee).toNat + (communityCut fee).toNat = fee.toNat := by
  rw [communityCut, UInt64.toNat_satSub, toNat_founderCut]
  omega

end L2Transaction

/-! ## Outputs -/

structure L2Utxo where
  owner : PublicKey
  amount : UInt64
  txHash : Hash
  outputIndex : UInt32
  taintDistance : UInt16
  taintOrigin : UInt64
  taintTimestamp : UInt64
  restrictionLevel : UInt64
  spent : Bool
  deriving DecidableEq

/-- `L2Utxo::new`. -/
def L2Utxo.new (owner : PublicKey) (amount : UInt64) (txHash : Hash) (outputIndex : UInt32)
    (dna : UInt16 × UInt64 × UInt64 × UInt64) : L2Utxo :=
  { owner := owner
    amount := amount
    txHash := txHash
    outputIndex := outputIndex
    taintDistance := dna.1
    taintOrigin := dna.2.1
    taintTimestamp := dna.2.2.1
    restrictionLevel := dna.2.2.2
    spent := false }

end L2
end Aevum
