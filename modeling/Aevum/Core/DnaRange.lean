import Aevum.Crypto

/-!
# Core.DnaRange — `dna_range.rs`

Ranges of satoshis with their provenance.  A range is split at a point into two children or bridged
to the second layer, and each time its id and its proof are computed anew.

The integer arithmetic wraps, as in a build without overflow checks.  On supply ranges nothing
overflows: this is `toNat_amount` for amounts and `transferCount_succ` for transfer counters.
`end_` is the field `end`.

* `Minted r` : the id and the proof of `r` are the ones computed from its data;
* `split_eq_ok`, `split_ne_violation` : a split succeeds exactly at the points above `start` and up
  to `end_`, and its last check never fails;
* `interval_of_idInput_eq` : the bytes an id is computed from determine the interval.
-/

namespace Aevum
namespace Core

open Lib Crypto

def satoshisPerAev : UInt64 := 100000000

def genesisSupply : UInt64 := 21000000 * satoshisPerAev

def maxSupply : UInt64 := 371000000 * satoshisPerAev

/-! ## Data -/

inductive DnaOrigin
  | genesis
  | epochMining (epoch : UInt64) (eventId : Hash)
  | epochRemainder (epoch : UInt64) (eventId : Hash)
  deriving DecidableEq

def DnaOrigin.bytes : DnaOrigin → List UInt8
  | .genesis => [0]
  | .epochMining epoch eventId => 1 :: ((u64Bytes epoch).bytes ++ eventId.bytes)
  | .epochRemainder epoch eventId => 2 :: ((u64Bytes epoch).bytes ++ eventId.bytes)

inductive DnaLayer
  | l1
  | l2
  deriving DecidableEq

structure DnaRange where
  rangeId : Hash
  rootId : Hash
  origin : DnaOrigin
  start : UInt64
  end_ : UInt64
  layer : DnaLayer
  birthEpoch : UInt64
  birthHeight : UInt64
  birthTimestamp : UInt64
  miner : ByteArr 32
  parentRangeId : Option Hash
  bridgeTx : Option Hash
  creationTx : Option Hash
  owner : ByteArr 32
  transferCount : UInt32
  lastTransferBlock : UInt64
  proof : Hash
  deriving DecidableEq

namespace DnaRange

/-- `if let Some(h) = o { h.update(..) }`. -/
def optionBytes : Option Hash → List UInt8
  | none => []
  | some h => h.bytes

/-- The bytes `id` feeds to the hasher. -/
def idInput (r : DnaRange) : List UInt8 :=
  ascii "AEVUM_DNA_RANGE_V4" ++ ascii "ID" ++ r.rootId.bytes ++ optionBytes r.parentRangeId ++
    (u64Bytes r.start).bytes ++ (u64Bytes r.end_).bytes

/-- The bytes `hash` feeds to the hasher. -/
def hashInput (r : DnaRange) : List UInt8 :=
  ascii "AEVUM_DNA_RANGE_V4" ++ ascii "PROOF" ++ r.origin.bytes ++ r.rootId.bytes ++
    (u64Bytes r.start).bytes ++ (u64Bytes r.end_).bytes ++
    (u64Bytes r.birthEpoch).bytes ++ (u64Bytes r.birthHeight).bytes ++
    optionBytes r.parentRangeId ++ optionBytes r.bridgeTx ++ r.owner.bytes

def amount (r : DnaRange) : UInt64 := r.end_ - r.start + 1

def contains (r : DnaRange) (s : UInt64) : Bool := s ≥ r.start && s ≤ r.end_

def verifySplit (parent a b : DnaRange) : Bool :=
  a.start == parent.start && b.end_ == parent.end_ && a.end_ + 1 == b.start &&
    parent.amount == a.amount + b.amount

def verifyLineage (parent child : DnaRange) : Bool :=
  child.parentRangeId == some parent.rangeId && child.rootId == parent.rootId

/-! ## Intervals -/

section Intervals

variable {r r' : DnaRange}

/-- On supply ranges the amount does not overflow. -/
theorem toNat_amount (hle : r.start ≤ r.end_) (hmax : r.end_ < maxSupply) :
    r.amount.toNat = r.end_.toNat - r.start.toNat + 1 := by
  have hlt : r.end_.toNat < maxSupply.toNat := UInt64.lt_iff_toNat_lt.1 hmax
  have hmaxValue : maxSupply.toNat = 37100000000000000 := rfl
  rw [amount, UInt64.toNat_add_of_lt, UInt64.toNat_sub_of_le _ _ hle]
  · rfl
  · rw [UInt64.toNat_sub_of_le _ _ hle, UInt64.toNat_one]
    omega

theorem contains_iff {s : UInt64} :
    r.contains s = true ↔ r.start.toNat ≤ s.toNat ∧ s.toNat ≤ r.end_.toNat := by
  simp [contains, UInt64.le_iff_toNat_le]

/-- The interval stands in the last sixteen bytes; the optional parent before it does not
matter. -/
theorem interval_of_idInput_eq (h : r.idInput = r'.idInput) :
    r.start = r'.start ∧ r.end_ = r'.end_ := by
  -- the suffixes have one length, so the comparison can start from the back
  rcases List.append_inj' h (by rw [ByteArr.length_eq, ByteArr.length_eq]) with ⟨h, hend⟩
  rcases List.append_inj' h (by rw [ByteArr.length_eq, ByteArr.length_eq]) with ⟨-, hstart⟩
  exact ⟨u64Bytes_inj (ByteArr.ext hstart), u64Bytes_inj (ByteArr.ext hend)⟩

end Intervals

/-! ## Operations -/

variable [Blake3]

def id (r : DnaRange) : Hash := Blake3.digest r.idInput

def hash (r : DnaRange) : Hash := Blake3.digest r.hashInput

/-- `r.range_id = r.id(); r.proof = r.hash();`. -/
def withIdAndProof (r : DnaRange) : DnaRange :=
  let r := { r with rangeId := r.id }
  { r with proof := r.hash }

def verify (r : DnaRange) : Bool :=
  r.rangeId == r.id && r.proof == r.hash && r.start ≤ r.end_

def newGenesis (rootId : Hash) (owner : ByteArr 32) (height timestamp : UInt64) : DnaRange :=
  withIdAndProof
    { rangeId := Hash.zero
      rootId := rootId
      origin := .genesis
      start := 0
      end_ := genesisSupply - 1
      layer := .l1
      birthEpoch := 0
      birthHeight := height
      birthTimestamp := timestamp
      miner := ByteArr.fill 32 0
      parentRangeId := none
      bridgeTx := none
      creationTx := none
      owner := owner
      transferCount := 0
      lastTransferBlock := height
      proof := Hash.zero }

def newEpoch (rootId : Hash) (origin : DnaOrigin) (start end_ epoch height timestamp : UInt64)
    (miner owner : ByteArr 32) : DnaRange :=
  withIdAndProof
    { rangeId := Hash.zero
      rootId := rootId
      origin := origin
      start := start
      end_ := end_
      layer := .l1
      birthEpoch := epoch
      birthHeight := height
      birthTimestamp := timestamp
      miner := miner
      parentRangeId := none
      bridgeTx := none
      creationTx := none
      owner := owner
      transferCount := 0
      lastTransferBlock := height
      proof := Hash.zero }

def child (r : DnaRange) (start end_ : UInt64) (owner : ByteArr 32) (tx : Hash) (block : UInt64) :
    DnaRange :=
  withIdAndProof
    { rangeId := Hash.zero
      rootId := r.rootId
      origin := r.origin
      start := start
      end_ := end_
      layer := r.layer
      birthEpoch := r.birthEpoch
      birthHeight := r.birthHeight
      birthTimestamp := r.birthTimestamp
      miner := r.miner
      -- the id that a bridge before this split has computed anew
      parentRangeId := some r.rangeId
      bridgeTx := r.bridgeTx
      creationTx := some tx
      owner := owner
      transferCount := r.transferCount + 1
      lastTransferBlock := block
      proof := Hash.zero }

def split (r : DnaRange) (point : UInt64) (left right : ByteArr 32) (tx : Hash) (block : UInt64) :
    Except String (DnaRange × DnaRange) :=
  if point ≤ r.start ∨ point > r.end_ then
    .error "invalid split"
  else
    -- `point` is above `start`, so the subtraction does not wrap
    let a := r.child r.start (point - 1) left tx block
    let b := r.child point r.end_ right tx block
    if verifySplit r a b then .ok (a, b) else .error "supply violation"

/-- `bridge_to_l2(&mut self, bridge)`. -/
def bridgeToL2 (r : DnaRange) (bridge : Hash) : DnaRange :=
  withIdAndProof { r with layer := .l2, bridgeTx := some bridge }

/-! ## What the operations do -/

section Rules

variable {r : DnaRange} {point block : UInt64} {left right : ByteArr 32} {tx : Hash}

/-- The id and the proof are the ones that `id` and `hash` compute. -/
structure Minted (r : DnaRange) : Prop where
  rangeId : r.rangeId = r.id
  proof : r.proof = r.hash

theorem minted_withIdAndProof (r : DnaRange) : Minted r.withIdAndProof := ⟨rfl, rfl⟩

theorem Minted.verify (h : Minted r) (hle : r.start ≤ r.end_) : r.verify = true := by
  simp [DnaRange.verify, ← h.rangeId, ← h.proof, hle]

/-- A range is bridged under its old id. -/
theorem Minted.rangeId_bridgeToL2 (h : Minted r) (bridge : Hash) :
    (r.bridgeToL2 bridge).rangeId = r.rangeId := by
  rw [h.rangeId]
  rfl

/-- The check at the end of `split` holds in modular arithmetic, whatever the point. -/
theorem verifySplit_child :
    verifySplit r (r.child r.start (point - 1) left tx block)
      (r.child point r.end_ right tx block) = true := by
  have hmeet : point - 1 + 1 = point := by grind
  have hamount : r.end_ - r.start + 1 = point - 1 - r.start + 1 + (r.end_ - point + 1) := by grind
  simp [verifySplit, amount, child, withIdAndProof, hmeet, ← hamount]

theorem split_eq_ok {ab : DnaRange × DnaRange} :
    r.split point left right tx block = .ok ab ↔
      (r.start < point ∧ point ≤ r.end_) ∧
        ab = (r.child r.start (point - 1) left tx block,
          r.child point r.end_ right tx block) := by
  rw [split]
  by_cases hpoint : point ≤ r.start ∨ point > r.end_
  · rw [if_pos hpoint]
    constructor
    · intro h
      cases h
    · rintro ⟨⟨hstart, hend⟩, -⟩
      rcases hpoint with hle | hgt
      · exact (UInt64.not_le.2 hstart hle).elim
      · exact (UInt64.not_le.2 hgt hend).elim
  · -- past the first check nothing can fail
    rw [if_neg hpoint, if_pos verifySplit_child]
    rw [not_or, UInt64.not_le, UInt64.not_lt] at hpoint
    constructor
    · intro h
      exact ⟨hpoint, (Except.ok.inj h).symm⟩
    · rintro ⟨-, rfl⟩
      rfl

theorem split_ne_violation : r.split point left right tx block ≠ .error "supply violation" := by
  rw [split]
  by_cases hpoint : point ≤ r.start ∨ point > r.end_
  · rw [if_pos hpoint]
    decide
  · rw [if_neg hpoint, if_pos verifySplit_child]
    intro h
    cases h

end Rules

end DnaRange
end Core
end Aevum
