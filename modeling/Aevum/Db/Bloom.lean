import Aevum.Lib.BitSet
import Aevum.Lib.Checks
import Aevum.Lib.Run
import Aevum.Lib.Word

/-!
# Db.Bloom — `bloom.rs`

The Bloom filter that stands before the files of the storage engine: packed bits, set and read at
positions that double hashing gives for a key.

The hasher is a foreign crate and any state machine here; keys of any type bring their own way of
being hashed.  Sizes are natural numbers, so `new` is used only where the number of bits fits into
a `usize`.
-/

namespace Aevum
namespace Db

open Lib

/-! ## Hashing -/

/-- `rustc_hash::FxHasher`. -/
class FxHasher where
  State : Type
  default : State
  writeU64 : State → UInt64 → State
  finish : State → UInt64

/-- `std::hash::Hash`: what a key feeds to a hasher. -/
class Hash (T : Type) [FxHasher] where
  hash : T → FxHasher.State → FxHasher.State

structure BloomFilter where
  bits : List UInt64
  numHashes : UInt32
  count : Nat
  deriving DecidableEq

namespace BloomFilter

section Filter

variable [FxHasher] {T : Type} [Hash T]

def hashKey (key : T) (seed : UInt64) : UInt64 :=
  let hasher := FxHasher.writeU64 FxHasher.default seed
  FxHasher.finish (Hash.hash key hasher)

def doubleHash (key : T) : UInt64 × UInt64 :=
  (hashKey key 0x5bd1e995, hashKey key 0xc6a4a793 ||| 1)

def bitIndex (f : BloomFilter) (h1 h2 : UInt64) (i : Nat) : Nat :=
  (h1 + UInt64.ofNat i * h2).toNat % (f.bits.length * 64)

/-- The bit indices that the loops over `0..num_hashes` go through. -/
def indices (f : BloomFilter) (key : T) : List Nat :=
  (List.range f.numHashes.toNat).map (f.bitIndex (doubleHash key).1 (doubleHash key).2)

/-! ## Construction -/

/-- `num_hashes.max(1).min(32)`. -/
def clampHashes (numHashes : UInt32) : UInt32 :=
  min (max numHashes 1) 32

def new (expectedKeys : Nat) (bitsPerKey : UInt32) : BloomFilter :=
  let bitsPerKey := max bitsPerKey 1
  let bits := max (expectedKeys * bitsPerKey.toNat) 64
  let words := (bits + 63) / 64
  let ratio := Float.ofNat bits / Float.ofNat (max expectedKeys 1)
  { bits := List.replicate words 0
    numHashes := clampHashes (ratio * 0.693147).ceil.toUInt32
    count := 0 }

def fromRaw (bits : List UInt64) (numHashes : UInt32) : BloomFilter :=
  { bits := if bits.isEmpty then [0] else bits
    numHashes := clampHashes numHashes
    count := 0 }

/-! ## Keys -/

def add (f : BloomFilter) (key : T) : BloomFilter :=
  if f.bits.isEmpty then f
  else
    { f with
      bits := (f.indices key).foldl BitSet.setBit f.bits
      count := f.count + 1 }

def mayContain (f : BloomFilter) (key : T) : Bool :=
  if f.bits.isEmpty || f.numHashes == 0 then false
  else (f.indices key).all (BitSet.testBit f.bits)

end Filter

/-! ## Storage -/

def toBytes (f : BloomFilter) : List UInt8 :=
  (u32Bytes f.numHashes).bytes ++ f.bits.flatMap fun word => (u64Bytes word).bytes

/-- The word at `start`, unless the data ends before it does. -/
def wordAt (data : List UInt8) (start : Nat) : Option UInt64 :=
  if start + 8 > data.length then none
  else some (UInt64.ofNat (leNat ((data.drop start).take 8)))

def fromBytes (data : List UInt8) : Option BloomFilter :=
  if data.length < 8 then none
  else
    let numHashes := UInt32.ofNat (leNat (data.take 4))
    let words := (data.length - 4) / 8
    if words = 0 then none
    else if (data.length - 4) % 8 ≠ 0 then none
    else do
      let bits ← (List.range words).mapM fun i => wordAt data (4 + i * 8)
      return {
        bits := bits
        numHashes := clampHashes numHashes
        count := 0 }

/-! ## Well-formed filters -/

/-- What every constructor guarantees: at least one word, and a number of hash functions that
clamping leaves alone. -/
structure WellFormed (f : BloomFilter) : Prop where
  bits_ne_nil : f.bits ≠ []
  clamped : clampHashes f.numHashes = f.numHashes

theorem toNat_clampHashes (numHashes : UInt32) :
    (clampHashes numHashes).toNat = min (max numHashes.toNat 1) 32 := by
  have hmax : max numHashes 1 = if numHashes ≤ 1 then 1 else numHashes := rfl
  have hmin : ∀ k : UInt32, min k 32 = if k ≤ 32 then k else 32 := fun _ => rfl
  have hone : (1 : UInt32).toNat = 1 := rfl
  have hlimit : (32 : UInt32).toNat = 32 := rfl
  rw [clampHashes, hmax, hmin]
  split_ifs <;> simp_all only [UInt32.le_iff_toNat_le] <;> omega

theorem clampHashes_idem (numHashes : UInt32) :
    clampHashes (clampHashes numHashes) = clampHashes numHashes := by
  rw [← UInt32.toNat_inj, toNat_clampHashes, toNat_clampHashes]
  omega

theorem clampHashes_ne_zero (numHashes : UInt32) : clampHashes numHashes ≠ 0 := by
  rw [ne_eq, ← UInt32.toNat_inj, toNat_clampHashes, UInt32.toNat_zero]
  omega

theorem WellFormed.numHashes_ne_zero {f : BloomFilter} (h : f.WellFormed) : f.numHashes ≠ 0 :=
  h.clamped ▸ clampHashes_ne_zero f.numHashes

theorem new_wellFormed (expectedKeys : Nat) (bitsPerKey : UInt32) :
    (new expectedKeys bitsPerKey).WellFormed := by
  refine { bits_ne_nil := ?_, clamped := clampHashes_idem _ }
  -- the table has at least 64 bits
  simp [new]

theorem fromRaw_wellFormed (bits : List UInt64) (numHashes : UInt32) :
    (fromRaw bits numHashes).WellFormed := by
  refine { bits_ne_nil := ?_, clamped := clampHashes_idem _ }
  cases bits <;> simp [fromRaw]

theorem fromBytes_wellFormed {data : List UInt8} {f : BloomFilter} (h : fromBytes data = some f) :
    f.WellFormed := by
  rw [fromBytes] at h
  split at h
  · cases h
  · simp only at h
    split at h
    · cases h
    · next hwords =>
        split at h
        · cases h
        · rcases Option.bind_eq_some_iff.1 h with ⟨bits, hbits, hf⟩
          cases hf
          refine { bits_ne_nil := fun hnil => hwords ?_, clamped := clampHashes_idem _ }
          have hlength := (mapM_eq_some.1 hbits).length_eq
          have hnil : bits = [] := hnil
          rwa [hnil, List.length_range] at hlength

section Filter

variable [FxHasher] {T : Type} [Hash T]

theorem WellFormed.add {f : BloomFilter} (h : f.WellFormed) (key : T) :
    (f.add key).WellFormed := by
  rw [BloomFilter.add]
  split
  · exact h
  · refine { bits_ne_nil := fun hnil => h.bits_ne_nil ?_, clamped := h.clamped }
    have hlength := congrArg List.length hnil
    rw [BitSet.length_foldl_setBit] at hlength
    exact List.length_eq_zero_iff.1 hlength

end Filter

/-! ## Membership -/

theorem bitIndex_lt {f : BloomFilter} (h : f.bits ≠ []) (h1 h2 : UInt64) (i : Nat) :
    f.bitIndex h1 h2 i / 64 < f.bits.length := by
  have hlength := List.length_pos_of_ne_nil h
  have hmod : f.bitIndex h1 h2 i < f.bits.length * 64 := Nat.mod_lt _ (by omega)
  omega

section Membership

variable [FxHasher] {T T' : Type} [Hash T] [Hash T']

/-- Filters of one size with one number of hash functions look at the same bits. -/
theorem indices_congr {f g : BloomFilter} (hlength : g.bits.length = f.bits.length)
    (hhashes : g.numHashes = f.numHashes) (key : T) : g.indices key = f.indices key := by
  -- of the bits only their number matters
  have hindex : g.bitIndex = f.bitIndex := by
    funext h1 h2 i
    rw [bitIndex, bitIndex, hlength]
  rw [indices, indices, hhashes, hindex]

theorem mayContain_iff {f : BloomFilter} (h : f.WellFormed) (key : T) :
    f.mayContain key ↔ ∀ i ∈ f.indices key, BitSet.testBit f.bits i := by
  have hguard : ¬ (f.bits.isEmpty || f.numHashes == 0) := by
    simp [h.bits_ne_nil, h.numHashes_ne_zero]
  rw [mayContain, if_neg hguard, List.all_eq_true]

theorem testBit_add {f : BloomFilter} (h : f.WellFormed) (key : T) {i : Nat} :
    BitSet.testBit (f.add key).bits i ↔ i ∈ f.indices key ∨ BitSet.testBit f.bits i := by
  have hempty : ¬ f.bits.isEmpty := by simp [h.bits_ne_nil]
  rw [BloomFilter.add, if_neg hempty]
  refine BitSet.testBit_foldl_setBit fun j hj => ?_
  rcases List.mem_map.1 hj with ⟨k, -, rfl⟩
  exact bitIndex_lt h.bits_ne_nil _ _ k

theorem indices_add (f : BloomFilter) (key : T) (key' : T') :
    (f.add key).indices key' = f.indices key' := by
  rw [BloomFilter.add]
  split
  · rfl
  · refine indices_congr ?_ ?_ key'
    · exact BitSet.length_foldl_setBit (f.indices key) f.bits
    · rfl

/-- A key that was added is found. -/
theorem mayContain_add_self {f : BloomFilter} (h : f.WellFormed) (key : T) :
    (f.add key).mayContain key := by
  rw [mayContain_iff (h.add key)]
  intro i hi
  rw [indices_add] at hi
  exact (testBit_add h key).2 (Or.inl hi)

/-- Adding another key makes no key disappear. -/
theorem mayContain_add {f : BloomFilter} (h : f.WellFormed) (key : T) {key' : T'}
    (hkey : f.mayContain key') : (f.add key).mayContain key' := by
  rw [mayContain_iff h] at hkey
  rw [mayContain_iff (h.add key)]
  intro i hi
  rw [indices_add] at hi
  exact (testBit_add h key).2 (Or.inr (hkey i hi))

end Membership

/-! ## Round trips -/

theorem length_flatMap_u64Bytes (words : List UInt64) :
    (words.flatMap fun word => (u64Bytes word).bytes).length = 8 * words.length := by
  induction words with
  | nil => rfl
  | cons word words ih =>
      rw [List.flatMap_cons, List.length_append, ih, (u64Bytes word).length_eq, List.length_cons]
      omega

theorem take_drop_flatMap_u64Bytes {words : List UInt64} {i : Nat} (h : i < words.length) :
    ((words.flatMap fun word => (u64Bytes word).bytes).drop (i * 8)).take 8 =
      (u64Bytes words[i]).bytes := by
  induction words generalizing i with
  | nil => cases h
  | cons word words ih =>
      have hlength := (u64Bytes word).length_eq
      cases i with
      | zero =>
          rw [Nat.zero_mul, List.drop_zero, List.flatMap_cons, List.getElem_cons_zero]
          exact List.take_left' hlength
      | succ i =>
          -- drop the first word, then look at position `i` of the others
          have hdrop : (i + 1) * 8 = 8 + i * 8 := by omega
          rw [hdrop, ← List.drop_drop, List.flatMap_cons, List.drop_left' hlength,
            List.getElem_cons_succ]
          exact ih (Nat.lt_of_succ_lt_succ h)

theorem length_toBytes (f : BloomFilter) : f.toBytes.length = 4 + 8 * f.bits.length := by
  rw [toBytes, List.length_append, length_flatMap_u64Bytes, (u32Bytes f.numHashes).length_eq]

theorem wordAt_toBytes (f : BloomFilter) {i : Nat} (h : i < f.bits.length) :
    wordAt f.toBytes (4 + i * 8) = some f.bits[i] := by
  -- behind the four bytes of the number of hash functions there are eight for every word
  have hend : ¬ 4 + i * 8 + 8 > f.toBytes.length := by
    rw [length_toBytes]
    omega
  have hbytes : (f.toBytes.drop (4 + i * 8)).take 8 = leBytes 8 f.bits[i].toNat := by
    rw [← List.drop_drop, toBytes, List.drop_left' (u32Bytes f.numHashes).length_eq]
    exact take_drop_flatMap_u64Bytes h
  rw [wordAt, if_neg hend, hbytes, leNat_leBytes f.bits[i].toNat_lt, UInt64.ofNat_toNat]

/-- A stored filter is read back as it was, apart from its counter. -/
theorem fromBytes_toBytes {f : BloomFilter} (h : f.WellFormed) :
    fromBytes f.toBytes = some { f with count := 0 } := by
  have hpos := List.length_pos_of_ne_nil h.bits_ne_nil
  have hlength := length_toBytes f
  have hwords : (f.toBytes.length - 4) / 8 = f.bits.length := by omega
  have hhead : leNat (f.toBytes.take 4) = f.numHashes.toNat := by
    rw [toBytes, List.take_left' (u32Bytes f.numHashes).length_eq]
    exact leNat_leBytes f.numHashes.toNat_lt
  have hbits : (List.range f.bits.length).mapM (fun i => wordAt f.toBytes (4 + i * 8)) =
      some f.bits := by
    refine mapM_eq_some.2 (List.forall₂_iff_get.2 ⟨List.length_range, fun i hi hi' => ?_⟩)
    simpa using wordAt_toBytes f hi'
  rw [fromBytes, if_neg (by omega), hwords, hhead, if_neg (by omega), if_neg (by omega), hbits,
    UInt32.ofNat_toNat, h.clamped]
  rfl

theorem fromRaw_bits {f : BloomFilter} (h : f.WellFormed) :
    fromRaw f.bits f.numHashes = { f with count := 0 } := by
  rw [fromRaw, if_neg (by simp [h.bits_ne_nil]), h.clamped]

/-! ## Histories -/

/-- How a filter can come into being. -/
inductive Made : BloomFilter → Prop
  | new (expectedKeys : Nat) (bitsPerKey : UInt32) :
      expectedKeys * (max bitsPerKey 1).toNat + 63 < 2 ^ 64 → Made (new expectedKeys bitsPerKey)
  | fromRaw (bits : List UInt64) (numHashes : UInt32) : Made (fromRaw bits numHashes)
  | fromBytes {data : List UInt8} {f : BloomFilter} : fromBytes data = some f → Made f

theorem Made.wellFormed {f : BloomFilter} (h : Made f) : f.WellFormed := by
  cases h with
  | new expectedKeys bitsPerKey _ => exact new_wellFormed expectedKeys bitsPerKey
  | fromRaw bits numHashes => exact fromRaw_wellFormed bits numHashes
  | fromBytes h => exact fromBytes_wellFormed h

section History

variable [FxHasher]

/-- What can happen to a filter: a key is added, or it goes through its bytes or its raw parts. -/
inductive Event : Type 1
  | add {T : Type} [Hash T] (key : T)
  | bytes
  | raw

inductive Step : BloomFilter → Event → BloomFilter → Prop
  | add (f : BloomFilter) {T : Type} [Hash T] (key : T) : Step f (.add key) (f.add key)
  | bytes {f g : BloomFilter} : fromBytes f.toBytes = some g → Step f .bytes g
  | raw (f : BloomFilter) : Step f .raw (fromRaw f.bits f.numHashes)

/-- The keys of a history are in the filter. -/
structure Holds (tr : List Event) (f : BloomFilter) : Prop where
  wellFormed : f.WellFormed
  mayContain : ∀ {T : Type} [Hash T] (key : T), .add key ∈ tr → f.mayContain key

theorem Holds.snoc {tr : List Event} {f f' : BloomFilter} {l : Event} (h : Holds tr f)
    (hstep : Step f l f') : Holds (tr ++ [l]) f' := by
  -- both ways through storage lose nothing but the counter
  have hreset : Holds tr { f with count := 0 } :=
    { wellFormed := { bits_ne_nil := h.wellFormed.bits_ne_nil, clamped := h.wellFormed.clamped }
      mayContain := fun key hkey => h.mayContain key hkey }
  cases hstep with
  | @add T hT key =>
      refine { wellFormed := h.wellFormed.add key, mayContain := fun key' hkey' => ?_ }
      rcases List.mem_append.1 hkey' with hold | hnew
      · exact mayContain_add h.wellFormed key (h.mayContain key' hold)
      · cases List.mem_singleton.1 hnew
        exact mayContain_add_self h.wellFormed key
  | bytes hbytes =>
      rw [fromBytes_toBytes h.wellFormed] at hbytes
      cases hbytes
      refine { wellFormed := hreset.wellFormed, mayContain := fun key hkey => ?_ }
      exact hreset.mayContain key (by simpa using hkey)
  | raw =>
      rw [fromRaw_bits h.wellFormed]
      refine { wellFormed := hreset.wellFormed, mayContain := fun key hkey => ?_ }
      exact hreset.mayContain key (by simpa using hkey)

/-- No key is lost, by no other key and by no way through storage; no bit index is out of range;
and a filter comes back from its bytes with its bits and its number of hash functions. -/
theorem no_false_negatives {f₀ f : BloomFilter} {tr : List Event} (hmade : Made f₀)
    (hrun : Run Step f₀ tr f) :
    (∀ {T : Type} [Hash T] (key : T), .add key ∈ tr → f.mayContain key) ∧
      (∀ h1 h2 i, f.bitIndex h1 h2 i / 64 < f.bits.length) ∧
      ∃ g, fromBytes f.toBytes = some g ∧ g.bits = f.bits ∧ g.numHashes = f.numHashes := by
  have hstart : Holds [] f₀ :=
    { wellFormed := hmade.wellFormed
      mayContain := fun _ hkey => (List.not_mem_nil hkey).elim }
  have hholds : Holds tr f :=
    RunWith.invariant Holds hstart (fun _ _ _ _ _ hI hstep _ => hI.snoc hstep) hrun
  refine ⟨fun key hkey => hholds.mayContain key hkey, ?_, ?_⟩
  · exact bitIndex_lt hholds.wellFormed.bits_ne_nil
  · exact ⟨_, fromBytes_toBytes hholds.wellFormed, rfl, rfl⟩

end History

/-! ## A history -/

/-- A hasher for evaluation. -/
@[reducible] def polyHasher : FxHasher :=
  { State := UInt64
    default := 0
    writeU64 := fun s x => s * 31 + x
    finish := id }

/-- Words hash as themselves. -/
@[reducible] def wordHash : @Hash UInt64 polyHasher :=
  @Hash.mk UInt64 polyHasher fun x s => polyHasher.writeU64 s x

attribute [local instance] polyHasher wordHash

/-- Two keys, the second one added after a round trip through the bytes. -/
def sampleFilter : BloomFilter :=
  add
    { bits := ((fromRaw [0, 1] 7).add (5 : UInt64)).bits
      numHashes := 7
      count := 0 }
    (9 : UInt64)

theorem no_false_negatives_sample :
    sampleFilter.mayContain (5 : UInt64) ∧ sampleFilter.mayContain (9 : UInt64) := by
  have hrun : Run Step (fromRaw [0, 1] 7) [.add (5 : UInt64), .bytes, .add (9 : UInt64)]
      sampleFilter :=
    ((Run.single (.add _ _)).snoc (.bytes (by decide +kernel))).snoc (.add _ _)
  have h := no_false_negatives (.fromRaw [0, 1] 7) hrun
  exact ⟨h.1 5 (by simp), h.1 9 (by simp)⟩

end BloomFilter
end Db
end Aevum
