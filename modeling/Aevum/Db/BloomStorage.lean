import Aevum.Db.Bloom

/-!
# Db.BloomStorage — what `bloom.rs` reads back from bytes

`from_bytes` checks the length of the data and forces the number of hash functions into the range
from 1 to 32 without a complaint.

* `fromBytes_of_length`, `fromBytes_eq_none` : what it makes of data of any length;
* `toBytes_of_fromBytes_iff` : where it accepts only what `to_bytes` writes.
-/

namespace Aevum
namespace Db
namespace BloomFilter

open Lib

/-! ## Words -/

/-- A list as chunks of one length. -/
theorem take_eq_flatMap_chunks {A : Type*} (l : List A) (n k : Nat) :
    l.take (k * n) = (List.range k).flatMap fun i => (l.drop (i * n)).take n := by
  induction k with
  | zero => rw [Nat.zero_mul, List.take_zero, List.range_zero, List.flatMap_nil]
  | succ k ih =>
      rw [Nat.succ_mul, List.take_add, ih, List.range_succ, List.flatMap_append,
        List.flatMap_singleton]

/-- The word that the eight bytes at `start` spell. -/
def spelled (data : List UInt8) (start : Nat) : UInt64 :=
  UInt64.ofNat (leNat ((data.drop start).take 8))

theorem mapM_wordAt {data : List UInt8} {k : Nat} (h : data.length = 4 + k * 8) :
    (List.range k).mapM (fun i => wordAt data (4 + i * 8)) =
      some ((List.range k).map fun i => spelled data (4 + i * 8)) := by
  refine mapM_eq_some.2 (List.forall₂_map_right_iff.2 (List.forall₂_same.2 fun i hi => ?_))
  have hlt := List.mem_range.1 hi
  rw [wordAt, if_neg (by omega)]
  rfl

/-- Written out again, the words are the bytes behind the header. -/
theorem flatMap_spelled {data : List UInt8} {k : Nat} (h : data.length = 4 + k * 8) :
    (((List.range k).map fun i => spelled data (4 + i * 8)).flatMap fun word =>
      (u64Bytes word).bytes) = data.drop 4 := by
  have hchunk : ∀ i ∈ List.range k, (u64Bytes (spelled data (4 + i * 8))).bytes =
      ((data.drop 4).drop (i * 8)).take 8 := by
    intro i hi
    have hlt := List.mem_range.1 hi
    rw [List.drop_drop]
    refine u64Bytes_ofNat_leNat ?_
    rw [List.length_take, List.length_drop]
    omega
  have hwhole : (data.drop 4).take (k * 8) = data.drop 4 := by
    refine List.take_of_length_le ?_
    rw [List.length_drop]
    omega
  rw [List.flatMap_map, ← hwhole, take_eq_flatMap_chunks]
  exact List.flatMap_congr hchunk

/-! ## What is accepted -/

/-- The number of hash functions in the header. -/
def headerHashes (data : List UInt8) : UInt32 := UInt32.ofNat (leNat (data.take 4))

theorem toNat_headerHashes (data : List UInt8) :
    (headerHashes data).toNat = leNat (data.take 4) := by
  have hlt := leNat_lt (data.take 4)
  have hle : 256 ^ (data.take 4).length ≤ 256 ^ 4 :=
    Nat.pow_le_pow_right (by decide) (List.length_take_le 4 data)
  exact UInt32.toNat_ofNat_of_lt' (Nat.lt_of_lt_of_le hlt hle)

theorem fromBytes_of_length {data : List UInt8} {k : Nat} (hk : k ≠ 0)
    (h : data.length = 4 + k * 8) :
    fromBytes data = some
      { bits := (List.range k).map fun i => spelled data (4 + i * 8)
        numHashes := clampHashes (headerHashes data)
        count := 0 } := by
  have hwords : (data.length - 4) / 8 = k := by omega
  rw [fromBytes, if_neg (by omega), hwords, if_neg hk, if_neg (by omega), mapM_wordAt h]
  rfl

theorem fromBytes_eq_none {data : List UInt8}
    (h : data.length < 12 ∨ (data.length - 4) % 8 ≠ 0) : fromBytes data = none := by
  rw [fromBytes]
  by_cases hshort : data.length < 8
  · rw [if_pos hshort]
  · rw [if_neg hshort]
    by_cases hwords : (data.length - 4) / 8 = 0
    · exact if_pos hwords
    · have htail : (data.length - 4) % 8 ≠ 0 := h.resolve_left (by omega)
      exact (if_neg hwords).trans (if_pos htail)

theorem clampHashes_eq_self {n : UInt32} :
    clampHashes n = n ↔ 1 ≤ n.toNat ∧ n.toNat ≤ 32 := by
  rw [← UInt32.toNat_inj, toNat_clampHashes]
  omega

/-- Data is its header in front of the rest, and no other header. -/
theorem header_append_eq_iff {data : List UInt8} (h : 4 ≤ data.length) {n : UInt32} :
    (u32Bytes n).bytes ++ data.drop 4 = data ↔ n = headerHashes data := by
  have hdata : (u32Bytes (headerHashes data)).bytes ++ data.drop 4 = data := by
    have hlength : (data.take 4).length = 4 := List.length_take_of_le h
    rw [headerHashes, u32Bytes_ofNat_leNat hlength, List.take_append_drop]
  constructor
  · intro heq
    exact u32Bytes_inj (ByteArr.append_inj (heq.trans hdata.symm)).1
  · rintro rfl
    exact hdata

/-- What is accepted is written out as it was read if and only if the header holds a number of hash
functions that a filter can have; the length is checked. -/
theorem toBytes_of_fromBytes_iff (data : List UInt8) :
    (∀ f, fromBytes data = some f → f.toBytes = data) ↔
      (data.length < 12 ∨ (data.length - 4) % 8 ≠ 0) ∨
        1 ≤ leNat (data.take 4) ∧ leNat (data.take 4) ≤ 32 := by
  by_cases hlength : data.length < 12 ∨ (data.length - 4) % 8 ≠ 0
  · refine iff_of_true (fun f hf => ?_) (Or.inl hlength)
    rw [fromBytes_eq_none hlength] at hf
    cases hf
  · have hlong : data.length = 4 + (data.length - 4) / 8 * 8 := by omega
    have hok := fromBytes_of_length (by omega) hlong
    have hclamped : (u32Bytes (clampHashes (headerHashes data))).bytes ++ data.drop 4 = data ↔
        1 ≤ leNat (data.take 4) ∧ leNat (data.take 4) ≤ 32 := by
      rw [header_append_eq_iff (by omega), clampHashes_eq_self, toNat_headerHashes]
    rw [or_iff_right hlength, ← hclamped, hok]
    constructor
    · intro h
      have hbytes := h _ rfl
      rwa [toBytes, flatMap_spelled hlong] at hbytes
    · intro h f hf
      cases hf
      rwa [toBytes, flatMap_spelled hlong]

/-! ## A header that no filter has -/

section Sample

attribute [local instance] polyHasher wordHash

/-- A stored filter with a key, whose header now says 100 hash functions. -/
def sampleCorrupted : List UInt8 :=
  (u32Bytes 100).bytes ++ ((fromRaw [0, 1] 7).add (5 : UInt64)).toBytes.drop 4

/-- It is accepted as another filter, which has lost the key. -/
theorem sampleCorrupted_accepted :
    (¬ ∀ data f, fromBytes data = some f → f.toBytes = data) ∧
      ∃ f, fromBytes sampleCorrupted = some f ∧ f.mayContain (5 : UInt64) = false := by
  have hok : fromBytes sampleCorrupted = some
      { ((fromRaw [0, 1] 7).add (5 : UInt64)) with
        numHashes := 32
        count := 0 } := by
    decide +kernel
  refine ⟨fun hclaim => ?_, _, hok, by decide +kernel⟩
  exact absurd (hclaim _ _ hok) (by decide +kernel)

end Sample

end BloomFilter
end Db
end Aevum
