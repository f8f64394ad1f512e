import Aevum.P2p.DhtSearch

/-!
# P2p.DhtOrder — the order of the buckets

`bucket_index` counts bytes from the most significant one and bits from the least significant one.
So nodes share a bucket exactly when their distances have their highest bits in one place, but the
numbers of the buckets grow with the distance only inside one byte.

* `bucketIndex_eq` : the number of a bucket in terms of the highest bit of the distance;
* `bucket_order_iff` : when the order of the buckets is that of the distances.
-/

namespace Aevum
namespace P2p

open Lib

namespace Dht

/-- The position of the highest bit of a distance, counted from the least significant one. -/
def highestBit (d : NodeId) : Nat := Nat.log2 (beNat d.bytes)

/-- The first byte of a distance that is not zero, where `bucket_index` stops. -/
def firstByte (d : NodeId) : Nat := d.bytes.findIdx fun b => b ≠ 0

/-! ## The number of a bucket -/

theorem beNat_ne_zero {d : NodeId} (hd : d ≠ ByteArr.fill 32 0) : beNat d.bytes ≠ 0 := by
  intro hzero
  refine hd (ByteArr.ext ?_)
  exact List.eq_replicate_iff.2 ⟨d.length_eq, beNat_eq_zero.1 hzero⟩

theorem highestBit_lt {d : NodeId} (hd : d ≠ ByteArr.fill 32 0) : highestBit d < 256 := by
  have hlt := log2_beNat_lt (beNat_ne_zero hd)
  rwa [d.length_eq] at hlt

theorem firstByte_eq {d : NodeId} (hd : d ≠ ByteArr.fill 32 0) :
    firstByte d = 31 - highestBit d / 8 := by
  have hsum := findIdx_add_log2 (beNat_ne_zero hd)
  rw [d.length_eq] at hsum
  rw [firstByte, highestBit]
  omega

/-- The loop, from the byte with index `i` on. -/
theorem bucketLoop_eq {i : Nat} {bytes : List UInt8} (hne : beNat bytes ≠ 0)
    (hlen : i + bytes.length = 32) :
    bucketLoop i bytes =
      8 * (31 - Nat.log2 (beNat bytes) / 8) + Nat.log2 (beNat bytes) % 8 := by
  induction bytes generalizing i with
  | nil => exact (hne rfl).elim
  | cons b bytes ih =>
      rw [List.length_cons] at hlen
      by_cases hb : b = 0
      · rw [hb, beNat_zero_cons] at hne
        -- the loop goes on, and the byte adds nothing to the number
        rw [bucketLoop, if_neg (not_not.2 hb), hb, beNat_zero_cons]
        exact ih hne (by omega)
      · have hlog := log2_byte_lt hb
        rw [bucketLoop, if_pos hb, sub_leadingZeros hb, log2_beNat_cons hb]
        -- the last byte gives at most 255, so that `min` changes nothing
        simp only [kBuckets]
        omega

theorem bucketIndex_eq {d : NodeId} (hd : d ≠ ByteArr.fill 32 0) :
    bucketIndex d = 8 * (31 - highestBit d / 8) + highestBit d % 8 :=
  bucketLoop_eq (beNat_ne_zero hd) (by rw [d.length_eq])

/-- The table keeps apart what differs in the highest bit. -/
theorem bucketIndex_inj {d₁ d₂ : NodeId} (h₁ : d₁ ≠ ByteArr.fill 32 0)
    (h₂ : d₂ ≠ ByteArr.fill 32 0) :
    bucketIndex d₁ = bucketIndex d₂ ↔ highestBit d₁ = highestBit d₂ := by
  have hlt₁ := highestBit_lt h₁
  have hlt₂ := highestBit_lt h₂
  rw [bucketIndex_eq h₁, bucketIndex_eq h₂]
  omega

/-! ## The order -/

theorem highestBit_mono {d₁ d₂ : NodeId} (h₁ : d₁ ≠ ByteArr.fill 32 0)
    (h₂ : d₂ ≠ ByteArr.fill 32 0) (hle : u256FromBytes d₁ ≤ u256FromBytes d₂) :
    highestBit d₁ ≤ highestBit d₂ := by
  have hnat := (u256FromBytes_le_iff d₁ d₂).1 hle
  exact (Nat.le_log2 (beNat_ne_zero h₂)).2 ((Nat.log2_self_le (beNat_ne_zero h₁)).trans hnat)

/-- Distances have their highest bits in one place exactly when they are in one bucket.  The farther
of two is in the higher bucket exactly when the first byte that is not zero is the same. -/
theorem bucket_order_iff (d₁ d₂ : NodeId) (h₁ : d₁ ≠ ByteArr.fill 32 0)
    (h₂ : d₂ ≠ ByteArr.fill 32 0) :
    (bucketIndex d₁ = bucketIndex d₂ ↔ highestBit d₁ = highestBit d₂) ∧
      ((u256FromBytes d₁ ≤ u256FromBytes d₂ → bucketIndex d₁ ≤ bucketIndex d₂) ↔
        (u256FromBytes d₁ ≤ u256FromBytes d₂ → firstByte d₁ = firstByte d₂)) := by
  refine ⟨bucketIndex_inj h₁ h₂, forall_congr' fun hle => ?_⟩
  have hmono := highestBit_mono h₁ h₂ hle
  have hlt := highestBit_lt h₂
  rw [bucketIndex_eq h₁, bucketIndex_eq h₂, firstByte_eq h₁, firstByte_eq h₂]
  -- the byte counts the other way round, the bit inside it as the distance does
  omega

theorem bucket_order_iff_sample :
    (bucketIndex (sampleId 0x08) = bucketIndex (sampleId 0x0F) ↔
        highestBit (sampleId 0x08) = highestBit (sampleId 0x0F)) ∧
      bucketIndex (sampleId 0x08) ≤ bucketIndex (sampleId 0x40) := by
  refine ⟨(bucket_order_iff _ _ (by decide) (by decide)).1, ?_⟩
  exact (bucket_order_iff (sampleId 0x08) (sampleId 0x40) (by decide) (by decide)).2.2
    (fun _ => by decide +kernel) (by decide +kernel)

/-- The smallest distance of all is in bucket 248, one with the most significant bit in bucket 7. -/
theorem not_bucket_order :
    ¬ ∀ d₁ d₂ : NodeId, d₁ ≠ ByteArr.fill 32 0 → d₂ ≠ ByteArr.fill 32 0 →
      (u256FromBytes d₁ ≤ u256FromBytes d₂ → bucketIndex d₁ ≤ bucketIndex d₂) ∧
        (bucketIndex d₁ = bucketIndex d₂ ↔ highestBit d₁ = highestBit d₂) := by
  intro hclaim
  have hle := (hclaim ⟨List.replicate 31 0 ++ [1], by decide⟩ (sampleId 0x80) (by decide)
    (by decide)).1 (by decide +kernel)
  exact absurd hle (by decide +kernel)

end Dht
end P2p
end Aevum
