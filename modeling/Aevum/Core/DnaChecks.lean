import Aevum.Core.DnaRange
import Aevum.Lib.Lists

/-!
# Core.DnaChecks — what the checks of a range say

`verify_split` compares end points and amounts in wrapping arithmetic.  It accepts partitions of
the parent, and besides them the children that run past the largest word and on from zero
(`verifySplit_sound_iff`).

`verify` recomputes the id and the proof of a range.  Two ranges with the same id and the same
proof agree in every field that is hashed (`sameHashed_of_verify`); the layer, the birth timestamp,
the miner and the creating transaction are not hashed, and can be anything
(`not_determined_of_verify`).
-/

namespace Aevum
namespace Core

open Lib Crypto

namespace DnaRange

/-! ## Splits -/

section Splits

variable {parent a b : DnaRange}

/-- `a` and `b` are two non-empty parts that make up `parent`. -/
structure Partition (parent a b : DnaRange) : Prop where
  left : ∃ s, a.contains s = true
  right : ∃ s, b.contains s = true
  disjoint : ∀ s, ¬ (a.contains s = true ∧ b.contains s = true)
  union : ∀ s, parent.contains s = true ↔ a.contains s = true ∨ b.contains s = true

/-- The children start and end where the parent does, but the first one runs up to the largest word
and the second one starts at zero. -/
def WrapsAround (parent a b : DnaRange) : Prop :=
  a.start = parent.start ∧ b.end_ = parent.end_ ∧ a.end_ = UInt64.maxValue ∧ b.start = 0

/-- The check of the amounts follows from the other ones. -/
theorem verifySplit_iff :
    verifySplit parent a b = true ↔
      a.start = parent.start ∧ b.end_ = parent.end_ ∧ a.end_ + 1 = b.start := by
  simp only [verifySplit, Bool.and_eq_true, beq_iff_eq]
  constructor
  · rintro ⟨⟨⟨hstart, hend⟩, hmeet⟩, -⟩
    exact ⟨hstart, hend, hmeet⟩
  · rintro ⟨hstart, hend, hmeet⟩
    refine ⟨⟨⟨hstart, hend⟩, hmeet⟩, ?_⟩
    rw [amount, amount, amount, ← hstart, ← hend, ← hmeet]
    grind

/-- A range contains its start if it is not empty. -/
theorem contains_start {r : DnaRange} (h : r.start ≤ r.end_) : r.contains r.start = true :=
  contains_iff.2 ⟨le_refl _, UInt64.le_iff_toNat_le.1 h⟩

/-- Below the largest word, the successor of the end of `a` is above it. -/
theorem partition_of_meet (hstart : a.start = parent.start) (hend : b.end_ = parent.end_)
    (hmeet : a.end_ + 1 = b.start) (hmax : a.end_ ≠ UInt64.maxValue) (ha : a.start ≤ a.end_)
    (hb : b.start ≤ b.end_) : Partition parent a b := by
  have hmeetNat : a.end_.toNat + 1 = b.start.toNat := by
    have hne : a.end_.toNat ≠ 2 ^ 64 - 1 := fun h => hmax (UInt64.toNat_inj.1 h)
    have hlt := a.end_.toNat_lt
    rw [← hmeet, UInt64.toNat_add_of_lt] <;> rw [UInt64.toNat_one]
    omega
  have hle : a.start.toNat ≤ a.end_.toNat := UInt64.le_iff_toNat_le.1 ha
  have hle' : b.start.toNat ≤ b.end_.toNat := UInt64.le_iff_toNat_le.1 hb
  refine
    { left := ⟨a.start, contains_start ha⟩
      right := ⟨b.start, contains_start hb⟩
      disjoint := fun s => ?_
      union := fun s => ?_ }
  · rw [contains_iff, contains_iff]
    omega
  · rw [contains_iff, contains_iff, contains_iff, ← hstart, ← hend]
    omega

theorem WrapsAround.not_partition (h : WrapsAround parent a b)
    (hparent : parent.start ≤ parent.end_) : ¬ Partition parent a b := by
  rcases h with ⟨hstart, hend, hmax, hzero⟩
  intro hpart
  -- the start of the parent lies in both children
  refine hpart.disjoint parent.start ⟨?_, ?_⟩
  · rw [contains_iff, hstart, hmax]
    exact ⟨le_refl _, UInt64.toNat_le_max _⟩
  · rw [contains_iff, hend, hzero]
    exact ⟨Nat.zero_le _, UInt64.le_iff_toNat_le.1 hparent⟩

variable [Blake3]

theorem le_of_verify {r : DnaRange} (h : r.verify = true) : r.start ≤ r.end_ := by
  simp only [verify, Bool.and_eq_true, decide_eq_true_eq] at h
  exact h.2

/-- The check is sound for three verified ranges exactly when they do not wrap around. -/
theorem verifySplit_sound_iff (hparent : parent.verify = true) (ha : a.verify = true)
    (hb : b.verify = true) :
    (verifySplit parent a b = true → Partition parent a b) ↔ ¬ WrapsAround parent a b := by
  constructor
  · intro hsound hwraps
    refine hwraps.not_partition (le_of_verify hparent) (hsound ?_)
    rcases hwraps with ⟨hstart, hend, hmax, hzero⟩
    exact verifySplit_iff.2 ⟨hstart, hend, by rw [hmax, hzero]; rfl⟩
  · intro hwraps hsplit
    rcases verifySplit_iff.1 hsplit with ⟨hstart, hend, hmeet⟩
    have hmax : a.end_ ≠ UInt64.maxValue := by
      intro hmax
      have hzero : b.start = 0 := by rw [← hmeet, hmax]; rfl
      exact hwraps ⟨hstart, hend, hmax, hzero⟩
    exact partition_of_meet hstart hend hmeet hmax (le_of_verify ha) (le_of_verify hb)

end Splits

section SplitSamples

attribute [local instance] polyBlake3

/-- A mined range with the given interval. -/
def sampleInterval (start end_ : UInt64) : DnaRange :=
  newEpoch (ByteArr.fill 32 1) (.epochMining 3 (ByteArr.fill 32 2)) start end_ 3 100 200
    (ByteArr.fill 32 4) (ByteArr.fill 32 5)

theorem verifySplit_sound_iff_sample :
    (verifySplit (sampleInterval 5 9) (sampleInterval 5 6) (sampleInterval 7 9) = true →
        Partition (sampleInterval 5 9) (sampleInterval 5 6) (sampleInterval 7 9)) ↔
      ¬ WrapsAround (sampleInterval 5 9) (sampleInterval 5 6) (sampleInterval 7 9) :=
  verifySplit_sound_iff (by decide +kernel) (by decide +kernel) (by decide +kernel)

/-- Five satoshis are split into all those from `5` up and all those up to `9`. -/
theorem verifySplit_unsound :
    ¬ ∀ parent a b : DnaRange, parent.verify = true → a.verify = true → b.verify = true →
      verifySplit parent a b = true → Partition parent a b := by
  intro h
  have hpart := h (sampleInterval 5 9) (sampleInterval 5 UInt64.maxValue) (sampleInterval 0 9)
    (by decide +kernel) (by decide +kernel) (by decide +kernel) (by decide +kernel)
  exact hpart.disjoint 5 (by decide +kernel)

end SplitSamples

/-! ## Hashed bytes -/

section Hashed

variable {r r' : DnaRange}

theorem optionBytes_inj {o o' : Option Hash} (h : optionBytes o = optionBytes o') : o = o' := by
  have hlen := congrArg List.length h
  cases o with
  | none =>
      cases o' with
      | none => rfl
      | some p =>
          rw [optionBytes, optionBytes, p.length_eq] at hlen
          cases hlen
  | some p =>
      cases o' with
      | none =>
          rw [optionBytes, optionBytes, p.length_eq] at hlen
          cases hlen
      | some p' => rw [ByteArr.ext h]

theorem length_optionBytes (o : Option Hash) :
    (optionBytes o).length = 0 ∨ (optionBytes o).length = 32 := by
  cases o with
  | none => exact Or.inl rfl
  | some p => exact Or.inr p.length_eq

theorem length_originBytes (o : DnaOrigin) : o.bytes.length = 1 ∨ o.bytes.length = 41 := by
  cases o <;> simp [DnaOrigin.bytes, ByteArr.length_eq]

theorem originBytes_inj {o o' : DnaOrigin} (h : o.bytes = o'.bytes) : o = o' := by
  have hfields : ∀ {e e' : UInt64} {i i' : Hash},
      (u64Bytes e).bytes ++ i.bytes = (u64Bytes e').bytes ++ i'.bytes → e = e' ∧ i = i' := by
    intro e e' i i' hbytes
    rcases ByteArr.append_inj hbytes with ⟨he, hi⟩
    exact ⟨u64Bytes_inj he, ByteArr.ext hi⟩
  cases o <;> cases o' <;> simp only [DnaOrigin.bytes, List.cons.injEq] at h
  case genesis.genesis => rfl
  case epochMining.epochMining =>
    rcases hfields h.2 with ⟨rfl, rfl⟩
    rfl
  case epochRemainder.epochRemainder =>
    rcases hfields h.2 with ⟨rfl, rfl⟩
    rfl
  -- the tags differ
  all_goals exact absurd h.1 (by decide)

/-- The id determines the emission root, the parent and the interval. -/
theorem idInput_inj (h : r.idInput = r'.idInput) :
    r.rootId = r'.rootId ∧ r.parentRangeId = r'.parentRangeId ∧ r.start = r'.start ∧
      r.end_ = r'.end_ := by
  rcases interval_of_idInput_eq h with ⟨hstart, hend⟩
  rw [idInput, idInput, hstart, hend] at h
  simp only [List.append_assoc, List.append_cancel_left_eq] at h
  rcases ByteArr.append_inj h with ⟨hroot, hparent⟩
  rw [List.append_cancel_right_eq] at hparent
  exact ⟨hroot, optionBytes_inj hparent, hstart, hend⟩

/-- Agreement in the fields that are hashed. -/
structure SameHashed (r r' : DnaRange) : Prop where
  rootId : r.rootId = r'.rootId
  origin : r.origin = r'.origin
  start : r.start = r'.start
  end_ : r.end_ = r'.end_
  birthEpoch : r.birthEpoch = r'.birthEpoch
  birthHeight : r.birthHeight = r'.birthHeight
  parentRangeId : r.parentRangeId = r'.parentRangeId
  bridgeTx : r.bridgeTx = r'.bridgeTx
  owner : r.owner = r'.owner

/-- The origin and the bridge transaction have no fixed length, but all sums of their lengths are
different. -/
theorem sameHashed_of_inputs (hid : r.idInput = r'.idInput) (h : r.hashInput = r'.hashInput) :
    SameHashed r r' := by
  rcases idInput_inj hid with ⟨hroot, hparent, hstart, hend⟩
  rw [hashInput, hashInput, hroot, hparent, hstart, hend] at h
  rcases List.append_inj' h (by rw [r.owner.length_eq, r'.owner.length_eq]) with ⟨h, howner⟩
  have hlen : r.origin.bytes.length + (optionBytes r.bridgeTx).length =
      r'.origin.bytes.length + (optionBytes r'.bridgeTx).length := by
    have hlength := congrArg List.length h
    simp only [List.length_append, ByteArr.length_eq] at hlength
    omega
  have hbridgeLen : (optionBytes r.bridgeTx).length = (optionBytes r'.bridgeTx).length := by
    have horigin := length_originBytes r.origin
    have horigin' := length_originBytes r'.origin
    have hbridge := length_optionBytes r.bridgeTx
    have hbridge' := length_optionBytes r'.bridgeTx
    omega
  rcases List.append_inj' h hbridgeLen with ⟨h, hbridge⟩
  rw [List.append_cancel_right_eq] at h
  rcases List.append_inj' h (by rw [ByteArr.length_eq, ByteArr.length_eq]) with ⟨h, hheight⟩
  rcases List.append_inj' h (by rw [ByteArr.length_eq, ByteArr.length_eq]) with ⟨h, hepoch⟩
  simp only [List.append_cancel_right_eq, List.append_cancel_left_eq] at h
  exact
    { rootId := hroot
      origin := originBytes_inj h
      start := hstart
      end_ := hend
      birthEpoch := u64Bytes_inj (ByteArr.ext hepoch)
      birthHeight := u64Bytes_inj (ByteArr.ext hheight)
      parentRangeId := hparent
      bridgeTx := optionBytes_inj hbridge
      owner := ByteArr.ext howner }

/-- What is fed to the hasher when a range is verified. -/
def fed (r : DnaRange) : List (List UInt8) := [r.idInput, r.hashInput]

variable [Blake3]

theorem Minted.of_verify (h : r.verify = true) : Minted r := by
  simp only [DnaRange.verify, Bool.and_eq_true, beq_iff_eq] at h
  exact ⟨h.1.1, h.1.2⟩

/-- Two verified ranges that pass for each other: the same id and the same proof, by a hash function
without collisions. -/
structure Interchangeable (r r' : DnaRange) : Prop where
  verify : r.verify = true
  verify' : r'.verify = true
  rangeId : r.rangeId = r'.rangeId
  proof : r.proof = r'.proof
  injOn : Set.InjOn Blake3.digest {bs | bs ∈ r.fed ∨ bs ∈ r'.fed}

/-- The id and the proof of a verified range determine the fields that are hashed. -/
theorem sameHashed_of_verify (h : Interchangeable r r') : SameHashed r r' := by
  have hminted := Minted.of_verify h.verify
  have hminted' := Minted.of_verify h.verify'
  have hid : r.idInput = r'.idInput := by
    refine h.injOn (Or.inl List.mem_cons_self) (Or.inr List.mem_cons_self) ?_
    have hrange := h.rangeId
    rwa [hminted.rangeId, hminted'.rangeId] at hrange
  have hproof : r.hashInput = r'.hashInput := by
    refine h.injOn (Or.inl (by simp [fed])) (Or.inr (by simp [fed])) ?_
    have hrange := h.proof
    rwa [hminted.proof, hminted'.proof] at hrange
  exact sameHashed_of_inputs hid hproof

end Hashed

section HashedSamples

attribute [local instance] polyBlake3

/-- The same range with another layer, birth timestamp, miner and creating transaction. -/
def sampleForged : DnaRange :=
  { sampleInterval 5 9 with
    layer := .l2
    birthTimestamp := 201
    miner := ByteArr.fill 32 6
    creationTx := some (ByteArr.fill 32 7) }

theorem sample_interchangeable : Interchangeable (sampleInterval 5 9) sampleForged :=
  { verify := by decide +kernel
    verify' := by decide +kernel
    rangeId := rfl
    proof := rfl
    injOn := by
      have hfed : sampleForged.fed = (sampleInterval 5 9).fed := rfl
      simp only [hfed, or_self]
      exact injOn_of_nodup (by decide +kernel) }

theorem sameHashed_of_verify_sample : SameHashed (sampleInterval 5 9) sampleForged :=
  sameHashed_of_verify sample_interchangeable

/-- The other four provenance fields are not determined, none of them. -/
theorem not_determined_of_verify :
    (¬ ∀ r r' : DnaRange, Interchangeable r r' → r.layer = r'.layer) ∧
      (¬ ∀ r r' : DnaRange, Interchangeable r r' → r.birthTimestamp = r'.birthTimestamp) ∧
      (¬ ∀ r r' : DnaRange, Interchangeable r r' → r.miner = r'.miner) ∧
      ¬ ∀ r r' : DnaRange, Interchangeable r r' → r.creationTx = r'.creationTx := by
  refine ⟨fun h => ?_, fun h => ?_, fun h => ?_, fun h => ?_⟩
  all_goals exact absurd (h _ _ sample_interchangeable) (by decide +kernel)

end HashedSamples

end DnaRange
end Core
end Aevum
