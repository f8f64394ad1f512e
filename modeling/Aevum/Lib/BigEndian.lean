import Aevum.Lib.Word
import Mathlib.Data.Nat.Bitwise
import Mathlib.Tactic.Ring

/-!
# BigEndian — digits, most significant first

`Digits α base` says how the elements of an ordered type stand for the digits of a base.  This file
defines the value of a list of digits and proves:

* `Digits.value_lt_iff`, `Digits.value_le_iff` : lists of one length are ordered, digit by digit,
  like the numbers they stand for;
* `value_words` : bytes may be read in groups of eight, as 64-bit words;
* `log2_beNat_cons`, `findIdx_add_log2` : where the highest bit of a number stands in its bytes;
* `beNat_zipWith_xor`, `xor_lt_xor_iff` : byte strings differ like their numbers, and which of two
  numbers differs less from a third is told by their highest bits, if these are in different places.
-/

namespace Lib

/-- The elements of `α` as digits. -/
structure Digits (α : Type*) [LT α] (base : ℕ) where
  val : α → ℕ
  val_lt : ∀ a, val a < base
  val_inj : Function.Injective val
  lt_iff : ∀ a b, a < b ↔ val a < val b

namespace Digits

variable {α : Type*} [LT α] {base : ℕ} (d : Digits α base)

/-- The number with the given digits. -/
def value : List α → ℕ
  | [] => 0
  | a :: l => d.val a * base ^ l.length + value l

@[simp] theorem value_nil : d.value [] = 0 := rfl

theorem value_cons (a : α) (l : List α) :
    d.value (a :: l) = d.val a * base ^ l.length + d.value l := rfl

theorem value_append (l l' : List α) :
    d.value (l ++ l') = d.value l * base ^ l'.length + d.value l' := by
  induction l with
  | nil => simp
  | cons a l ih =>
      rw [List.cons_append, value_cons, value_cons, ih, List.length_append, pow_add]
      ring

theorem value_lt_pow (l : List α) : d.value l < base ^ l.length := by
  induction l with
  | nil => simp
  | cons a l ih =>
      calc
        d.value (a :: l) < d.val a * base ^ l.length + base ^ l.length :=
          Nat.add_lt_add_left ih _
        _ = (d.val a + 1) * base ^ l.length := by ring
        _ ≤ base * base ^ l.length := Nat.mul_le_mul_right _ (d.val_lt a)
        _ = base ^ (a :: l).length := by rw [List.length_cons, pow_succ, Nat.mul_comm]

/-- Digit by digit, the first difference decides. -/
theorem value_lt_iff {l l' : List α} (hlen : l.length = l'.length) :
    d.value l < d.value l' ↔ l < l' := by
  induction l generalizing l' with
  | nil =>
      cases l' with
      | nil => simp
      | cons b l' => cases hlen
  | cons a l ih =>
      cases l' with
      | nil => cases hlen
      | cons b l' =>
          rw [List.length_cons, List.length_cons, Nat.succ_inj] at hlen
          rw [List.cons_lt_cons_iff, ← ih hlen, d.lt_iff, value_cons, value_cons, ← hlen]
          have hl := d.value_lt_pow l
          have hl' := d.value_lt_pow l'
          rw [← hlen] at hl'
          rcases Nat.lt_trichotomy (d.val a) (d.val b) with hlt | heq | hgt
          · -- the leading digit outweighs all the others
            have hmul := Nat.mul_le_mul_right (base ^ l.length) hlt
            rw [Nat.succ_mul] at hmul
            exact iff_of_true (by omega) (Or.inl hlt)
          · rw [heq, Nat.add_lt_add_iff_left]
            constructor
            · exact fun hlt => Or.inr ⟨d.val_inj heq, hlt⟩
            · rintro (hlt | ⟨-, hlt⟩)
              · exact (Nat.lt_irrefl _ hlt).elim
              · exact hlt
          · have hmul := Nat.mul_le_mul_right (base ^ l.length) hgt
            rw [Nat.succ_mul] at hmul
            refine iff_of_false (by omega) ?_
            rintro (hlt | ⟨rfl, -⟩)
            · exact Nat.lt_asymm hlt hgt
            · exact Nat.lt_irrefl _ hgt

theorem value_le_iff {l l' : List α} (hlen : l.length = l'.length) :
    d.value l ≤ d.value l' ↔ l ≤ l' := by
  rw [← Nat.not_lt, d.value_lt_iff hlen.symm]
  rfl

end Digits

/-! ## Bytes and words -/

/-- Bytes as digits. -/
def byteDigits : Digits UInt8 256 where
  val := UInt8.toNat
  val_lt a := a.toNat_lt
  val_inj _ _ h := UInt8.toNat_inj.1 h
  lt_iff _ _ := UInt8.lt_iff_toNat_lt

/-- 64-bit words as digits. -/
def wordDigits : Digits UInt64 (2 ^ 64) where
  val := UInt64.toNat
  val_lt a := a.toNat_lt
  val_inj _ _ h := UInt64.toNat_inj.1 h
  lt_iff _ _ := UInt64.lt_iff_toNat_lt

/-- The number with the given bytes, most significant first. -/
def beNat (bytes : List UInt8) : ℕ := byteDigits.value bytes

/-- `u64::from_be_bytes`. -/
def u64FromBeBytes (bytes : List UInt8) : UInt64 := UInt64.ofNat (beNat bytes)

theorem toNat_u64FromBeBytes {bytes : List UInt8} (h : bytes.length ≤ 8) :
    (u64FromBeBytes bytes).toNat = beNat bytes := by
  have hlt : beNat bytes < 256 ^ bytes.length := byteDigits.value_lt_pow bytes
  have hle : 256 ^ bytes.length ≤ 256 ^ 8 := Nat.pow_le_pow_right (by decide) h
  exact UInt64.toNat_ofNat_of_lt' (Nat.lt_of_lt_of_le hlt hle)

/-- The words of a byte string, eight bytes each. -/
def beWords (n : ℕ) (bytes : List UInt8) : List UInt64 :=
  (List.range n).map fun i => u64FromBeBytes ((bytes.drop (i * 8)).take 8)

@[simp] theorem length_beWords (n : ℕ) (bytes : List UInt8) : (beWords n bytes).length = n := by
  rw [beWords, List.length_map, List.length_range]

theorem beWords_succ (n : ℕ) (bytes : List UInt8) :
    beWords (n + 1) bytes = u64FromBeBytes (bytes.take 8) :: beWords n (bytes.drop 8) := by
  rw [beWords, List.range_succ_eq_map, List.map_cons, List.map_map, Nat.zero_mul, List.drop_zero]
  refine congrArg _ (List.map_congr_left fun i _ => ?_)
  rw [Function.comp_apply, List.drop_drop, Nat.succ_mul, Nat.add_comm]

/-- The words stand for the same number as the bytes. -/
theorem value_words {n : ℕ} {bytes : List UInt8} (h : bytes.length = n * 8) :
    wordDigits.value (beWords n bytes) = beNat bytes := by
  induction n generalizing bytes with
  | zero =>
      rw [Nat.zero_mul, List.length_eq_zero_iff] at h
      rw [h]
      rfl
  | succ n ih =>
      have hdrop : (bytes.drop 8).length = n * 8 := by
        rw [List.length_drop, h]
        omega
      have hword : (u64FromBeBytes (bytes.take 8)).toNat = beNat (bytes.take 8) :=
        toNat_u64FromBeBytes (List.length_take_le 8 bytes)
      have hpow : (2 ^ 64) ^ n = 256 ^ (n * 8) := by
        rw [Nat.mul_comm, pow_mul]
        rfl
      calc
        wordDigits.value (beWords (n + 1) bytes)
            = beNat (bytes.take 8) * (2 ^ 64) ^ n + beNat (bytes.drop 8) := by
          rw [beWords_succ, Digits.value_cons, ih hdrop, length_beWords]
          exact congrArg (· * _ + _) hword
        _ = beNat (bytes.take 8 ++ bytes.drop 8) := by
          rw [hpow, beNat, beNat, beNat, Digits.value_append, hdrop]
        _ = beNat bytes := by rw [List.take_append_drop]

/-! ## The highest bit -/

theorem beNat_cons (b : UInt8) (bytes : List UInt8) :
    beNat (b :: bytes) = b.toNat * 256 ^ bytes.length + beNat bytes := rfl

theorem beNat_zero_cons (bytes : List UInt8) : beNat (0 :: bytes) = beNat bytes := by
  rw [beNat_cons, UInt8.toNat_zero, Nat.zero_mul, Nat.zero_add]

theorem beNat_eq_zero {bytes : List UInt8} : beNat bytes = 0 ↔ ∀ b ∈ bytes, b = 0 := by
  induction bytes with
  | nil => simp [beNat]
  | cons b bytes ih =>
      have hpow : 256 ^ bytes.length ≠ 0 := (Nat.pow_pos (by decide)).ne'
      rw [beNat_cons, Nat.add_eq_zero_iff, Nat.mul_eq_zero, or_iff_left hpow, ih,
        List.forall_mem_cons, ← UInt8.toNat_inj, UInt8.toNat_zero]

theorem pow_256 (n : ℕ) : 256 ^ n = 2 ^ (8 * n) := by
  rw [pow_mul]
  rfl

theorem beNat_lt (bytes : List UInt8) : beNat bytes < 2 ^ (8 * bytes.length) := by
  rw [← pow_256]
  exact byteDigits.value_lt_pow bytes

theorem log2_beNat_lt {bytes : List UInt8} (h : beNat bytes ≠ 0) :
    Nat.log2 (beNat bytes) < 8 * bytes.length :=
  (Nat.log2_lt h).2 (beNat_lt bytes)

theorem log2_byte_lt {b : UInt8} (hb : b ≠ 0) : Nat.log2 b.toNat < 8 := by
  rw [Nat.log2_lt fun hzero => hb (UInt8.toNat_inj.1 hzero)]
  exact b.toNat_lt

theorem sub_leadingZeros {b : UInt8} (hb : b ≠ 0) : 7 - b.leadingZeros = Nat.log2 b.toNat := by
  have hlog := log2_byte_lt hb
  rw [UInt8.leadingZeros, if_neg hb]
  omega

/-- The highest bit is the one of the leading byte. -/
theorem log2_beNat_cons {b : UInt8} (hb : b ≠ 0) (bytes : List UInt8) :
    Nat.log2 (beNat (b :: bytes)) = 8 * bytes.length + Nat.log2 b.toNat := by
  have hpos : b.toNat ≠ 0 := fun hzero => hb (UInt8.toNat_inj.1 hzero)
  have hrest : beNat bytes < 256 ^ bytes.length := byteDigits.value_lt_pow bytes
  have hlow : 2 ^ Nat.log2 b.toNat ≤ b.toNat := Nat.log2_self_le hpos
  have hhigh : b.toNat + 1 ≤ 2 ^ (Nat.log2 b.toNat + 1) := Nat.lt_log2_self
  have hne : beNat (b :: bytes) ≠ 0 :=
    fun hzero => hb (beNat_eq_zero.1 hzero b List.mem_cons_self)
  rw [Nat.log2_eq_iff hne, beNat_cons]
  constructor
  · calc
      2 ^ (8 * bytes.length + Nat.log2 b.toNat)
          = 2 ^ Nat.log2 b.toNat * 256 ^ bytes.length := by rw [pow_add, pow_256, Nat.mul_comm]
      _ ≤ b.toNat * 256 ^ bytes.length := Nat.mul_le_mul_right _ hlow
      _ ≤ b.toNat * 256 ^ bytes.length + beNat bytes := Nat.le_add_right _ _
  · calc
      b.toNat * 256 ^ bytes.length + beNat bytes
          < b.toNat * 256 ^ bytes.length + 256 ^ bytes.length := Nat.add_lt_add_left hrest _
      _ = (b.toNat + 1) * 256 ^ bytes.length := by rw [Nat.succ_mul]
      _ ≤ 2 ^ (Nat.log2 b.toNat + 1) * 256 ^ bytes.length := Nat.mul_le_mul_right _ hhigh
      _ = 2 ^ (8 * bytes.length + Nat.log2 b.toNat + 1) := by
        rw [pow_256, ← pow_add, Nat.add_comm, Nat.add_assoc]

/-- The first byte that is not zero stands as far from the front as its bits from the end. -/
theorem findIdx_add_log2 {bytes : List UInt8} (h : beNat bytes ≠ 0) :
    bytes.findIdx (fun b => b ≠ 0) + Nat.log2 (beNat bytes) / 8 + 1 = bytes.length := by
  induction bytes with
  | nil => exact (h rfl).elim
  | cons b bytes ih =>
      rw [List.findIdx_cons, List.length_cons]
      by_cases hb : b = 0
      · rw [hb, beNat_zero_cons] at h
        have hrest := ih h
        rw [decide_eq_false (not_not.2 hb), cond_false, hb, beNat_zero_cons]
        omega
      · have hlog := log2_byte_lt hb
        rw [log2_beNat_cons hb, decide_eq_true hb, cond_true]
        omega

/-! ## Differences -/

theorem beNat_inj {as bs : List UInt8} (hlen : as.length = bs.length) (h : beNat as = beNat bs) :
    as = bs := by
  have hle : as ≤ bs := (byteDigits.value_le_iff hlen).1 (Nat.le_of_eq h)
  have hge : bs ≤ as := (byteDigits.value_le_iff hlen.symm).1 (Nat.le_of_eq h.symm)
  exact List.le_antisymm hle hge

theorem beNat_zipWith_xor {as bs : List UInt8} (hlen : as.length = bs.length) :
    beNat (List.zipWith (· ^^^ ·) as bs) = beNat as ^^^ beNat bs := by
  induction as generalizing bs with
  | nil =>
      cases bs with
      | nil => rfl
      | cons b bs => cases hlen
  | cons a as ih =>
      cases bs with
      | nil => cases hlen
      | cons b bs =>
          rw [List.length_cons, List.length_cons, Nat.succ_inj] at hlen
          have hcons : ∀ (c : UInt8) (l : List UInt8),
              beNat (c :: l) = 2 ^ (8 * l.length) * c.toNat + beNat l := by
            intro c l
            rw [beNat_cons, pow_256, Nat.mul_comm]
          have hlength : (List.zipWith (· ^^^ ·) as bs).length = bs.length := by
            rw [List.length_zipWith, hlen, min_self]
          have hlowAs := beNat_lt as
          have hlowXor := beNat_lt (List.zipWith (· ^^^ ·) as bs)
          rw [hlen] at hlowAs
          rw [hlength] at hlowXor
          rw [List.zipWith_cons_cons, hcons, hcons, hcons, hlength, hlen, UInt8.toNat_xor]
          -- the bits of the leading byte stand above all others
          refine Nat.eq_of_testBit_eq fun j => ?_
          rw [Nat.testBit_xor, Nat.testBit_two_pow_mul_add _ hlowXor,
            Nat.testBit_two_pow_mul_add _ hlowAs, Nat.testBit_two_pow_mul_add _ (beNat_lt bs),
            ih hlen]
          split <;> exact Nat.testBit_xor _ _ _

/-- What has its highest bit at `b` differs less from `d` than what has it at `b'`. -/
def NearerBit (d b b' : ℕ) : Prop :=
  b' < b ∧ d.testBit b = true ∨ b < b' ∧ d.testBit b' = false

instance (d b b' : ℕ) : Decidable (NearerBit d b b') :=
  inferInstanceAs (Decidable (b' < b ∧ d.testBit b = true ∨ b < b' ∧ d.testBit b' = false))

theorem nearerBit_total (d : ℕ) {b b' : ℕ} (hne : b ≠ b') :
    NearerBit d b b' ∨ NearerBit d b' b := by
  rcases Nat.lt_or_gt_of_ne hne with hlt | hgt
  · cases hbit : d.testBit b' with
    | false => exact Or.inl (Or.inr ⟨hlt, hbit⟩)
    | true => exact Or.inr (Or.inl ⟨hlt, hbit⟩)
  · cases hbit : d.testBit b with
    | false => exact Or.inr (Or.inr ⟨hgt, hbit⟩)
    | true => exact Or.inl (Or.inl ⟨hgt, hbit⟩)

theorem NearerBit.ne {d b b' : ℕ} (h : NearerBit d b b') : b ≠ b' := by
  rcases h with ⟨hlt, -⟩ | ⟨hlt, -⟩
  · exact hlt.ne'
  · exact hlt.ne

/-- The higher of the two highest bits is the first place where the two differences are not the
same; there the difference of `a` has the opposite of the bit of `d`. -/
theorem xor_lt_xor_of_log2_lt {a b : ℕ} (d : ℕ) (hlt : Nat.log2 b < Nat.log2 a) :
    (d.testBit (Nat.log2 a) = true → a ^^^ d < b ^^^ d) ∧
      (d.testBit (Nat.log2 a) = false → b ^^^ d < a ^^^ d) := by
  have ha : a.testBit (Nat.log2 a) = true := by
    refine Nat.testBit_log2 ?_
    rintro rfl
    exact Nat.not_lt_zero _ hlt
  have habove : ∀ {n j : ℕ}, Nat.log2 n < j → n.testBit j = false := by
    intro n j hj
    have hpow : 2 ^ (Nat.log2 n + 1) ≤ 2 ^ j := Nat.pow_le_pow_right (by decide) hj
    exact Nat.testBit_lt_two_pow (Nat.lt_log2_self.trans_le hpow)
  have hb := habove hlt
  have hagree : ∀ j, Nat.log2 a < j → (a ^^^ d).testBit j = (b ^^^ d).testBit j := by
    intro j hj
    rw [Nat.testBit_xor, Nat.testBit_xor, habove hj, habove (hlt.trans hj)]
  constructor
  · intro hd
    refine Nat.lt_of_testBit (Nat.log2 a) ?_ ?_ hagree
    · rw [Nat.testBit_xor, ha, hd, Bool.xor_self]
    · rw [Nat.testBit_xor, hb, hd, Bool.false_xor]
  · intro hd
    refine Nat.lt_of_testBit (Nat.log2 a) ?_ ?_ fun j hj => (hagree j hj).symm
    · rw [Nat.testBit_xor, hb, hd, Bool.xor_self]
    · rw [Nat.testBit_xor, ha, hd, Bool.xor_false]

/-- Of numbers with their highest bits in different places, these places say which is nearer. -/
theorem xor_lt_xor_iff {a b : ℕ} (d : ℕ) (hne : Nat.log2 a ≠ Nat.log2 b) :
    a ^^^ d < b ^^^ d ↔ NearerBit d (Nat.log2 a) (Nat.log2 b) := by
  have himp : ∀ {a b : ℕ}, NearerBit d (Nat.log2 a) (Nat.log2 b) → a ^^^ d < b ^^^ d := by
    rintro a b (⟨hlt, hbit⟩ | ⟨hlt, hbit⟩)
    · exact (xor_lt_xor_of_log2_lt d hlt).1 hbit
    · exact (xor_lt_xor_of_log2_lt d hlt).2 hbit
  refine ⟨fun hlt => ?_, himp⟩
  rcases nearerBit_total d hne with hnear | hfar
  · exact hnear
  · exact (Nat.lt_asymm hlt (himp hfar)).elim

end Lib
