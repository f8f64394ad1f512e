import Mathlib.Data.UInt
import Mathlib.Data.List.Basic
import Mathlib.Order.Bounds.Basic

/-!
# Word — 64-bit arithmetic and byte strings

Saturating and checked operations on `UInt64` with their meaning in `ℕ`, fixed-length byte arrays,
and little-endian encodings.  Every lemma about an operation is stated through `UInt64.toNat`, so
that proofs about machine words become linear arithmetic.
-/

namespace UInt64

/-- The largest word. -/
def maxValue : UInt64 := 18446744073709551615

/-- Addition that stops at the largest word. -/
def satAdd (a b : UInt64) : UInt64 :=
  if a.toNat + b.toNat < 2 ^ 64 then a + b else maxValue

/-- Subtraction that stops at zero. -/
def satSub (a b : UInt64) : UInt64 :=
  if b ≤ a then a - b else 0

/-- Multiplication that stops at the largest word. -/
def satMul (a b : UInt64) : UInt64 :=
  if a.toNat * b.toNat < 2 ^ 64 then a * b else maxValue

/-- Addition that fails on overflow. -/
def checkedAdd (a b : UInt64) : Option UInt64 :=
  if a.toNat + b.toNat < 2 ^ 64 then some (a + b) else none

/-- Subtraction that fails below zero. -/
def checkedSub (a b : UInt64) : Option UInt64 :=
  if b ≤ a then some (a - b) else none

/-- Multiplication that fails on overflow. -/
def checkedMul (a b : UInt64) : Option UInt64 :=
  if a.toNat * b.toNat < 2 ^ 64 then some (a * b) else none

/-- The number of zero bits above the highest one. -/
def leadingZeros (a : UInt64) : Nat :=
  if a = 0 then 64 else 63 - Nat.log2 a.toNat

@[simp] theorem toNat_maxValue : maxValue.toNat = 2 ^ 64 - 1 := rfl

theorem toNat_le_max (a : UInt64) : a.toNat ≤ 2 ^ 64 - 1 :=
  Nat.le_sub_one_of_lt a.toNat_lt

theorem toNat_add_of_lt {a b : UInt64} (h : a.toNat + b.toNat < 2 ^ 64) :
    (a + b).toNat = a.toNat + b.toNat := by
  rw [UInt64.toNat_add]
  exact Nat.mod_eq_of_lt h

@[simp] theorem toNat_satAdd (a b : UInt64) :
    (a.satAdd b).toNat = min (a.toNat + b.toNat) (2 ^ 64 - 1) := by
  unfold satAdd
  split
  · rename_i h
    rw [toNat_add_of_lt h]
    omega
  · rename_i h
    rw [toNat_maxValue]
    omega

@[simp] theorem toNat_satSub (a b : UInt64) : (a.satSub b).toNat = a.toNat - b.toNat := by
  unfold satSub
  split
  · rename_i h
    exact UInt64.toNat_sub_of_le a b h
  · rename_i h
    have hlt : a.toNat < b.toNat := UInt64.lt_iff_toNat_lt.1 (UInt64.not_le.1 h)
    simp only [UInt64.toNat_zero]
    omega

@[simp] theorem toNat_satMul (a b : UInt64) :
    (a.satMul b).toNat = min (a.toNat * b.toNat) (2 ^ 64 - 1) := by
  unfold satMul
  split
  · rename_i h
    rw [UInt64.toNat_mul, Nat.mod_eq_of_lt h]
    omega
  · rename_i h
    rw [toNat_maxValue]
    omega

/-- The order of words, with what is known of linear orders. -/
@[reducible] def linearOrder : LinearOrder UInt64 where
  le_refl _ := UInt64.le_refl _
  le_trans _ _ _ := UInt64.le_trans
  lt_iff_le_not_ge := Std.LawfulOrderLT.lt_iff
  le_antisymm _ _ := UInt64.le_antisymm
  le_total := UInt64.le_total
  min_def _ _ := rfl
  max_def _ _ := rfl
  toDecidableLE := inferInstance
  toDecidableEq := inferInstance
  toDecidableLT := inferInstance

theorem zero_max (a : UInt64) : max 0 a = a :=
  @max_eq_right _ linearOrder _ _ UInt64.zero_le

theorem maxValue_min (a : UInt64) : min maxValue a = a :=
  @min_eq_right _ linearOrder _ _ (UInt64.le_iff_toNat_le.2 a.toNat_le_max)

theorem isGreatest_insert {s : Set UInt64} {a b : UInt64} (h : IsGreatest s b) :
    IsGreatest (insert a s) (max b a) := by
  let := linearOrder
  rw [max_comm]
  exact h.insert a

theorem isLeast_insert {s : Set UInt64} {a b : UInt64} (h : IsLeast s b) :
    IsLeast (insert a s) (min b a) := by
  let := linearOrder
  rw [min_comm]
  exact h.insert a

theorem toNat_of_not_pos {a : UInt64} (h : ¬ a > 0) : a.toNat = 0 := by
  rw [Decidable.not_not.1 (mt UInt64.pos_iff_ne_zero.2 h), UInt64.toNat_zero]

theorem checkedAdd_eq_some {a b c : UInt64} :
    a.checkedAdd b = some c ↔ a.toNat + b.toNat = c.toNat := by
  unfold checkedAdd
  split
  · rename_i h
    rw [Option.some_inj, ← UInt64.toNat_inj, toNat_add_of_lt h]
  · rename_i h
    have hc := c.toNat_lt
    constructor
    · intro hnone
      cases hnone
    · intro heq
      omega

theorem checkedSub_of_le {a b : UInt64} (h : b.toNat ≤ a.toNat) :
    a.checkedSub b = some (a - b) :=
  if_pos (UInt64.le_iff_toNat_le.2 h)

/-- A sum that is a word can be computed. -/
theorem exists_checkedAdd {a b : UInt64} (h : a.toNat + b.toNat < 2 ^ 64) :
    ∃ c, a.checkedAdd b = some c :=
  ⟨a + b, if_pos h⟩

theorem checkedMul_eq_some {a b c : UInt64} :
    a.checkedMul b = some c ↔ a.toNat * b.toNat = c.toNat := by
  unfold checkedMul
  split
  · rename_i h
    rw [Option.some_inj, ← UInt64.toNat_inj, UInt64.toNat_mul, Nat.mod_eq_of_lt h]
  · rename_i h
    have hc := c.toNat_lt
    constructor
    · intro hnone
      cases hnone
    · intro heq
      omega

theorem exists_checkedMul_iff {a b : UInt64} :
    (∃ c, a.checkedMul b = some c) ↔ a.toNat * b.toNat < 2 ^ 64 := by
  constructor
  · rintro ⟨c, hc⟩
    rw [checkedMul_eq_some.1 hc]
    exact c.toNat_lt
  · intro h
    exact ⟨a * b, if_pos h⟩

/-- Summing with checked additions succeeds with `t` exactly when `t` is the true sum. -/
theorem foldlM_checkedAdd {α : Type*} (f : α → UInt64) (xs : List α) (acc t : UInt64) :
    xs.foldlM (fun acc x => acc.checkedAdd (f x)) acc = some t ↔
      acc.toNat + (xs.map fun x => (f x).toNat).sum = t.toNat := by
  induction xs generalizing acc with
  | nil =>
      simp [UInt64.toNat_inj]
  | cons x xs ih =>
      simp only [List.foldlM_cons, List.map_cons, List.sum_cons, Option.bind_eq_bind,
        Option.bind_eq_some_iff]
      constructor
      · rintro ⟨a, ha, hrest⟩
        have hsum := checkedAdd_eq_some.1 ha
        have htail := (ih a).1 hrest
        omega
      · intro hsum
        have hlt : acc.toNat + (f x).toNat < 2 ^ 64 := by
          have := t.toNat_lt
          omega
        refine ⟨acc + f x, checkedAdd_eq_some.2 (toNat_add_of_lt hlt).symm, (ih _).2 ?_⟩
        rw [toNat_add_of_lt hlt]
        omega

/-- Summing with wrapping additions gives the true sum, where that is a word. -/
theorem toNat_foldl_add {α : Type*} (f : α → UInt64) (xs : List α) (acc : UInt64)
    (h : acc.toNat + (xs.map fun x => (f x).toNat).sum < 2 ^ 64) :
    (xs.foldl (fun acc x => acc + f x) acc).toNat =
      acc.toNat + (xs.map fun x => (f x).toNat).sum := by
  induction xs generalizing acc with
  | nil => rfl
  | cons x xs ih =>
      rw [List.map_cons, List.sum_cons] at h ⊢
      have hadd : (acc + f x).toNat = acc.toNat + (f x).toNat := toNat_add_of_lt (by omega)
      rw [List.foldl_cons, ih _ (by omega), hadd, Nat.add_assoc]

end UInt64

/-- Addition that stops at the largest 16-bit word. -/
def UInt16.satAdd (a b : UInt16) : UInt16 :=
  if a.toNat + b.toNat < 2 ^ 16 then a + b else 65535

/-- The number of zero bits above the highest one of a byte. -/
def UInt8.leadingZeros (a : UInt8) : Nat :=
  if a = 0 then 8 else 7 - Nat.log2 a.toNat

namespace Lib

/-! ## Sizes -/

/-- The largest `usize` of a 64-bit target. -/
def usizeMax : Nat := 2 ^ 64 - 1

/-- `usize::saturating_add`. -/
def usizeSatAdd (a b : Nat) : Nat := min (a + b) usizeMax

/-- `usize::saturating_mul`. -/
def usizeSatMul (a b : Nat) : Nat := min (a * b) usizeMax

/-! ## Byte strings -/

/-- A byte array of fixed length. -/
structure ByteArr (n : Nat) where
  bytes : List UInt8
  length_eq : bytes.length = n

namespace ByteArr

variable {n : Nat}

@[ext] theorem ext {a b : ByteArr n} (h : a.bytes = b.bytes) : a = b := by
  cases a
  cases b
  cases h
  rfl

instance : DecidableEq (ByteArr n) := fun a b =>
  decidable_of_iff (a.bytes = b.bytes) ⟨ext, fun h => h ▸ rfl⟩

theorem bytes_inj {a b : ByteArr n} : a.bytes = b.bytes ↔ a = b :=
  ⟨ext, fun h => h ▸ rfl⟩

/-- The array of one repeated byte. -/
def fill (n : Nat) (b : UInt8) : ByteArr n :=
  ⟨List.replicate n b, List.length_replicate⟩

/-- Splitting two concatenations that start with arrays of the same length. -/
theorem append_inj {a b : ByteArr n} {xs ys : List UInt8} (h : a.bytes ++ xs = b.bytes ++ ys) :
    a = b ∧ xs = ys := by
  have hlen : a.bytes.length = b.bytes.length := by rw [a.length_eq, b.length_eq]
  rcases List.append_inj h hlen with ⟨hab, hxy⟩
  exact ⟨ext hab, hxy⟩

/-- The same at the end, behind byte strings of any lengths. -/
theorem append_inj_right {a b : ByteArr n} {xs ys : List UInt8}
    (h : xs ++ a.bytes = ys ++ b.bytes) : xs = ys ∧ a = b := by
  have hlen : a.bytes.length = b.bytes.length := by rw [a.length_eq, b.length_eq]
  rcases List.append_inj' h hlen with ⟨hxy, hab⟩
  exact ⟨hxy, ext hab⟩

/-- Concatenated arrays of one positive length can be told apart. -/
theorem flatMap_bytes_inj (hn : 0 < n) {l l' : List (ByteArr n)}
    (h : l.flatMap bytes = l'.flatMap bytes) : l = l' := by
  have hne : ∀ (a : ByteArr n) (xs : List UInt8), a.bytes ++ xs ≠ [] := by
    intro a xs hnil
    have hlen := a.length_eq
    rw [(List.append_eq_nil_iff.1 hnil).1, List.length_nil] at hlen
    omega
  induction l generalizing l' with
  | nil =>
      cases l' with
      | nil => rfl
      | cons a' l' => exact (hne a' _ h.symm).elim
  | cons a l ih =>
      cases l' with
      | nil => exact (hne a _ h).elim
      | cons a' l' =>
          rw [List.flatMap_cons, List.flatMap_cons] at h
          rcases append_inj h with ⟨ha, hrest⟩
          rw [ha, ih hrest]

/-- Arrays are compared byte by byte, the first difference decides. -/
instance : LE (ByteArr n) := ⟨fun a b => a.bytes ≤ b.bytes⟩

instance : DecidableLE (ByteArr n) := fun a b =>
  inferInstanceAs (Decidable (a.bytes ≤ b.bytes))

theorem le_antisymm {a b : ByteArr n} (hab : a ≤ b) (hba : b ≤ a) : a = b :=
  ext (List.le_antisymm hab hba)

instance : Std.IsLinearOrder (ByteArr n) where
  le_refl a := List.le_refl a.bytes
  le_trans _ _ _ := List.le_trans
  le_total a b := List.le_total a.bytes b.bytes
  le_antisymm _ _ := le_antisymm

end ByteArr

/-- The bytes of an ASCII literal. -/
def ascii (s : String) : List UInt8 :=
  s.toList.map fun c => c.toNat.toUInt8

/-- Neither byte string starts with the other. -/
def Separated (p q : List UInt8) : Prop :=
  ¬ p <+: q ∧ ¬ q <+: p

instance (p q : List UInt8) : Decidable (Separated p q) :=
  inferInstanceAs (Decidable (¬ p <+: q ∧ ¬ q <+: p))

theorem Separated.append_ne {p q : List UInt8} (h : Separated p q) (xs ys : List UInt8) :
    p ++ xs ≠ q ++ ys := by
  intro heq
  have hp : p <+: q ++ ys := ⟨xs, heq⟩
  rcases List.prefix_or_prefix_of_prefix hp (List.prefix_append q ys) with hpq | hqp
  · exact h.1 hpq
  · exact h.2 hqp

/-- The `k` low bytes of `x`, least significant first. -/
def leBytes : Nat → Nat → List UInt8
  | 0, _ => []
  | k + 1, x => UInt8.ofNat (x % 256) :: leBytes k (x / 256)

@[simp] theorem length_leBytes (k x : Nat) : (leBytes k x).length = k := by
  induction k generalizing x with
  | zero => rfl
  | succ k ih => simp [leBytes, ih]

theorem leBytes_inj {k x y : Nat} (hx : x < 256 ^ k) (hy : y < 256 ^ k)
    (h : leBytes k x = leBytes k y) : x = y := by
  induction k generalizing x y with
  | zero =>
      rw [pow_zero] at hx hy
      omega
  | succ k ih =>
      simp only [leBytes, List.cons.injEq] at h
      rcases h with ⟨hhead, htail⟩
      have hlow : x % 256 = y % 256 := by
        have hnat := congrArg UInt8.toNat hhead
        simp only [UInt8.toNat_ofNat'] at hnat
        omega
      rw [pow_succ] at hx hy
      have hhigh : x / 256 = y / 256 :=
        ih (Nat.div_lt_of_lt_mul (by omega)) (Nat.div_lt_of_lt_mul (by omega)) htail
      omega

/-- The number with the given bytes, least significant first. -/
def leNat : List UInt8 → Nat
  | [] => 0
  | b :: bs => b.toNat + 256 * leNat bs

theorem leNat_leBytes {k x : Nat} (hx : x < 256 ^ k) : leNat (leBytes k x) = x := by
  induction k generalizing x with
  | zero =>
      rw [pow_zero] at hx
      simp only [leBytes, leNat]
      omega
  | succ k ih =>
      rw [pow_succ] at hx
      rw [leBytes, leNat, ih (Nat.div_lt_of_lt_mul (by omega)), UInt8.toNat_ofNat']
      omega

theorem leNat_lt (bs : List UInt8) : leNat bs < 256 ^ bs.length := by
  induction bs with
  | nil => exact Nat.one_pos
  | cons b bs ih =>
      have hb := b.toNat_lt
      rw [leNat, List.length_cons, pow_succ]
      omega

theorem leBytes_leNat (bs : List UInt8) : leBytes bs.length (leNat bs) = bs := by
  induction bs with
  | nil => rfl
  | cons b bs ih =>
      have hb := b.toNat_lt
      have hlow : (b.toNat + 256 * leNat bs) % 256 = b.toNat := by omega
      have hhigh : (b.toNat + 256 * leNat bs) / 256 = leNat bs := by omega
      rw [List.length_cons, leNat, leBytes, hlow, hhigh, ih, UInt8.ofNat_toNat]

/-- The bytes of a wider number start with those of its low part. -/
theorem leBytes_add (j k x : Nat) : leBytes (j + k) x = leBytes j x ++ leBytes k (x / 256 ^ j) := by
  induction j generalizing x with
  | zero => simp [leBytes]
  | succ j ih =>
      rw [Nat.succ_add, leBytes, leBytes, ih, List.cons_append, Nat.div_div_eq_div_mul, pow_succ,
        Nat.mul_comm]

/-- `u64::to_le_bytes`. -/
def u64Bytes (x : UInt64) : ByteArr 8 :=
  ⟨leBytes 8 x.toNat, length_leBytes 8 x.toNat⟩

/-- `u32::to_le_bytes`. -/
def u32Bytes (x : UInt32) : ByteArr 4 :=
  ⟨leBytes 4 x.toNat, length_leBytes 4 x.toNat⟩

/-- `(len as u32).to_le_bytes()`; the cast keeps the low four bytes. -/
def lenBytes (len : Nat) : ByteArr 4 :=
  ⟨leBytes 4 len, length_leBytes 4 len⟩

/-- A `usize` as eight bytes. -/
def sizeBytes (n : Nat) : ByteArr 8 :=
  ⟨leBytes 8 n, length_leBytes 8 n⟩

/-- Eight bytes start with the low four. -/
theorem sizeBytes_eq (n : Nat) :
    (sizeBytes n).bytes = (lenBytes n).bytes ++ leBytes 4 (n / 2 ^ 32) :=
  leBytes_add 4 4 n

/-- `u16::to_le_bytes`. -/
def u16Bytes (x : UInt16) : ByteArr 2 :=
  ⟨leBytes 2 x.toNat, length_leBytes 2 x.toNat⟩

/-- Eight bytes are those of the word that they spell. -/
theorem u64Bytes_ofNat_leNat {bs : List UInt8} (h : bs.length = 8) :
    (u64Bytes (UInt64.ofNat (leNat bs))).bytes = bs := by
  have hlt : leNat bs < 2 ^ 64 := by
    have hlt := leNat_lt bs
    rw [h] at hlt
    exact hlt
  change leBytes 8 (UInt64.ofNat (leNat bs)).toNat = bs
  rw [UInt64.toNat_ofNat_of_lt' hlt, ← h, leBytes_leNat]

theorem u32Bytes_ofNat_leNat {bs : List UInt8} (h : bs.length = 4) :
    (u32Bytes (UInt32.ofNat (leNat bs))).bytes = bs := by
  have hlt : leNat bs < 2 ^ 32 := by
    have hlt := leNat_lt bs
    rw [h] at hlt
    exact hlt
  change leBytes 4 (UInt32.ofNat (leNat bs)).toNat = bs
  rw [UInt32.toNat_ofNat_of_lt' hlt, ← h, leBytes_leNat]

theorem u64Bytes_inj {x y : UInt64} (h : u64Bytes x = u64Bytes y) : x = y := by
  have hbytes : leBytes 8 x.toNat = leBytes 8 y.toNat := congrArg ByteArr.bytes h
  exact UInt64.toNat_inj.1 (leBytes_inj x.toNat_lt y.toNat_lt hbytes)

theorem u32Bytes_inj {x y : UInt32} (h : u32Bytes x = u32Bytes y) : x = y := by
  have hbytes : leBytes 4 x.toNat = leBytes 4 y.toNat := congrArg ByteArr.bytes h
  exact UInt32.toNat_inj.1 (leBytes_inj x.toNat_lt y.toNat_lt hbytes)

theorem u16Bytes_inj {x y : UInt16} (h : u16Bytes x = u16Bytes y) : x = y := by
  have hbytes : leBytes 2 x.toNat = leBytes 2 y.toNat := congrArg ByteArr.bytes h
  exact UInt16.toNat_inj.1 (leBytes_inj x.toNat_lt y.toNat_lt hbytes)

/-- Below `2 ^ 32` the cast to `u32` loses nothing. -/
theorem lenBytes_inj {n m : Nat} (hn : n < 2 ^ 32) (hm : m < 2 ^ 32)
    (h : lenBytes n = lenBytes m) : n = m :=
  leBytes_inj hn hm (congrArg ByteArr.bytes h)

theorem sizeBytes_inj {n m : Nat} (hn : n < 2 ^ 64) (hm : m < 2 ^ 64)
    (h : sizeBytes n = sizeBytes m) : n = m :=
  leBytes_inj hn hm (congrArg ByteArr.bytes h)

end Lib
