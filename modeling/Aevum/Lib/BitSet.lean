import Mathlib.Data.Nat.Bitwise
import Mathlib.Data.List.Basic

/-!
# BitSet — sets of numbers packed into 64-bit words

A list of words stands for the set of the numbers whose bit is set: bit `i % 64` of word `i / 64`.
Setting a bit inserts its number and changes nothing else (`testBit_setBit`).
-/

namespace Lib
namespace BitSet

/-- The word with one bit, for the number `i`. -/
def mask (i : Nat) : UInt64 :=
  1 <<< UInt64.ofNat (i % 64)

def testBit (words : List UInt64) (i : Nat) : Bool :=
  (words[i / 64]?.getD 0) &&& mask i != 0

def setBit (words : List UInt64) (i : Nat) : List UInt64 :=
  words.modify (i / 64) (· ||| mask i)

variable {words : List UInt64} {i j : Nat}

theorem toNat_mask (i : Nat) : (mask i).toNat = 2 ^ (i % 64) := by
  have hlt : i % 64 < 64 := Nat.mod_lt i (by decide)
  have hpow : 2 ^ (i % 64) < 2 ^ 64 := Nat.pow_lt_pow_right (by decide) hlt
  have hword : i % 64 < 2 ^ 64 := Nat.lt_of_lt_of_le hlt (by decide)
  rw [mask, UInt64.toNat_shiftLeft, UInt64.toNat_ofNat', UInt64.toNat_one, Nat.mod_eq_of_lt hword,
    Nat.mod_eq_of_lt hlt, Nat.one_shiftLeft, Nat.mod_eq_of_lt hpow]

theorem and_mask_ne_zero (w : UInt64) (i : Nat) :
    (w &&& mask i != 0) = w.toNat.testBit (i % 64) := by
  rw [Bool.eq_iff_iff, bne_iff_ne, ne_eq, ← UInt64.toNat_inj, UInt64.toNat_and, toNat_mask,
    Nat.and_two_pow, UInt64.toNat_zero]
  cases w.toNat.testBit (i % 64) <;> simp

theorem testBit_eq (words : List UInt64) (i : Nat) :
    testBit words i = (words[i / 64]?.getD 0).toNat.testBit (i % 64) :=
  and_mask_ne_zero _ i

@[simp] theorem length_setBit (words : List UInt64) (i : Nat) :
    (setBit words i).length = words.length := by
  simp [setBit]

/-- Setting a bit inserts its number. -/
theorem testBit_setBit (h : i / 64 < words.length) :
    testBit (setBit words i) j = (decide (j = i) || testBit words j) := by
  rw [testBit_eq, testBit_eq, setBit, List.getElem?_modify]
  by_cases hword : i / 64 = j / 64
  · rw [← hword, List.getElem?_eq_getElem h]
    -- in the same word, numbers agree when their bits do
    have hbit : i % 64 = j % 64 ↔ j = i := by omega
    simp [toNat_mask, Nat.testBit_two_pow, hbit, Bool.or_comm]
  · have hne : j ≠ i := fun heq => hword (by rw [heq])
    simp [hword, hne]

/-- Lists of equally many words that stand for one set are equal. -/
theorem ext {words' : List UInt64} (hlength : words.length = words'.length)
    (h : ∀ i, testBit words i = testBit words' i) : words = words' := by
  refine List.ext_getElem hlength fun n hn hn' => ?_
  refine UInt64.toNat_inj.1 (Nat.eq_of_testBit_eq fun j => ?_)
  by_cases hj : j < 64
  · have hword : (n * 64 + j) / 64 = n := by omega
    have hbit : (n * 64 + j) % 64 = j := by omega
    have heq := h (n * 64 + j)
    rw [testBit_eq, testBit_eq, hword, hbit, List.getElem?_eq_getElem hn,
      List.getElem?_eq_getElem hn'] at heq
    exact heq
  · -- no word has a bit that high
    have hpow : 2 ^ 64 ≤ 2 ^ j := Nat.pow_le_pow_right (by decide) (Nat.le_of_not_lt hj)
    rw [Nat.testBit_lt_two_pow (words[n].toNat_lt.trans_le hpow),
      Nat.testBit_lt_two_pow (words'[n].toNat_lt.trans_le hpow)]

/-! ## Setting many bits -/

@[simp] theorem length_foldl_setBit (is : List Nat) (words : List UInt64) :
    (is.foldl setBit words).length = words.length := by
  induction is generalizing words with
  | nil => rfl
  | cons i is ih => rw [List.foldl_cons, ih, length_setBit]

theorem testBit_foldl_setBit {is : List Nat} (h : ∀ i ∈ is, i / 64 < words.length) :
    testBit (is.foldl setBit words) j ↔ j ∈ is ∨ testBit words j := by
  induction is generalizing words with
  | nil => simp
  | cons i is ih =>
      rw [List.forall_mem_cons] at h
      rw [List.foldl_cons, ih (by simpa using h.2), testBit_setBit h.1]
      simp [List.mem_cons, or_left_comm, or_assoc]

end BitSet
end Lib
