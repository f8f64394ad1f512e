import Aevum.Core.Transaction
import Mathlib.Algebra.BigOperators.Intervals
import Mathlib.Algebra.Order.BigOperators.Group.Finset

/-!
# Core.Economics — `economics.rs`

The reward schedule, its closed form, and the coinbase transaction.  Products of type `u128` are
natural numbers: none of them comes near `2 ^ 128`.

* `emitted_eq_min` : the closed form is the sum of the rewards, cut off at the supply cap;
* `scheduled_le_iff` : the cap stops the schedule at height 37100, long before the first halving, so
  that no reward after that can be paid;
* `totalOutputs_createCoinbase` : a coinbase pays the reward and both fee shares.
-/

namespace Aevum
namespace Core

open Lib Crypto

namespace Economics

def sat : UInt64 := 100000000

def initialReward : UInt64 := 10000 * sat

def halvingInterval : UInt64 := 350000

def maxSupply : UInt64 := 371000000 * sat

def feeBps : UInt64 := 10

def devShareBps : UInt64 := 1000

def blockReward (height : UInt64) : UInt64 :=
  let halving := height / halvingInterval
  if halving ≥ 63 then 0 else initialReward >>> halving

def emitted (height : UInt64) : UInt64 :=
  let h := min height (halvingInterval * 63)
  let fullPeriods := h / halvingInterval
  let remainder := h % halvingInterval
  let twoInitialInterval : Nat := 2 * initialReward.toNat * halvingInterval.toNat
  let completeSum : Nat :=
    if fullPeriods = 0 then 0
    else if fullPeriods ≥ 63 then twoInitialInterval
    else twoInitialInterval - twoInitialInterval >>> fullPeriods.toNat
  let currentReward : Nat :=
    if fullPeriods ≥ 63 then 0 else initialReward.toNat >>> fullPeriods.toNat
  let rest := currentReward * remainder.toNat
  UInt64.ofNat (min (completeSum + rest) maxSupply.toNat)

/-- `(net_miner_fee, dev_share)`. -/
def fee (amount : UInt64) : UInt64 × UInt64 :=
  let gross := max (amount.satMul feeBps / 10000) 1
  let dev := gross.satMul devShareBps / 10000
  (gross.satSub dev, dev)

def createCoinbase [ForeignTypes] [Blake3] (miner : PublicKey) (height fees : UInt64)
    (dev : PublicKey) (supply epoch : UInt64) : Except String Transaction :=
  if supply > maxSupply then .error "invalid supply parameter"
  else
    let base := blockReward height
    let (netFee, devCut) := fee fees
    let minerReward := base.satAdd netFee
    let total := minerReward.satAdd devCut
    if supply.satAdd total > maxSupply then .error "supply cap exceeded"
    else
      let outputs := TxOutput.newCoinbase miner minerReward epoch 0 ::
        if devCut > 0 then [TxOutput.newCoinbase dev devCut epoch 1] else []
      .ok (Transaction.newRaw 1 2 [] outputs 0 epoch height).computeHash

def halving (height : UInt64) : UInt64 := height / halvingInterval

/-! ## The schedule -/

/-- The rewards of all heights below `h`. -/
def scheduled (h : ℕ) : ℕ := ∑ k ∈ Finset.range h, (blockReward (UInt64.ofNat k)).toNat

theorem scheduled_succ (h : ℕ) :
    scheduled (h + 1) = scheduled h + (blockReward (UInt64.ofNat h)).toNat :=
  Finset.sum_range_succ _ h

theorem scheduled_mono {h h' : ℕ} (hle : h ≤ h') : scheduled h ≤ scheduled h' :=
  Finset.sum_le_sum_of_subset (Finset.range_subset_range.2 hle)

theorem blockReward_eq (height : UInt64) :
    blockReward height = if halving height ≥ 63 then 0 else initialReward >>> halving height := rfl

theorem toNat_halving (height : UInt64) : (halving height).toNat = height.toNat / 350000 :=
  UInt64.toNat_div height halvingInterval

/-- Before the first halving. -/
theorem toNat_blockReward {height : UInt64} (h : height.toNat < 350000) :
    (blockReward height).toNat = 1000000000000 := by
  have hzero : halving height = 0 := by
    refine UInt64.toNat_inj.1 ?_
    rw [toNat_halving]
    exact Nat.div_eq_of_lt h
  rw [blockReward_eq, hzero]
  rfl

theorem scheduled_eq {h : ℕ} (hle : h ≤ 350000) : scheduled h = h * 1000000000000 := by
  induction h with
  | zero => rfl
  | succ h ih =>
      have hheight : (UInt64.ofNat h).toNat = h :=
        UInt64.toNat_ofNat_of_lt' (Nat.lt_trans hle (by decide))
      rw [scheduled_succ, ih (by omega), toNat_blockReward (by omega)]
      omega

theorem toNat_maxSupply : maxSupply.toNat = 37100 * 1000000000000 := rfl

/-- The cap is reached with the reward of height 37099. -/
theorem maxSupply_le_scheduled {h : ℕ} (hle : 37100 ≤ h) : maxSupply.toNat ≤ scheduled h := by
  calc
    maxSupply.toNat = scheduled 37100 := by rw [scheduled_eq (by omega), toNat_maxSupply]
    _ ≤ scheduled h := scheduled_mono hle

theorem scheduled_le_iff (h : ℕ) : scheduled h ≤ maxSupply.toNat ↔ h ≤ 37100 := by
  constructor
  · intro hle
    by_contra hgt
    have hmono := scheduled_mono (Nat.lt_of_not_le hgt)
    rw [scheduled_eq (by omega)] at hmono
    rw [toNat_maxSupply] at hle
    omega
  · intro hle
    rw [scheduled_eq (by omega), toNat_maxSupply]
    omega

/-! ## The closed form -/

/-- What `emitted` computes before it is cut off. -/
def closedForm (height : UInt64) : ℕ :=
  let h := min height (halvingInterval * 63)
  let fullPeriods := h / halvingInterval
  let twoInitialInterval : Nat := 2 * initialReward.toNat * halvingInterval.toNat
  (if fullPeriods = 0 then 0
    else if fullPeriods ≥ 63 then twoInitialInterval
    else twoInitialInterval - twoInitialInterval >>> fullPeriods.toNat) +
  (if fullPeriods ≥ 63 then 0 else initialReward.toNat >>> fullPeriods.toNat) *
    (h % halvingInterval).toNat

theorem toNat_emitted (height : UInt64) :
    (emitted height).toNat = min (closedForm height) maxSupply.toNat := by
  refine UInt64.toNat_ofNat_of_lt' (lt_of_le_of_lt (Nat.min_le_right _ _) ?_)
  decide

/-- The height is cut off after the last halving. -/
theorem toNat_min_height (height : UInt64) :
    (min height (halvingInterval * 63)).toNat = min height.toNat 22050000 :=
  UInt64.toNat_min height (halvingInterval * 63)

/-- The number of complete periods before a height, as a number. -/
theorem toNat_fullPeriods (height : UInt64) :
    (min height (halvingInterval * 63) / halvingInterval).toNat =
      min height.toNat 22050000 / 350000 := by
  rw [UInt64.toNat_div, toNat_min_height]
  rfl

/-- In the first period the series has no complete term. -/
theorem closedForm_of_lt {height : UInt64} (h : height.toNat < 350000) :
    closedForm height = height.toNat * 1000000000000 := by
  have hzero : min height (halvingInterval * 63) / halvingInterval = 0 := by
    refine UInt64.toNat_inj.1 ?_
    rw [toNat_fullPeriods, UInt64.toNat_zero]
    omega
  have hrest : (min height (halvingInterval * 63) % halvingInterval).toNat = height.toNat := by
    have hinterval : halvingInterval.toNat = 350000 := rfl
    rw [UInt64.toNat_mod, toNat_min_height, hinterval]
    omega
  simp only [closedForm, hzero, hrest, if_true]
  rw [if_neg (by decide), UInt64.toNat_zero, Nat.shiftRight_zero, Nat.zero_add, Nat.mul_comm]
  rfl

/-- The first period alone is worth more than the cap. -/
theorem maxSupply_le_closedForm {height : UInt64} (h : 350000 ≤ height.toNat) :
    maxSupply.toNat ≤ closedForm height := by
  have hpos : 1 ≤ (min height (halvingInterval * 63) / halvingInterval).toNat := by
    rw [toNat_fullPeriods]
    omega
  have hne : min height (halvingInterval * 63) / halvingInterval ≠ 0 := by
    intro hzero
    rw [hzero] at hpos
    cases hpos
  -- of the whole series at most half is missing
  have hhalf : (2 * initialReward.toNat * halvingInterval.toNat) >>>
      (min height (halvingInterval * 63) / halvingInterval).toNat ≤
        2 * initialReward.toNat * halvingInterval.toNat / 2 ^ 1 := by
    rw [Nat.shiftRight_eq_div_pow]
    exact Nat.div_le_div_left (Nat.pow_le_pow_right (by decide) hpos) (by decide)
  have htotal : 2 * initialReward.toNat * halvingInterval.toNat = 700000000000000000 := rfl
  refine le_trans ?_ (Nat.le_add_right _ _)
  rw [if_neg hne, toNat_maxSupply]
  rw [htotal] at hhalf ⊢
  split <;> omega

/-- The closed form is the block-by-block emission, cut off at the supply cap. -/
theorem emitted_eq_min (height : UInt64) :
    (emitted height).toNat = min maxSupply.toNat (scheduled height.toNat) := by
  rw [toNat_emitted, Nat.min_comm]
  by_cases h : height.toNat < 350000
  · rw [closedForm_of_lt h, scheduled_eq (Nat.le_of_lt h)]
  · -- both sides are cut off
    have hle : 350000 ≤ height.toNat := Nat.le_of_not_lt h
    rw [Nat.min_eq_left (maxSupply_le_closedForm hle),
      Nat.min_eq_left (maxSupply_le_scheduled (by omega))]

/-! ## Paying the schedule -/

/-- After the first halving. -/
theorem blockReward_le {height : UInt64} (h : 350000 ≤ height.toNat) :
    (blockReward height).toNat ≤ 500000000000 := by
  have hpos : 1 ≤ (halving height).toNat := by
    rw [toNat_halving]
    omega
  rw [blockReward_eq]
  split
  · exact Nat.zero_le _
  · next hlt =>
      have hsmall : (halving height).toNat < 63 :=
        UInt64.lt_iff_toNat_lt.1 (UInt64.not_le.1 hlt)
      rw [UInt64.toNat_shiftRight, Nat.mod_eq_of_lt (by omega), Nat.shiftRight_eq_div_pow]
      exact Nat.div_le_div_left (Nat.pow_le_pow_right (by decide) hpos) (by decide)

/-- After the last halving. -/
theorem blockReward_eq_zero {height : UInt64} (h : 22050000 ≤ height.toNat) :
    blockReward height = 0 := by
  have hge : halving height ≥ 63 := by
    have hsixtyThree : (63 : UInt64).toNat = 63 := rfl
    refine UInt64.le_iff_toNat_le.2 ?_
    rw [toNat_halving, hsixtyThree]
    omega
  rw [blockReward_eq, if_pos hge]

/-- All rewards together are a word. -/
theorem scheduled_lt {h : ℕ} (hle : h ≤ 2 ^ 64) : scheduled h < 2 ^ 64 := by
  have hbound : scheduled h ≤
      1000000000000 * min h 350000 + 500000000000 * (min h 22050000 - 350000) := by
    induction h with
    | zero => exact Nat.zero_le _
    | succ h ih =>
        have hstep := ih (by omega)
        have hheight : (UInt64.ofNat h).toNat = h := UInt64.toNat_ofNat_of_lt' (by exact hle)
        rw [scheduled_succ]
        -- the three parts of the schedule
        by_cases hfirst : h < 350000
        · have hreward : (blockReward (UInt64.ofNat h)).toNat = 1000000000000 :=
            toNat_blockReward (by omega)
          omega
        by_cases hlast : h < 22050000
        · have hreward : (blockReward (UInt64.ofNat h)).toNat ≤ 500000000000 :=
            blockReward_le (by omega)
          omega
        · have hreward : (blockReward (UInt64.ofNat h)).toNat = 0 := by
            rw [blockReward_eq_zero (by omega)]
            rfl
          omega
  omega

section Coinbase

variable [ForeignTypes] [Blake3] {miner dev : PublicKey} {height fees supply epoch : UInt64}

/-- A coinbase is made exactly when the supply has room for the reward and both fee shares. -/
theorem createCoinbase_isOk_iff :
    (createCoinbase miner height fees dev supply epoch).isOk = true ↔
      supply.toNat + (blockReward height).toNat + (fee fees).1.toNat + (fee fees).2.toNat ≤
        maxSupply.toNat := by
  have hsupply : supply > maxSupply ↔ maxSupply.toNat < supply.toNat := UInt64.lt_iff_toNat_lt
  have htotal : supply.satAdd (((blockReward height).satAdd (fee fees).1).satAdd (fee fees).2) >
      maxSupply ↔ maxSupply.toNat <
        supply.toNat + (blockReward height).toNat + (fee fees).1.toNat + (fee fees).2.toNat := by
    -- below the largest word nothing is cut off
    have hmax : maxSupply.toNat < 2 ^ 64 - 1 := by decide
    rw [gt_iff_lt, UInt64.lt_iff_toNat_lt]
    simp only [UInt64.toNat_satAdd]
    omega
  unfold createCoinbase
  by_cases hinvalid : supply > maxSupply
  · rw [if_pos hinvalid]
    have hlt := hsupply.1 hinvalid
    constructor
    · intro h
      cases h
    · intro hle
      omega
  · rw [if_neg hinvalid]
    by_cases hexceeded : supply.satAdd
        (((blockReward height).satAdd (fee fees).1).satAdd (fee fees).2) > maxSupply
    · simp only [if_pos hexceeded]
      have hlt := htotal.1 hexceeded
      constructor
      · intro h
        cases h
      · intro hle
        omega
    · simp only [if_neg hexceeded]
      constructor
      · intro _
        exact Nat.le_of_not_lt fun hlt => hexceeded (htotal.2 hlt)
      · intro _
        rfl

/-- The schedule fits the cap up to height 37100.  With the rewards of all lower heights as the
supply, the coinbase of a height can be made if its own reward and the fee shares still fit. -/
theorem schedule_fits_iff (miner dev : PublicKey) (height fees epoch : UInt64) :
    (scheduled height.toNat ≤ maxSupply.toNat ↔ height.toNat ≤ 37100) ∧
      ((createCoinbase miner height fees dev (UInt64.ofNat (scheduled height.toNat))
          epoch).isOk = true ↔
        (height.toNat + 1) * 1000000000000 + (fee fees).1.toNat + (fee fees).2.toNat ≤
          maxSupply.toNat) := by
  refine ⟨scheduled_le_iff height.toNat, ?_⟩
  have hsupply : (UInt64.ofNat (scheduled height.toNat)).toNat = scheduled height.toNat :=
    UInt64.toNat_ofNat_of_lt' (scheduled_lt (Nat.le_of_lt height.toNat_lt))
  rw [createCoinbase_isOk_iff, hsupply]
  by_cases h : height.toNat < 350000
  · rw [scheduled_eq (Nat.le_of_lt h), toNat_blockReward h]
    omega
  · -- beyond the first halving both sides are false
    have hmono := scheduled_mono (Nat.le_of_not_lt h)
    rw [scheduled_eq (le_refl _)] at hmono
    rw [toNat_maxSupply]
    omega

end Coinbase

section Sample

attribute [local instance] polyBlake3 unitTypes

/-- At height 37100 the rewards so far are the whole supply, and there are none left to pay. -/
theorem schedule_exceeds :
    ¬ scheduled 37101 ≤ maxSupply.toNat ∧
      createCoinbase (sampleKey 1) 37100 0 (sampleKey 2) (UInt64.ofNat (scheduled 37100)) 0 =
        .error "supply cap exceeded" := by
  refine ⟨fun h => ?_, ?_⟩
  · have hle := (scheduled_le_iff 37101).1 h
    omega
  · rw [scheduled_eq (by decide)]
    rfl

end Sample

/-! ## What a coinbase pays -/

theorem toNat_gross (amount : UInt64) :
    (max (amount.satMul feeBps / 10000) 1).toNat =
      max (min (amount.toNat * 10) (2 ^ 64 - 1) / 10000) 1 := by
  have hmax : ∀ a b : UInt64, (max a b).toNat = max a.toNat b.toNat := UInt64.toNat_max
  rw [hmax, UInt64.toNat_div, UInt64.toNat_satMul]
  rfl

/-- The developer gets a tenth of the fee. -/
theorem toNat_devShare (amount : UInt64) :
    (fee amount).2.toNat = max (min (amount.toNat * 10) (2 ^ 64 - 1) / 10000) 1 / 10 := by
  have hshare : (fee amount).2.toNat =
      min ((max (amount.satMul feeBps / 10000) 1).toNat * 1000) (2 ^ 64 - 1) / 10000 := by
    rw [fee, UInt64.toNat_div, UInt64.toNat_satMul]
    rfl
  rw [hshare, toNat_gross]
  omega

/-- The two shares add up to a thousandth of the amount, but to one satoshi at least. -/
theorem fee_total (amount : UInt64) :
    (fee amount).1.toNat + (fee amount).2.toNat =
      max (min (amount.toNat * 10) (2 ^ 64 - 1) / 10000) 1 := by
  have hnet : (fee amount).1.toNat =
      (max (amount.satMul feeBps / 10000) 1).toNat - (fee amount).2.toNat := by
    rw [fee, UInt64.toNat_satSub]
  rw [hnet, toNat_gross, toNat_devShare]
  omega

section Payment

variable [ForeignTypes] [Blake3] {miner dev : PublicKey} {height fees supply epoch : UInt64}
  {tx : Transaction}

/-- The amounts of all outputs together. -/
def totalOutputs (tx : Transaction) : ℕ := (tx.outputs.map fun o => o.amount.toNat).sum

/-- The transaction that is made. -/
theorem createCoinbase_ok (h : createCoinbase miner height fees dev supply epoch = .ok tx) :
    tx = (Transaction.newRaw 1 2 []
      (TxOutput.newCoinbase miner ((blockReward height).satAdd (fee fees).1) epoch 0 ::
        if (fee fees).2 > 0 then [TxOutput.newCoinbase dev (fee fees).2 epoch 1] else [])
      0 epoch height).computeHash := by
  unfold createCoinbase at h
  split at h
  · cases h
  · simp only at h
    split at h
    · cases h
    · exact (Except.ok.inj h).symm

/-- The miner is paid the reward and the net fee; the developer has an output of its own if its
share is not zero. -/
theorem outputs_createCoinbase (h : createCoinbase miner height fees dev supply epoch = .ok tx) :
    tx.outputs =
      TxOutput.newCoinbase miner ((blockReward height).satAdd (fee fees).1) epoch 0 ::
        if (fee fees).2 > 0 then [TxOutput.newCoinbase dev (fee fees).2 epoch 1] else [] := by
  rw [createCoinbase_ok h]
  rfl

/-- What a coinbase adds to the supply fits below the cap. -/
theorem room_of_createCoinbase (h : createCoinbase miner height fees dev supply epoch = .ok tx) :
    supply.toNat + (blockReward height).toNat + (fee fees).1.toNat + (fee fees).2.toNat ≤
      maxSupply.toNat := by
  have hok : (createCoinbase miner height fees dev supply epoch).isOk = true := by
    rw [h]
    rfl
  exact createCoinbase_isOk_iff.1 hok

/-- What the outputs pay together. -/
theorem totalOutputs_createCoinbase
    (h : createCoinbase miner height fees dev supply epoch = .ok tx) :
    totalOutputs tx =
      (blockReward height).toNat + ((fee fees).1.toNat + (fee fees).2.toNat) := by
  have hroom := room_of_createCoinbase h
  have hsum : ((blockReward height).satAdd (fee fees).1).toNat =
      (blockReward height).toNat + (fee fees).1.toNat := by
    have hmax : maxSupply.toNat < 2 ^ 64 - 1 := by decide
    rw [UInt64.toNat_satAdd]
    omega
  rw [totalOutputs, outputs_createCoinbase h, List.map_cons, List.sum_cons]
  have hminer : (TxOutput.newCoinbase miner ((blockReward height).satAdd (fee fees).1) epoch
      0).amount.toNat = (blockReward height).toNat + (fee fees).1.toNat := hsum
  have hdev : ((if (fee fees).2 > 0 then [TxOutput.newCoinbase dev (fee fees).2 epoch 1]
      else []).map fun o => o.amount.toNat).sum = (fee fees).2.toNat := by
    split
    · rfl
    · next hzero => exact (UInt64.toNat_of_not_pos hzero).symm
  rw [hminer, hdev, Nat.add_assoc]

/-- A coinbase never breaks the supply cap.  It pays no more than the reward and the fees exactly
when there are fees: out of none it still pays the minimum of one satoshi. -/
theorem coinbase_earned_iff (h : createCoinbase miner height fees dev supply epoch = .ok tx) :
    (totalOutputs tx ≤ (blockReward height).toNat + fees.toNat ∧
      supply.toNat + totalOutputs tx ≤ maxSupply.toNat) ↔ fees ≥ 1 := by
  have hroom := room_of_createCoinbase h
  have hpositive : fees ≥ 1 ↔ 1 ≤ fees.toNat := UInt64.le_iff_toNat_le
  have hfee := fee_total fees
  rw [hpositive, totalOutputs_createCoinbase h]
  omega

end Payment

section Sample

attribute [local instance] polyBlake3 unitTypes

/-- The coinbase of height 100 with fees of a million satoshis. -/
theorem coinbase_earned_sample :
    ∃ tx, createCoinbase (sampleKey 1) 100 1000000 (sampleKey 2) 0 100 = .ok tx ∧
      ((totalOutputs tx ≤ (blockReward 100).toNat + UInt64.toNat 1000000 ∧
        UInt64.toNat 0 + totalOutputs tx ≤ maxSupply.toNat) ↔ (1000000 : UInt64) ≥ 1) :=
  ⟨_, rfl, coinbase_earned_iff rfl⟩

/-- Without fees the first coinbase pays one satoshi more than its reward. -/
theorem coinbase_unearned :
    ∃ tx, createCoinbase (sampleKey 1) 0 0 (sampleKey 2) 0 0 = .ok tx ∧
      totalOutputs tx = (blockReward 0).toNat + 1 ∧
        ¬ (totalOutputs tx ≤ (blockReward 0).toNat + UInt64.toNat 0 ∧
          UInt64.toNat 0 + totalOutputs tx ≤ maxSupply.toNat) :=
  ⟨_, rfl, by decide +kernel, by decide +kernel⟩

end Sample

end Economics
end Core
end Aevum
