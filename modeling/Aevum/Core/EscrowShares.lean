import Aevum.Core.Escrow
import Aevum.Core.Economics

/-!
# Core.EscrowShares — how an escrow divides what it holds

The amounts that `distribute_reward` pays are counted by key, since one key may be a miner, the
winner and the customer at once.

* `distribution_exact` : along every run, if the products and sums are words, a distribution pays
  each miner the floor of its share, the winner the bonus and the customer the rest;
* `overflowFree_iff` : shares are multiplied by the reward, so not every number of them will do.
-/

namespace Aevum
namespace Core

open Lib Crypto

namespace EscrowContract

/-! ## Subtractions -/

/-- `distribute_reward` where a subtraction below zero ends the call, like the other operations. -/
def distributeRewardChecked (c : EscrowContract) : Option (List Payout) :=
  if c.minerShares.isEmpty then some []
  else do
    let poolFee ← c.poolFee
    let remaining ← c.totalReward.checkedSub poolFee
    let bonus ← c.winnerBonus remaining
    let base ← remaining.checkedSub bonus
    let totalShares ← sumAmounts c.minerShares
    if totalShares = 0 then some []
    else do
      let payouts ← sharePayouts base totalShares c.minerShares
      let payouts ← c.payBonus bonus payouts
      let totalPaid ← sumAmounts payouts
      let refund ← remaining.checkedSub totalPaid
      some (if refund > 0 then payouts ++ [(c.customer, refund)] else payouts)

/-- `refund` in the same way. -/
def refundChecked (c : EscrowContract) : Option (EscrowContract × List Payout) := do
  let poolFee ← c.poolFee
  let remaining ← c.totalReward.checkedSub poolFee
  some ({ c with status := .refunded }, [(c.customer, remaining)])

variable {c c' : EscrowContract} {l l' : List Payout} {key k : PublicKey}

theorem poolFee_le (hrates : c.Rates) {fee : UInt64} (h : c.poolFee = some fee) :
    fee.toNat ≤ c.totalReward.toNat := by
  rw [toNat_part h]
  exact part_le hrates.poolFee

/-- No subtraction of a distribution goes below zero. -/
theorem distributeRewardChecked_eq (hrates : c.Rates) :
    c.distributeRewardChecked = c.distributeReward := by
  unfold distributeRewardChecked distributeReward
  split
  · rfl
  refine Option.bind_congr fun fee hfee => ?_
  rw [UInt64.checkedSub_of_le (poolFee_le hrates hfee), Option.bind_eq_bind, Option.bind_some]
  refine Option.bind_congr fun bonus hbonus => ?_
  have hbonusLe := winnerBonus_le hrates hbonus
  rw [UInt64.checkedSub_of_le hbonusLe, Option.bind_eq_bind, Option.bind_some]
  refine Option.bind_congr fun totalShares hshares => ?_
  split
  · rfl
  next hne =>
  refine Option.bind_congr fun shared hshared => ?_
  refine Option.bind_congr fun paid hpaid => ?_
  refine Option.bind_congr fun totalPaid htotal => ?_
  have hle : totalPaid.toNat ≤ (c.totalReward - fee).toNat := by
    rw [toNat_sumAmounts htotal]
    exact total_paid_le hbonusLe (toNat_sumAmounts hshares)
      (Nat.pos_of_ne_zero (mt (total_eq_zero_iff hshares).1 hne)) hshared hpaid
  rw [UInt64.checkedSub_of_le hle, Option.bind_some]

theorem refundChecked_eq (hrates : c.Rates) : c.refundChecked = c.refund := by
  unfold refundChecked refund
  refine Option.bind_congr fun fee hfee => ?_
  rw [UInt64.checkedSub_of_le (poolFee_le hrates hfee), Option.bind_eq_bind, Option.bind_some]

/-! ## Amounts by key -/

/-- What the entries of a key add up to. -/
def amountOf (key : PublicKey) (l : List Payout) : ℕ :=
  (l.map fun e => if e.1 = key then e.2.toNat else 0).sum

@[simp] theorem amountOf_nil (key : PublicKey) : amountOf key [] = 0 := rfl

@[simp] theorem amountOf_cons (key : PublicKey) (e : Payout) (l : List Payout) :
    amountOf key (e :: l) = (if e.1 = key then e.2.toNat else 0) + amountOf key l :=
  List.sum_cons

@[simp] theorem amountOf_append (key : PublicKey) (l l' : List Payout) :
    amountOf key (l ++ l') = amountOf key l + amountOf key l' := by
  simp [amountOf]

theorem amountOf_le_total (key : PublicKey) (l : List Payout) : amountOf key l ≤ total l := by
  induction l with
  | nil => exact Nat.zero_le _
  | cons e rest ih =>
      rw [amountOf_cons, total_cons]
      split <;> omega

theorem amountOf_of_notMem (h : key ∉ l.map Prod.fst) : amountOf key l = 0 := by
  induction l with
  | nil => rfl
  | cons e rest ih =>
      rw [List.map_cons, List.mem_cons, not_or] at h
      rw [amountOf_cons, if_neg (Ne.symm h.1), ih h.2]

/-- A key with one entry has what the entry says. -/
theorem amountOf_of_mem (hnodup : (l.map Prod.fst).Nodup) {e : Payout} (he : e ∈ l) :
    amountOf e.1 l = e.2.toNat := by
  induction l with
  | nil => cases he
  | cons e' rest ih =>
      rw [List.map_cons, List.nodup_cons] at hnodup
      rcases List.mem_cons.1 he with rfl | he
      · rw [amountOf_cons, if_pos rfl, amountOf_of_notMem hnodup.1, Nat.add_zero]
      · have hne : e'.1 ≠ e.1 := fun heq => hnodup.1 (heq ▸ List.mem_map_of_mem he)
        rw [amountOf_cons, if_neg hne, Nat.zero_add, ih hnodup.2 he]

/-- A property of the amounts of all entries, or of all keys. -/
theorem forall_mem_iff_amountOf (hnodup : (l.map Prod.fst).Nodup) {P : ℕ → Prop} (hzero : P 0) :
    (∀ e ∈ l, P e.2.toNat) ↔ ∀ key, P (amountOf key l) := by
  constructor
  · intro h key
    by_cases hkey : key ∈ l.map Prod.fst
    · rcases List.mem_map.1 hkey with ⟨e, he, rfl⟩
      rw [amountOf_of_mem hnodup he]
      exact h e he
    · rw [amountOf_of_notMem hkey]
      exact hzero
  · intro h e he
    rw [← amountOf_of_mem hnodup he]
    exact h e.1

/-! ## Credits -/

section Credit

variable {amount : UInt64}

theorem amountOf_credit (h : credit key amount l = some l') (k : PublicKey) :
    amountOf k l' = amountOf k l + if key = k then amount.toNat else 0 := by
  induction l generalizing l' with
  | nil =>
      cases h
      simp
  | cons e rest ih =>
      rw [credit] at h
      split at h
      · next hkey =>
          rcases Option.map_eq_some_iff.1 h with ⟨sum, hsum, rfl⟩
          have hadd := UInt64.checkedAdd_eq_some.1 hsum
          rw [amountOf_cons, amountOf_cons, hkey, ← hadd]
          split <;> omega
      · rcases Option.map_eq_some_iff.1 h with ⟨rest', hrest, rfl⟩
        rw [amountOf_cons, amountOf_cons, ih hrest, Nat.add_assoc]

theorem mem_keys_credit (h : credit key amount l = some l') (hk : k ∈ l'.map Prod.fst) :
    k = key ∨ k ∈ l.map Prod.fst := by
  induction l generalizing l' with
  | nil =>
      cases h
      exact Or.inl (List.mem_singleton.1 hk)
  | cons e rest ih =>
      rw [credit] at h
      split at h
      · rcases Option.map_eq_some_iff.1 h with ⟨sum, -, rfl⟩
        exact Or.inr hk
      · rcases Option.map_eq_some_iff.1 h with ⟨rest', hrest, rfl⟩
        rcases List.mem_cons.1 hk with rfl | hk
        · exact Or.inr List.mem_cons_self
        · exact (ih hrest hk).imp_right (List.mem_cons_of_mem e.1)

/-- A credit keeps the keys distinct. -/
theorem nodup_credit (h : credit key amount l = some l') (hnodup : (l.map Prod.fst).Nodup) :
    (l'.map Prod.fst).Nodup := by
  induction l generalizing l' with
  | nil =>
      cases h
      exact List.nodup_singleton key
  | cons e rest ih =>
      rw [credit] at h
      split at h
      · rcases Option.map_eq_some_iff.1 h with ⟨sum, -, rfl⟩
        exact hnodup
      · next hne =>
          rcases Option.map_eq_some_iff.1 h with ⟨rest', hrest, rfl⟩
          rw [List.map_cons, List.nodup_cons] at hnodup ⊢
          refine ⟨fun hmem => ?_, ih hrest hnodup.2⟩
          exact (mem_keys_credit hrest hmem).elim hne hnodup.1

theorem exists_credit (h : total l + amount.toNat < 2 ^ 64) :
    ∃ l', credit key amount l = some l' := by
  induction l with
  | nil => exact ⟨[(key, amount)], rfl⟩
  | cons e rest ih =>
      rw [total_cons] at h
      rw [credit]
      split
      · rcases UInt64.exists_checkedAdd (a := e.2) (b := amount) (by omega) with ⟨sum, hsum⟩
        exact ⟨(e.1, sum) :: rest, by rw [hsum]; rfl⟩
      · rcases ih (by omega) with ⟨rest', hrest⟩
        exact ⟨e :: rest', by rw [hrest]; rfl⟩

end Credit

theorem exists_sumAmounts_iff : (∃ sum, sumAmounts l = some sum) ↔ total l < 2 ^ 64 := by
  constructor
  · rintro ⟨sum, hsum⟩
    rw [← toNat_sumAmounts hsum]
    exact sum.toNat_lt
  · intro h
    refine ⟨UInt64.ofNat (total l),
      (UInt64.foldlM_checkedAdd (fun e : Payout => e.2) l 0 _).2 ?_⟩
    rw [UInt64.toNat_ofNat_of_lt' h, UInt64.toNat_zero, Nat.zero_add, total]

/-! ## Shares -/

section Shares

variable {base totalShares : UInt64} {payouts : List Payout}

theorem exists_sharePayouts_iff :
    (∃ payouts, sharePayouts base totalShares l = some payouts) ↔
      ∀ e ∈ l, base.toNat * e.2.toNat < 2 ^ 64 := by
  induction l with
  | nil =>
      refine iff_of_true ⟨[], rfl⟩ fun e he => ?_
      cases he
  | cons e rest ih =>
      rw [List.forall_mem_cons, ← ih, ← UInt64.exists_checkedMul_iff]
      constructor
      · rintro ⟨payouts, h⟩
        rcases Option.bind_eq_some_iff.1 h with ⟨product, hproduct, h⟩
        rcases Option.bind_eq_some_iff.1 h with ⟨rest', hrest, -⟩
        exact ⟨⟨product, hproduct⟩, rest', hrest⟩
      · rintro ⟨⟨product, hproduct⟩, rest', hrest⟩
        rw [sharePayouts, hproduct, hrest]
        exact ⟨_, rfl⟩

/-- Each key gets the floor of its share. -/
theorem amountOf_sharePayouts (h : sharePayouts base totalShares l = some payouts)
    (hnodup : (l.map Prod.fst).Nodup) (key : PublicKey) :
    amountOf key payouts = base.toNat * amountOf key l / totalShares.toNat := by
  induction l generalizing payouts with
  | nil =>
      cases h
      simp
  | cons e rest ih =>
      rcases sharePayouts_cons h with ⟨amount, rest', hrest, hamount, rfl⟩
      rw [List.map_cons, List.nodup_cons] at hnodup
      have hhead : amountOf key (if amount > 0 then (e.1, amount) :: rest' else rest') =
          (if e.1 = key then amount.toNat else 0) + amountOf key rest' := by
        split
        · exact amountOf_cons _ _ _
        · next hnone => rw [UInt64.toNat_of_not_pos hnone, ite_self, Nat.zero_add]
      rw [hhead, amountOf_cons, ih hrest hnodup.2]
      by_cases hkey : e.1 = key
      · -- the other entries belong to other keys
        have hzero : amountOf key rest = 0 := amountOf_of_notMem (hkey ▸ hnodup.1)
        rw [if_pos hkey, if_pos hkey, hzero, hamount, Nat.mul_zero, Nat.zero_div, Nat.add_zero,
          Nat.add_zero]
      · rw [if_neg hkey, if_neg hkey, Nat.zero_add, Nat.zero_add]

end Shares

/-! ## The division as numbers -/

def bonus (c : EscrowContract) : ℕ :=
  match c.winner with
  | some _ => c.held * c.winnerBonusPercent.toNat / 10000
  | none => 0

/-- What the miners share. -/
def base (c : EscrowContract) : ℕ := c.held - c.bonus

/-- What a miner gets for its shares. -/
def portion (c : EscrowContract) (key : PublicKey) : ℕ :=
  c.base * amountOf key c.minerShares / total c.minerShares

def portions (c : EscrowContract) : ℕ :=
  (c.minerShares.map fun e => c.base * e.2.toNat / total c.minerShares).sum

/-- The products for the fee and the bonus are words. -/
structure TermsFit (c : EscrowContract) : Prop where
  poolFee : c.totalReward.toNat * c.poolFeePercent.toNat < 2 ^ 64
  winnerBonus : c.winner.isSome = true → c.held * c.winnerBonusPercent.toNat < 2 ^ 64

/-- The sum and the products of the shares are words. -/
structure SharesFit (c : EscrowContract) : Prop where
  sum : total c.minerShares < 2 ^ 64
  products : ∀ e ∈ c.minerShares, c.base * e.2.toNat < 2 ^ 64

section Numbers

variable {fee remaining bonus totalShares : UInt64} {shared paid : List Payout}

theorem exists_part {a percent : UInt64} (h : a.toNat * percent.toNat < 2 ^ 64) :
    ∃ part, (a.checkedMul percent).map (· / 10000) = some part := by
  rcases UInt64.exists_checkedMul_iff.2 h with ⟨product, hproduct⟩
  exact ⟨product / 10000, by rw [hproduct]; rfl⟩

theorem toNat_winnerBonus (hremaining : remaining.toNat = c.held)
    (h : c.winnerBonus remaining = some bonus) : bonus.toNat = c.bonus := by
  rw [EscrowContract.winnerBonus] at h
  rw [EscrowContract.bonus]
  cases hwinner : c.winner with
  | none =>
      rw [hwinner] at h
      cases h
      rfl
  | some winner =>
      rw [hwinner] at h
      change bonus.toNat = c.held * c.winnerBonusPercent.toNat / 10000
      rw [toNat_part h, hremaining]

theorem exists_winnerBonus (hfit : c.TermsFit) (hremaining : remaining.toNat = c.held) :
    ∃ bonus, c.winnerBonus remaining = some bonus := by
  rw [EscrowContract.winnerBonus]
  split
  · next hwinner =>
      refine exists_part ?_
      rw [hremaining]
      exact hfit.winnerBonus (by rw [hwinner]; rfl)
  · exact ⟨0, rfl⟩

theorem toNat_base (hrates : c.Rates) (hremaining : remaining.toNat = c.held)
    (h : c.winnerBonus remaining = some bonus) : (remaining - bonus).toNat = c.base := by
  have hle := UInt64.le_iff_toNat_le.2 (winnerBonus_le hrates h)
  rw [UInt64.toNat_sub_of_le _ _ hle, hremaining, toNat_winnerBonus hremaining h, base]

theorem amountOf_payBonus (hremaining : remaining.toNat = c.held)
    (hbonus : c.winnerBonus remaining = some bonus) (h : c.payBonus bonus shared = some paid)
    (key : PublicKey) :
    amountOf key paid = amountOf key shared + if c.winner = some key then c.bonus else 0 := by
  rw [← toNat_winnerBonus hremaining hbonus]
  rw [payBonus] at h
  split at h
  · next winner hwinner =>
      simp only [hwinner, Option.some_inj]
      split at h
      · exact amountOf_credit h key
      · next hnone =>
          cases h
          rw [UInt64.toNat_of_not_pos hnone, ite_self, Nat.add_zero]
  · next hwinner =>
      cases h
      rw [hwinner, if_neg (Option.some_ne_none key).symm, Nat.add_zero]

theorem total_payBonus (hremaining : remaining.toNat = c.held)
    (hbonus : c.winnerBonus remaining = some bonus) (h : c.payBonus bonus shared = some paid) :
    total paid = total shared + c.bonus := by
  rw [← toNat_winnerBonus hremaining hbonus]
  rw [payBonus] at h
  split at h
  · split at h
    · exact total_of_credit h
    · next hnone =>
        cases h
        rw [UInt64.toNat_of_not_pos hnone, Nat.add_zero]
  · next hwinner =>
      cases h
      rw [toNat_winnerBonus hremaining hbonus, EscrowContract.bonus, hwinner, Nat.add_zero]

theorem exists_payBonus (h : total shared + bonus.toNat < 2 ^ 64) :
    ∃ paid, c.payBonus bonus shared = some paid := by
  rw [payBonus]
  split
  · split
    · exact exists_credit h
    · exact ⟨shared, rfl⟩
  · exact ⟨shared, rfl⟩

end Numbers

/-! ## Distributions -/

/-- Where a distribution has a result, the sum and the products of the shares are words. -/
theorem sharesFit_of_distributes (hrates : c.Rates) {payouts : List Payout}
    (h : c.distributeReward = some payouts) : c.SharesFit := by
  rcases distributeReward_cases h with ⟨hzero, -⟩ | ⟨-, fee, bonus, totalShares, totalPaid, shared,
    paid, hdist⟩
  · refine ⟨by rw [hzero]; decide, fun e he => ?_⟩
    -- no shares at all, so no product either
    have hnone : e.2.toNat = 0 := by
      rw [total, List.sum_eq_zero_iff] at hzero
      exact hzero _ (List.mem_map_of_mem he)
    rw [hnone, Nat.mul_zero]
    decide
  · have hbase := toNat_base hrates (toNat_remaining hrates hdist.poolFee) hdist.winnerBonus
    refine ⟨exists_sumAmounts_iff.1 ⟨totalShares, hdist.sum⟩, ?_⟩
    rw [← hbase]
    exact exists_sharePayouts_iff.1 ⟨shared, hdist.shared_eq⟩

section Distributions

variable {fee bonus : UInt64}

/-- A distribution once the fee and the bonus are known. -/
theorem distributeReward_eq (hempty : c.minerShares ≠ []) (hfee : c.poolFee = some fee)
    (hbonus : c.winnerBonus (c.totalReward - fee) = some bonus) :
    c.distributeReward = (sumAmounts c.minerShares).bind fun totalShares =>
      if totalShares = 0 then some []
      else (sharePayouts (c.totalReward - fee - bonus) totalShares c.minerShares).bind
        fun shared => (c.payBonus bonus shared).bind fun paid =>
          (sumAmounts paid).bind fun totalPaid =>
            some (if c.totalReward - fee - totalPaid > 0 then
              paid ++ [(c.customer, c.totalReward - fee - totalPaid)] else paid) := by
  rw [distributeReward, if_neg (mt List.isEmpty_iff.1 hempty), hfee, Option.bind_eq_bind,
    Option.bind_some]
  simp only
  rw [hbonus, Option.bind_eq_bind, Option.bind_some]

theorem distributes_of_fit (hrates : c.Rates) (hempty : c.minerShares ≠ [])
    (hfee : c.poolFee = some fee) (hbonus : c.winnerBonus (c.totalReward - fee) = some bonus)
    (hfit : c.SharesFit) : ∃ payouts, c.distributeReward = some payouts := by
  rw [distributeReward_eq hempty hfee hbonus]
  rcases exists_sumAmounts_iff.2 hfit.sum with ⟨totalShares, hshares⟩
  have hsum := toNat_sumAmounts hshares
  rw [hshares, Option.bind_some]
  split
  · exact ⟨[], rfl⟩
  next hne =>
  have hpos : 0 < total c.minerShares :=
    Nat.pos_of_ne_zero (mt (total_eq_zero_iff hshares).1 hne)
  have hbase := toNat_base hrates (toNat_remaining hrates hfee) hbonus
  rcases exists_sharePayouts_iff.2 (fun e he => hbase ▸ hfit.products e he) with ⟨shared, hshared⟩
  -- the shares and the bonus together are no more than what is held
  have hbonusLe := winnerBonus_le hrates hbonus
  have hsharedLe := total_shared_le hbonusLe hsum hpos hshared
  have hroom := (c.totalReward - fee).toNat_lt
  have hpay : total shared + bonus.toNat < 2 ^ 64 := by omega
  have hexists : ∃ paid, c.payBonus bonus shared = some paid := exists_payBonus hpay
  rcases hexists with ⟨paid, hpaid⟩
  have hpaidLe := total_paid_le hbonusLe hsum hpos hshared hpaid
  rcases exists_sumAmounts_iff.2 (lt_of_le_of_lt hpaidLe hroom) with ⟨totalPaid, htotalPaid⟩
  rw [hshared, Option.bind_some, hpaid, Option.bind_some, htotalPaid, Option.bind_some]
  exact ⟨_, rfl⟩

end Distributions

/-- With the terms of the contract in order, a distribution has a result exactly when the shares
are. -/
theorem distributes_iff (hrates : c.Rates) (hterms : c.TermsFit) :
    (∃ payouts, c.distributeReward = some payouts) ↔ c.SharesFit := by
  by_cases hempty : c.minerShares = []
  · rw [distributeReward, hempty]
    refine iff_of_true ⟨[], rfl⟩ ⟨?_, ?_⟩
    · rw [hempty]
      decide
    · rw [hempty]
      intro e he
      exact (List.not_mem_nil he).elim
  rcases exists_part hterms.poolFee with ⟨fee, hfee⟩
  rcases exists_winnerBonus hterms (toNat_remaining hrates hfee) with ⟨bonus, hbonus⟩
  constructor
  · rintro ⟨payouts, h⟩
    exact sharesFit_of_distributes hrates h
  · exact distributes_of_fit hrates hempty hfee hbonus

theorem amountOf_refund (key customer : PublicKey) (payouts : List Payout) (refund : UInt64) :
    amountOf key (if refund > 0 then payouts ++ [(customer, refund)] else payouts) =
      amountOf key payouts + if customer = key then refund.toNat else 0 := by
  split
  · rw [amountOf_append, amountOf_cons, amountOf_nil, Nat.add_zero]
  · next hnone => rw [UInt64.toNat_of_not_pos hnone, ite_self, Nat.add_zero]

/-- The refund is what the miners' portions leave of the base. -/
theorem toNat_refund (hrates : c.Rates) (hpos : 0 < total c.minerShares)
    {fee bonus totalShares totalPaid : UInt64} {shared paid payouts : List Payout}
    (h : c.Distribution fee bonus totalShares totalPaid shared paid payouts) :
    (c.totalReward - fee - totalPaid).toNat = c.base - c.portions := by
  have hremaining := toNat_remaining hrates h.poolFee
  have hbase := toNat_base hrates hremaining h.winnerBonus
  have hpaid : total paid = c.portions + c.bonus := by
    rw [total_payBonus hremaining h.winnerBonus h.paid_eq, total_sharePayouts h.shared_eq, hbase,
      toNat_sumAmounts h.sum, ← portions]
  rw [UInt64.toNat_sub_of_le _ _ (h.totalPaid_le hrates hpos), hremaining,
    toNat_sumAmounts h.paidSum, hpaid, base]
  omega

/-- What each key is paid: the floor of its share, the bonus if it is the winner, and the rest if it
is the customer. -/
theorem amountOf_distributeReward (hrates : c.Rates) (hnodup : (c.minerShares.map Prod.fst).Nodup)
    (hpos : 0 < total c.minerShares) {payouts : List Payout}
    (h : c.distributeReward = some payouts) (key : PublicKey) :
    amountOf key payouts = c.portion key + (if c.winner = some key then c.bonus else 0) +
      if c.customer = key then c.base - c.portions else 0 := by
  rcases distributeReward_cases h with ⟨hzero, -⟩ | ⟨-, fee, bonus, totalShares, totalPaid, shared,
    paid, hdist⟩
  · exact (Nat.ne_of_gt hpos hzero).elim
  have hremaining := toNat_remaining hrates hdist.poolFee
  have hbase := toNat_base hrates hremaining hdist.winnerBonus
  have hshare : amountOf key shared = c.portion key := by
    rw [amountOf_sharePayouts hdist.shared_eq hnodup, hbase, toNat_sumAmounts hdist.sum, portion]
  rw [hdist.payouts_eq, amountOf_refund, toNat_refund hrates hpos hdist,
    amountOf_payBonus hremaining hdist.winnerBonus hdist.paid_eq, hshare]

/-- The miners' portions never exceed the base. -/
theorem portions_le (hpos : 0 < total c.minerShares) : c.portions ≤ c.base := by
  calc
    c.portions ≤ c.base * total c.minerShares / total c.minerShares := sum_div_le _ _ _
    _ = c.base := Nat.mul_div_cancel _ hpos

/-! ## Runs -/

/-- The shares that calls add. -/
def added (cs : List Call) : List Payout :=
  cs.filterMap fun call =>
    match call with
    | .addShare miner shares => some (miner, shares)
    | _ => none

theorem added_append (cs cs' : List Call) : added (cs ++ cs') = added cs ++ added cs' :=
  List.filterMap_append

variable {c₀ : EscrowContract} {tr : List (Call × List Payout)} {adds : List Payout}

/-- The shares of a contract are those that were added, one entry a miner. -/
structure Recorded (tr : List (Call × List Payout)) (c : EscrowContract) : Prop where
  nodup : (c.minerShares.map Prod.fst).Nodup
  amountOf : ∀ key, amountOf key c.minerShares = amountOf key (added (calls tr))
  total : total c.minerShares = total (added (calls tr))

/-- A call that adds no shares. -/
theorem Recorded.of_same {l : Call × List Payout} (h : Recorded tr c)
    (hshares : c'.minerShares = c.minerShares) (hnone : added [l.1] = []) :
    Recorded (tr ++ [l]) c' := by
  have hadded : added (calls (tr ++ [l])) = added (calls tr) := by
    rw [calls_append, added_append, hnone, List.append_nil]
  refine ⟨hshares ▸ h.nodup, fun key => ?_, ?_⟩
  · rw [hshares, hadded]
    exact h.amountOf key
  · rw [hshares, hadded]
    exact h.total

theorem Recorded.step (h : Recorded tr c) {l : Call × List Payout} (hstep : step c l c') :
    Recorded (tr ++ [l]) c' := by
  cases step_kind hstep with
  | addShare miner shares minerShares hcredit =>
      have hadded : added (calls (tr ++ [(.addShare miner shares, [])])) =
          added (calls tr) ++ [(miner, shares)] := by
        rw [calls_append, added_append]
        rfl
      refine ⟨nodup_credit hcredit h.nodup, fun key => ?_, ?_⟩
      · rw [hadded, amountOf_append, ← h.amountOf key]
        exact amountOf_credit hcredit key
      · rw [hadded, total_append, ← h.total]
        exact total_of_credit hcredit
  | setWinner winner => exact h.of_same rfl rfl
  | distributeReward payouts _ => exact h.of_same rfl rfl
  | refund payouts _ => exact h.of_same rfl rfl

theorem recorded_of_run (hshares : c₀.minerShares = []) (h : Run step c₀ tr c) :
    Recorded tr c := by
  refine RunWith.invariant Recorded ?_ (fun _ _ _ _ _ hrec hstep _ => hrec.step hstep) h
  refine ⟨?_, fun key => ?_, ?_⟩
  · rw [hshares]
    exact List.nodup_nil
  · rw [hshares]
    rfl
  · rw [hshares]
    rfl

section New

variable [Blake3] {customer : PublicKey} {totalReward createdHeight deadlineBlocks : UInt64}
  {taskId : Hash}

theorem fields_new (hnew : new customer totalReward taskId createdHeight deadlineBlocks = some c₀) :
    c₀.totalReward = totalReward ∧ c₀.poolFeePercent = 100 ∧ c₀.minerShares = [] ∧
      c₀.winner = none := by
  rcases Option.bind_eq_some_iff.1 hnew with ⟨deadlineHeight, -, hok⟩
  cases hok
  exact ⟨rfl, rfl, rfl, rfl⟩

theorem held_new (hnew : new customer totalReward taskId createdHeight deadlineBlocks = some c₀) :
    c₀.held = totalReward.toNat - totalReward.toNat * 100 / 10000 := by
  rcases fields_new hnew with ⟨hreward, hfee, -⟩
  rw [held, hreward, hfee]
  rfl

/-- A distribution divides what is held exactly: all of it is paid, each key gets the floor of its
share with the bonus of the winner and the rest of the customer, and no subtraction goes below
zero. -/
theorem distribution_exact
    (hnew : new customer totalReward taskId createdHeight deadlineBlocks = some c₀)
    (hrun : Run step c₀ tr c) (hpos : 0 < total (added (calls tr))) (hterms : c.TermsFit)
    (hfit : c.SharesFit) :
    ∃ payouts, c.distributeReward = some payouts ∧ c.distributeRewardChecked = some payouts ∧
      total payouts = totalReward.toNat - totalReward.toNat * 100 / 10000 ∧
      (∀ key, amountOf key payouts =
        c.base * amountOf key (added (calls tr)) / total (added (calls tr)) +
          (if c.winner = some key then c.bonus else 0) +
          if c.customer = key then c.base - c.portions else 0) ∧
      c.portions ≤ c.base := by
  rcases kept_of_new hnew hrun with ⟨-, -, hkept⟩
  have hrecorded := recorded_of_run (fields_new hnew).2.2.1 hrun
  rw [← hrecorded.total] at hpos
  rcases (distributes_iff hkept.rates hterms).2 hfit with ⟨payouts, hpayouts⟩
  refine ⟨payouts, hpayouts, ?_, ?_, fun key => ?_, portions_le hpos⟩
  · rw [distributeRewardChecked_eq hkept.rates, hpayouts]
  · rw [distributeReward_paid hkept.rates hpayouts, if_pos hpos, hkept.held, held_new hnew]
  · rw [amountOf_distributeReward hkept.rates hrecorded.nodup hpos hpayouts, portion,
      hrecorded.amountOf, hrecorded.total]

end New

section Sample

attribute [local instance] polyBlake3

/-- Two miners, the winner among them, and the customer: nothing of 9900 satoshis is lost. -/
theorem distribution_exact_sample :
    ∃ payouts, sampleWon.distributeReward = some payouts ∧ total payouts = 10000 - 100 ∧
      ∀ key, amountOf key payouts = 9702 * amountOf key sampleWon.minerShares / 1000 +
        (if sampleWon.winner = some key then 198 else 0) +
        if sampleWon.customer = key then 1 else 0 := by
  have hterms : sampleWon.TermsFit := ⟨by decide +kernel, by decide +kernel⟩
  have hshares : sampleWon.SharesFit := ⟨by decide +kernel, by decide +kernel⟩
  rcases distribution_exact sampleContract_new sample_run (by decide +kernel) hterms hshares with
    ⟨payouts, hpayouts, -, htotal, hkeys, -⟩
  exact ⟨payouts, hpayouts, htotal, hkeys⟩

end Sample

/-! ## Overflow -/

/-- No operation overflows when the shares are added one after the other, nor when the contract is
distributed or refunded after that. -/
def OverflowFree (c₀ : EscrowContract) (adds : List Payout) : Prop :=
  ∃ c, adds.foldlM (fun c e => c.addShare e.1 e.2) c₀ = some c ∧
    (∃ payouts, c.distributeRewardChecked = some payouts) ∧
      ∃ c' payouts, c.refundChecked = some (c', payouts)

theorem foldlM_addShare (c : EscrowContract) (adds : List Payout) :
    adds.foldlM (fun c e => c.addShare e.1 e.2) c =
      (adds.foldlM (fun l e => credit e.1 e.2 l) c.minerShares).map
        fun minerShares => { c with minerShares := minerShares } := by
  induction adds generalizing c with
  | nil => rfl
  | cons e rest ih =>
      rw [List.foldlM_cons, List.foldlM_cons, addShare]
      cases credit e.1 e.2 c.minerShares with
      | none => rfl
      | some minerShares => exact ih { c with minerShares := minerShares }

/-- What a sequence of credits leaves. -/
theorem credits_spec (h : adds.foldlM (fun l e => credit e.1 e.2 l) l = some l')
    (hnodup : (l.map Prod.fst).Nodup) :
    (l'.map Prod.fst).Nodup ∧ (∀ key, amountOf key l' = amountOf key l + amountOf key adds) ∧
      total l' = total l + total adds := by
  induction adds generalizing l with
  | nil =>
      cases h
      exact ⟨hnodup, fun key => rfl, rfl⟩
  | cons e rest ih =>
      rw [List.foldlM_cons] at h
      rcases Option.bind_eq_some_iff.1 h with ⟨mid, hmid, hrest⟩
      rcases ih hrest (nodup_credit hmid hnodup) with ⟨hnodup', hamount, htotal⟩
      refine ⟨hnodup', fun key => ?_, ?_⟩
      · rw [hamount, amountOf_credit hmid, amountOf_cons, Nat.add_assoc]
      · rw [htotal, total_of_credit hmid, total_cons, Nat.add_assoc]

theorem exists_credits (h : total l + total adds < 2 ^ 64) :
    ∃ l', adds.foldlM (fun l e => credit e.1 e.2 l) l = some l' := by
  induction adds generalizing l with
  | nil => exact ⟨l, rfl⟩
  | cons e rest ih =>
      rw [total_cons] at h
      have hfirst : ∃ mid, credit e.1 e.2 l = some mid := exists_credit (by omega)
      rcases hfirst with ⟨mid, hmid⟩
      have hroom : total mid + total rest < 2 ^ 64 := by
        rw [total_of_credit hmid]
        omega
      rcases ih hroom with ⟨l', hl'⟩
      refine ⟨l', ?_⟩
      rw [List.foldlM_cons, hmid]
      exact hl'

/-- The distribution of a contract without a winner whose pool fee can be computed. -/
theorem distributes_noWinner_iff (hrates : c.Rates)
    (hfee : c.totalReward.toNat * c.poolFeePercent.toNat < 2 ^ 64) (hwinner : c.winner = none) :
    (∃ payouts, c.distributeRewardChecked = some payouts) ↔
      total c.minerShares < 2 ^ 64 ∧ ∀ e ∈ c.minerShares, c.held * e.2.toNat < 2 ^ 64 := by
  have hterms : c.TermsFit := by
    refine ⟨hfee, fun hsome => ?_⟩
    rw [hwinner] at hsome
    cases hsome
  have hbase : c.base = c.held := by rw [base, bonus, hwinner, Nat.sub_zero]
  rw [distributeRewardChecked_eq hrates, distributes_iff hrates hterms, ← hbase]
  exact ⟨fun h => ⟨h.sum, h.products⟩, fun h => ⟨h.1, h.2⟩⟩

theorem exists_refundChecked (hrates : c.Rates)
    (hfee : c.totalReward.toNat * c.poolFeePercent.toNat < 2 ^ 64) :
    ∃ c' payouts, c.refundChecked = some (c', payouts) := by
  rcases exists_part hfee with ⟨fee, hpart⟩
  have hpoolFee : c.poolFee = some fee := hpart
  rw [refundChecked_eq hrates, refund, hpoolFee]
  exact ⟨_, _, rfl⟩

/-- Without a winner, the shares that are added decide on everything that can overflow. -/
theorem overflowFree_iff_added (hrates : c.Rates)
    (hfee : c.totalReward.toNat * c.poolFeePercent.toNat < 2 ^ 64) (hwinner : c.winner = none)
    (hshares : c.minerShares = []) :
    OverflowFree c adds ↔ total adds < 2 ^ 64 ∧ ∀ key, c.held * amountOf key adds < 2 ^ 64 := by
  have hcontract : ∀ {minerShares},
      adds.foldlM (fun l e => credit e.1 e.2 l) [] = some minerShares →
        ((∃ payouts, ({ c with minerShares := minerShares } :
            EscrowContract).distributeRewardChecked = some payouts) ↔
          total adds < 2 ^ 64 ∧ ∀ key, c.held * amountOf key adds < 2 ^ 64) := by
    intro minerShares hcredits
    rcases credits_spec hcredits List.nodup_nil with ⟨hnodup, hamount, htotal⟩
    have hiff := distributes_noWinner_iff (c := { c with minerShares := minerShares })
      ⟨hrates.poolFee, hrates.winnerBonus⟩ hfee hwinner
    have hkeys := forall_mem_iff_amountOf hnodup (P := fun n => c.held * n < 2 ^ 64) (by simp)
    simp only [amountOf_nil, total_nil, Nat.zero_add] at hamount htotal
    simp only [hamount] at hkeys
    rw [hiff, ← hkeys, ← htotal]
    rfl
  rw [OverflowFree, foldlM_addShare, hshares]
  constructor
  · rintro ⟨c', hc', hdistributes, -⟩
    rcases Option.map_eq_some_iff.1 hc' with ⟨minerShares, hcredits, rfl⟩
    exact (hcontract hcredits).1 hdistributes
  · intro hfit
    have hsum : total [] + total adds < 2 ^ 64 := by
      rw [total_nil, Nat.zero_add]
      exact hfit.1
    rcases exists_credits hsum with ⟨minerShares, hcredits⟩
    refine ⟨{ c with minerShares := minerShares }, by rw [hcredits]; rfl,
      (hcontract hcredits).2 hfit, ?_⟩
    exact exists_refundChecked ⟨hrates.poolFee, hrates.winnerBonus⟩ hfee

section Limits

variable [Blake3] {customer : PublicKey} {totalReward createdHeight deadlineBlocks : UInt64}
  {taskId : Hash}

/-- Shares can be added, distributed and refunded without overflow exactly when their sum is a word
and, for every miner, so is the product of its shares and the reward less the pool fee. -/
theorem overflowFree_iff
    (hnew : new customer totalReward taskId createdHeight deadlineBlocks = some c₀)
    (hreward : totalReward ≤ Economics.maxSupply) (adds : List Payout) :
    OverflowFree c₀ adds ↔
      total adds < 2 ^ 64 ∧
        ∀ key, (totalReward.toNat - totalReward.toNat * 100 / 10000) * amountOf key adds <
          2 ^ 64 := by
  rcases kept_of_new hnew RunWith.nil with ⟨hreward₀, hfee₀, hkept⟩
  rcases fields_new hnew with ⟨-, -, hshares₀, hwinner₀⟩
  have hfee : c₀.totalReward.toNat * c₀.poolFeePercent.toNat < 2 ^ 64 := by
    have hle : totalReward.toNat ≤ Economics.maxSupply.toNat := UInt64.le_iff_toNat_le.1 hreward
    have hhundred : (100 : UInt64).toNat = 100 := rfl
    rw [Economics.toNat_maxSupply] at hle
    rw [hreward₀, hfee₀, hhundred]
    omega
  rw [overflowFree_iff_added hkept.rates hfee hwinner₀ hshares₀, held_new hnew]

end Limits

section Sample

attribute [local instance] polyBlake3

theorem overflowFree_iff_sample :
    OverflowFree sampleContract [(sampleKey 3, 700), (sampleKey 4, 300)] := by
  refine (overflowFree_iff sampleContract_new (by decide) _).2 ⟨by decide, fun key => ?_⟩
  have hle := amountOf_le_total key [(sampleKey 3, 700), (sampleKey 4, 300)]
  have htotal : total [(sampleKey 3, 700), (sampleKey 4, 300)] = 1000 := rfl
  have hreward : UInt64.toNat 10000 = 10000 := rfl
  rw [hreward]
  omega

/-- An escrow of the whole supply. -/
def sampleRich : EscrowContract :=
  (new (sampleKey 1) Economics.maxSupply (ByteArr.fill 32 2) 0 1000).get (by decide +kernel)

/-- A thousand shares are enough: the product of the base and the shares is no word. -/
theorem not_overflowFree :
    ¬ ∀ (customer : PublicKey) (totalReward : UInt64) (taskId : Hash)
      (createdHeight deadlineBlocks : UInt64) (c₀ : EscrowContract) (adds : List Payout),
      new customer totalReward taskId createdHeight deadlineBlocks = some c₀ →
      totalReward ≤ Economics.maxSupply → OverflowFree c₀ adds := by
  intro h
  rcases h _ _ _ _ _ sampleRich [(sampleKey 3, 1000)] (Option.some_get _).symm (by decide) with
    ⟨c, hc, ⟨payouts, hpayouts⟩, -⟩
  have hadded : [(sampleKey 3, (1000 : UInt64))].foldlM (fun c e => c.addShare e.1 e.2) sampleRich =
      some { sampleRich with minerShares := [(sampleKey 3, 1000)] } := by decide +kernel
  rw [hadded] at hc
  cases hc
  have hnone : ({ sampleRich with minerShares := [(sampleKey 3, 1000)] } :
      EscrowContract).distributeRewardChecked = none := by decide +kernel
  rw [hnone] at hpayouts
  cases hpayouts

end Sample

end EscrowContract

end Core
end Aevum
