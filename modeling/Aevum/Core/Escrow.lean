import Aevum.Crypto
import Aevum.Lib.Machine

/-!
# Core.Escrow — `escrow.rs`

The escrow contract of a compute task.  A call whose additions or multiplications overflow has no
result; subtractions cannot underflow (`toNat_remaining`, `winnerBonus_le`, `total_payBonus_le`).

No method reads the status, so nothing keeps a contract from paying twice.

* `distributeReward_paid`, `refund_paid` : a call that pays at all pays what the contract holds;
* `secure_iff` : a run pays no more than the reward and keeps its final status exactly when it has
  one such call at most, and does not both set a winner and refund.
-/

namespace Aevum
namespace Core

open Lib Crypto

inductive EscrowStatus
  | funded
  | inProgress
  | completed
  | refunded
  deriving DecidableEq

/-- A payee, or a miner, with an amount. -/
abbrev Payout := PublicKey × UInt64

structure EscrowContract where
  contractId : Hash
  customer : PublicKey
  totalReward : UInt64
  taskId : Hash
  status : EscrowStatus
  createdHeight : UInt64
  deadlineHeight : UInt64
  winnerBonusPercent : UInt64
  poolFeePercent : UInt64
  minerShares : List Payout
  winner : Option PublicKey
  deriving DecidableEq

namespace EscrowContract

/-! ## Methods -/

def new [Blake3] (customer : PublicKey) (totalReward : UInt64) (taskId : Hash)
    (createdHeight deadlineBlocks : UInt64) : Option EscrowContract := do
  let deadlineHeight ← createdHeight.checkedAdd deadlineBlocks
  some
    { contractId := Blake3.digest
        (customer.toBytes.bytes ++ (u64Bytes totalReward).bytes ++ taskId.bytes)
      customer := customer
      totalReward := totalReward
      taskId := taskId
      status := .funded
      createdHeight := createdHeight
      deadlineHeight := deadlineHeight
      winnerBonusPercent := 200
      poolFeePercent := 100
      minerShares := []
      winner := none }

/-- `if let Some(e) = v.iter_mut().find(..) { e.1 += amount } else { v.push((key, amount)) }`. -/
def credit (key : PublicKey) (amount : UInt64) : List Payout → Option (List Payout)
  | [] => some [(key, amount)]
  | e :: rest =>
      if e.1 = key then (e.2.checkedAdd amount).map fun sum => (e.1, sum) :: rest
      else (credit key amount rest).map (e :: ·)

/-- `iter().map(|(_, a)| a).sum()`. -/
def sumAmounts (l : List Payout) : Option UInt64 :=
  l.foldlM (fun sum e => sum.checkedAdd e.2) 0

def addShare (c : EscrowContract) (miner : PublicKey) (shares : UInt64) :
    Option EscrowContract :=
  (credit miner shares c.minerShares).map fun minerShares => { c with minerShares := minerShares }

def setWinner (c : EscrowContract) (winner : PublicKey) : EscrowContract :=
  { c with
    winner := some winner
    status := .completed }

/-- The loop over `miner_shares`. -/
def sharePayouts (base totalShares : UInt64) : List Payout → Option (List Payout)
  | [] => some []
  | e :: rest => do
      let product ← base.checkedMul e.2
      let payouts ← sharePayouts base totalShares rest
      let amount := product / totalShares
      some (if amount > 0 then (e.1, amount) :: payouts else payouts)

def poolFee (c : EscrowContract) : Option UInt64 :=
  (c.totalReward.checkedMul c.poolFeePercent).map (· / 10000)

def winnerBonus (c : EscrowContract) (remaining : UInt64) : Option UInt64 :=
  match c.winner with
  | some _ => (remaining.checkedMul c.winnerBonusPercent).map (· / 10000)
  | none => some 0

/-- `if let Some(ref winner) = self.winner { if winner_bonus > 0 { .. } }`. -/
def payBonus (c : EscrowContract) (bonus : UInt64) (payouts : List Payout) :
    Option (List Payout) :=
  match c.winner with
  | some winner => if bonus > 0 then credit winner bonus payouts else some payouts
  | none => some payouts

def distributeReward (c : EscrowContract) : Option (List Payout) :=
  if c.minerShares.isEmpty then some []
  else do
    let poolFee ← c.poolFee
    let remaining := c.totalReward - poolFee
    let bonus ← c.winnerBonus remaining
    let base := remaining - bonus
    let totalShares ← sumAmounts c.minerShares
    if totalShares = 0 then some []
    else do
      let payouts ← sharePayouts base totalShares c.minerShares
      let payouts ← c.payBonus bonus payouts
      let totalPaid ← sumAmounts payouts
      let refund := remaining - totalPaid
      some (if refund > 0 then payouts ++ [(c.customer, refund)] else payouts)

def refund (c : EscrowContract) : Option (EscrowContract × List Payout) := do
  let poolFee ← c.poolFee
  some ({ c with status := .refunded }, [(c.customer, c.totalReward - poolFee)])

/-! ## Calls -/

inductive Call
  | addShare (miner : PublicKey) (shares : UInt64)
  | setWinner (winner : PublicKey)
  | distributeReward
  | refund
  deriving DecidableEq

/-- The contract after a call, with the payouts it returns. -/
def apply (c : EscrowContract) : Call → Option (EscrowContract × List Payout)
  | .addShare miner shares => (c.addShare miner shares).map fun c' => (c', [])
  | .setWinner winner => some (c.setWinner winner, [])
  | .distributeReward => c.distributeReward.map fun payouts => (c, payouts)
  | .refund => c.refund

def step (c : EscrowContract) (l : Call × List Payout) (c' : EscrowContract) : Prop :=
  c.apply l.1 = some (c', l.2)

instance (c : EscrowContract) (l : Call × List Payout) (c' : EscrowContract) :
    Decidable (step c l c') :=
  inferInstanceAs (Decidable (c.apply l.1 = some (c', l.2)))

/-! ## Amounts -/

/-- The sum of the amounts. -/
def total (l : List Payout) : ℕ := (l.map fun e => e.2.toNat).sum

@[simp] theorem total_nil : total [] = 0 := rfl

@[simp] theorem total_cons (e : Payout) (l : List Payout) :
    total (e :: l) = e.2.toNat + total l := List.sum_cons

@[simp] theorem total_append (l l' : List Payout) : total (l ++ l') = total l + total l' := by
  simp [total]

theorem total_of_credit {key : PublicKey} {amount : UInt64} {l l' : List Payout}
    (h : credit key amount l = some l') : total l' = total l + amount.toNat := by
  induction l generalizing l' with
  | nil =>
      cases h
      simp
  | cons e rest ih =>
      rw [credit] at h
      split at h
      · rcases Option.map_eq_some_iff.1 h with ⟨sum, hsum, rfl⟩
        have hadd := UInt64.checkedAdd_eq_some.1 hsum
        simp only [total_cons]
        omega
      · rcases Option.map_eq_some_iff.1 h with ⟨rest', hrest, rfl⟩
        have hadd := ih hrest
        simp only [total_cons]
        omega

theorem toNat_sumAmounts {l : List Payout} {sum : UInt64} (h : sumAmounts l = some sum) :
    sum.toNat = total l := by
  have hsum := (UInt64.foldlM_checkedAdd (fun e : Payout => e.2) l 0 sum).1 h
  rw [UInt64.toNat_zero, Nat.zero_add] at hsum
  exact hsum.symm

/-- The first miner of a list gets the floor of a share, and no entry if that is zero. -/
theorem sharePayouts_cons {base totalShares : UInt64} {e : Payout} {rest payouts : List Payout}
    (h : sharePayouts base totalShares (e :: rest) = some payouts) :
    ∃ (amount : UInt64) (rest' : List Payout), sharePayouts base totalShares rest = some rest' ∧
      amount.toNat = base.toNat * e.2.toNat / totalShares.toNat ∧
      payouts = if amount > 0 then (e.1, amount) :: rest' else rest' := by
  rw [sharePayouts] at h
  rcases Option.bind_eq_some_iff.1 h with ⟨product, hproduct, h⟩
  rcases Option.bind_eq_some_iff.1 h with ⟨rest', hrest, h⟩
  refine ⟨product / totalShares, rest', hrest, ?_, (Option.some.inj h).symm⟩
  rw [UInt64.toNat_div, UInt64.checkedMul_eq_some.1 hproduct]

theorem total_sharePayouts {base totalShares : UInt64} {l payouts : List Payout}
    (h : sharePayouts base totalShares l = some payouts) :
    total payouts = (l.map fun e => base.toNat * e.2.toNat / totalShares.toNat).sum := by
  induction l generalizing payouts with
  | nil =>
      cases h
      rfl
  | cons e rest ih =>
      rcases sharePayouts_cons h with ⟨amount, rest', hrest, hamount, rfl⟩
      rw [List.map_cons, List.sum_cons, ← ih hrest, ← hamount]
      split
      · exact total_cons _ _
      · next hnone => rw [UInt64.toNat_of_not_pos hnone, Nat.zero_add]

/-- The floors of all shares together are no more than the floor of the whole. -/
theorem sum_div_le (base totalShares : ℕ) (l : List Payout) :
    (l.map fun e => base * e.2.toNat / totalShares).sum ≤ base * total l / totalShares := by
  induction l with
  | nil => exact Nat.zero_le _
  | cons e rest ih =>
      calc
        ((e :: rest).map fun e => base * e.2.toNat / totalShares).sum
            ≤ base * e.2.toNat / totalShares + base * total rest / totalShares := by
            rw [List.map_cons, List.sum_cons]
            exact Nat.add_le_add_left ih _
        _ ≤ (base * e.2.toNat + base * total rest) / totalShares := Nat.div_add_div_le_add_div
        _ = base * total (e :: rest) / totalShares := by rw [← Nat.mul_add, total_cons]

/-- Every miner gets the floor of a share, so together they get the base at most. -/
theorem total_sharePayouts_le {base totalShares : UInt64} {l payouts : List Payout}
    (h : sharePayouts base totalShares l = some payouts) :
    total payouts ≤ base.toNat * total l / totalShares.toNat := by
  rw [total_sharePayouts h]
  exact sum_div_le base.toNat totalShares.toNat l

/-! ## What a call pays -/

/-- The fee and the bonus are parts of a whole. -/
structure Rates (c : EscrowContract) : Prop where
  poolFee : c.poolFeePercent.toNat ≤ 10000
  winnerBonus : c.winnerBonusPercent.toNat ≤ 10000

/-- The reward less the pool fee. -/
def held (c : EscrowContract) : ℕ :=
  c.totalReward.toNat - c.totalReward.toNat * c.poolFeePercent.toNat / 10000

variable {c c' : EscrowContract}

theorem part_le {a percent : ℕ} (h : percent ≤ 10000) : a * percent / 10000 ≤ a := by
  calc
    a * percent / 10000 ≤ a * 10000 / 10000 := Nat.div_le_div_right (Nat.mul_le_mul_left a h)
    _ = a := Nat.mul_div_cancel a (by decide)

theorem toNat_part {a percent part : UInt64}
    (h : (a.checkedMul percent).map (· / 10000) = some part) :
    part.toNat = a.toNat * percent.toNat / 10000 := by
  rcases Option.map_eq_some_iff.1 h with ⟨product, hproduct, rfl⟩
  rw [UInt64.toNat_div, UInt64.checkedMul_eq_some.1 hproduct]
  rfl

theorem toNat_remaining (hrates : c.Rates) {fee : UInt64} (h : c.poolFee = some fee) :
    (c.totalReward - fee).toNat = c.held := by
  have hfee : fee.toNat = c.totalReward.toNat * c.poolFeePercent.toNat / 10000 := toNat_part h
  have hle : fee.toNat ≤ c.totalReward.toNat := hfee ▸ part_le hrates.poolFee
  rw [UInt64.toNat_sub_of_le _ _ (UInt64.le_iff_toNat_le.2 hle), hfee, held]

theorem winnerBonus_le (hrates : c.Rates) {remaining bonus : UInt64}
    (h : c.winnerBonus remaining = some bonus) : bonus.toNat ≤ remaining.toNat := by
  rw [winnerBonus] at h
  split at h
  · rw [toNat_part h]
    exact part_le hrates.winnerBonus
  · cases h
    exact Nat.zero_le _

theorem total_payBonus_le {bonus : UInt64} {payouts payouts' : List Payout}
    (h : c.payBonus bonus payouts = some payouts') :
    total payouts' ≤ total payouts + bonus.toNat := by
  rw [payBonus] at h
  split at h
  · split at h
    · exact le_of_eq (total_of_credit h)
    · cases h
      exact Nat.le_add_right _ _
  · cases h
    exact Nat.le_add_right _ _

/-- The shares of the miners take the base at most. -/
theorem total_shared_le {remaining bonus totalShares : UInt64} {shares shared : List Payout}
    (hbonus : bonus.toNat ≤ remaining.toNat) (hsum : totalShares.toNat = total shares)
    (hpos : 0 < total shares)
    (hshared : sharePayouts (remaining - bonus) totalShares shares = some shared) :
    total shared ≤ remaining.toNat - bonus.toNat := by
  have hfloor := total_sharePayouts_le hshared
  rwa [hsum, Nat.mul_div_cancel _ hpos,
    UInt64.toNat_sub_of_le _ _ (UInt64.le_iff_toNat_le.2 hbonus)] at hfloor

/-- The bonus is the rest. -/
theorem total_paid_le {remaining bonus totalShares : UInt64} {shares shared paid : List Payout}
    (hbonus : bonus.toNat ≤ remaining.toNat) (hsum : totalShares.toNat = total shares)
    (hpos : 0 < total shares) (hshared : sharePayouts (remaining - bonus) totalShares shares =
      some shared) (hpaid : c.payBonus bonus shared = some paid) :
    total paid ≤ remaining.toNat := by
  calc
    total paid ≤ total shared + bonus.toNat := total_payBonus_le hpaid
    _ ≤ remaining.toNat - bonus.toNat + bonus.toNat :=
      Nat.add_le_add_right (total_shared_le hbonus hsum hpos hshared) _
    _ = remaining.toNat := Nat.sub_add_cancel hbonus

theorem total_refund (payouts : List Payout) (customer : PublicKey) (refund : UInt64) :
    total (if refund > 0 then payouts ++ [(customer, refund)] else payouts) =
      total payouts + refund.toNat := by
  split
  · rw [total_append, total_cons, total_nil, Nat.add_zero]
  · next hnone => rw [UInt64.toNat_of_not_pos hnone, Nat.add_zero]

/-- The steps of a distribution that pays. -/
structure Distribution (c : EscrowContract) (fee bonus totalShares totalPaid : UInt64)
    (shared paid payouts : List Payout) : Prop where
  poolFee : c.poolFee = some fee
  winnerBonus : c.winnerBonus (c.totalReward - fee) = some bonus
  sum : sumAmounts c.minerShares = some totalShares
  shared_eq : sharePayouts (c.totalReward - fee - bonus) totalShares c.minerShares = some shared
  paid_eq : c.payBonus bonus shared = some paid
  paidSum : sumAmounts paid = some totalPaid
  payouts_eq : payouts = if c.totalReward - fee - totalPaid > 0 then
    paid ++ [(c.customer, c.totalReward - fee - totalPaid)] else paid

theorem total_eq_zero_iff {l : List Payout} {sum : UInt64} (h : sumAmounts l = some sum) :
    total l = 0 ↔ sum = 0 := by
  rw [← toNat_sumAmounts h, ← UInt64.toNat_inj, UInt64.toNat_zero]

/-- A distribution has nothing to share, or goes through all its steps. -/
theorem distributeReward_cases {payouts : List Payout} (h : c.distributeReward = some payouts) :
    (total c.minerShares = 0 ∧ payouts = []) ∨
      0 < total c.minerShares ∧ ∃ fee bonus totalShares totalPaid shared paid,
        c.Distribution fee bonus totalShares totalPaid shared paid payouts := by
  rw [distributeReward] at h
  split at h
  · next hempty =>
      rw [List.isEmpty_iff.1 hempty]
      exact Or.inl ⟨rfl, (Option.some.inj h).symm⟩
  rcases Option.bind_eq_some_iff.1 h with ⟨fee, hfee, h⟩
  rcases Option.bind_eq_some_iff.1 h with ⟨bonus, hbonus, h⟩
  rcases Option.bind_eq_some_iff.1 h with ⟨totalShares, hshares, h⟩
  split at h
  · next hzero =>
      exact Or.inl ⟨(total_eq_zero_iff hshares).2 hzero, (Option.some.inj h).symm⟩
  · next hne =>
      rcases Option.bind_eq_some_iff.1 h with ⟨shared, hshared, h⟩
      rcases Option.bind_eq_some_iff.1 h with ⟨paid, hpaid, h⟩
      rcases Option.bind_eq_some_iff.1 h with ⟨totalPaid, htotal, h⟩
      refine Or.inr ⟨Nat.pos_of_ne_zero (mt (total_eq_zero_iff hshares).1 hne), fee, bonus,
        totalShares, totalPaid, shared, paid, ?_⟩
      exact ⟨hfee, hbonus, hshares, hshared, hpaid, htotal, (Option.some.inj h).symm⟩

/-- What is paid to the miners leaves something, if only zero, to the customer. -/
theorem Distribution.totalPaid_le {fee bonus totalShares totalPaid : UInt64}
    {shared paid payouts : List Payout} (hrates : c.Rates) (hpos : 0 < total c.minerShares)
    (h : c.Distribution fee bonus totalShares totalPaid shared paid payouts) :
    totalPaid ≤ c.totalReward - fee := by
  rw [UInt64.le_iff_toNat_le, toNat_sumAmounts h.paidSum]
  exact total_paid_le (winnerBonus_le hrates h.winnerBonus) (toNat_sumAmounts h.sum) hpos
    h.shared_eq h.paid_eq

/-- A distribution pays everything that is held, if there are shares. -/
theorem distributeReward_paid (hrates : c.Rates) {payouts : List Payout}
    (h : c.distributeReward = some payouts) :
    total payouts = if 0 < total c.minerShares then c.held else 0 := by
  rcases distributeReward_cases h with ⟨hzero, rfl⟩ | ⟨hpos, fee, bonus, totalShares, totalPaid,
    shared, paid, hdist⟩
  · rw [hzero, if_neg (Nat.lt_irrefl 0), total_nil]
  · have hle := hdist.totalPaid_le hrates hpos
    calc
      total payouts = total paid + (c.totalReward - fee - totalPaid).toNat := by
          rw [hdist.payouts_eq, total_refund]
      _ = totalPaid.toNat + ((c.totalReward - fee).toNat - totalPaid.toNat) := by
          rw [toNat_sumAmounts hdist.paidSum, UInt64.toNat_sub_of_le _ _ hle,
            toNat_sumAmounts hdist.paidSum]
      _ = c.held := by
          rw [Nat.add_sub_cancel' (UInt64.le_iff_toNat_le.1 hle),
            toNat_remaining hrates hdist.poolFee]
      _ = if 0 < total c.minerShares then c.held else 0 := (if_pos hpos).symm

theorem refund_paid (hrates : c.Rates) {payouts : List Payout}
    (h : c.refund = some (c', payouts)) :
    c' = { c with status := .refunded } ∧ total payouts = c.held := by
  rcases Option.bind_eq_some_iff.1 h with ⟨fee, hfee, h⟩
  cases h
  refine ⟨rfl, ?_⟩
  rw [total_cons, total_nil, toNat_remaining hrates hfee]
  rfl

/-! ## What a call does to the contract -/

variable {l : Call × List Payout}

/-- What one call does. -/
inductive StepKind (c : EscrowContract) : Call × List Payout → EscrowContract → Prop
  | addShare (miner : PublicKey) (shares : UInt64) (minerShares : List Payout)
      (hcredit : credit miner shares c.minerShares = some minerShares) :
      StepKind c (.addShare miner shares, []) { c with minerShares := minerShares }
  | setWinner (winner : PublicKey) : StepKind c (.setWinner winner, []) (c.setWinner winner)
  | distributeReward (payouts : List Payout) (hpayouts : c.distributeReward = some payouts) :
      StepKind c (.distributeReward, payouts) c
  | refund (payouts : List Payout)
      (hrefund : c.refund = some ({ c with status := .refunded }, payouts)) :
      StepKind c (.refund, payouts) { c with status := .refunded }

theorem step_kind (h : step c l c') : StepKind c l c' := by
  rcases l with ⟨call, payouts⟩
  cases call with
  | addShare miner shares =>
      rcases Option.map_eq_some_iff.1 h with ⟨c₁, hadd, heq⟩
      rcases Option.map_eq_some_iff.1 hadd with ⟨minerShares, hcredit, rfl⟩
      cases heq
      exact StepKind.addShare miner shares minerShares hcredit
  | setWinner winner =>
      cases h
      exact StepKind.setWinner winner
  | distributeReward =>
      rcases Option.map_eq_some_iff.1 h with ⟨payouts', hpayouts, heq⟩
      cases heq
      exact StepKind.distributeReward _ hpayouts
  | refund =>
      rcases Option.bind_eq_some_iff.1 h with ⟨fee, -, heq⟩
      cases heq
      exact StepKind.refund _ h

/-- No call changes the terms of the contract. -/
theorem terms_step (h : step c l c') :
    c'.totalReward = c.totalReward ∧ c'.poolFeePercent = c.poolFeePercent ∧
      c'.winnerBonusPercent = c.winnerBonusPercent := by
  cases step_kind h with
  | addShare miner shares minerShares _ => exact ⟨rfl, rfl, rfl⟩
  | setWinner winner => exact ⟨rfl, rfl, rfl⟩
  | distributeReward payouts _ => exact ⟨rfl, rfl, rfl⟩
  | refund payouts _ => exact ⟨rfl, rfl, rfl⟩

theorem Rates.step (hrates : c.Rates) (h : step c l c') : c'.Rates := by
  rcases terms_step h with ⟨-, hfee, hbonus⟩
  exact ⟨hfee ▸ hrates.poolFee, hbonus ▸ hrates.winnerBonus⟩

theorem held_step (h : step c l c') : c'.held = c.held := by
  rcases terms_step h with ⟨hreward, hfee, -⟩
  rw [held, held, hreward, hfee]

theorem status_setWinner {winner : PublicKey} {payouts : List Payout}
    (h : step c (.setWinner winner, payouts) c') : c'.status = .completed := by
  cases h
  rfl

theorem status_refund {payouts : List Payout} (h : step c (.refund, payouts) c') :
    c'.status = .refunded := by
  cases step_kind h with
  | refund payouts _ => rfl

/-- Only two methods write the status. -/
theorem status_step (h : step c l c') :
    c'.status = c.status ∨ (∃ winner, l.1 = .setWinner winner ∧ c'.status = .completed) ∨
      (l.1 = .refund ∧ c'.status = .refunded) := by
  cases step_kind h with
  | addShare miner shares minerShares _ => exact Or.inl rfl
  | setWinner winner => exact Or.inr (Or.inl ⟨winner, rfl, rfl⟩)
  | distributeReward payouts _ => exact Or.inl rfl
  | refund payouts _ => exact Or.inr (Or.inr ⟨rfl, rfl⟩)

/-! ## What a run pays -/

/-- What a sequence of calls adds up to: the shares that were added, and how many calls pay. -/
structure Tally where
  shares : ℕ
  payments : ℕ
  deriving DecidableEq

/-- A refund always pays, a distribution once there are shares. -/
def Tally.count (t : Tally) : Call → Tally
  | .addShare _ shares => { t with shares := t.shares + shares.toNat }
  | .setWinner _ => t
  | .distributeReward => { t with payments := t.payments + if 0 < t.shares then 1 else 0 }
  | .refund => { t with payments := t.payments + 1 }

def tally (calls : List Call) : Tally := calls.foldl Tally.count ⟨0, 0⟩

def calls (tr : List (Call × List Payout)) : List Call := tr.map Prod.fst

/-- All payouts of a run. -/
def paid (tr : List (Call × List Payout)) : ℕ := (tr.map fun l => total l.2).sum

/-- What a run has done to the contract `c₀`. -/
structure Kept (c₀ : EscrowContract) (tr : List (Call × List Payout)) (c : EscrowContract) :
    Prop where
  rates : c.Rates
  held : c.held = c₀.held
  shares : total c.minerShares = (tally (calls tr)).shares
  paid : paid tr = c₀.held * (tally (calls tr)).payments
  refunded : c.status = .refunded → .refund ∈ calls tr
  completed : c.status = .completed → ∃ winner, .setWinner winner ∈ calls tr

@[simp] theorem tally_append (cs : List Call) (call : Call) :
    tally (cs ++ [call]) = (tally cs).count call := by
  simp [tally]

@[simp] theorem calls_append (tr : List (Call × List Payout)) (l : Call × List Payout) :
    calls (tr ++ [l]) = calls tr ++ [l.1] := by
  simp [calls]

@[simp] theorem paid_append (tr : List (Call × List Payout)) (l : Call × List Payout) :
    paid (tr ++ [l]) = paid tr + total l.2 := by
  simp [paid]

/-- A call is counted as what it does: it adds its shares and, if it is one that pays, pays what is
held. -/
theorem count_step (hrates : c.Rates) {t : Tally} (ht : total c.minerShares = t.shares)
    (h : step c l c') :
    total c'.minerShares = (t.count l.1).shares ∧
      c.held * t.payments + total l.2 = c.held * (t.count l.1).payments := by
  cases step_kind h with
  | addShare miner shares minerShares hcredit =>
      refine ⟨?_, rfl⟩
      rw [Tally.count, ← ht]
      exact total_of_credit hcredit
  | setWinner winner => exact ⟨ht, rfl⟩
  | distributeReward payouts hpayouts =>
      have hpay := distributeReward_paid hrates hpayouts
      refine ⟨ht, ?_⟩
      rw [ht] at hpay
      rw [Tally.count, hpay, Nat.mul_add, mul_ite, Nat.mul_one, Nat.mul_zero]
  | refund payouts hrefund =>
      refine ⟨ht, ?_⟩
      rw [Tally.count, (refund_paid hrates hrefund).2, Nat.mul_add, Nat.mul_one]

variable {c₀ : EscrowContract} {tr : List (Call × List Payout)}

theorem Kept.step (h : Kept c₀ tr c) (hstep : step c l c') : Kept c₀ (tr ++ [l]) c' := by
  rcases count_step h.rates h.shares hstep with ⟨hshares, hpayments⟩
  rw [h.held] at hpayments
  have hmem : ∀ {call : Call}, call ∈ calls tr → call ∈ calls tr ++ [l.1] :=
    List.mem_append_left _
  have hlast : ∀ {call : Call}, l.1 = call → call ∈ calls tr ++ [l.1] := by
    rintro _ rfl
    exact List.mem_append_right _ List.mem_cons_self
  refine
    { rates := h.rates.step hstep
      held := (held_step hstep).trans h.held
      shares := ?_
      paid := ?_
      refunded := fun hstatus => ?_
      completed := fun hstatus => ?_ }
  · rw [calls_append, tally_append]
    exact hshares
  · rw [paid_append, calls_append, tally_append, h.paid]
    exact hpayments
  all_goals rw [calls_append]
  · rcases status_step hstep with heq | ⟨_, -, heq⟩ | ⟨hrefund, -⟩
    · exact hmem (h.refunded (heq ▸ hstatus))
    · rw [heq] at hstatus
      cases hstatus
    · exact hlast hrefund
  · rcases status_step hstep with heq | ⟨winner, hwinner, -⟩ | ⟨-, heq⟩
    · exact (h.completed (heq ▸ hstatus)).imp fun _ => hmem
    · exact ⟨winner, hlast hwinner⟩
    · rw [heq] at hstatus
      cases hstatus

theorem kept_of_run (hrates : c₀.Rates) (hshares : c₀.minerShares = [])
    (hstatus : c₀.status = .funded) (h : Run step c₀ tr c) : Kept c₀ tr c := by
  refine RunWith.invariant (Kept c₀) ?_ (fun _ _ _ _ _ hkept hstep _ => hkept.step hstep) h
  exact
    { rates := hrates
      held := rfl
      shares := by
        rw [hshares]
        rfl
      paid := by
        rw [Nat.mul_comm]
        exact (Nat.zero_mul _).symm
      refunded := fun hrefunded => by simp [hstatus] at hrefunded
      completed := fun hcompleted => by simp [hstatus] at hcompleted }

/-! ## The law of the escrow -/

/-- Along the run no more is paid than the reward, and of the two final states the contract is in
one at most. -/
structure Secure (c₀ : EscrowContract) (tr : List (Call × List Payout)) : Prop where
  paid_le : paid tr ≤ c₀.totalReward.toNat
  status_final : ∀ tr₁ tr₂ tr₃ c₁ c₂, tr = tr₁ ++ tr₂ ++ tr₃ → Run step c₀ tr₁ c₁ →
    Run step c₀ (tr₁ ++ tr₂) c₂ →
      (c₁.status = .refunded → c₂.status ≠ .completed) ∧
        (c₁.status = .completed → c₂.status ≠ .refunded)

/-- One call pays at most, unless there is nothing to pay, and the winner is set or the reward
refunded, but not both. -/
def Exclusive (reward : UInt64) (cs : List Call) : Prop :=
  (reward = 0 ∨ (tally cs).payments ≤ 1) ∧
    ¬ ((∃ winner, .setWinner winner ∈ cs) ∧ .refund ∈ cs)

/-- More than half of a reward is held. -/
theorem totalReward_lt_two_mul_held (hfee : c₀.poolFeePercent = 100)
    (hpos : 0 < c₀.totalReward.toNat) : c₀.totalReward.toNat < c₀.held * 2 := by
  have hpercent : c₀.poolFeePercent.toNat = 100 := by rw [hfee]; rfl
  rw [held, hpercent]
  omega

theorem held_le (c : EscrowContract) : c.held ≤ c.totalReward.toNat := Nat.sub_le _ _

theorem paid_le_iff (hfee : c₀.poolFeePercent = 100) (h : Kept c₀ tr c) :
    paid tr ≤ c₀.totalReward.toNat ↔
      c₀.totalReward = 0 ∨ (tally (calls tr)).payments ≤ 1 := by
  rw [h.paid]
  constructor
  · intro hle
    by_contra hnot
    rw [not_or, Nat.not_le] at hnot
    have hpos : 0 < c₀.totalReward.toNat :=
      Nat.pos_of_ne_zero fun hzero => hnot.1 (UInt64.toNat_inj.1 hzero)
    have htwice : c₀.held * 2 ≤ c₀.held * (tally (calls tr)).payments :=
      Nat.mul_le_mul_left _ hnot.2
    have hlt := totalReward_lt_two_mul_held hfee hpos
    omega
  · rintro (hzero | hone)
    · have hheld := held_le c₀
      rw [hzero, UInt64.toNat_zero, Nat.le_zero] at hheld
      rw [hheld, Nat.zero_mul]
      exact Nat.zero_le _
    · calc
        c₀.held * (tally (calls tr)).payments ≤ c₀.held * 1 := Nat.mul_le_mul_left _ hone
        _ = c₀.held := Nat.mul_one _
        _ ≤ c₀.totalReward.toNat := held_le c₀

/-- Where a call stands in a run, the contract has the status that the call sets. -/
theorem exists_status {call : Call} {status : EscrowStatus} (h : Run step c₀ tr c)
    (hcall : call ∈ calls tr)
    (hsets : ∀ {c₁ c₂ payouts}, step c₁ (call, payouts) c₂ → c₂.status = status) :
    ∃ tr₁ tr₂ c₁, tr = tr₁ ++ tr₂ ∧ Run step c₀ tr₁ c₁ ∧ c₁.status = status := by
  rcases List.mem_map.1 hcall with ⟨⟨call', payouts⟩, hmem, rfl⟩
  rcases List.append_of_mem hmem with ⟨tr₁, tr₂, rfl⟩
  rcases RunWith.exists_step h with ⟨c₁, c₂, hrun, hstep, -⟩
  exact ⟨tr₁ ++ [(call', payouts)], tr₂, c₂, by simp, Run.snoc hrun hstep, hsets hstep⟩

/-- A run with both calls reaches one final state and then the other. -/
theorem Secure.not_both (hsecure : Secure c₀ tr) (hrun : Run step c₀ tr c) {winner : PublicKey}
    (hwinner : .setWinner winner ∈ calls tr) : .refund ∉ calls tr := by
  intro hrefund
  rcases exists_status hrun hwinner status_setWinner with ⟨a₁, a₂, c₁, ha, hruna, hcompleted⟩
  rcases exists_status hrun hrefund status_refund with ⟨b₁, b₂, c₂, hb, hrunb, hrefunded⟩
  -- one of the two calls comes first
  rcases List.prefix_or_prefix_of_prefix ⟨a₂, ha.symm⟩ ⟨b₂, hb.symm⟩ with ⟨m, rfl⟩ | ⟨m, rfl⟩
  · exact (hsecure.status_final a₁ m b₂ c₁ c₂ hb hruna hrunb).2 hcompleted hrefunded
  · exact (hsecure.status_final b₁ m a₂ c₂ c₁ ha hrunb hruna).1 hrefunded hcompleted

theorem calls_subset {tr₁ : List (Call × List Payout)} (h : tr₁ <+: tr) : calls tr₁ ⊆ calls tr :=
  (h.map Prod.fst).subset

section Runs

variable [Blake3] {customer : PublicKey} {totalReward createdHeight deadlineBlocks : UInt64}
  {taskId : Hash}

theorem kept_of_new (hnew : new customer totalReward taskId createdHeight deadlineBlocks = some c₀)
    (hrun : Run step c₀ tr c) :
    c₀.totalReward = totalReward ∧ c₀.poolFeePercent = 100 ∧ Kept c₀ tr c := by
  rcases Option.bind_eq_some_iff.1 hnew with ⟨deadlineHeight, -, hok⟩
  cases hok
  have hpool : (100 : UInt64).toNat ≤ 10000 := by decide
  have hwinner : (200 : UInt64).toNat ≤ 10000 := by decide
  exact ⟨rfl, rfl, kept_of_run ⟨hpool, hwinner⟩ rfl rfl hrun⟩

/-- A run of a new contract is secure if and only if its calls are exclusive. -/
theorem secure_iff (hnew : new customer totalReward taskId createdHeight deadlineBlocks = some c₀)
    (hrun : Run step c₀ tr c) : Secure c₀ tr ↔ Exclusive totalReward (calls tr) := by
  rcases kept_of_new hnew hrun with ⟨hreward, hfee, hkept⟩
  rw [Exclusive, ← hreward, ← paid_le_iff hfee hkept]
  constructor
  · intro hsecure
    refine ⟨hsecure.paid_le, ?_⟩
    rintro ⟨⟨winner, hwinner⟩, hrefund⟩
    exact hsecure.not_both hrun hwinner hrefund
  · rintro ⟨hpaid, hexclusive⟩
    refine ⟨hpaid, ?_⟩
    rintro tr₁ tr₂ tr₃ c₁ c₂ rfl hrun₁ hrun₂
    have hkept₁ := (kept_of_new hnew hrun₁).2.2
    have hkept₂ := (kept_of_new hnew hrun₂).2.2
    have hsub₂ : calls (tr₁ ++ tr₂) ⊆ calls (tr₁ ++ tr₂ ++ tr₃) :=
      calls_subset (List.prefix_append _ _)
    have hsub₁ : calls tr₁ ⊆ calls (tr₁ ++ tr₂ ++ tr₃) :=
      List.Subset.trans (calls_subset (List.prefix_append _ _)) hsub₂
    refine ⟨fun hrefunded hcompleted => ?_, fun hcompleted hrefunded => ?_⟩
    · rcases hkept₂.completed hcompleted with ⟨winner, hwinner⟩
      exact hexclusive ⟨⟨winner, hsub₂ hwinner⟩, hsub₁ (hkept₁.refunded hrefunded)⟩
    · rcases hkept₁.completed hcompleted with ⟨winner, hwinner⟩
      exact hexclusive ⟨⟨winner, hsub₁ hwinner⟩, hsub₂ (hkept₂.refunded hrefunded)⟩

end Runs

section Sample

attribute [local instance] polyBlake3

/-- An escrow of ten thousand satoshis. -/
def sampleContract : EscrowContract :=
  (new (sampleKey 1) 10000 (ByteArr.fill 32 2) 0 1000).get (by decide +kernel)

theorem sampleContract_new :
    new (sampleKey 1) 10000 (ByteArr.fill 32 2) 0 1000 = some sampleContract :=
  (Option.some_get _).symm

/-- Two miners have shares, one of them wins. -/
def sampleWon : EscrowContract :=
  { sampleContract with
    minerShares := [(sampleKey 3, 700), (sampleKey 4, 300)]
    winner := some (sampleKey 3)
    status := .completed }

theorem sample_run :
    Run step sampleContract
      [(.addShare (sampleKey 3) 700, []), (.addShare (sampleKey 4) 300, []),
        (.setWinner (sampleKey 3), []),
        (.distributeReward, [(sampleKey 3, 6989), (sampleKey 4, 2910), (sampleKey 1, 1)])]
      sampleWon := by
  have hfirst : step sampleContract (.addShare (sampleKey 3) 700, [])
      { sampleContract with minerShares := [(sampleKey 3, 700)] } := by decide +kernel
  have hsecond : step { sampleContract with minerShares := [(sampleKey 3, 700)] }
      (.addShare (sampleKey 4) 300, [])
      { sampleContract with minerShares := [(sampleKey 3, 700), (sampleKey 4, 300)] } := by
    decide +kernel
  have hwinner : step
      { sampleContract with minerShares := [(sampleKey 3, 700), (sampleKey 4, 300)] }
      (.setWinner (sampleKey 3), []) sampleWon := by decide +kernel
  have hpay : step sampleWon
      (.distributeReward, [(sampleKey 3, 6989), (sampleKey 4, 2910), (sampleKey 1, 1)])
      sampleWon := by decide +kernel
  exact Run.snoc (Run.snoc (Run.snoc (Run.single hfirst) hsecond) hwinner) hpay

theorem secure_iff_sample :
    Secure sampleContract
        [(.addShare (sampleKey 3) 700, []), (.addShare (sampleKey 4) 300, []),
          (.setWinner (sampleKey 3), []),
          (.distributeReward, [(sampleKey 3, 6989), (sampleKey 4, 2910), (sampleKey 1, 1)])] ↔
      Exclusive 10000 [.addShare (sampleKey 3) 700, .addShare (sampleKey 4) 300,
        .setWinner (sampleKey 3), .distributeReward] :=
  secure_iff sampleContract_new sample_run

/-- Ten thousand satoshis are paid in and, less the fee, refunded twice; a refunded contract is
completed. -/
theorem not_secure :
    (¬ ∀ (customer : PublicKey) (totalReward : UInt64) (taskId : Hash)
        (createdHeight deadlineBlocks : UInt64) (c₀ c : EscrowContract)
        (tr : List (Call × List Payout)),
        new customer totalReward taskId createdHeight deadlineBlocks = some c₀ →
        Run step c₀ tr c → paid tr ≤ totalReward.toNat) ∧
      ¬ ∀ (customer : PublicKey) (totalReward : UInt64) (taskId : Hash)
        (createdHeight deadlineBlocks : UInt64) (c₀ c₁ c₂ : EscrowContract)
        (tr₁ tr₂ : List (Call × List Payout)),
        new customer totalReward taskId createdHeight deadlineBlocks = some c₀ →
        Run step c₀ tr₁ c₁ → Run step c₀ (tr₁ ++ tr₂) c₂ →
        c₁.status = .refunded → c₂.status ≠ .completed := by
  have hrefund : step sampleContract (.refund, [(sampleKey 1, 9900)])
      { sampleContract with status := .refunded } := by decide +kernel
  have hagain : step { sampleContract with status := .refunded }
      (.refund, [(sampleKey 1, 9900)]) { sampleContract with status := .refunded } := by
    decide +kernel
  have hwinner : step { sampleContract with status := .refunded } (.setWinner (sampleKey 3), [])
      ({ sampleContract with status := .refunded }.setWinner (sampleKey 3)) := by decide +kernel
  constructor
  · intro h
    have hle := h _ _ _ _ _ _ _ _ sampleContract_new (Run.snoc (Run.single hrefund) hagain)
    revert hle
    decide +kernel
  · intro h
    exact h _ _ _ _ _ _ _ _ _ _ sampleContract_new (Run.single hrefund)
      (Run.snoc (Run.single hrefund) hwinner) rfl rfl

end Sample

end EscrowContract
end Core
end Aevum
