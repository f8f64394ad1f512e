import Aevum.L2.Conservation
import Aevum.L2.Replay

/-!
# L2.Statement — the statement of an account

While the credits stay below the largest word, a balance can be computed from the run alone: it is
what was credited to the account and what it has received from accepted transactions, less what the
transactions it sent have cost (`account_statement`).  The sum of the balances says nothing about
the single account.
-/

namespace Aevum
namespace L2
namespace L2State

open Lib Crypto

/-! ## What a run says about an account -/

/-- The amounts credited to the account. -/
def creditedTo (a : ByteArr 32) (tr : List L2Event) : ℕ :=
  (tr.map fun
    | .credit user amount => if user = a then amount.toNat else 0
    | .process _ _ => 0).sum

/-- What a transaction takes from its sender. -/
def cost (tx : L2Transaction) : ℕ := tx.amount.toNat + tx.fee.toNat

/-- What transactions have taken from the account. -/
def spentBy (a : ByteArr 32) (txs : List L2Transaction) : ℕ :=
  ((sentBy a txs).map cost).sum

/-- What one transaction brings the account: the amount, when it is the recipient, and its share
of the fee. -/
def earned (founder communityFund a : ByteArr 32) (tx : L2Transaction) : ℕ :=
  (if tx.toKey.toBytes = a then tx.amount.toNat else 0) +
    (if founder = a then (L2Transaction.founderCut tx.fee).toNat else 0) +
    (if communityFund = a then (L2Transaction.communityCut tx.fee).toNat else 0)

def earnedBy (founder communityFund a : ByteArr 32) (txs : List L2Transaction) : ℕ :=
  (txs.map (earned founder communityFund a)).sum

/-- The statement of an account: what it has, with what it has spent, is what came in. -/
def Balanced (a : ByteArr 32) (tr : List L2Event) (s : L2State) : Prop :=
  (s.balance a).toNat + spentBy a (accepted tr) =
    creditedTo a tr + earnedBy s.founder s.communityFund a (accepted tr)

theorem received_creditsOf (s : L2State) (tx : L2Transaction) (a : ByteArr 32) :
    Ledger.received a (creditsToNat (s.creditsOf tx)) =
      earned s.founder s.communityFund a tx := by
  simp only [Ledger.received, creditsToNat, creditsOf, List.map_cons, List.map_nil,
    List.sum_cons, List.sum_nil, earned]
  omega

theorem creditedTo_append (a : ByteArr 32) (tr tr' : List L2Event) :
    creditedTo a (tr ++ tr') = creditedTo a tr + creditedTo a tr' := by
  simp [creditedTo]

theorem spentBy_snoc (a : ByteArr 32) (txs : List L2Transaction) (tx : L2Transaction) :
    spentBy a (txs ++ [tx]) =
      spentBy a txs + if tx.fromKey.toBytes = a then cost tx else 0 := by
  rw [spentBy, sentBy_append_single, spentBy]
  by_cases h : a = tx.fromKey.toBytes
  · rw [if_pos h, if_pos h.symm, List.map_append, List.sum_append, List.map_singleton,
      List.sum_singleton]
  · rw [if_neg h, if_neg (Ne.symm h), Nat.add_zero]

theorem earnedBy_snoc (founder communityFund a : ByteArr 32) (txs : List L2Transaction)
    (tx : L2Transaction) :
    earnedBy founder communityFund a (txs ++ [tx]) =
      earnedBy founder communityFund a txs + earned founder communityFund a tx := by
  rw [earnedBy, List.map_append, List.sum_append, List.map_singleton, List.sum_singleton,
    earnedBy]

/-! ## Steps and runs -/

section Runs

variable {tr : List L2Event} {s s' : L2State} {a : ByteArr 32}

theorem Balanced.credit (h : Balanced a tr s) {user : ByteArr 32} {amount : UInt64}
    (hfit : (s.balance user).toNat + amount.toNat < 2 ^ 64) :
    Balanced a (tr ++ [.credit user amount]) (s.credit user amount) := by
  have hledger : (s.credit user amount).ledger = s.ledger.deposit user amount.toNat :=
    ledgerOf_satCredit hfit
  have hbalance : ((s.credit user amount).balance a).toNat =
      (s.balance a).toNat + if user = a then amount.toNat else 0 := by
    have happly := congrArg (fun b : Ledger (ByteArr 32) => b a) hledger
    rw [Ledger.deposit_apply] at happly
    exact happly
  have hnone : accepted [.credit user amount] = [] := rfl
  have hone : creditedTo a [.credit user amount] = if user = a then amount.toNat else 0 := by
    simp [creditedTo]
  rw [Balanced] at h
  rw [Balanced, hbalance, accepted_append, hnone, List.append_nil, creditedTo_append, hone]
  have hfixed : (s.credit user amount).founder = s.founder ∧
      (s.credit user amount).communityFund = s.communityFund := ⟨rfl, rfl⟩
  rw [hfixed.1, hfixed.2]
  omega

theorem Balanced.applied (h : Balanced a tr s) {tx : L2Transaction}
    (hcovered : cost tx ≤ (s.balance tx.fromKey.toBytes).toNat) (hfit : s.totalBalance < 2 ^ 64) :
    Balanced a (tr ++ [.process tx (.ok [outputOf tx])]) (s.applied tx) := by
  have hpay := Ledger.pay_apply (sum_creditsOf_le hcovered) a
  rw [← ledger_applied hcovered hfit, received_creditsOf, sum_creditsOf] at hpay
  have hone : accepted [.process tx (.ok [outputOf tx])] = [tx] := rfl
  have hnone : creditedTo a [.process tx (.ok [outputOf tx])] = 0 := rfl
  have hbalance : ∀ s : L2State, s.ledger a = (s.balance a).toNat := fun _ => rfl
  have hfixed : (s.applied tx).founder = s.founder ∧
      (s.applied tx).communityFund = s.communityFund := ⟨rfl, rfl⟩
  rw [hbalance, hbalance] at hpay
  rw [Balanced] at h
  rw [Balanced, accepted_append, hone, spentBy_snoc, earnedBy_snoc, creditedTo_append, hnone,
    hfixed.1, hfixed.2, cost]
  omega

variable [Blake3] [Signatures]

theorem Balanced.step {e : L2Event} (h : Balanced a tr s) (hstep : s.step e s')
    (htotal : s.totalBalance = credited tr) (hsmall : credited (tr ++ [e]) < 2 ^ 64 - 1) :
    Balanced a (tr ++ [e]) s' := by
  rw [credited_append] at hsmall
  rcases step_cases hstep with ⟨user, amount, rfl, rfl⟩ | ⟨tx, err, rfl, -, rfl⟩ |
    ⟨tx, rfl, haccept, rfl⟩
  · have hamount : credited [.credit user amount] = amount.toNat := by simp [credited]
    have hle := balance_le_totalBalance s user
    exact h.credit (by omega)
  · have hnone : accepted [.process tx (.error err)] = [] := rfl
    have hzero : creditedTo a [.process tx (.error err)] = 0 := rfl
    rw [Balanced, accepted_append, creditedTo_append, hnone, hzero, List.append_nil]
    exact h
  · -- no balance reaches the largest word, so the required sum was not a saturated one
    have hle := balance_le_totalBalance s tx.fromKey.toBytes
    have hmin := haccept.covered_toNat
    refine h.applied ?_ (by omega)
    rw [cost]
    omega

/-- While the credits stay below the largest word, every account has what came in less what it has
spent. -/
theorem account_statement {founder communityFund : ByteArr 32}
    (hrun : Run step (new founder communityFund) tr s) (hsmall : credited tr < 2 ^ 64 - 1)
    (a : ByteArr 32) :
    (s.balance a).toNat + spentBy a (accepted tr) =
      creditedTo a tr + earnedBy founder communityFund a (accepted tr) := by
  have hnew : Balanced a [] (new founder communityFund) := rfl
  have hbalanced : Balanced a tr s := by
    refine RunWith.invariant (fun tr s => credited tr < 2 ^ 64 - 1 → Balanced a tr s)
      (fun _ => hnew) ?_ hrun hsmall
    intro tr s e s' hrun ih hstep _ hsmall
    have hbefore : credited tr < 2 ^ 64 - 1 := by
      rw [credited_append] at hsmall
      omega
    exact (ih hbefore).step hstep (totalBalance_run hrun hbefore) hsmall
  rcases founder_run hrun with ⟨hfounder, hcommunity⟩
  rw [Balanced, hfounder, hcommunity] at hbalanced
  exact hbalanced

end Runs

section Sample

attribute [local instance] polyBlake3 anySignature

/-- Of 1000 the sender has 890 left after a payment of 100 with fee 10. -/
theorem account_statement_sample :
    (((sampleFunded 1000).applied (samplePayment 100 10)).balance (sampleKey 1).toBytes).toNat +
      110 = 1000 := by
  have hstatement := account_statement
    (sampleRun 1000 (samplePayment 100 10) (by decide +kernel)) (by decide +kernel)
    (sampleKey 1).toBytes
  have hspent : spentBy (sampleKey 1).toBytes (accepted
      [.credit (sampleKey 1).toBytes 1000,
        .process (samplePayment 100 10) (.ok [outputOf (samplePayment 100 10)])]) = 110 := by
    decide +kernel
  rw [hspent] at hstatement
  exact hstatement.trans (by decide +kernel)

end Sample

end L2State
end L2
end Aevum
