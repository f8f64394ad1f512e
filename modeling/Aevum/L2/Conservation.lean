import Aevum.L2.State

/-!
# L2.Conservation — where the value of the L2 balances comes from

The balances of an `L2State` stand for an abstract ledger, and an accepted transaction is a payment
on it: `ledger_applied` and `ledger_applied_le`.  From this follow

* `totalBalance_run` : as long as the credits stay below the largest word, the balances add up to
  exactly what was credited, whichever of the four accounts of a transaction coincide;
* `run_mintFree_iff` : without that bound, the balances never exceed the credits in precisely the
  runs where no transaction passes the balance check on a saturated sum.
-/

namespace Aevum
namespace L2
namespace L2State

open Lib Crypto

/-! ## The abstract ledger -/

/-- The ledger the balances stand for. -/
noncomputable def ledger (s : L2State) : Ledger (ByteArr 32) :=
  ledgerOf s.balances

theorem totalBalance_eq (s : L2State) : s.totalBalance = s.ledger.total :=
  (total_ledgerOf s.balances).symm

theorem balance_le_totalBalance (s : L2State) (a : ByteArr 32) :
    (s.balance a).toNat ≤ s.totalBalance := by
  rw [totalBalance_eq]
  exact Finsupp.le_degree a s.ledger

theorem ledger_credit_le (s : L2State) (a : ByteArr 32) (x : UInt64) :
    (s.credit a x).ledger ≤ s.ledger.deposit a x.toNat :=
  ledgerOf_satCredit_le s.balances a x

/-- What an accepted transaction hands out is its amount and its fee. -/
theorem sum_creditsOf (s : L2State) (tx : L2Transaction) :
    ((creditsToNat (s.creditsOf tx)).map Prod.snd).sum = tx.amount.toNat + tx.fee.toNat := by
  have hcuts := L2Transaction.founderCut_add_communityCut tx.fee
  simp only [creditsToNat, creditsOf, List.map_cons, List.map_nil, List.sum_cons, List.sum_nil]
  omega

/-- A covered transaction hands out no more than the sender has. -/
theorem sum_creditsOf_le {s : L2State} {tx : L2Transaction}
    (hcovered : tx.amount.toNat + tx.fee.toNat ≤ (s.balance tx.fromKey.toBytes).toNat) :
    ((creditsToNat (s.creditsOf tx)).map Prod.snd).sum ≤ s.ledger tx.fromKey.toBytes := by
  rw [sum_creditsOf]
  exact hcovered

/-- The balances after the debit of an accepted transaction, when its sum is a word. -/
theorem ledger_debit {s : L2State} {tx : L2Transaction}
    (hword : tx.amount.toNat + tx.fee.toNat < 2 ^ 64) :
    ledgerOf (satDebit s.balances tx.fromKey.toBytes (tx.amount.satAdd tx.fee)) =
      s.ledger.withdraw tx.fromKey.toBytes
        ((creditsToNat (s.creditsOf tx)).map Prod.snd).sum := by
  have hreq : (tx.amount.satAdd tx.fee).toNat = tx.amount.toNat + tx.fee.toNat := by
    rw [UInt64.toNat_satAdd]
    omega
  rw [ledgerOf_satDebit, hreq, sum_creditsOf]
  rfl

/-- An accepted transaction whose sum is a word yields at most the payment it stands for. -/
theorem ledger_applied_le {s : L2State} {tx : L2Transaction}
    (hword : tx.amount.toNat + tx.fee.toNat < 2 ^ 64) :
    (s.applied tx).ledger ≤ s.ledger.pay tx.fromKey.toBytes (creditsToNat (s.creditsOf tx)) := by
  have hle := ledgerOf_satCreditAll_le
    (satDebit s.balances tx.fromKey.toBytes (tx.amount.satAdd tx.fee)) (s.creditsOf tx)
  rw [ledger_debit hword] at hle
  exact hle

/-- If besides the balances fit into a word together, it is exactly that payment. -/
theorem ledger_applied {s : L2State} {tx : L2Transaction}
    (hcovered : tx.amount.toNat + tx.fee.toNat ≤ (s.balance tx.fromKey.toBytes).toNat)
    (hfit : s.totalBalance < 2 ^ 64) :
    (s.applied tx).ledger = s.ledger.pay tx.fromKey.toBytes (creditsToNat (s.creditsOf tx)) := by
  have hword : tx.amount.toNat + tx.fee.toNat < 2 ^ 64 :=
    lt_of_le_of_lt hcovered (UInt64.toNat_lt _)
  -- what is left after the debit and what is still to be credited add up to the old total
  have hdebit := ledger_debit (s := s) hword
  have htotal := Ledger.total_withdraw (sum_creditsOf_le hcovered)
  rw [totalBalance_eq] at hfit
  rw [← hdebit] at htotal
  have hall := ledgerOf_satCreditAll (htotal.trans_lt hfit)
  rw [hdebit] at hall
  exact hall

/-- A covered transaction does not raise the total. -/
theorem totalBalance_applied_le {s : L2State} {tx : L2Transaction}
    (hcovered : tx.amount.toNat + tx.fee.toNat ≤ (s.balance tx.fromKey.toBytes).toNat) :
    (s.applied tx).totalBalance ≤ s.totalBalance := by
  have hle := ledger_applied_le (s := s) (lt_of_le_of_lt hcovered (UInt64.toNat_lt _))
  calc
    (s.applied tx).totalBalance = (s.applied tx).ledger.total := totalBalance_eq _
    _ ≤ (s.ledger.pay tx.fromKey.toBytes (creditsToNat (s.creditsOf tx))).total :=
        Finsupp.degree_mono hle
    _ = s.ledger.total := Ledger.total_pay (sum_creditsOf_le hcovered)
    _ = s.totalBalance := (totalBalance_eq s).symm

theorem totalBalance_credit_le (s : L2State) (user : ByteArr 32) (amount : UInt64) :
    (s.credit user amount).totalBalance ≤ s.totalBalance + amount.toNat := by
  calc
    (s.credit user amount).totalBalance = (s.credit user amount).ledger.total := totalBalance_eq _
    _ ≤ (s.ledger.deposit user amount.toNat).total :=
        Finsupp.degree_mono (ledger_credit_le s user amount)
    _ = s.totalBalance + amount.toNat := by rw [Ledger.total_deposit, totalBalance_eq]

/-- The sum an accepted transaction is checked against, as a natural number. -/
theorem Accepts.covered_toNat [Blake3] [Signatures] {s : L2State} {tx : L2Transaction}
    (h : s.Accepts tx) :
    min (tx.amount.toNat + tx.fee.toNat) (2 ^ 64 - 1) ≤
      (s.balance tx.fromKey.toBytes).toNat := by
  have hcovered := UInt64.le_iff_toNat_le.1 h.covered
  rwa [UInt64.toNat_satAdd] at hcovered

/-- Only the four accounts of a transaction change. -/
theorem balance_applied_of_ne {s : L2State} {tx : L2Transaction} {a : ByteArr 32}
    (hfrom : a ≠ tx.fromKey.toBytes) (hto : a ≠ tx.toKey.toBytes) (hfounder : a ≠ s.founder)
    (hcommunity : a ≠ s.communityFund) : (s.applied tx).balance a = s.balance a := by
  simp only [balance, applied, creditsOf, satCreditAll, List.foldl_cons, List.foldl_nil]
  simp only [satCredit, satDebit, balanceOf_insert, if_neg hfrom, if_neg hto, if_neg hfounder,
    if_neg hcommunity]

/-! ## Exact conservation below the largest word -/

@[simp] theorem credited_append (tr tr' : List L2Event) :
    credited (tr ++ tr') = credited tr + credited tr' := by
  simp [credited]

theorem totalBalance_new (founder communityFund : ByteArr 32) :
    (new founder communityFund).totalBalance = 0 := rfl

section Exact

variable [Blake3] [Signatures]

/-- One step keeps the balances equal to the credits. -/
theorem totalBalance_step {s s' : L2State} {e : L2Event} {n : ℕ} (hstep : s.step e s')
    (htotal : s.totalBalance = n) (hsmall : n + credited [e] < 2 ^ 64 - 1) :
    s'.totalBalance = n + credited [e] := by
  rcases step_cases hstep with ⟨user, amount, rfl, rfl⟩ | ⟨tx, err, rfl, -, rfl⟩ |
    ⟨tx, rfl, haccept, rfl⟩
  · have hamount : credited [.credit user amount] = amount.toNat := by simp [credited]
    have hle := balance_le_totalBalance s user
    have hledger : (s.credit user amount).ledger = s.ledger.deposit user amount.toNat := by
      refine ledgerOf_satCredit ?_
      change (s.balance user).toNat + amount.toNat < 2 ^ 64
      omega
    rw [totalBalance_eq, hledger, Ledger.total_deposit, ← totalBalance_eq]
    omega
  · have hzero : credited [.process tx (.error err)] = 0 := rfl
    omega
  · have hzero : credited [.process tx (.ok [outputOf tx])] = 0 := rfl
    -- no balance reaches the largest word, so the required sum was not a saturated one
    have hle := balance_le_totalBalance s tx.fromKey.toBytes
    have hmin := haccept.covered_toNat
    have hcovered : tx.amount.toNat + tx.fee.toNat ≤ (s.balance tx.fromKey.toBytes).toNat := by
      omega
    rw [totalBalance_eq, ledger_applied hcovered (by omega),
      Ledger.total_pay (sum_creditsOf_le hcovered), ← totalBalance_eq]
    omega

/-- While the credits stay below the largest word, the balances add up to them. -/
theorem totalBalance_run {founder communityFund : ByteArr 32} {tr : List L2Event} {s : L2State}
    (hrun : Run step (new founder communityFund) tr s) (hsmall : credited tr < 2 ^ 64 - 1) :
    s.totalBalance = credited tr := by
  refine RunWith.invariant (fun tr s => credited tr < 2 ^ 64 - 1 → s.totalBalance = credited tr)
    (fun _ => totalBalance_new founder communityFund) ?_ hrun hsmall
  intro tr s e s' _ ih hstep _ hsmall
  rw [credited_append] at hsmall ⊢
  exact totalBalance_step hstep (ih (by omega)) hsmall

/-- The founder and the community fund are fixed. -/
theorem founder_run {founder communityFund : ByteArr 32} {tr : List L2Event} {s : L2State}
    (hrun : Run step (new founder communityFund) tr s) :
    s.founder = founder ∧ s.communityFund = communityFund := by
  refine RunWith.invariant_state (fun s => s.founder = founder ∧ s.communityFund = communityFund)
    ⟨rfl, rfl⟩ ?_ hrun
  intro tr s e s' _ ih hstep _
  rcases step_cases hstep with ⟨user, amount, rfl, rfl⟩ | ⟨tx, err, rfl, -, rfl⟩ |
    ⟨tx, rfl, -, rfl⟩
  · exact ih
  · exact ih
  · exact ih

/-- Value is conserved: the balances add up to the credits, an accepted transaction changes only
its four accounts, and a rejected one changes nothing. -/
theorem value_conserved {founder communityFund : ByteArr 32} {tr : List L2Event} {s : L2State}
    (hrun : Run step (new founder communityFund) tr s) (hsmall : credited tr < 2 ^ 64 - 1) :
    s.totalBalance = credited tr ∧
      (∀ tx s' utxos, s.processTransaction tx = (s', .ok utxos) →
        ∀ a, a ≠ tx.fromKey.toBytes → a ≠ tx.toKey.toBytes → a ≠ founder → a ≠ communityFund →
          s'.balance a = s.balance a) ∧
      (∀ tx s' err, s.processTransaction tx = (s', .error err) → s' = s) := by
  rcases founder_run hrun with ⟨hfounder, hcommunity⟩
  refine ⟨totalBalance_run hrun hsmall, ?_, ?_⟩
  · intro tx s' utxos hcall a hfrom hto hnf hnc
    rcases s.processTransaction_cases tx with ⟨-, err, heq⟩ | ⟨-, heq⟩
    · rw [heq] at hcall
      cases hcall
    · rw [heq] at hcall
      cases hcall
      exact balance_applied_of_ne hfrom hto (hfounder ▸ hnf) (hcommunity ▸ hnc)
  · intro tx s' err hcall
    rcases s.processTransaction_cases tx with ⟨-, err', heq⟩ | ⟨-, heq⟩
    · rw [heq] at hcall
      cases hcall
      rfl
    · rw [heq] at hcall
      cases hcall

end Exact

section Sample

attribute [local instance] polyBlake3 anySignature

/-- A credit of 1000 followed by a payment of 100 with fee 10. -/
theorem value_conserved_sample :
    ((sampleFunded 1000).applied (samplePayment 100 10)).totalBalance = 1000 :=
  (value_conserved (sampleRun 1000 (samplePayment 100 10) (by decide +kernel))
    (by decide +kernel)).1

end Sample

/-! ## Minting -/

section Minting

variable [Blake3] [Signatures]

/-- One step mints nothing: the balances stay within the credits, and whoever pays has the whole
sum. -/
def MintFree (tr : List L2Event) (s : L2State) (e : L2Event) (s' : L2State) : Prop :=
  s'.totalBalance ≤ credited (tr ++ [e]) ∧
    ∀ tx utxos, e = .process tx (.ok utxos) →
      tx.amount.toNat + tx.fee.toNat ≤ (s.balance tx.fromKey.toBytes).toNat

/-- A transaction that is valid, new and next in its sender's order, and whose sender holds the
largest word, has an amount and a fee that add up to a word. -/
def SumFits (_ : List L2Event) (s : L2State) (e : L2Event) (_ : L2State) : Prop :=
  ∀ tx result, e = .process tx result → tx.isValid = true → tx.txHash ∉ s.processed →
    tx.nonce = s.nonce tx.fromKey.toBytes → s.balance tx.fromKey.toBytes = UInt64.maxValue →
      tx.amount.toNat + tx.fee.toNat < 2 ^ 64

/-- An accepted transaction that meets `SumFits` is covered by the sender's balance. -/
theorem Accepts.covered_of_sumFits {s : L2State} {tx : L2Transaction} (h : s.Accepts tx)
    (hfits : s.balance tx.fromKey.toBytes = UInt64.maxValue →
      tx.amount.toNat + tx.fee.toNat < 2 ^ 64) :
    tx.amount.toNat + tx.fee.toNat ≤ (s.balance tx.fromKey.toBytes).toNat := by
  have hmin := h.covered_toNat
  have hmax := (s.balance tx.fromKey.toBytes).toNat_le_max
  -- a saturated sum is the largest word, which only the largest balance covers
  by_cases hfull : s.balance tx.fromKey.toBytes = UInt64.maxValue
  · have hword := hfits hfull
    omega
  · have hne : (s.balance tx.fromKey.toBytes).toNat ≠ 2 ^ 64 - 1 := fun heq =>
      hfull (UInt64.toNat_inj.1 heq)
    omega

/-- A step that meets `SumFits` mints nothing. -/
theorem mintFree_of_sumFits {tr : List L2Event} {s s' : L2State} {e : L2Event}
    (htotal : s.totalBalance ≤ credited tr) (hstep : s.step e s') (hfits : SumFits tr s e s') :
    MintFree tr s e s' := by
  rcases step_cases hstep with ⟨user, amount, rfl, rfl⟩ | ⟨tx, err, rfl, -, rfl⟩ |
    ⟨tx, rfl, haccept, rfl⟩
  · -- a credit puts in at most what it records
    refine ⟨?_, fun tx utxos heq => by cases heq⟩
    have hle := totalBalance_credit_le s user amount
    have hamount : credited [.credit user amount] = amount.toNat := by simp [credited]
    rw [credited_append]
    omega
  · refine ⟨?_, fun tx' utxos heq => by cases heq⟩
    rw [credited_append]
    omega
  · -- the debit covers the three credits, because the sum did not saturate
    have hcovered := haccept.covered_of_sumFits
      (hfits tx _ rfl haccept.valid haccept.fresh haccept.nonce_eq)
    refine ⟨?_, fun tx' utxos heq => by cases heq; exact hcovered⟩
    have hle := totalBalance_applied_le hcovered
    rw [credited_append]
    omega

/-- A step that mints nothing meets `SumFits`: a transaction that fails it would be accepted. -/
theorem sumFits_of_mintFree {tr : List L2Event} {s s' : L2State} {e : L2Event}
    (hstep : s.step e s') (hfree : MintFree tr s e s') : SumFits tr s e s' := by
  intro tx result heq hvalid hfresh hnonce hfull
  subst heq
  have hamount : tx.amount ≠ 0 := fun hzero => by simp [L2Transaction.isValid, hzero] at hvalid
  have hcovered : tx.amount.satAdd tx.fee ≤ s.balance tx.fromKey.toBytes := by
    rw [hfull, UInt64.le_iff_toNat_le]
    exact UInt64.toNat_le_max _
  -- the balance check passes, so the call is not a rejected one
  have haccept : s.Accepts tx := ⟨hvalid, hamount, hfresh, hnonce, hcovered⟩
  rcases step_cases hstep with ⟨user, amount, heq, -⟩ | ⟨tx', err, heq, hreject, -⟩ |
    ⟨tx', heq, -, -⟩
  · cases heq
  · cases heq
    exact (hreject haccept).elim
  · cases heq
    have hpaid := hfree.2 tx _ rfl
    rw [hfull, UInt64.toNat_maxValue] at hpaid
    omega

/-- The runs that mint nothing are the runs in which every transaction meets `SumFits`. -/
theorem run_mintFree_iff (founder communityFund : ByteArr 32) (tr : List L2Event) (s : L2State) :
    RunWith step MintFree (new founder communityFund) tr s ↔
      RunWith step SumFits (new founder communityFund) tr s := by
  refine RunWith.congr fun tr s e s' hfree _ hstep => ⟨sumFits_of_mintFree hstep, ?_⟩
  refine mintFree_of_sumFits ?_ hstep
  refine RunWith.invariant (fun tr s => s.totalBalance ≤ credited tr) (le_refl 0) ?_ hfree
  intro tr s e s' _ _ _ hfree
  exact hfree.1

end Minting

section Sample

attribute [local instance] polyBlake3 anySignature

/-- The sender holds the largest word and sends it with a fee just as large: the saturated sum
passes the balance check, and recipient, founder and community fund receive twice that. -/
theorem not_mintFree :
    ¬ ∀ (founder communityFund : ByteArr 32) (tr : List L2Event) (s : L2State),
      Run step (new founder communityFund) tr s →
        RunWith step MintFree (new founder communityFund) tr s := by
  intro hclaim
  have hrun := sampleRun UInt64.maxValue
    (samplePayment UInt64.maxValue UInt64.maxValue) (by decide +kernel)
  have htotal : ¬ ((sampleFunded UInt64.maxValue).applied
      (samplePayment UInt64.maxValue UInt64.maxValue)).totalBalance ≤
        credited [.credit (sampleKey 1).toBytes UInt64.maxValue,
          .process (samplePayment UInt64.maxValue UInt64.maxValue)
            (.ok [outputOf (samplePayment UInt64.maxValue UInt64.maxValue)])] := by
    decide +kernel
  refine htotal (RunWith.invariant (fun tr s => s.totalBalance ≤ credited tr) (le_refl 0) ?_
    (hclaim _ _ _ _ hrun))
  intro tr s e s' _ _ _ hfree
  exact hfree.1

end Sample

end L2State
end L2
end Aevum
