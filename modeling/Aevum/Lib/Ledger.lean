import Mathlib.Data.Finsupp.Weight
import Aevum.Lib.FinMap
import Aevum.Lib.Word

/-!
# Ledger — balances, payments and saturating balance maps

The abstract ledger gives every account a natural number, finitely many of them nonzero.  A payment
takes a sum from one account and hands it out to a list of accounts, which may repeat and may
contain the payer; the total never changes.

The second half relates this to maps of 64-bit words whose entries are updated by saturating
arithmetic: a saturating credit never yields more than the abstract deposit, and yields exactly
that as long as the account stays below `2 ^ 64`.
-/

namespace Lib

noncomputable section

variable {A : Type*}

/-- Balances of finitely many accounts. -/
abbrev Ledger (A : Type*) := A →₀ ℕ

namespace Ledger

/-! ## Abstract payments -/

/-- What all accounts hold together. -/
def total (b : Ledger A) : ℕ := b.degree

/-- Add to one account. -/
def deposit (b : Ledger A) (a : A) (x : ℕ) : Ledger A := b + Finsupp.single a x

/-- Take from one account. -/
def withdraw (b : Ledger A) (a : A) (x : ℕ) : Ledger A := b - Finsupp.single a x

/-- Add to the accounts of a list, one after the other. -/
def depositAll (b : Ledger A) (cs : List (A × ℕ)) : Ledger A :=
  cs.foldl (fun b c => b.deposit c.1 c.2) b

/-- `payer` pays out the sums of a list. -/
def pay (b : Ledger A) (payer : A) (cs : List (A × ℕ)) : Ledger A :=
  (b.withdraw payer (cs.map Prod.snd).sum).depositAll cs

theorem total_deposit (b : Ledger A) (a : A) (x : ℕ) : (b.deposit a x).total = b.total + x := by
  simp [total, deposit]

theorem total_withdraw {b : Ledger A} {a : A} {x : ℕ} (h : x ≤ b a) :
    (b.withdraw a x).total + x = b.total := by
  have hsingle : Finsupp.single a x ≤ b := Finsupp.single_le_iff.2 h
  calc
    (b.withdraw a x).total + x
        = (b - Finsupp.single a x + Finsupp.single a x).degree := by
          simp [total, withdraw]
    _ = b.total := by rw [tsub_add_cancel_of_le hsingle, total]

theorem total_depositAll (b : Ledger A) (cs : List (A × ℕ)) :
    (b.depositAll cs).total = b.total + (cs.map Prod.snd).sum := by
  induction cs generalizing b with
  | nil => simp [depositAll]
  | cons c cs ih =>
      have hstep : b.depositAll (c :: cs) = (b.deposit c.1 c.2).depositAll cs := rfl
      rw [hstep, ih, total_deposit, List.map_cons, List.sum_cons]
      omega

/-- A covered payment keeps the total, whichever of the accounts coincide. -/
theorem total_pay {b : Ledger A} {payer : A} {cs : List (A × ℕ)}
    (h : (cs.map Prod.snd).sum ≤ b payer) : (b.pay payer cs).total = b.total := by
  rw [pay, total_depositAll]
  exact total_withdraw h

theorem depositAll_mono {b b' : Ledger A} (h : b ≤ b') (cs : List (A × ℕ)) :
    b.depositAll cs ≤ b'.depositAll cs := by
  induction cs generalizing b b' with
  | nil => exact h
  | cons c cs ih => exact ih (add_le_add_left h (Finsupp.single c.1 c.2))

/-! ### One account -/

variable [DecidableEq A]

/-- What an account gets from a list of sums. -/
def received (a : A) (cs : List (A × ℕ)) : ℕ :=
  (cs.map fun c => if c.1 = a then c.2 else 0).sum

theorem deposit_apply (b : Ledger A) (a a' : A) (x : ℕ) :
    b.deposit a x a' = b a' + if a = a' then x else 0 := by
  rw [deposit, Finsupp.add_apply, Finsupp.single_apply]

theorem depositAll_apply (b : Ledger A) (cs : List (A × ℕ)) (a : A) :
    b.depositAll cs a = b a + received a cs := by
  induction cs generalizing b with
  | nil => rfl
  | cons c cs ih =>
      have hstep : b.depositAll (c :: cs) = (b.deposit c.1 c.2).depositAll cs := rfl
      rw [hstep, ih, deposit_apply, received, received, List.map_cons, List.sum_cons,
        Nat.add_assoc]

/-- What an account has after a covered payment, with what it has paid. -/
theorem pay_apply {b : Ledger A} {payer : A} {cs : List (A × ℕ)}
    (h : (cs.map Prod.snd).sum ≤ b payer) (a : A) :
    b.pay payer cs a + (if payer = a then (cs.map Prod.snd).sum else 0) =
      b a + received a cs := by
  rw [pay, depositAll_apply, withdraw, Finsupp.tsub_apply, Finsupp.single_apply]
  split
  · next heq =>
      subst heq
      omega
  · omega

end Ledger

/-! ## Saturating balance maps -/

variable [DecidableEq A]

/-- The balance a map of words records for an account. -/
def balanceOf (m : FinMap A UInt64) (a : A) : UInt64 :=
  (m.get? a).getD 0

/-- `*m.entry(a).or_insert(0)` with a saturating addition. -/
def satCredit (m : FinMap A UInt64) (a : A) (x : UInt64) : FinMap A UInt64 :=
  m.insert a ((balanceOf m a).satAdd x)

/-- `*m.entry(a).or_insert(0)` with a saturating subtraction. -/
def satDebit (m : FinMap A UInt64) (a : A) (x : UInt64) : FinMap A UInt64 :=
  m.insert a ((balanceOf m a).satSub x)

/-- Saturating credits to the accounts of a list, one after the other. -/
def satCreditAll (m : FinMap A UInt64) (cs : List (A × UInt64)) : FinMap A UInt64 :=
  cs.foldl (fun m c => satCredit m c.1 c.2) m

/-- The ledger a map of words stands for. -/
def ledgerOf (m : FinMap A UInt64) : Ledger A :=
  Finsupp.onFinset m.keys.toFinset (fun a => (balanceOf m a).toNat) fun a ha => by
    cases h : m.get? a with
    | none => simp [balanceOf, h] at ha
    | some v => exact List.mem_toFinset.2 (FinMap.mem_keys.2 ⟨v, h⟩)

@[simp] theorem ledgerOf_apply (m : FinMap A UInt64) (a : A) :
    ledgerOf m a = (balanceOf m a).toNat := rfl

theorem balanceOf_insert (m : FinMap A UInt64) (a b : A) (v : UInt64) :
    balanceOf (m.insert a v) b = if b = a then v else balanceOf m b := by
  unfold balanceOf
  rw [FinMap.get?_insert]
  split <;> rfl

/-- The ledger's total is the sum over the entries of the map. -/
theorem total_ledgerOf (m : FinMap A UInt64) :
    (ledgerOf m).total = FinMap.sumOf UInt64.toNat m := by
  -- keys outside the support hold zero, so the sum may range over all keys
  have hsub : (ledgerOf m).support ⊆ m.keys.toFinset := Finsupp.support_onFinset_subset
  have hsum : (ledgerOf m).total = ∑ a ∈ m.keys.toFinset, (balanceOf m a).toNat := by
    rw [Ledger.total, Finsupp.degree_apply]
    exact Finset.sum_subset hsub fun a _ ha => Finsupp.notMem_support_iff.1 ha
  rw [hsum, List.sum_toFinset _ m.keys_nodup, FinMap.sumOf_eq]
  have hmap : m.keys.map (fun a => (balanceOf m a).toNat) =
      (AList.entries m).map fun e => e.2.toNat := by
    have hkeys : m.keys = (AList.entries m).map Sigma.fst := rfl
    rw [hkeys, List.map_map]
    refine List.map_congr_left fun e he => ?_
    have hget : m.get? e.1 = some e.2 := AList.mem_lookup_iff.2 he
    simp [balanceOf, hget]
  rw [hmap]

theorem ledgerOf_satDebit (m : FinMap A UInt64) (a : A) (x : UInt64) :
    ledgerOf (satDebit m a x) = (ledgerOf m).withdraw a x.toNat := by
  ext b
  simp only [ledgerOf_apply, satDebit, balanceOf_insert, Ledger.withdraw, Finsupp.tsub_apply]
  by_cases h : b = a
  · subst h
    simp
  · simp [h, Finsupp.single_eq_of_ne h]

theorem ledgerOf_satCredit_le (m : FinMap A UInt64) (a : A) (x : UInt64) :
    ledgerOf (satCredit m a x) ≤ (ledgerOf m).deposit a x.toNat := by
  intro b
  simp only [ledgerOf_apply, satCredit, balanceOf_insert, Ledger.deposit, Finsupp.add_apply]
  by_cases h : b = a
  · subst h
    simp
  · simp [h, Finsupp.single_eq_of_ne h]

theorem ledgerOf_satCredit {m : FinMap A UInt64} {a : A} {x : UInt64}
    (hfit : (balanceOf m a).toNat + x.toNat < 2 ^ 64) :
    ledgerOf (satCredit m a x) = (ledgerOf m).deposit a x.toNat := by
  ext b
  simp only [ledgerOf_apply, satCredit, balanceOf_insert, Ledger.deposit, Finsupp.add_apply]
  by_cases h : b = a
  · subst h
    simp
    omega
  · simp [h, Finsupp.single_eq_of_ne h]

/-- Credits in words read as credits in natural numbers. -/
def creditsToNat (cs : List (A × UInt64)) : List (A × ℕ) :=
  cs.map fun c => (c.1, c.2.toNat)

theorem ledgerOf_satCreditAll_le (m : FinMap A UInt64) (cs : List (A × UInt64)) :
    ledgerOf (satCreditAll m cs) ≤ (ledgerOf m).depositAll (creditsToNat cs) := by
  induction cs generalizing m with
  | nil => exact le_refl _
  | cons c cs ih =>
      have htail := ih (satCredit m c.1 c.2)
      have hhead := ledgerOf_satCredit_le m c.1 c.2
      exact htail.trans (Ledger.depositAll_mono hhead (creditsToNat cs))

/-- Below `2 ^ 64` in total, nothing saturates. -/
theorem ledgerOf_satCreditAll {m : FinMap A UInt64} {cs : List (A × UInt64)}
    (hfit : (ledgerOf m).total + ((creditsToNat cs).map Prod.snd).sum < 2 ^ 64) :
    ledgerOf (satCreditAll m cs) = (ledgerOf m).depositAll (creditsToNat cs) := by
  induction cs generalizing m with
  | nil => rfl
  | cons c cs ih =>
      simp only [creditsToNat, List.map_cons, List.sum_cons] at hfit
      have hle : (balanceOf m c.1).toNat ≤ (ledgerOf m).total := Finsupp.le_degree c.1 (ledgerOf m)
      have hhead : ledgerOf (satCredit m c.1 c.2) = (ledgerOf m).deposit c.1 c.2.toNat :=
        ledgerOf_satCredit (by omega)
      have htail := ih (m := satCredit m c.1 c.2) (by
        rw [hhead, Ledger.total_deposit]
        simp only [creditsToNat]
        omega)
      rw [hhead] at htail
      exact htail

/-! ## Credits never take anything away -/

theorem le_balanceOf_satCredit (m : FinMap A UInt64) (a b : A) (x : UInt64) :
    (balanceOf m b).toNat ≤ (balanceOf (satCredit m a x) b).toNat := by
  rw [satCredit, balanceOf_insert]
  split
  · next heq =>
      have hmax := (balanceOf m a).toNat_le_max
      rw [heq, UInt64.toNat_satAdd]
      omega
  · exact le_rfl

theorem le_balanceOf_satCreditAll (m : FinMap A UInt64) (cs : List (A × UInt64)) (b : A) :
    (balanceOf m b).toNat ≤ (balanceOf (satCreditAll m cs) b).toNat := by
  induction cs generalizing m with
  | nil => exact le_rfl
  | cons c cs ih => exact (le_balanceOf_satCredit m c.1 b c.2).trans (ih _)

end

end Lib
