import Aevum.L2.Statement
import Aevum.Lib.Machine

/-!
# L2.Payments — what the owner of an account can rely on

A wallet numbers its payments from the nonce of its account and signs them.  While the account
covers them, all of them are accepted in this order, whatever anybody else submits in between, also
in the name of the account (`payments_accepted`): forgeries, replays and payments that are not due
yet change nothing, so nobody else can use up a nonce or a hash of the account or take from it.
-/

namespace Aevum
namespace L2

open Lib Crypto

/-! ## Hashes -/

/-- The preimage of the hash fixes everything but the hash and the signature. -/
theorem L2Transaction.hashInput_inj {tx tx' : L2Transaction} (h : tx.hashInput = tx'.hashInput) :
    { tx with
      txHash := tx'.txHash
      signature := tx'.signature } = tx' := by
  simp only [hashInput, List.append_assoc] at h
  rcases ByteArr.append_inj (List.append_cancel_left h) with ⟨hversion, h⟩
  rcases ByteArr.append_inj h with ⟨hfrom, h⟩
  rcases ByteArr.append_inj h with ⟨hto, h⟩
  rcases ByteArr.append_inj h with ⟨hamount, h⟩
  rcases ByteArr.append_inj h with ⟨hfee, h⟩
  rcases ByteArr.append_inj h with ⟨hnonce, h⟩
  rcases ByteArr.append_inj h with ⟨htimestamp, h⟩
  rcases ByteArr.append_inj h with ⟨hdistance, h⟩
  rcases ByteArr.append_inj h with ⟨horigin, h⟩
  rcases ByteArr.append_inj h with ⟨htaint, h⟩
  rcases ByteArr.append_inj h with ⟨hrestriction, h⟩
  have hkeys : tx.fromKey = tx'.fromKey ∧ tx.toKey = tx'.toKey :=
    ⟨congrArg PublicKey.mk hfrom, congrArg PublicKey.mk hto⟩
  rw [hkeys.1, hkeys.2, u16Bytes_inj hversion, u64Bytes_inj hamount, u64Bytes_inj hfee,
    u64Bytes_inj hnonce, u64Bytes_inj htimestamp, u16Bytes_inj hdistance, u64Bytes_inj horigin,
    u64Bytes_inj htaint, u64Bytes_inj hrestriction, u64Bytes_inj (ByteArr.ext h)]

theorem L2Transaction.isValid_hash [Blake3] [Signatures] {tx : L2Transaction}
    (h : tx.isValid = true) : Blake3.digest tx.hashInput = tx.txHash := by
  rw [isValid] at h
  split at h
  · cases h
  · split at h
    · cases h
    · next hhash => exact not_not.1 hhash

theorem L2Transaction.isValid_signature [Blake3] [Signatures] {tx : L2Transaction}
    (h : tx.isValid = true) : tx.verifySignature = true := by
  rw [isValid] at h
  split at h
  · cases h
  · split at h
    · cases h
    · exact h

/-! ## Payments -/

/-- What the owner of an account wants paid. -/
structure Payment where
  version : UInt16
  toKey : PublicKey
  amount : UInt64
  fee : UInt64
  dna : UInt16 × UInt64 × UInt64 × UInt64
  timestamp : UInt64
  bindingSalt : UInt64

namespace Payment

def cost (p : Payment) : ℕ := p.amount.toNat + p.fee.toNat

variable [Blake3] [Signatures] [Signers]

/-- The signed transaction for a payment under a nonce. -/
def order (keypair : Keypair) (nonce : ℕ) (p : Payment) : L2Transaction :=
  (L2Transaction.newUnsigned p.version keypair.publicKey p.toKey p.amount p.fee
    (UInt64.ofNat nonce) p.dna p.timestamp p.bindingSalt).sign keypair

/-- The transactions for a list of payments, numbered from `n` on. -/
def orders (keypair : Keypair) : ℕ → List Payment → List L2Transaction
  | _, [] => []
  | n, p :: ps => order keypair n p :: orders keypair (n + 1) ps

variable {keypair : Keypair} {n : ℕ} {p : Payment} {ps : List Payment}

theorem orders_snoc (keypair : Keypair) (n : ℕ) (ps : List Payment) (p : Payment) :
    orders keypair n (ps ++ [p]) = orders keypair n ps ++ [order keypair (n + ps.length) p] := by
  induction ps generalizing n with
  | nil => rfl
  | cons q ps ih =>
      rw [List.cons_append, orders, ih, orders, List.cons_append, List.length_cons,
        Nat.add_right_comm, Nat.add_assoc]

theorem orders_take_succ (keypair : Keypair) (n : ℕ) {k : ℕ} (hk : k < ps.length) :
    orders keypair n (ps.take (k + 1)) =
      orders keypair n (ps.take k) ++ [order keypair (n + k) ps[k]] := by
  rw [List.take_succ_eq_append_getElem hk, orders_snoc, List.length_take, min_eq_left hk.le]

theorem exists_of_mem_orders {tx : L2Transaction} (h : tx ∈ orders keypair n ps) :
    ∃ k, ∃ hk : k < ps.length, tx = order keypair (n + k) ps[k] := by
  induction ps generalizing n with
  | nil => cases h
  | cons p ps ih =>
      rcases List.mem_cons.1 h with rfl | hrest
      · exact ⟨0, Nat.succ_pos _, rfl⟩
      · rcases ih hrest with ⟨k, hk, rfl⟩
        refine ⟨k + 1, Nat.succ_lt_succ hk, ?_⟩
        rw [List.getElem_cons_succ, Nat.add_right_comm, Nat.add_assoc]

theorem order_mem_orders {k : ℕ} (hk : k < ps.length) :
    order keypair (n + k) ps[k] ∈ orders keypair n ps := by
  induction ps generalizing n k with
  | nil => cases hk
  | cons p ps ih =>
      cases k with
      | zero => exact List.mem_cons_self
      | succ k =>
          have hrest := ih (n := n + 1) (Nat.lt_of_succ_lt_succ hk)
          rw [Nat.add_right_comm, Nat.add_assoc] at hrest
          exact List.mem_cons_of_mem _ hrest

/-- If no more than `k` payments have been submitted before, a submission does not make it more,
unless it is the next one. -/
theorem take_sublist_snoc {txs : List L2Transaction} {tx : L2Transaction} {k m : ℕ}
    (hdue : ∀ m ≤ ps.length, (orders keypair n (ps.take m)).Sublist txs → m ≤ k)
    (hm : m ≤ ps.length) (hsub : (orders keypair n (ps.take m)).Sublist (txs ++ [tx])) :
    m ≤ k ∨ m = k + 1 ∧ ∃ hk : k < ps.length, tx = order keypair (n + k) ps[k] := by
  rcases sublist_snoc hsub with hold | ⟨r, heq, hr⟩
  · exact Or.inl (hdue m hm hold)
  · cases m with
    | zero => exact Or.inl (Nat.zero_le k)
    | succ m =>
        -- the new submission is the last one of the sublist
        rw [orders_take_succ keypair n hm] at heq
        rcases List.append_inj' heq rfl with ⟨rfl, hlast⟩
        cases hlast
        rcases (hdue m (Nat.le_of_succ_le hm) hr).lt_or_eq with hlt | rfl
        · exact Or.inl hlt
        · exact Or.inr ⟨rfl, hm, rfl⟩

/-- A signed payment of something is valid. -/
theorem isValid_order (h : p.amount ≠ 0) : (order keypair n p).isValid = true := by
  have hhash : (order keypair n p).computeHash = (order keypair n p).txHash := rfl
  have hamount : (order keypair n p).amount ≠ 0 := h
  rw [L2Transaction.isValid, if_neg hamount, if_neg (not_not.2 hhash)]
  exact keypair.verify_sign _

end Payment

namespace L2State

/-- The transactions submitted in a run. -/
def submitted (tr : List L2Event) : List L2Transaction :=
  tr.filterMap fun
    | .process tx _ => some tx
    | _ => none

theorem accepted_subset_submitted {tr : List L2Event} {tx : L2Transaction}
    (h : tx ∈ accepted tr) : tx ∈ submitted tr := by
  rcases List.mem_filterMap.1 h with ⟨e, he, hsome⟩
  refine List.mem_filterMap.2 ⟨e, he, ?_⟩
  cases e with
  | credit user amount => cases hsome
  | process tx' result =>
      cases result with
      | error err => cases hsome
      | ok utxos => exact hsome

theorem submitted_credit (user : ByteArr 32) (amount : UInt64) :
    submitted [.credit user amount] = [] := rfl

theorem submitted_process (tx : L2Transaction)
    (result : Except L2StateError (List L2Utxo)) : submitted [.process tx result] = [tx] := rfl

theorem submitted_append (tr tr' : List L2Event) :
    submitted (tr ++ tr') = submitted tr ++ submitted tr' :=
  List.filterMap_append

/-! ## Nobody else can spoil a payment -/

/-- No call takes anything from an account but the transactions it has sent. -/
theorem balance_credit_le (s : L2State) (user : ByteArr 32) (amount : UInt64) (a : ByteArr 32) :
    (s.balance a).toNat ≤ ((s.credit user amount).balance a).toNat :=
  le_balanceOf_satCredit s.balances user a amount

theorem balance_applied_le (s : L2State) (tx : L2Transaction) (a : ByteArr 32) :
    (s.balance a).toNat ≤
      ((s.applied tx).balance a).toNat + if a = tx.fromKey.toBytes then cost tx else 0 := by
  have hcredits := le_balanceOf_satCreditAll
    (satDebit s.balances tx.fromKey.toBytes (tx.amount.satAdd tx.fee)) (s.creditsOf tx) a
  have hdebit : (s.balance a).toNat ≤
      (balanceOf (satDebit s.balances tx.fromKey.toBytes (tx.amount.satAdd tx.fee)) a).toNat +
        if a = tx.fromKey.toBytes then cost tx else 0 := by
    rw [satDebit, balanceOf_insert]
    split
    · next heq =>
        rw [heq, UInt64.toNat_satSub, UInt64.toNat_satAdd, cost, balance]
        omega
    · exact le_rfl
  have happlied : (s.applied tx).balance a = balanceOf (satCreditAll
    (satDebit s.balances tx.fromKey.toBytes (tx.amount.satAdd tx.fee)) (s.creditsOf tx)) a := rfl
  rw [happlied]
  omega

section Runs

variable [Blake3] [Signatures]

theorem accepted_valid {founder communityFund : ByteArr 32} {tr : List L2Event} {s : L2State}
    (hrun : Run step (new founder communityFund) tr s) :
    ∀ tx ∈ accepted tr, tx.isValid = true := by
  refine RunWith.invariant (fun tr _ => ∀ tx ∈ accepted tr, tx.isValid = true) nofun ?_ hrun
  intro tr s e s' _ ih hstep _
  rw [accepted_append]
  rcases step_cases hstep with ⟨user, amount, rfl, rfl⟩ | ⟨tx, err, rfl, -, rfl⟩ |
    ⟨tx, rfl, haccept, rfl⟩
  · exact List.forall_mem_append.2 ⟨ih, nofun⟩
  · exact List.forall_mem_append.2 ⟨ih, nofun⟩
  · refine List.forall_mem_append.2 ⟨ih, fun tx' htx' => ?_⟩
    rw [List.mem_singleton.1 htx']
    exact haccept.valid

/-- A valid transaction with the next nonce is new: the nonce is a part of what is hashed. -/
theorem ReplayInv.fresh {acc : List L2Transaction} {s : L2State} {tx : L2Transaction}
    {F : Set (List UInt8)} (h : ReplayInv acc s) (hacc : ∀ tx' ∈ acc, tx'.isValid = true)
    (hF : Set.InjOn Blake3.digest F) (hfed : ∀ tx' ∈ tx :: acc, tx'.hashInput ∈ F)
    (hvalid : tx.isValid = true) (hnonce : tx.nonce = s.nonce tx.fromKey.toBytes) :
    tx.txHash ∉ s.processed := by
  intro hmem
  rw [h.processed, List.mem_toFinset] at hmem
  rcases List.mem_map.1 hmem with ⟨tx', htx', hhash⟩
  have hdigest : Blake3.digest tx'.hashInput = Blake3.digest tx.hashInput := by
    rw [L2Transaction.isValid_hash (hacc tx' htx'), L2Transaction.isValid_hash hvalid]
    exact hhash
  have hinput := hF (hfed tx' (List.mem_cons_of_mem tx htx')) (hfed tx List.mem_cons_self) hdigest
  have hsame := L2Transaction.hashInput_inj hinput
  have hfrom : tx'.fromKey = tx.fromKey := by rw [← hsame]
  have hnonce' : tx'.nonce = tx.nonce := by rw [← hsame]
  -- the nonces that the sender has used are smaller
  have hsent : tx' ∈ sentBy tx.fromKey.toBytes acc := by
    refine List.mem_filter.2 ⟨htx', decide_eq_true ?_⟩
    rw [hfrom]
  have hused : tx'.nonce.toNat ∈ (sentBy tx.fromKey.toBytes acc).map (·.nonce.toNat) :=
    List.mem_map.2 ⟨tx', hsent, rfl⟩
  rw [h.nonces, List.mem_range, ← h.nonce, ← hnonce, hnonce'] at hused
  exact lt_irrefl _ hused

/-- The same transaction, with another signature perhaps. -/
def SameButSignature (tx tx' : L2Transaction) : Prop :=
  { tx with signature := tx'.signature } = tx'

/-- Valid transactions with one hash have one content. -/
theorem sameButSignature_of_hash {tx tx' : L2Transaction} {F : Set (List UInt8)}
    (hF : Set.InjOn Blake3.digest F) (hfed : tx.hashInput ∈ F) (hfed' : tx'.hashInput ∈ F)
    (hvalid : tx.isValid = true) (hvalid' : tx'.isValid = true) (hhash : tx.txHash = tx'.txHash) :
    SameButSignature tx tx' := by
  have hdigest : Blake3.digest tx.hashInput = Blake3.digest tx'.hashInput := by
    rw [L2Transaction.isValid_hash hvalid, L2Transaction.isValid_hash hvalid', hhash]
  have hsame := L2Transaction.hashInput_inj (hF hfed hfed' hdigest)
  rw [← hhash] at hsame
  exact hsame

variable [Signers]

/-! ## What the owner does, and what others cannot do -/

/-- The owner of a key submits signed payments from the state `s₁` on, numbered from the nonce of
the account, and the account covers them.  Others may submit what they like, but what verifies
under the key has the hash of one of these payments, or of a transaction accepted before: the owner
signs nothing else. -/
structure Wallet (keypair : Keypair) (ps : List Payment) (tr₁ : List L2Event) (s₁ : L2State)
    (tr₂ : List L2Event) : Prop where
  submitted : (Payment.orders keypair (s₁.nonce keypair.publicKey.toBytes).toNat ps).Sublist
    (submitted tr₂)
  signed : ∀ tx ∈ L2State.submitted tr₂, tx.fromKey = keypair.publicKey →
    tx.verifySignature = true → ∃ tx' ∈ accepted tr₁ ++
      Payment.orders keypair (s₁.nonce keypair.publicKey.toBytes).toNat ps, tx'.txHash = tx.txHash
  numbered : (s₁.nonce keypair.publicKey.toBytes).toNat + ps.length < 2 ^ 64
  amount : ∀ p ∈ ps, p.amount ≠ 0
  covered : (ps.map Payment.cost).sum ≤ (s₁.balance keypair.publicKey.toBytes).toNat

/-- A submission in the name of the key is the payment that the account expects and is accepted, or
it is rejected and changes nothing. -/
def OnlyPayments (keypair : Keypair) (txs : List L2Transaction) (_ : List L2Event) (s : L2State)
    (e : L2Event) (s' : L2State) : Prop :=
  ∀ tx result, e = .process tx result → tx.fromKey = keypair.publicKey →
    (result = .ok [outputOf tx] ∧ ∃ tx' ∈ txs,
        tx'.nonce = s.nonce keypair.publicKey.toBytes ∧ SameButSignature tx tx') ∨
      (∃ err, result = .error err) ∧ s' = s

/-- The first `k` of the payments `ps` have been made since the state `s₁`, and no more than these
have been submitted in order. -/
structure Paid (keypair : Keypair) (ps : List Payment) (s₁ : L2State) (k : ℕ) (tr : List L2Event)
    (s : L2State) : Prop where
  le : k ≤ ps.length
  accepted : List.Forall₂ SameButSignature
    (sentBy keypair.publicKey.toBytes (accepted tr))
    (Payment.orders keypair (s₁.nonce keypair.publicKey.toBytes).toNat (ps.take k))
  nonce : (s.nonce keypair.publicKey.toBytes).toNat =
    (s₁.nonce keypair.publicKey.toBytes).toNat + k
  balance : (s₁.balance keypair.publicKey.toBytes).toNat ≤
    (s.balance keypair.publicKey.toBytes).toNat + ((ps.take k).map Payment.cost).sum
  due : ∀ m ≤ ps.length,
    (Payment.orders keypair (s₁.nonce keypair.publicKey.toBytes).toNat (ps.take m)).Sublist
      (submitted tr) → m ≤ k

variable {keypair : Keypair} {s₁ s s' : L2State} {ps : List Payment} {k : ℕ}
  {tr tr₁ tr₂ : List L2Event} {tx : L2Transaction} {F : Set (List UInt8)}

omit [Blake3] in
theorem fromKey_ne (h : tx.fromKey ≠ keypair.publicKey) :
    keypair.publicKey.toBytes ≠ tx.fromKey.toBytes :=
  fun heq => h (congrArg PublicKey.mk heq).symm

theorem paid_nil (keypair : Keypair) (ps : List Payment) (s : L2State) :
    Paid keypair ps s 0 [] s where
  le := Nat.zero_le _
  accepted := List.Forall₂.nil
  nonce := rfl
  balance := le_rfl
  due m hm hsub := by
    cases m with
    | zero => exact le_rfl
    | succ m =>
        rw [Payment.orders_take_succ _ _ hm] at hsub
        exact absurd (List.sublist_nil.1 hsub)
          (List.append_ne_nil_of_right_ne_nil _ (List.cons_ne_nil _ _))

theorem Paid.credit (h : Paid keypair ps s₁ k tr s) (user : ByteArr 32) (amount : UInt64) :
    Paid keypair ps s₁ k (tr ++ [.credit user amount]) (s.credit user amount) where
  le := h.le
  accepted := by
    have hnone : L2State.accepted [.credit user amount] = [] := rfl
    rw [accepted_append, hnone, List.append_nil]
    exact h.accepted
  nonce := h.nonce
  balance := h.balance.trans (Nat.add_le_add_right (balance_credit_le s user amount _) _)
  due := by
    rw [submitted_append, submitted_credit, List.append_nil]
    exact h.due

/-- A rejected transaction that is not the next payment. -/
theorem Paid.rejected (h : Paid keypair ps s₁ k tr s) (err : L2StateError)
    (htx : ∀ hk : k < ps.length, tx ≠
      Payment.order keypair ((s₁.nonce keypair.publicKey.toBytes).toNat + k) ps[k]) :
    Paid keypair ps s₁ k (tr ++ [.process tx (.error err)]) s where
  le := h.le
  accepted := by
    have hnone : L2State.accepted [.process tx (.error err)] = [] := rfl
    rw [accepted_append, hnone, List.append_nil]
    exact h.accepted
  nonce := h.nonce
  balance := h.balance
  due m hm hsub := by
    rw [submitted_append, submitted_process] at hsub
    rcases Payment.take_sublist_snoc h.due hm hsub with hle | ⟨-, hk, heq⟩
    · exact hle
    · exact absurd heq (htx hk)

/-- An accepted transaction of someone else. -/
theorem Paid.other (h : Paid keypair ps s₁ k tr s) (hfrom : tx.fromKey ≠ keypair.publicKey) :
    Paid keypair ps s₁ k (tr ++ [.process tx (.ok [outputOf tx])]) (s.applied tx) where
  le := h.le
  accepted := by
    have hone : L2State.accepted [.process tx (.ok [outputOf tx])] = [tx] := rfl
    rw [accepted_append, hone, sentBy_append_single, if_neg (fromKey_ne hfrom)]
    exact h.accepted
  nonce := by
    rw [nonce_applied, if_neg (fromKey_ne hfrom)]
    exact h.nonce
  balance := by
    have hbalance := balance_applied_le s tx keypair.publicKey.toBytes
    rw [if_neg (fromKey_ne hfrom), Nat.add_zero] at hbalance
    exact h.balance.trans (Nat.add_le_add_right hbalance _)
  due m hm hsub := by
    rw [submitted_append, submitted_process] at hsub
    rcases Payment.take_sublist_snoc h.due hm hsub with hle | ⟨-, hk, rfl⟩
    · exact hle
    · exact absurd rfl hfrom

/-- The next payment, accepted. -/
theorem Paid.paid (h : Paid keypair ps s₁ k tr s) (hk : k < ps.length)
    (hnumbered : (s₁.nonce keypair.publicKey.toBytes).toNat + k + 1 < 2 ^ 64)
    (hsame : SameButSignature tx
      (Payment.order keypair ((s₁.nonce keypair.publicKey.toBytes).toNat + k) ps[k])) :
    Paid keypair ps s₁ (k + 1) (tr ++ [.process tx (.ok [outputOf tx])]) (s.applied tx) := by
  have hfrom : tx.fromKey = keypair.publicKey := congrArg L2Transaction.fromKey hsame
  have hcost : cost tx = ps[k].cost := congrArg cost hsame
  have hnonce : tx.nonce = UInt64.ofNat ((s₁.nonce keypair.publicKey.toBytes).toNat + k) :=
    congrArg L2Transaction.nonce hsame
  have hlt : (s₁.nonce keypair.publicKey.toBytes).toNat + k < 2 ^ 64 := by omega
  constructor
  · exact hk
  · have hone : L2State.accepted [.process tx (.ok [outputOf tx])] = [tx] := rfl
    rw [accepted_append, hone, sentBy_append_single, hfrom, if_pos rfl,
      Payment.orders_take_succ _ _ hk]
    exact List.rel_append h.accepted (List.Forall₂.cons hsame List.Forall₂.nil)
  · -- the nonces do not reach the end of the type, so the sum is not cut off
    rw [nonce_applied, hfrom, if_pos rfl, hnonce, UInt64.toNat_satAdd, UInt64.toNat_one,
      UInt64.toNat_ofNat_of_lt' hlt]
    omega
  · have hbefore := h.balance
    have hbalance := balance_applied_le s tx keypair.publicKey.toBytes
    rw [hfrom, if_pos rfl, hcost] at hbalance
    rw [List.take_succ_eq_append_getElem hk, List.map_append, List.sum_append, List.map_singleton,
      List.sum_singleton]
    omega
  · intro m hm hsub
    rw [submitted_append, submitted_process] at hsub
    rcases Payment.take_sublist_snoc h.due hm hsub with hle | ⟨rfl, -⟩
    · exact hle.trans (Nat.le_succ k)
    · exact le_rfl

/-- The next payment passes all checks. -/
theorem Paid.accepts (h : Paid keypair ps s₁ k tr s) (hwallet : Wallet keypair ps tr₁ s₁ tr₂)
    (hinv : ReplayInv (L2State.accepted (tr₁ ++ tr)) s)
    (hacc : ∀ tx ∈ L2State.accepted (tr₁ ++ tr), tx.isValid = true)
    (hF : Set.InjOn Blake3.digest F) (hk : k < ps.length)
    (hfed : ∀ tx ∈ Payment.order keypair ((s₁.nonce keypair.publicKey.toBytes).toNat + k) ps[k] ::
      L2State.accepted (tr₁ ++ tr), tx.hashInput ∈ F) :
    s.Accepts (Payment.order keypair ((s₁.nonce keypair.publicKey.toBytes).toNat + k) ps[k]) := by
  have hamount := hwallet.amount ps[k] (List.getElem_mem hk)
  have hvalid : (Payment.order keypair ((s₁.nonce keypair.publicKey.toBytes).toNat + k)
      ps[k]).isValid = true := Payment.isValid_order hamount
  have hnonce : (Payment.order keypair ((s₁.nonce keypair.publicKey.toBytes).toNat + k)
      ps[k]).nonce = s.nonce keypair.publicKey.toBytes := by
    rw [← h.nonce]
    exact UInt64.ofNat_toNat
  refine ⟨hvalid, hamount, hinv.fresh hacc hF hfed hvalid hnonce, hnonce, ?_⟩
  -- what has been paid and the next payment are a part of what is covered
  have hsplit : ((ps.take (k + 1)).map Payment.cost).sum ≤ (ps.map Payment.cost).sum :=
    ((List.take_sublist (k + 1) ps).map Payment.cost).sum_le_sum fun _ _ => Nat.zero_le _
  rw [List.take_succ_eq_append_getElem hk, List.map_append, List.sum_append, List.map_singleton,
    List.sum_singleton] at hsplit
  have hbalance := h.balance
  have hcovered := hwallet.covered
  have hcost : ps[k].cost ≤ (s.balance keypair.publicKey.toBytes).toNat := by omega
  rw [UInt64.le_iff_toNat_le, UInt64.toNat_satAdd]
  exact (Nat.min_le_left _ _).trans hcost

/-- What is accepted in the name of the key is the next payment. -/
theorem Paid.eq_next (h : Paid keypair ps s₁ k tr s) (hwallet : Wallet keypair ps tr₁ s₁ tr₂)
    (hinv : ReplayInv (L2State.accepted (tr₁ ++ tr)) s) (hF : Set.InjOn Blake3.digest F)
    (hfed : ∀ tx ∈ L2State.submitted tr₂, tx.hashInput ∈ F) (htx : tx ∈ submitted tr₂)
    (hfrom : tx.fromKey = keypair.publicKey) (haccepts : s.Accepts tx) :
    ∃ hk : k < ps.length, SameButSignature tx
      (Payment.order keypair ((s₁.nonce keypair.publicKey.toBytes).toNat + k) ps[k]) := by
  rcases hwallet.signed tx htx hfrom (L2Transaction.isValid_signature haccepts.valid) with
    ⟨tx', hmem, hhash⟩
  rcases List.mem_append.1 hmem with hold | hnew
  · -- a replay of an earlier transaction has a hash that is known
    refine absurd ?_ haccepts.fresh
    rw [hinv.processed, List.mem_toFinset, accepted_append, List.map_append, ← hhash]
    exact List.mem_append_left _ (List.mem_map_of_mem hold)
  · rcases Payment.exists_of_mem_orders hnew with ⟨i, hi, rfl⟩
    have hamount := hwallet.amount ps[i] (List.getElem_mem hi)
    have hsame := sameButSignature_of_hash hF (hfed tx htx)
      (hfed _ (hwallet.submitted.subset hnew)) haccepts.valid (Payment.isValid_order hamount)
      hhash.symm
    -- the account expects one number only
    have hnonce : tx.nonce = UInt64.ofNat ((s₁.nonce keypair.publicKey.toBytes).toNat + i) :=
      congrArg L2Transaction.nonce hsame
    have hexpected := congrArg UInt64.toNat haccepts.nonce_eq
    have hnumbered := hwallet.numbered
    have hlt : (s₁.nonce keypair.publicKey.toBytes).toNat + i < 2 ^ 64 := by omega
    rw [hfrom, h.nonce, hnonce, UInt64.toNat_ofNat_of_lt' hlt] at hexpected
    have hik : i = k := by omega
    subst hik
    exact ⟨hi, hsame⟩

/-- What one step does to the payments, whoever makes it. -/
theorem Paid.step {e : L2Event} {founder communityFund : ByteArr 32}
    (h : Paid keypair ps s₁ k tr s) (hwallet : Wallet keypair ps tr₁ s₁ tr₂)
    (hrun : Run step (new founder communityFund) (tr₁ ++ tr) s)
    (hroom : (L2State.accepted (tr₁ ++ tr)).length < 2 ^ 64)
    (hF : Set.InjOn Blake3.digest F) (hfed : ∀ tx ∈ submitted (tr₁ ++ tr₂), tx.hashInput ∈ F)
    (hle : tr ++ [e] <+: tr₂) (hstep : s.step e s') :
    (∃ k, Paid keypair ps s₁ k (tr ++ [e]) s') ∧
      OnlyPayments keypair
        (Payment.orders keypair (s₁.nonce keypair.publicKey.toBytes).toNat ps) tr s e s' := by
  have hinv := replayInv_run hrun hroom
  rw [submitted_append, List.forall_mem_append] at hfed
  -- what has been submitted so far is a part of what is submitted
  have hsub : ∀ tx ∈ submitted (tr ++ [e]), tx ∈ submitted tr₂ :=
    (hle.sublist.filterMap _).subset
  rw [submitted_append, List.forall_mem_append] at hsub
  rcases step_cases hstep with ⟨user, amount, rfl, rfl⟩ | ⟨tx, err, rfl, hreject, rfl⟩ |
    ⟨tx, rfl, haccepts, rfl⟩
  · exact ⟨⟨k, h.credit user amount⟩, nofun⟩
  · refine ⟨⟨k, h.rejected err ?_⟩, ?_⟩
    · -- the next payment would have passed all checks
      rintro hk rfl
      refine hreject (h.accepts hwallet hinv (accepted_valid hrun) hF hk ?_)
      refine List.forall_mem_cons.2 ⟨hfed.2 _ (hsub.2 _ (List.mem_singleton_self _)), ?_⟩
      intro tx htx
      have hmem := accepted_subset_submitted htx
      rw [submitted_append] at hmem
      exact (List.mem_append.1 hmem).elim (hfed.1 tx) fun hmem => hfed.2 tx (hsub.1 tx hmem)
    · intro tx' result heq _
      cases heq
      exact Or.inr ⟨⟨err, rfl⟩, rfl⟩
  · by_cases hfrom : tx.fromKey = keypair.publicKey
    · rcases h.eq_next hwallet hinv hF hfed.2 (hsub.2 tx (List.mem_singleton_self tx)) hfrom
        haccepts with ⟨hk, hsame⟩
      have hnumbered := hwallet.numbered
      refine ⟨⟨k + 1, h.paid hk (by omega) hsame⟩, ?_⟩
      intro tx' result heq _
      cases heq
      have hnonce := haccepts.nonce_eq
      rw [hfrom] at hnonce
      have hsame' := (congrArg L2Transaction.nonce hsame).symm
      exact Or.inl ⟨rfl, _, Payment.order_mem_orders hk, hsame'.trans hnonce, hsame⟩
    · refine ⟨⟨k, h.other hfrom⟩, ?_⟩
      intro tx' result heq hfrom'
      cases heq
      exact absurd hfrom' hfrom

/-- Whatever others do, the payments of an account that covers them are accepted, in order and once
each, everything else that is submitted in the name of the account changes nothing, and nobody takes
more from the account than the payments cost. -/
theorem payments_accepted (keypair : Keypair) (ps : List Payment)
    {founder communityFund : ByteArr 32} {tr₁ tr₂ : List L2Event}
    {F : Set (List UInt8)} (hrun₁ : Run step (new founder communityFund) tr₁ s₁)
    (hrun₂ : Run step s₁ tr₂ s) (hroom : (accepted (tr₁ ++ tr₂)).length < 2 ^ 64)
    (hF : Set.InjOn Blake3.digest F) (hfed : ∀ tx ∈ submitted (tr₁ ++ tr₂), tx.hashInput ∈ F)
    (hwallet : Wallet keypair ps tr₁ s₁ tr₂) :
    List.Forall₂ SameButSignature (sentBy keypair.publicKey.toBytes (accepted tr₂))
        (Payment.orders keypair (s₁.nonce keypair.publicKey.toBytes).toNat ps) ∧
      RunWith step (OnlyPayments keypair
        (Payment.orders keypair (s₁.nonce keypair.publicKey.toBytes).toNat ps)) s₁ tr₂ s ∧
      (s₁.balance keypair.publicKey.toBytes).toNat ≤
        (s.balance keypair.publicKey.toBytes).toNat + (ps.map Payment.cost).sum := by
  have hroom' : ∀ {tr : List L2Event}, tr <+: tr₂ → (accepted (tr₁ ++ tr)).length < 2 ^ 64 := by
    intro tr hle
    have hsub : (accepted (tr₁ ++ tr)).Sublist (accepted (tr₁ ++ tr₂)) :=
      ((List.prefix_append_right_inj tr₁).2 hle).sublist.filterMap _
    exact hsub.length_le.trans_lt hroom
  have hnext : ∀ {k tr s e s'}, RunWith step (fun tr _ e _ => tr ++ [e] <+: tr₂) s₁ tr s →
      Paid keypair ps s₁ k tr s → tr ++ [e] <+: tr₂ → s.step e s' →
        (∃ k, Paid keypair ps s₁ k (tr ++ [e]) s') ∧ OnlyPayments keypair
          (Payment.orders keypair (s₁.nonce keypair.publicKey.toBytes).toNat ps) tr s e s' := by
    intro k tr s e s' hrun h hle hstep
    have hbefore : tr <+: tr₂ := (List.prefix_append tr [e]).trans hle
    have hrun' := hrun₁.append (hrun.imp fun _ _ _ _ _ _ _ _ => trivial)
    exact h.step hwallet hrun' (hroom' hbefore) hF hfed hle hstep
  have hpaid : ∀ {tr s}, RunWith step (fun tr _ e _ => tr ++ [e] <+: tr₂) s₁ tr s →
      ∃ k, Paid keypair ps s₁ k tr s := by
    intro tr s hrun
    refine RunWith.invariant (fun tr s => ∃ k, Paid keypair ps s₁ k tr s)
      ⟨0, paid_nil keypair ps s₁⟩ ?_ hrun
    rintro tr s e s' hrun ⟨k, h⟩ hstep hle
    exact (hnext hrun h hle hstep).1
  have hrun := hrun₂.prefixed
  rcases hpaid hrun with ⟨k, h⟩
  -- all payments have been submitted, so all have been made
  have hk : k = ps.length := by
    refine Nat.le_antisymm h.le (h.due _ le_rfl ?_)
    rw [List.take_length]
    exact hwallet.submitted
  have haccepted := h.accepted
  have hbalance := h.balance
  rw [hk, List.take_length] at haccepted hbalance
  refine ⟨haccepted, hrun.imp ?_, hbalance⟩
  intro tr s e s' hrun _ hstep hle
  rcases hpaid hrun with ⟨k, h⟩
  exact (hnext hrun h hle hstep).2

end Runs

section Sample

attribute [local instance] polyBlake3 stampSignature stampSigner

/-- Every list of submissions has a run. -/
theorem run_submissions (s : L2State) (txs : List L2Transaction) :
    Run step s ((trace processTransaction s txs).map fun l => .process l.1 l.2)
      (final processTransaction s txs) := by
  induction txs generalizing s with
  | nil => exact RunWith.nil
  | cons tx txs ih =>
      have hone : Run step s [.process tx (s.processTransaction tx).2]
          (s.processTransaction tx).1 := Run.single (Prod.mk.eta).symm
      exact RunWith.append hone (ih (s.processTransaction tx).1)

def sampleKeypair : Keypair :=
  { publicKey := sampleKey 1
    privateKey := (sampleKey 1).toBytes
    verify_sign := fun _ => decide_eq_true rfl }

/-- Two payments of 400 to key 2 with fee 40. -/
def samplePayments : List Payment :=
  List.replicate 2
    { version := 1
      toKey := sampleKey 2
      amount := 400
      fee := 40
      dna := (0, 0, 0, 0)
      timestamp := 100
      bindingSalt := 0 }

/-- A transaction that nobody has signed, both payments the wrong way round, the first one again,
and both again in order. -/
def sampleSubmissions : List L2Transaction :=
  let orders := Payment.orders sampleKeypair 0 samplePayments
  samplePayment 1000 0 :: orders.reverse ++ orders.take 1 ++ orders

/-- What the submissions return, for an account that holds 1000. -/
def sampleAttempts : List L2Event :=
  (trace processTransaction (sampleFunded 1000) sampleSubmissions).map fun l => .process l.1 l.2

theorem payments_accepted_sample :
    List.Forall₂ SameButSignature (sentBy (sampleKey 1).toBytes (accepted sampleAttempts))
        (Payment.orders sampleKeypair 0 samplePayments) ∧
      1000 ≤ ((final processTransaction (sampleFunded 1000) sampleSubmissions).balance
        (sampleKey 1).toBytes).toNat + 880 := by
  have hrun₁ : Run step (new (sampleKey 3).toBytes (sampleKey 4).toBytes)
      [.credit (sampleKey 1).toBytes 1000] (sampleFunded 1000) := Run.single rfl
  have hinj : Set.InjOn Blake3.digest
      {bs | bs ∈ (samplePayment 1000 0 :: Payment.orders sampleKeypair 0 samplePayments).map
        L2Transaction.hashInput} := injOn_of_nodup (by decide +kernel)
  have hwallet : Wallet sampleKeypair samplePayments [.credit (sampleKey 1).toBytes 1000]
      (sampleFunded 1000) sampleAttempts :=
    { submitted := by decide +kernel
      signed := by decide +kernel
      numbered := by decide +kernel
      amount := by decide +kernel
      covered := by decide +kernel }
  have hmain := payments_accepted sampleKeypair samplePayments hrun₁
    (run_submissions (sampleFunded 1000) sampleSubmissions) (by decide +kernel) hinj
    (by decide +kernel) hwallet
  have hnonce : ((sampleFunded 1000).nonce sampleKeypair.publicKey.toBytes).toNat = 0 := by
    decide +kernel
  have hbalance : ((sampleFunded 1000).balance sampleKeypair.publicKey.toBytes).toNat = 1000 := by
    decide +kernel
  have hcost : (samplePayments.map Payment.cost).sum = 880 := by decide +kernel
  rw [hnonce, hbalance, hcost] at hmain
  exact ⟨hmain.1, hmain.2.2⟩

end Sample

end L2State

end L2
end Aevum
