import Aevum.L2.State

/-!
# L2.Replay — the two replay guards and the counters

The state remembers accepted transactions three times: in the set of processed hashes, in one
counter per sender and in the list of outputs.  `ReplayInv` ties all of them to the list of
transactions accepted so far; `replayInv_run` shows that it holds after every run with fewer than
`2 ^ 64` accepted transactions.
-/

namespace Aevum
namespace L2
namespace L2State

open Lib Crypto

/-! ## The invariant -/

/-- The transactions of a list sent by one account. -/
def sentBy (a : ByteArr 32) (txs : List L2Transaction) : List L2Transaction :=
  txs.filter fun tx => tx.fromKey.toBytes = a

/-- The state records exactly the transactions `acc`, in this order. -/
structure ReplayInv (acc : List L2Transaction) (s : L2State) : Prop where
  hashes_nodup : (acc.map (·.txHash)).Nodup
  processed : s.processed = (acc.map (·.txHash)).toFinset
  nonce : ∀ a, (s.nonce a).toNat = (sentBy a acc).length
  nonces : ∀ a, (sentBy a acc).map (·.nonce.toNat) = List.range (sentBy a acc).length
  utxos : s.utxos = acc.map outputOf
  txCount : s.txCount.toNat = acc.length

theorem replayInv_new (founder communityFund : ByteArr 32) :
    ReplayInv [] (new founder communityFund) where
  hashes_nodup := List.nodup_nil
  processed := rfl
  nonce _ := rfl
  nonces _ := rfl
  utxos := rfl
  txCount := rfl

theorem nonce_applied (s : L2State) (tx : L2Transaction) (a : ByteArr 32) :
    (s.applied tx).nonce a =
      if a = tx.fromKey.toBytes then tx.nonce.satAdd 1 else s.nonce a := by
  simp only [L2State.nonce, applied, FinMap.get?_insert]
  split <;> rfl

theorem sentBy_append_single (a : ByteArr 32) (acc : List L2Transaction) (tx : L2Transaction) :
    sentBy a (acc ++ [tx]) =
      if a = tx.fromKey.toBytes then sentBy a acc ++ [tx] else sentBy a acc := by
  by_cases h : a = tx.fromKey.toBytes
  · subst h
    simp [sentBy]
  · have hne : tx.fromKey.toBytes ≠ a := fun heq => h heq.symm
    simp [sentBy, h, hne]

theorem length_sentBy_le (a : ByteArr 32) (acc : List L2Transaction) :
    (sentBy a acc).length ≤ acc.length :=
  List.length_filter_le _ acc

/-- Crediting an account touches nothing the invariant speaks about. -/
theorem ReplayInv.credit {acc : List L2Transaction} {s : L2State} (h : ReplayInv acc s)
    (user : ByteArr 32) (amount : UInt64) : ReplayInv acc (s.credit user amount) :=
  ⟨h.hashes_nodup, h.processed, h.nonce, h.nonces, h.utxos, h.txCount⟩

theorem accepted_append (tr tr' : List L2Event) :
    accepted (tr ++ tr') = accepted tr ++ accepted tr' := by
  simp [accepted]

/-! ## Steps and runs -/

section Runs

variable [Blake3] [Signatures]

/-- An accepted transaction carries the number of those its sender has got through. -/
theorem ReplayInv.toNat_nonce {acc : List L2Transaction} {s : L2State} {tx : L2Transaction}
    (h : ReplayInv acc s) (haccept : s.Accepts tx) :
    tx.nonce.toNat = (sentBy tx.fromKey.toBytes acc).length := by
  rw [haccept.nonce_eq, h.nonce]

/-- An accepted transaction extends the record by itself. -/
theorem ReplayInv.applied {acc : List L2Transaction} {s : L2State} {tx : L2Transaction}
    (h : ReplayInv acc s) (haccept : s.Accepts tx) (hroom : acc.length + 1 < 2 ^ 64) :
    ReplayInv (acc ++ [tx]) (s.applied tx) where
  hashes_nodup := by
    have hnew : tx.txHash ∉ acc.map (·.txHash) := fun hmem =>
      haccept.fresh (h.processed ▸ List.mem_toFinset.2 hmem)
    simpa [List.nodup_append, h.hashes_nodup] using hnew
  processed := by
    change insert tx.txHash s.processed = _
    rw [h.processed, List.map_append, List.toFinset_append, Finset.union_comm]
    rfl
  nonce := by
    intro a
    rw [nonce_applied, sentBy_append_single]
    have hle := length_sentBy_le a acc
    have hsent := h.nonce a
    by_cases ha : a = tx.fromKey.toBytes
    · subst ha
      -- the counter is at most the number of accepted transactions, so it does not saturate
      rw [if_pos rfl, if_pos rfl, UInt64.toNat_satAdd, List.length_append, h.toNat_nonce haccept]
      simp only [UInt64.toNat_one, List.length_singleton]
      omega
    · rw [if_neg ha, if_neg ha]
      exact hsent
  nonces := by
    intro a
    rw [sentBy_append_single]
    by_cases ha : a = tx.fromKey.toBytes
    · subst ha
      rw [if_pos rfl, List.map_append, h.nonces, List.length_append, List.length_singleton,
        List.range_succ, List.map_singleton, h.toNat_nonce haccept]
    · rw [if_neg ha]
      exact h.nonces a
  utxos := by
    change s.utxos ++ [outputOf tx] = _
    rw [h.utxos, List.map_append, List.map_singleton]
  txCount := by
    change (s.txCount.satAdd 1).toNat = _
    rw [UInt64.toNat_satAdd, h.txCount, List.length_append, List.length_singleton,
      UInt64.toNat_one]
    omega

theorem replayInv_step {tr : List L2Event} {s s' : L2State} {e : L2Event}
    (h : ReplayInv (accepted tr) s) (hstep : s.step e s')
    (hroom : (accepted (tr ++ [e])).length < 2 ^ 64) :
    ReplayInv (accepted (tr ++ [e])) s' := by
  rw [accepted_append] at hroom ⊢
  rcases step_cases hstep with ⟨user, amount, rfl, rfl⟩ | ⟨tx, err, rfl, -, rfl⟩ |
    ⟨tx, rfl, haccept, rfl⟩
  · have hnone : accepted [.credit user amount] = [] := rfl
    rw [hnone, List.append_nil]
    exact h.credit user amount
  · have hnone : accepted [.process tx (.error err)] = [] := rfl
    rw [hnone, List.append_nil]
    exact h
  · have hone : accepted [.process tx (.ok [outputOf tx])] = [tx] := rfl
    rw [hone, List.length_append, List.length_singleton] at hroom
    rw [hone]
    exact h.applied haccept hroom

/-- The invariant holds after every run with fewer than `2 ^ 64` accepted transactions. -/
theorem replayInv_run {founder communityFund : ByteArr 32} {tr : List L2Event} {s : L2State}
    (hrun : Run step (new founder communityFund) tr s)
    (hroom : (accepted tr).length < 2 ^ 64) : ReplayInv (accepted tr) s := by
  refine RunWith.invariant
    (fun tr s => (accepted tr).length < 2 ^ 64 → ReplayInv (accepted tr) s)
    (fun _ => replayInv_new founder communityFund) ?_ hrun hroom
  intro tr s e s' _ ih hstep _ hroom
  refine replayInv_step (ih ?_) hstep hroom
  rw [accepted_append, List.length_append] at hroom
  omega

/-- Replay protection: every sender's accepted nonces are `0, 1, 2, ...`, no hash is accepted
twice, and all counters count the accepted transactions. -/
theorem replay_protected {founder communityFund : ByteArr 32} {tr : List L2Event} {s : L2State}
    (hrun : Run step (new founder communityFund) tr s)
    (hroom : (accepted tr).length < 2 ^ 64) :
    (∀ a, (sentBy a (accepted tr)).map (·.nonce.toNat) =
        List.range (sentBy a (accepted tr)).length ∧
      (s.nonce a).toNat = (sentBy a (accepted tr)).length) ∧
    ((accepted tr).map (·.txHash)).Nodup ∧
    s.txCount.toNat = (accepted tr).length ∧
    s.processed.card = (accepted tr).length ∧
    s.utxos.length = (accepted tr).length ∧
    s.utxos.map (fun u => (u.amount, u.owner, u.txHash)) =
      (accepted tr).map fun tx => (tx.amount, tx.toKey, tx.txHash) := by
  have hinv := replayInv_run hrun hroom
  refine ⟨fun a => ⟨hinv.nonces a, hinv.nonce a⟩, hinv.hashes_nodup, hinv.txCount, ?_, ?_, ?_⟩
  · rw [hinv.processed, List.toFinset_card_of_nodup hinv.hashes_nodup, List.length_map]
  · rw [hinv.utxos, List.length_map]
  · rw [hinv.utxos, List.map_map]
    rfl

end Runs

section Sample

attribute [local instance] polyBlake3 anySignature

/-- After one accepted payment its sender's next nonce is 1. -/
theorem replay_protected_sample :
    (((sampleFunded 1000).applied (samplePayment 100 10)).nonce (sampleKey 1).toBytes).toNat = 1 :=
  ((replay_protected (sampleRun 1000 (samplePayment 100 10) (by decide +kernel))
    (by decide +kernel)).1 (sampleKey 1).toBytes).2

end Sample

end L2State
end L2
end Aevum
