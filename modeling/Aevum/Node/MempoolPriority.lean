import Aevum.Node.MempoolBlocks
import Mathlib.Algebra.Order.BigOperators.Group.List
import Mathlib.Algebra.Order.Group.Nat

/-!
# Node.MempoolPriority — which transactions `build_block` prefers, and its limits

The buckets divide the fees by their number of binary digits, so the order in which they are worked
off is the order of the fees up to a factor of two.  The limits are tested on the way: the number
of transactions after one has been taken, and the bytes against the size kept in a reference.
-/

namespace Aevum
namespace Node
namespace MempoolInner

open Lib Crypto Aevum.Core

/-! ## Fees -/

/-- The bucket of a fee is the number of its binary digits, less one. -/
theorem bucketOf_val {fee : UInt64} (h : fee ≠ 0) : (bucketOf fee).val = Nat.log2 fee.toNat := by
  have hpos : fee.toNat ≠ 0 := fun hzero => h (UInt64.toNat_inj.1 hzero)
  have hlog : Nat.log2 fee.toNat < 64 := (Nat.log2_lt hpos).2 fee.toNat_lt
  have hzeros : fee.leadingZeros = 63 - Nat.log2 fee.toNat := if_neg h
  have hval : (bucketOf fee).val = min (63 - fee.leadingZeros) 63 := by
    rw [bucketOf, if_neg h]
    rfl
  omega

/-- A fee in a bucket that is no higher is less than twice the other. -/
theorem lt_two_mul_of_bucket_le {a b : UInt64} (ha : 1 ≤ a) (hb : 1 ≤ b)
    (hle : bucketOf b ≤ bucketOf a) : b.toNat < 2 * a.toNat := by
  have hne : ∀ {x : UInt64}, 1 ≤ x → x ≠ 0 := by
    rintro x hx rfl
    exact absurd hx (by decide)
  have hlog : Nat.log2 b.toNat ≤ Nat.log2 a.toNat := by
    rw [← bucketOf_val (hne ha), ← bucketOf_val (hne hb)]
    exact hle
  have hpos : a.toNat ≠ 0 := fun hzero => hne ha (UInt64.toNat_inj.1 hzero)
  calc
    b.toNat < 2 ^ (Nat.log2 b.toNat + 1) := Nat.lt_log2_self
    _ ≤ 2 ^ (Nat.log2 a.toNat + 1) := Nat.pow_le_pow_right (by decide) (by omega)
    _ = 2 * 2 ^ Nat.log2 a.toNat := by rw [Nat.pow_succ, Nat.mul_comm]
    _ ≤ 2 * a.toNat := Nat.mul_le_mul_left 2 (Nat.log2_self_le hpos)

section Priority

variable [ForeignTypes] {s s' : MempoolInner} {out : List Transaction} {maxTx maxBytes fuel : Nat}
  {tr : List PoolEvent}

/-- The buckets are worked off from the highest one down. -/
theorem pairwise_liveRefs {txs : List Transaction} (hcons : Consistent txs s) :
    s.liveRefs.Pairwise fun r r' => bucketOf r'.fee ≤ bucketOf r.fee := by
  refine List.Pairwise.sublist (firsts_sublist _ _ _) (List.pairwise_flatMap.2 ⟨?_, ?_⟩)
  · intro b _
    refine List.pairwise_of_forall_mem_list fun r hr r' hr' => ?_
    rw [(hcons.queued b r hr).2, (hcons.queued b r' hr').2]
  · refine (List.pairwise_reverse.2 (List.pairwise_lt_finRange feeBuckets)).imp ?_
    intro b b' hlt r hr r' hr'
    rw [(hcons.queued b r hr).2, (hcons.queued b' r' hr').2]
    exact Nat.le_of_lt hlt

/-- A reference has the fee and the size of the transaction stored under its hash. -/
theorem Consistent.ref_eq {txs : List Transaction} (hdet : Determined txs)
    (hcons : Consistent txs s) {r : TxRef} {tx : Transaction} (hr : r ∈ s.liveRefs)
    (htx : s.txStore.get? r.hash = some tx) : r.fee = tx.fee ∧ r.size.toNat = entrySize tx := by
  rcases mem_refs.1 ((firsts_sublist _ _ _).subset hr) with ⟨b, hmem⟩
  rcases (hcons.queued b r hmem).1 with ⟨tx', htx', hhash, hfee, hsize⟩
  rcases hcons.stored _ tx htx with ⟨hhash', hmem'⟩
  have hsame : tx' = tx := hdet tx' htx' tx hmem' (by rw [hhash', hhash])
  rw [← hsame]
  exact ⟨hfee, hsize⟩

/-- Transactions come out in the order of their fees, up to a factor of two, and none is passed
over for one that pays half its fee or less. -/
theorem build_by_fee (hrun : Run MempoolInner.step new tr s) (hdet : Determined (insertedIn tr))
    (hbuild : s.buildBlock fuel maxTx maxBytes = some (s', out)) :
    out.Pairwise (fun tx tx' => tx'.fee.toNat < 2 * tx.fee.toNat) ∧
      ∀ h tx, s'.txStore.get? h = some tx → ∀ tx' ∈ out, tx.fee.toNat < 2 * tx'.fee.toNat := by
  have hinv := entries_run hrun
  have hcons := (poolInv_run hrun hdet).consistent
  have hbuilt := built_of_buildBlock hinv.keys hbuild
  have hsplit : s.toBuild maxTx ++ s.liveRefs.drop (max 1 maxTx) = s.liveRefs :=
    List.take_append_drop _ _
  have hrefs := pairwise_liveRefs hcons
  rw [← hsplit, List.pairwise_append] at hrefs
  -- the order of the references is one of the transactions behind them
  have hfee : ∀ {r r' tx tx'}, r ∈ s.liveRefs → r' ∈ s.liveRefs →
      s.txStore.get? r.hash = some tx → s.txStore.get? r'.hash = some tx' →
      bucketOf r'.fee ≤ bucketOf r.fee → tx'.fee.toNat < 2 * tx.fee.toNat := by
    intro r r' tx tx' hr hr' htx htx' hle
    rw [(hcons.ref_eq hdet hr htx).1, (hcons.ref_eq hdet hr' htx').1] at hle
    exact lt_two_mul_of_bucket_le (hinv.paid _ _ htx) (hinv.paid _ _ htx') hle
  have htaken : ∀ r ∈ s.toBuild maxTx, r ∈ s.liveRefs := fun r hr => List.mem_of_mem_take hr
  constructor
  · refine hbuilt.pairwise (hrefs.1.imp_of_mem ?_)
    intro r r' hr hr' hle tx tx' htx htx'
    exact hfee (htaken r hr) (htaken r' hr') htx htx' hle
  · intro h tx htx tx' htx'
    rcases hbuilt.mem_iff.1 htx' with ⟨r, hr, hstored⟩
    rcases hbuilt.left_iff.1 htx with ⟨hnot, hleft⟩
    -- its reference is among those left for later
    rcases List.mem_map.1 ((mem_liveRefs hinv).2 (hinv.keys.indexed hleft)) with ⟨r', hr', rfl⟩
    have hdrop : r' ∈ s.liveRefs.drop (max 1 maxTx) := by
      rw [← hsplit, List.mem_append] at hr'
      exact hr'.resolve_left fun hmem => hnot (List.mem_map_of_mem hmem)
    exact hfee (htaken r hr) hr' hstored hleft (hrefs.2.2 r hr r' hdrop)

end Priority

section Sample

attribute [local instance] polyBlake3 unitTypes

/-- A transaction with a fee of 15, in the same bucket as the one with a fee of 10. -/
abbrev sampleRich : Transaction :=
  Transaction.new
    [{ txHash := Hash.zero
       outputIndex := 0
       nullifier := ByteArr.fill 32 8
       signature := []
       publicKey := sampleKey 1
       signedHash := Hash.zero
       nonce := 0 }] [] 15

abbrev samplePair : MempoolInner := (samplePool.insert sampleRich 0 0).1

theorem sampleRun_pair : Run MempoolInner.step new
    [.insert sampleSpend 0 0 true, .insert sampleRich 0 0 true] samplePair :=
  Run.snoc sampleRun (step_insert (by decide +kernel))

theorem determined_pair : Determined [sampleSpend, sampleRich] := by
  have hne : sampleSpend.txHash ≠ sampleRich.txHash := by decide +kernel
  simp only [Determined, List.forall_mem_cons]
  simp [hne, hne.symm]

/-- Of two transactions in one bucket the older one comes first, although it pays less. -/
theorem build_by_fee_sample : ∃ s' out,
    samplePair.buildBlock 100 5 1000 = some (s', out) ∧ out.map (·.fee) = [10, 15] ∧
      out.Pairwise fun tx tx' => tx'.fee.toNat < 2 * tx.fee.toNat := by
  have hfees : (samplePair.buildBlock 100 5 1000).map (fun r => r.2.map (·.fee)) =
      some [10, 15] := by decide +kernel
  rcases Option.map_eq_some_iff.1 hfees with ⟨⟨s', out⟩, hbuild, hout⟩
  exact ⟨s', out, hbuild, hout, (build_by_fee sampleRun_pair determined_pair hbuild).1⟩

end Sample

section Limits

variable [ForeignTypes] {s s' : MempoolInner} {out : List Transaction} {maxTx maxBytes fuel : Nat}
  {tr : List PoolEvent}

/-! ## Limits -/

/-- The estimated size of the transaction behind a reference. -/
def estimateAt (s : MempoolInner) (r : TxRef) : Nat :=
  (s.txStore.get? r.hash).elim 0 estimatedSize

/-- The sizes kept in the references are those of the transactions, as long as no two transactions
carry one hash and none is larger than the whole pool may be. -/
theorem estimates_le_sizes (hrun : Run MempoolInner.step new tr s)
    (hdet : Determined (insertedIn tr))
    (hsmall : ∀ h tx, s.txStore.get? h = some tx → estimatedSize tx ≤ maxMempoolBytes)
    (maxTx : Nat) : ((s.toBuild maxTx).map s.estimateAt).sum ≤ sizeSum (s.toBuild maxTx) := by
  have hcons := (poolInv_run hrun hdet).consistent
  refine List.sum_le_sum fun r hr => ?_
  rw [estimateAt]
  cases htx : s.txStore.get? r.hash with
  | none => exact Nat.zero_le _
  | some tx =>
      rw [Option.elim_some, (hcons.ref_eq hdet (List.mem_of_mem_take hr) htx).2, entrySize,
        Nat.min_eq_left (hsmall _ tx htx)]

/-- Both limits are respected, whatever the limit on the bytes, exactly when at least one
transaction is asked for or the pool is empty, and the transactions to be taken are no larger
together than the sizes kept in their references.  The latter holds as long as a hash stands for
one transaction and none is estimated larger than the whole pool may be. -/
theorem build_limits_iff (hrun : Run MempoolInner.step new tr s) (maxTx : Nat) :
    ((∀ fuel maxBytes s' out, s.buildBlock fuel maxTx maxBytes = some (s', out) →
      out.length ≤ maxTx ∧ (out.map estimatedSize).sum ≤ maxBytes) ↔
      (maxTx = 0 → s.index.size = 0) ∧
        ((s.toBuild maxTx).map s.estimateAt).sum ≤ sizeSum (s.toBuild maxTx)) ∧
      (Determined (insertedIn tr) →
        (∀ h tx, s.txStore.get? h = some tx → estimatedSize tx ≤ maxMempoolBytes) →
          ((s.toBuild maxTx).map s.estimateAt).sum ≤ sizeSum (s.toBuild maxTx)) := by
  refine ⟨?_, fun hdet hsmall => estimates_le_sizes hrun hdet hsmall maxTx⟩
  have hinv := entries_run hrun
  have hlength : (s.toBuild maxTx).length = min (max 1 maxTx) s.index.size := by
    rw [← length_liveRefs hinv]
    exact List.length_take
  constructor
  · intro hall
    -- the smallest limit with which the call returns
    rcases (buildBlock_isSome_iff hinv.keys maxTx _).2 (Nat.le_refl _) with ⟨fuel, hsome⟩
    rcases Option.isSome_iff_exists.1 hsome with ⟨⟨s', out⟩, hbuild⟩
    have hbuilt := built_of_buildBlock hinv.keys hbuild
    rcases hall fuel _ s' out hbuild with ⟨hcount, hbytes⟩
    rw [hbuilt.length_eq, hlength] at hcount
    rw [← hbuilt.sum_eq estimatedSize] at hbytes
    exact ⟨fun hzero => by omega, hbytes⟩
  · rintro ⟨hempty, hestimate⟩ fuel maxBytes s' out hbuild
    have hbuilt := built_of_buildBlock hinv.keys hbuild
    have hfits := (buildBlock_isSome_iff hinv.keys maxTx maxBytes).1 ⟨fuel, by rw [hbuild]; rfl⟩
    constructor
    · rw [hbuilt.length_eq, hlength]
      by_cases hzero : maxTx = 0
      · have hnone := hempty hzero
        omega
      · omega
    · rw [← hbuilt.sum_eq estimatedSize]
      exact Nat.le_trans hestimate hfits

end Limits

section Sample

attribute [local instance] polyBlake3 unitTypes

/-- With one transaction asked for, the pool of two keeps to the limits. -/
theorem build_limits_sample : ∃ s' out,
    samplePair.buildBlock 100 1 1000 = some (s', out) ∧
      out.length ≤ 1 ∧ (out.map estimatedSize).sum ≤ 1000 := by
  have hsome : (samplePair.buildBlock 100 1 1000).isSome = true := by decide +kernel
  rcases Option.isSome_iff_exists.1 hsome with ⟨⟨s', out⟩, hbuild⟩
  rcases build_limits_iff sampleRun_pair 1 with ⟨hlimits, hestimates⟩
  have hsmall : ∀ h tx, samplePair.txStore.get? h = some tx →
      estimatedSize tx ≤ maxMempoolBytes := by
    intro h tx htx
    rcases (poolInv_run sampleRun_pair determined_pair).consistent.stored h tx htx with ⟨-, hmem⟩
    have hall : ∀ tx ∈ [sampleSpend, sampleRich], estimatedSize tx ≤ maxMempoolBytes := by
      decide +kernel
    exact hall tx hmem
  exact ⟨s', out, hbuild,
    hlimits.2 ⟨nofun, hestimates determined_pair hsmall⟩ 100 1000 s' out hbuild⟩

/-- With none asked for, it still returns one. -/
theorem not_build_limits :
    ¬ ∀ tr s, Run MempoolInner.step new tr s → ∀ fuel maxTx maxBytes s' out,
      s.buildBlock fuel maxTx maxBytes = some (s', out) →
        out.length ≤ maxTx ∧ (out.map estimatedSize).sum ≤ maxBytes := by
  intro hall
  have hone : (samplePool.buildBlock 100 0 1000).map (fun r => r.2.length) = some 1 := by
    decide +kernel
  rcases Option.map_eq_some_iff.1 hone with ⟨⟨s', out⟩, hbuild, hlength⟩
  have hle := (hall _ _ sampleRun 100 0 1000 s' out hbuild).1
  have hlength' : out.length = 1 := hlength
  omega

end Sample

end MempoolInner
end Node
end Aevum
