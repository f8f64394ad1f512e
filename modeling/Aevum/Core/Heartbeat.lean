import Aevum.Core.Transaction
import Aevum.Lib.Checks
import Mathlib.Data.Finset.Card
import Mathlib.Data.List.Chain

/-!
# Core.Heartbeat — `transaction.rs` (`verify_heartbeat`, `heartbeat_coverage_bps`)

The check of the presence witnesses that a heartbeat transaction carries.  A witness starts with
the id of a node and a timestamp; of what is checked only the freshness depends on the time.

* `verifyHeartbeat_eq_ok` : what is accepted, the form of the witnesses apart from their freshness;
* `expires_iff` : which heartbeats expire;
* `coverage_of_verified` : the coverage counts every node once.
-/

namespace Aevum
namespace Core

open Lib Crypto

/-! ## Witnesses -/

/-- `id.copy_from_slice(&w[..32])`. -/
def witnessId (w : List UInt8) : List UInt8 := w.take 32

/-- `u64::from_le_bytes(w[32..40])`. -/
def witnessTs (w : List UInt8) : UInt64 :=
  UInt64.ofNat (leNat ((w.drop 32).take 8))

/-- The loop body; `prev` is the id of the witness before. -/
def checkWitness (now : UInt64) (prev : Option (List UInt8)) (w : List UInt8) :
    Except String (Option (List UInt8)) := do
  failIf (w.length < 40) "too short"
  failIf (now.satSub (witnessTs w) > 180) "stale"
  failIf (∃ p ∈ prev, witnessId w ≤ p) "unsorted or duplicate"
  .ok (some (witnessId w))

def Transaction.verifyHeartbeat [ForeignTypes] (tx : Transaction) (now : UInt64) :
    Except String Unit := do
  failIf (¬ tx.isHeartbeat) "not heartbeat"
  failIf tx.heartbeatWitnesses.isEmpty "empty witnesses"
  let _ ← tx.heartbeatWitnesses.foldlM (checkWitness now) none
  .ok ()

/-- The share of `total` nodes in basis points; the `HashSet` holds whole witnesses. -/
def Transaction.heartbeatCoverageBps [ForeignTypes] (tx : Transaction) (total : Nat) : UInt64 :=
  if total = 0 then 0
  else UInt64.ofNat (tx.heartbeatWitnesses.toFinset.card * 10000 / total)

/-! ## What is accepted -/

/-- The witnesses are long enough, and their ids strictly increase. -/
structure WellOrdered (prev : Option (List UInt8)) (ws : List (List UInt8)) : Prop where
  long : ∀ w ∈ ws, 40 ≤ w.length
  ordered : (prev.toList ++ ws.map witnessId).IsChain fun p id => ¬ id ≤ p

def FreshWitness (now : UInt64) (w : List UInt8) : Prop :=
  now.toNat ≤ (witnessTs w).toNat + 180

section Loop

variable {now : UInt64} {prev next : Option (List UInt8)} {w : List UInt8}
  {ws : List (List UInt8)}

theorem wellOrdered_cons :
    WellOrdered prev (w :: ws) ↔
      (40 ≤ w.length ∧ ∀ p ∈ prev, ¬ witnessId w ≤ p) ∧ WellOrdered (some (witnessId w)) ws := by
  constructor
  · rintro ⟨hlong, hordered⟩
    rcases List.forall_mem_cons.1 hlong with ⟨hw, hws⟩
    cases prev with
    | none => exact ⟨⟨hw, nofun⟩, hws, hordered⟩
    | some p =>
        rcases List.isChain_cons_cons.1 hordered with ⟨hp, hrest⟩
        refine ⟨⟨hw, fun q hq => ?_⟩, hws, hrest⟩
        rw [← Option.mem_some.1 hq]
        exact hp
  · rintro ⟨⟨hw, hp⟩, hws, hrest⟩
    refine ⟨List.forall_mem_cons.2 ⟨hw, hws⟩, ?_⟩
    cases prev with
    | none => exact hrest
    | some p => exact List.isChain_cons_cons.2 ⟨hp p rfl, hrest⟩

theorem checkWitness_eq_ok :
    checkWitness now prev w = .ok next ↔
      (40 ≤ w.length ∧ ∀ p ∈ prev, ¬ witnessId w ≤ p) ∧ FreshWitness now w ∧
        next = some (witnessId w) := by
  have hfresh : ¬ now.satSub (witnessTs w) > 180 ↔ FreshWitness now w := by
    rw [gt_iff_lt, UInt64.not_lt, UInt64.le_iff_toNat_le, UInt64.toNat_satSub, FreshWitness]
    change now.toNat - (witnessTs w).toNat ≤ 180 ↔ _
    omega
  rw [checkWitness, failIf_bind_eq_ok, failIf_bind_eq_ok, failIf_bind_eq_ok, Nat.not_lt, hfresh,
    Except.ok.injEq, eq_comm (a := next)]
  simp only [not_exists, not_and]
  tauto

/-- The loop ends if and only if the witnesses are well formed and each one is fresh. -/
theorem exists_foldlM_checkWitness :
    (∃ last, ws.foldlM (checkWitness now) prev = .ok last) ↔
      WellOrdered prev ws ∧ ∀ w ∈ ws, FreshWitness now w := by
  induction ws generalizing prev with
  | nil =>
      constructor
      · rintro -
        refine ⟨⟨nofun, ?_⟩, nofun⟩
        cases prev with
        | none => exact .nil
        | some p => exact .singleton p
      · rintro -
        exact ⟨prev, rfl⟩
  | cons w ws ih =>
      rw [wellOrdered_cons, List.forall_mem_cons]
      constructor
      · rintro ⟨last, hok⟩
        rcases bind_eq_ok.1 (List.foldlM_cons.symm.trans hok) with ⟨next, hw, hws⟩
        rcases checkWitness_eq_ok.1 hw with ⟨hform, hfresh, rfl⟩
        rcases ih.1 ⟨last, hws⟩ with ⟨hrest, hall⟩
        exact ⟨⟨hform, hrest⟩, hfresh, hall⟩
      · rintro ⟨⟨hform, hrest⟩, hfresh, hall⟩
        rcases ih.2 ⟨hrest, hall⟩ with ⟨last, hws⟩
        refine ⟨last, ?_⟩
        rw [List.foldlM_cons]
        exact bind_eq_ok.2 ⟨_, checkWitness_eq_ok.2 ⟨hform, hfresh, rfl⟩, hws⟩

end Loop

section Verify

variable [ForeignTypes]

theorem verifyHeartbeat_eq_ok {tx : Transaction} {now : UInt64} :
    tx.verifyHeartbeat now = .ok () ↔
      (tx.isHeartbeat ∧ tx.heartbeatWitnesses ≠ [] ∧ WellOrdered none tx.heartbeatWitnesses) ∧
        ∀ w ∈ tx.heartbeatWitnesses, FreshWitness now w := by
  have hloop : (tx.heartbeatWitnesses.foldlM (checkWitness now) none >>= fun _ => .ok ()) =
      (.ok () : Except String Unit) ↔ WellOrdered none tx.heartbeatWitnesses ∧
        ∀ w ∈ tx.heartbeatWitnesses, FreshWitness now w := by
    rw [bind_eq_ok, ← exists_foldlM_checkWitness]
    simp only [and_true]
  rw [Transaction.verifyHeartbeat, failIf_bind_eq_ok, failIf_bind_eq_ok, not_not,
    List.isEmpty_iff, hloop, and_assoc, and_assoc]

/-! ## Expiry -/

/-- Later on, the form of the witnesses is accepted as before. -/
theorem verifyHeartbeat_of_fresh {tx : Transaction} {t t2 : UInt64}
    (h : tx.verifyHeartbeat t = .ok ()) (hfresh : ∀ w ∈ tx.heartbeatWitnesses, FreshWitness t2 w) :
    tx.verifyHeartbeat t2 = .ok () :=
  verifyHeartbeat_eq_ok.2 ⟨(verifyHeartbeat_eq_ok.1 h).1, hfresh⟩

/-- An accepted heartbeat is rejected from 181 seconds on if and only if it has a witness that is
not ahead of the time at which it was accepted, or the clock ends before. -/
theorem expires_iff (tx : Transaction) (t : UInt64) (h : tx.verifyHeartbeat t = .ok ()) :
    (∀ t2 : UInt64, t.toNat + 180 < t2.toNat → ∃ e, tx.verifyHeartbeat t2 = .error e) ↔
      (∃ w ∈ tx.heartbeatWitnesses, witnessTs w ≤ t) ∨ 2 ^ 64 - 1 ≤ t.toNat + 180 := by
  constructor
  · intro hexpires
    by_contra hnot
    rw [not_or, Nat.not_le] at hnot
    rcases hnot with ⟨hahead, hclock⟩
    have hlt : t.toNat + (181 : UInt64).toNat < 2 ^ 64 := by
      change t.toNat + 181 < 2 ^ 64
      omega
    have hsum : (t + 181).toNat = t.toNat + 181 := UInt64.toNat_add_of_lt hlt
    have hok : tx.verifyHeartbeat (t + 181) = .ok () := by
      refine verifyHeartbeat_of_fresh h fun w hw => ?_
      have hlt : t.toNat < (witnessTs w).toNat :=
        UInt64.lt_iff_toNat_lt.1 (UInt64.not_le.1 fun hle => hahead ⟨w, hw, hle⟩)
      rw [FreshWitness, hsum]
      omega
    rcases hexpires (t + 181) (by omega) with ⟨e, herror⟩
    rw [hok] at herror
    cases herror
  · intro hcases t2 ht2
    cases hresult : tx.verifyHeartbeat t2 with
    | error e => exact ⟨e, rfl⟩
    | ok u =>
        -- at `t2` the witness is more than 180 seconds old
        rcases hcases with ⟨w, hw, hle⟩ | hclock
        · have hfresh := (verifyHeartbeat_eq_ok.1 hresult).2 w hw
          have hold := UInt64.le_iff_toNat_le.1 hle
          unfold FreshWitness at hfresh
          omega
        · have hmax := t2.toNat_le_max
          omega

end Verify

/-! ## Coverage -/

/-- The nodes that a list of witnesses names. -/
def nodeIds (ws : List (List UInt8)) : Finset (List UInt8) :=
  (ws.map witnessId).toFinset

section Ids

variable {ws : List (List UInt8)}

/-- Strictly increasing ids are distinct. -/
theorem WellOrdered.nodup_ids (h : WellOrdered none ws) : (ws.map witnessId).Nodup := by
  have hincreasing : (ws.map witnessId).IsChain (· < ·) :=
    h.ordered.imp fun _ _ hle => Std.not_le.1 hle
  refine hincreasing.pairwise.imp fun {id id'} hlt heq => ?_
  rw [heq] at hlt
  exact List.lt_irrefl id' hlt

/-- When the ids are distinct, there are as many witnesses as ids. -/
theorem card_witnesses (h : (ws.map witnessId).Nodup) :
    ws.toFinset.card = (nodeIds ws).card := by
  rw [nodeIds, List.toFinset_card_of_nodup h, List.toFinset_card_of_nodup h.of_map, List.length_map]

theorem card_nodeIds_le {nodes : Finset (List UInt8)}
    (h : ∀ w ∈ ws, witnessId w ∈ nodes) : (nodeIds ws).card ≤ nodes.card := by
  refine Finset.card_le_card fun id hid => ?_
  rcases List.mem_map.1 (List.mem_toFinset.1 hid) with ⟨w, hw, rfl⟩
  exact h w hw

end Ids

/-- The coverage of an accepted heartbeat is the floor of `10000` times the number of distinct
node ids through the number of nodes, and at most `10000` if the ids are among these nodes. -/
theorem coverage_of_verified [ForeignTypes] (tx : Transaction) (now : UInt64)
    (h : tx.verifyHeartbeat now = .ok ()) :
    (tx.heartbeatWitnesses.map witnessId).Nodup ∧
      ∀ total : Nat, 1 ≤ total →
        (tx.heartbeatCoverageBps total =
          UInt64.ofNat (10000 * (nodeIds tx.heartbeatWitnesses).card / total)) ∧
        (10000 * (nodeIds tx.heartbeatWitnesses).card / total < 2 ^ 64 →
          (tx.heartbeatCoverageBps total).toNat =
            10000 * (nodeIds tx.heartbeatWitnesses).card / total) ∧
        ∀ nodes : Finset (List UInt8), nodes.card = total →
          (∀ w ∈ tx.heartbeatWitnesses, witnessId w ∈ nodes) →
            (tx.heartbeatCoverageBps total).toNat =
              10000 * (nodeIds tx.heartbeatWitnesses).card / total ∧
            (tx.heartbeatCoverageBps total).toNat ≤ 10000 := by
  have hids : (tx.heartbeatWitnesses.map witnessId).Nodup :=
    (verifyHeartbeat_eq_ok.1 h).1.2.2.nodup_ids
  refine ⟨hids, fun total htotal => ?_⟩
  have hcoverage : tx.heartbeatCoverageBps total =
      UInt64.ofNat (10000 * (nodeIds tx.heartbeatWitnesses).card / total) := by
    rw [Transaction.heartbeatCoverageBps, if_neg (Nat.one_le_iff_ne_zero.1 htotal),
      card_witnesses hids, Nat.mul_comm]
  refine ⟨hcoverage, fun hfits => ?_, fun nodes hnodes hmem => ?_⟩
  · rw [hcoverage, UInt64.toNat_ofNat_of_lt' hfits]
  · have hcard : (nodeIds tx.heartbeatWitnesses).card ≤ total := hnodes ▸ card_nodeIds_le hmem
    have hle : 10000 * (nodeIds tx.heartbeatWitnesses).card / total ≤ 10000 := by
      refine Nat.div_le_of_le_mul ?_
      rw [Nat.mul_comm total]
      exact Nat.mul_le_mul_left 10000 hcard
    have hvalue := UInt64.toNat_ofNat_of_lt' (Nat.lt_of_le_of_lt hle (by decide))
    rw [hcoverage, hvalue]
    exact ⟨rfl, hle⟩

section Sample

attribute [local instance] polyBlake3 unitTypes

/-- The witness of a node at a time. -/
def sampleWitness (node : UInt8) (ts : UInt64) : List UInt8 :=
  List.replicate 32 node ++ (u64Bytes ts).bytes

theorem expires_iff_sample :
    ∃ e, (Transaction.newHeartbeat [sampleWitness 1 100, sampleWitness 2 500]
      chainIdMainnet).verifyHeartbeat 381 = .error e :=
  (expires_iff _ 200 (by decide +kernel)).2 (Or.inl (by decide +kernel)) 381 (by decide)

/-- Two of three nodes. -/
theorem coverage_of_verified_sample :
    ((Transaction.newHeartbeat [sampleWitness 1 100, sampleWitness 2 500]
      chainIdMainnet).heartbeatCoverageBps 3).toNat = 6666 := by
  have hvalue := ((coverage_of_verified (Transaction.newHeartbeat [sampleWitness 1 100,
    sampleWitness 2 500] chainIdMainnet) 200 (by decide +kernel)).2 3 (by decide)).2.1
  exact (hvalue (by decide +kernel)).trans (by decide +kernel)

/-- A witness at 1000 is accepted at 0 and at 1000. -/
theorem not_expires :
    ¬ ∀ (tx : Transaction) (t t2 : UInt64), t.toNat + 180 < t2.toNat →
      tx.verifyHeartbeat t = .ok () → ∃ e, tx.verifyHeartbeat t2 = .error e := by
  intro hclaim
  have hfirst : (Transaction.newHeartbeat [sampleWitness 1 1000]
      chainIdMainnet).verifyHeartbeat 0 = .ok () := by decide +kernel
  have hsecond : (Transaction.newHeartbeat [sampleWitness 1 1000]
      chainIdMainnet).verifyHeartbeat 1000 = .ok () := by decide +kernel
  rcases hclaim _ 0 1000 (by decide) hfirst with ⟨e, he⟩
  rw [hsecond] at he
  cases he

end Sample

end Core
end Aevum
