import Aevum.Core.Presence

/-!
# Core.PresenceParents — what `finalize` makes of the parents of a record

The list of parents is sorted and freed of repetitions when a record is finalized, so that it
stands for a set; but its length is checked before.

* `finalize_eq_ok` : which records are accepted, and what they become;
* `finalize_again` : finalizing a second time changes nothing;
* `finalizedAlike_iff` : when two lists of one set of parents are treated alike.
-/

namespace Aevum
namespace Core

open Lib Crypto

/-! ## Canonical lists -/

theorem mem_canonicalize {hashes : List Hash} {h : Hash} :
    h ∈ canonicalize hashes ↔ h ∈ hashes :=
  mem_destutter_ne.trans (sortBy_perm id hashes).mem_iff

/-- The canonical list depends only on the set of hashes. -/
theorem canonicalize_congr {hashes hashes' : List Hash} (h : ∀ x, x ∈ hashes ↔ x ∈ hashes') :
    canonicalize hashes = canonicalize hashes' :=
  eq_of_sorted_of_nodup (canonical_canonicalize hashes) (canonical_canonicalize hashes') fun x =>
    mem_canonicalize.trans ((h x).trans mem_canonicalize.symm)

theorem canonicalize_idem (hashes : List Hash) :
    canonicalize (canonicalize hashes) = canonicalize hashes :=
  canonicalize_congr fun _ => mem_canonicalize

theorem canonicalize_eq_nil {hashes : List Hash} : canonicalize hashes = [] ↔ hashes = [] := by
  rw [List.eq_nil_iff_forall_not_mem, List.eq_nil_iff_forall_not_mem]
  simp only [mem_canonicalize]

theorem length_canonicalize_le (hashes : List Hash) :
    (canonicalize hashes).length ≤ hashes.length :=
  calc
    (canonicalize hashes).length ≤ (sortBy id hashes).length :=
      (List.destutter_sublist _ _).length_le
    _ = hashes.length := (sortBy_perm id hashes).length_eq

namespace PresenceRecord

section Records

variable [ForeignTypes] [Blake3]

/-! ## What is accepted -/

/-- What `finalize` checks. -/
structure Acceptable (r : PresenceRecord) (currentTime : UInt64) : Prop where
  transactions_le : r.transactions.length ≤ maxTransactionsPerRecord
  parents_ne_nil : r.parentRecords ≠ []
  parents_le : r.parentRecords.length ≤ maxParentRecords
  timestamp_le : r.timestamp ≤ currentTime.satAdd maxRecordFutureDriftSecs

/-- What `finalize` leaves behind. -/
def finalized (r : PresenceRecord) : PresenceRecord :=
  { r with
    parentRecords := canonicalize r.parentRecords
    recordHash := { r with parentRecords := canonicalize r.parentRecords }.computeHash }

variable {r out : PresenceRecord} {currentTime : UInt64}

theorem finalize_eq_ok :
    r.finalize currentTime = .ok out ↔ r.Acceptable currentTime ∧ out = r.finalized := by
  have hchecks : r.Acceptable currentTime ↔
      ¬ r.transactions.length > maxTransactionsPerRecord ∧ ¬ r.parentRecords.isEmpty ∧
        ¬ r.parentRecords.length > maxParentRecords ∧
          ¬ r.timestamp > currentTime.satAdd maxRecordFutureDriftSecs := by
    rw [List.isEmpty_iff, Nat.not_lt, Nat.not_lt, gt_iff_lt, UInt64.not_lt]
    exact ⟨fun h => ⟨h.1, h.2, h.3, h.4⟩, fun h => ⟨h.1, h.2.1, h.2.2.1, h.2.2.2⟩⟩
  have hreturn : (.ok r.finalized : Except String PresenceRecord) = .ok out ↔
      out = r.finalized := by
    rw [Except.ok.injEq, eq_comm]
  rw [finalize, failIf_bind_eq_ok, failIf_bind_eq_ok, failIf_bind_eq_ok, failIf_bind_eq_ok,
    hchecks, ← hreturn, and_assoc, and_assoc, and_assoc]
  exact Iff.rfl

/-- The record that is left behind depends on the canonical list only. -/
theorem finalized_congr {parents : List Hash} {recordHash : Hash}
    (h : canonicalize parents = canonicalize r.parentRecords) :
    { r with
      parentRecords := parents
      recordHash := recordHash }.finalized = r.finalized := by
  change { r with
    parentRecords := canonicalize parents
    recordHash := { r with parentRecords := canonicalize parents }.computeHash } = r.finalized
  rw [h]
  rfl

theorem finalized_idem (r : PresenceRecord) : r.finalized.finalized = r.finalized :=
  finalized_congr (canonicalize_idem r.parentRecords)

/-- A finalized record is finalized already: nothing that is checked gets worse. -/
theorem finalize_again (h : r.finalize currentTime = .ok out) :
    out.finalize currentTime = .ok out := by
  rcases finalize_eq_ok.1 h with ⟨hok, rfl⟩
  refine finalize_eq_ok.2 ⟨?_, (finalized_idem r).symm⟩
  exact
    { transactions_le := hok.transactions_le
      parents_ne_nil := fun hnil => hok.parents_ne_nil (canonicalize_eq_nil.1 hnil)
      parents_le := (length_canonicalize_le r.parentRecords).trans hok.parents_le
      timestamp_le := hok.timestamp_le }

/-- At another time it may be refused, but it is not changed. -/
theorem eq_of_finalize_again {out' : PresenceRecord} {time : UInt64}
    (h : r.finalize currentTime = .ok out) (h' : out.finalize time = .ok out') : out' = out := by
  rcases finalize_eq_ok.1 h with ⟨-, rfl⟩
  exact (finalize_eq_ok.1 h').2.trans (finalized_idem r)

/-! ## Two lists of one set -/

/-- `finalize` accepts both records or none; accepted records end up with one canonical list of
parents and one hash; and doing it again changes nothing. -/
structure FinalizedAlike (r r' : PresenceRecord) (currentTime : UInt64) : Prop where
  accepted : (∃ out, r.finalize currentTime = .ok out) ↔ ∃ out, r'.finalize currentTime = .ok out
  same : ∀ out out', r.finalize currentTime = .ok out → r'.finalize currentTime = .ok out' →
    Canonical out.parentRecords ∧ out.parentRecords = out'.parentRecords ∧
      out.recordHash = out'.recordHash
  again : ∀ out, r.finalize currentTime = .ok out ∨ r'.finalize currentTime = .ok out →
    out.finalize currentTime = .ok out ∧
      ∀ time out', out.finalize time = .ok out' → out' = out

theorem exists_finalize_eq_ok :
    (∃ out, r.finalize currentTime = .ok out) ↔ r.Acceptable currentTime := by
  constructor
  · rintro ⟨out, h⟩
    exact (finalize_eq_ok.1 h).1
  · intro h
    exact ⟨r.finalized, finalize_eq_ok.2 ⟨h, rfl⟩⟩

/-- Only acceptance can differ. -/
theorem finalizedAlike_iff_acceptable {parents : List Hash}
    (hset : ∀ h, h ∈ parents ↔ h ∈ r.parentRecords) :
    FinalizedAlike r { r with parentRecords := parents } currentTime ↔
      (r.Acceptable currentTime ↔ { r with parentRecords := parents }.Acceptable currentTime) := by
  rw [← exists_finalize_eq_ok, ← exists_finalize_eq_ok]
  constructor
  · intro h
    exact h.accepted
  · intro haccepted
    refine { accepted := haccepted, same := fun out out' h h' => ?_, again := fun out h => ?_ }
    · rcases finalize_eq_ok.1 h with ⟨-, rfl⟩
      rcases finalize_eq_ok.1 h' with ⟨-, rfl⟩
      have hsame : { r with parentRecords := parents }.finalized = r.finalized :=
        finalized_congr (canonicalize_congr hset)
      rw [hsame]
      exact ⟨canonical_canonicalize r.parentRecords, rfl, rfl⟩
    · rcases h with h | h
      · exact ⟨finalize_again h, fun _ _ h' => eq_of_finalize_again h h'⟩
      · exact ⟨finalize_again h, fun _ _ h' => eq_of_finalize_again h h'⟩

/-- Lists with the same parents are treated alike if and only if both are within the limit, which
counts repetitions, or both are not, or the record is refused for another reason. -/
theorem finalizedAlike_iff (r : PresenceRecord) (parents : List Hash) (currentTime : UInt64)
    (hset : ∀ h, h ∈ parents ↔ h ∈ r.parentRecords) :
    FinalizedAlike r { r with parentRecords := parents } currentTime ↔
      (r.parentRecords.length ≤ maxParentRecords ↔ parents.length ≤ maxParentRecords) ∨
        r.transactions.length > maxTransactionsPerRecord ∨ r.parentRecords = [] ∨
          r.timestamp > currentTime.satAdd maxRecordFutureDriftSecs := by
  have hnil : parents = [] ↔ r.parentRecords = [] := by
    rw [← canonicalize_eq_nil, canonicalize_congr hset, canonicalize_eq_nil]
  -- the limit on the parents stands apart from the other checks, which cannot tell the lists apart
  have hok : r.Acceptable currentTime ↔
      (r.transactions.length ≤ maxTransactionsPerRecord ∧ r.parentRecords ≠ [] ∧
        r.timestamp ≤ currentTime.satAdd maxRecordFutureDriftSecs) ∧
          r.parentRecords.length ≤ maxParentRecords :=
    ⟨fun h => ⟨⟨h.1, h.2, h.4⟩, h.3⟩, fun h => ⟨h.1.1, h.1.2.1, h.2, h.1.2.2⟩⟩
  have hok' : { r with parentRecords := parents }.Acceptable currentTime ↔
      (r.transactions.length ≤ maxTransactionsPerRecord ∧ r.parentRecords ≠ [] ∧
        r.timestamp ≤ currentTime.satAdd maxRecordFutureDriftSecs) ∧
          parents.length ≤ maxParentRecords := by
    rw [ne_eq, ← hnil]
    exact ⟨fun h => ⟨⟨h.1, h.2, h.4⟩, h.3⟩, fun h => ⟨h.1.1, h.1.2.1, h.2, h.1.2.2⟩⟩
  rw [finalizedAlike_iff_acceptable hset, hok, hok', and_congr_right_iff, imp_iff_or_not,
    not_and_or, not_and_or, not_not, Nat.not_le, UInt64.not_le]

end Records

section Sample

attribute [local instance] polyBlake3 unitTypes

/-- A heartbeat with the given parents. -/
def withParentList (parents : List Hash) : PresenceRecord :=
  { firstInEpoch 2 1 7 Hash.zero (ByteArr.fill 32 9) .presenceHeartbeat 1000 [] with
    parentRecords := parents }

/-- Another order and a repetition. -/
theorem finalizedAlike_iff_sample :
    FinalizedAlike (withParentList [ByteArr.fill 32 1, ByteArr.fill 32 2])
      (withParentList [ByteArr.fill 32 2, ByteArr.fill 32 1, ByteArr.fill 32 2]) 1000 :=
  (finalizedAlike_iff (withParentList [ByteArr.fill 32 1, ByteArr.fill 32 2])
    [ByteArr.fill 32 2, ByteArr.fill 32 1, ByteArr.fill 32 2] 1000
    (fun h => by simp only [withParentList, List.mem_cons]; tauto)).2 (Or.inl (by decide))

/-- One parent is one parent, unless it is named 65 times. -/
theorem not_finalizedAlike :
    ¬ ∀ (r : PresenceRecord) (parents : List Hash) (currentTime : UInt64),
      (∀ h, h ∈ parents ↔ h ∈ r.parentRecords) →
        FinalizedAlike r { r with parentRecords := parents } currentTime := by
  intro hclaim
  have halike := hclaim (withParentList [ByteArr.fill 32 1]) (List.replicate 65 (ByteArr.fill 32 1))
    1000 (fun h => by simp [withParentList])
  have hok : ∃ out, (withParentList [ByteArr.fill 32 1]).finalize 1000 = .ok out :=
    exists_finalize_eq_ok.2
      { transactions_le := by decide
        parents_ne_nil := List.cons_ne_nil _ _
        parents_le := by decide
        timestamp_le := by decide }
  have hmany := (exists_finalize_eq_ok.1 (halike.accepted.1 hok)).parents_le
  exact absurd hmany (by decide)

end Sample

end PresenceRecord
end Core
end Aevum
