import Aevum.Core.Presence
import Aevum.Lib.FinMap
import Aevum.Lib.Reachability
import Mathlib.Data.Prod.Lex

/-!
# Core.PresenceDag — `verify_dag_acyclic`

The cycle check for the records of an epoch is a depth-first search with a stack and a set of
visited hashes.  It starts at the hash of the new record, but it takes the parents of every hash
from the map of known records, also for the new record itself.

So it decides whether the map alone leads back to the hash of the record (`verifyDagAcyclic_iff`),
and says nothing about the parents of the record that is to be added.
-/

namespace Aevum
namespace Core

open Lib Crypto Relation

abbrev EpochRecords [ForeignTypes] := FinMap Hash PresenceRecord

namespace PresenceRecord

/-! ## The search -/

/-- The loop over the parents of one record: `none` when one of them is `target`. -/
def pushParents (target : Hash) : List Hash → List Hash → Option (List Hash)
  | [], stack => some stack
  | parent :: parents, stack =>
      if parent = target then none else pushParents target parents (parent :: stack)

theorem pushParents_eq_none {target : Hash} {parents stack : List Hash} :
    pushParents target parents stack = none ↔ target ∈ parents := by
  induction parents generalizing stack with
  | nil => simp [pushParents]
  | cons parent parents ih =>
      by_cases h : parent = target
      · simp [pushParents, h]
      · rw [pushParents, if_neg h, ih, List.mem_cons]
        exact ⟨Or.inr, fun hmem => hmem.resolve_left fun heq => h heq.symm⟩

theorem mem_of_pushParents {target : Hash} {parents stack stack' : List Hash}
    (h : pushParents target parents stack = some stack') {x : Hash} :
    x ∈ stack' ↔ x ∈ parents ∨ x ∈ stack := by
  induction parents generalizing stack with
  | nil =>
      cases h
      simp
  | cons parent parents ih =>
      rw [pushParents] at h
      split at h
      · cases h
      · rw [ih h, List.mem_cons, List.mem_cons]
        tauto

section Dag

variable [ForeignTypes]

/-- The `while let` loop of `verify_dag_acyclic`. -/
def search (target : Hash) (epochRecords : EpochRecords) (visited : Finset Hash) :
    List Hash → Bool
  | [] => true
  | current :: stack =>
      if _hvisited : current ∈ visited then search target epochRecords visited stack
      else if current = target ∧ stack ≠ [] then
        search target epochRecords (insert current visited) stack
      else
        match _hget : epochRecords.get? current with
        | none => search target epochRecords (insert current visited) stack
        | some r =>
            match pushParents target r.parentRecords stack with
            | none => false
            | some stack => search target epochRecords (insert current visited) stack
termination_by stack => ((epochRecords.keySet \ visited).card, stack.length)
decreasing_by
  -- the stack shrinks, except where a known record is visited for the first time
  · exact Prod.Lex.right _ (Nat.lt_succ_self _)
  · exact Prod.Lex.right' _ (card_sdiff_insert_le _ _ _) (Nat.lt_succ_self _)
  · exact Prod.Lex.right' _ (card_sdiff_insert_le _ _ _) (Nat.lt_succ_self _)
  · exact Prod.Lex.left _ _ (card_sdiff_insert_lt (FinMap.mem_keySet.2 ⟨_, _hget⟩) _hvisited)

def verifyDagAcyclic (record : PresenceRecord) (epochRecords : EpochRecords) : Bool :=
  search record.recordHash epochRecords ∅ [record.recordHash]

/-! ## What the search decides -/

/-- The known records as a graph: from the hash of a record to the hashes of its parents. -/
def Edge (epochRecords : EpochRecords) (h parent : Hash) : Prop :=
  ∃ r, epochRecords.get? h = some r ∧ parent ∈ r.parentRecords

variable {target : Hash} {epochRecords : EpochRecords}

/-- A search that finds something has come from `target` back to it. -/
theorem transGen_of_search_eq_false {visited : Finset Hash} {stack : List Hash}
    (hreach : ∀ h ∈ stack, ReflTransGen (Edge epochRecords) target h)
    (h : search target epochRecords visited stack = false) :
    TransGen (Edge epochRecords) target target := by
  fun_induction search target epochRecords visited stack with
  | case1 => cases h
  | case2 visited current stack _ ih =>
      exact ih (fun x hx => hreach x (List.mem_cons_of_mem current hx)) h
  | case3 visited current stack _ _ ih =>
      exact ih (fun x hx => hreach x (List.mem_cons_of_mem current hx)) h
  | case4 visited current stack _ _ _ ih =>
      exact ih (fun x hx => hreach x (List.mem_cons_of_mem current hx)) h
  | case5 visited current stack _ _ r hget hpush =>
      have hedge : Edge epochRecords current target := ⟨r, hget, pushParents_eq_none.1 hpush⟩
      exact TransGen.tail' (hreach current List.mem_cons_self) hedge
  | case6 visited current stack _ _ r hget stack' hpush ih =>
      refine ih (fun x hx => ?_) h
      rcases (mem_of_pushParents hpush).1 hx with hparent | hstack
      · exact (hreach current List.mem_cons_self).tail ⟨r, hget, hparent⟩
      · exact hreach x (List.mem_cons_of_mem current hstack)

/-- What the search has seen: the parents of every visited hash are visited or on the stack, and
none of them is `target`, which itself is visited unless the search has not begun. -/
structure Explored (target : Hash) (epochRecords : EpochRecords) (visited : Finset Hash)
    (stack : List Hash) : Prop where
  started : target ∈ visited ∨ stack = [target]
  parents : ∀ v ∈ visited, ∀ p, Edge epochRecords v p → (p ∈ visited ∨ p ∈ stack) ∧ p ≠ target

/-- Visiting a hash: its edges lead to the stack and not to `target`. -/
theorem Explored.visit {visited : Finset Hash} {current : Hash} {stack stack' : List Hash}
    (h : Explored target epochRecords visited (current :: stack)) (hstack : stack ⊆ stack')
    (hedges : ∀ p, Edge epochRecords current p → p ∈ stack' ∧ p ≠ target) :
    Explored target epochRecords (insert current visited) stack' := by
  refine { started := Or.inl ?_, parents := fun v hv p hedge => ?_ }
  · rcases h.started with hvisited | hfirst
    · exact Finset.mem_insert_of_mem hvisited
    · cases hfirst
      exact Finset.mem_insert_self target visited
  · rcases Finset.mem_insert.1 hv with rfl | hv
    · exact ⟨Or.inr (hedges p hedge).1, (hedges p hedge).2⟩
    · rcases h.parents v hv p hedge with ⟨hvisited | hmem, hne⟩
      · exact ⟨Or.inl (Finset.mem_insert_of_mem hvisited), hne⟩
      · rcases List.mem_cons.1 hmem with rfl | hmem
        · exact ⟨Or.inl (Finset.mem_insert_self p visited), hne⟩
        · exact ⟨Or.inr (hstack hmem), hne⟩

/-- A search that finds nothing has seen everything that `target` leads to. -/
theorem not_transGen_of_search_eq_true {visited : Finset Hash} {stack : List Hash}
    (hexplored : Explored target epochRecords visited stack)
    (h : search target epochRecords visited stack = true) :
    ¬ TransGen (Edge epochRecords) target target := by
  fun_induction search target epochRecords visited stack with
  | case1 visited =>
      have hstarted : target ∈ visited := by simpa using hexplored.started
      refine not_transGen_of_closed (S := ↑visited) (fun v hv p hedge => ?_) hstarted
      rcases hexplored.parents v hv p hedge with ⟨hmem, hne⟩
      exact ⟨by simpa using hmem, hne⟩
  | case2 visited current stack hvisited ih =>
      refine ih { started := Or.inl ?_, parents := fun v hv p hedge => ?_ } h
      · rcases hexplored.started with hstarted | hfirst
        · exact hstarted
        · cases hfirst
          exact hvisited
      · rcases hexplored.parents v hv p hedge with ⟨hmem | hmem, hne⟩
        · exact ⟨Or.inl hmem, hne⟩
        · rcases List.mem_cons.1 hmem with rfl | hmem
          · exact ⟨Or.inl hvisited, hne⟩
          · exact ⟨Or.inr hmem, hne⟩
  | case3 visited current stack hvisited hskip ih =>
      -- only the first hash is `target`, and then nothing else is on the stack
      rcases hskip with ⟨rfl, hne⟩
      rcases hexplored.started with hstarted | hfirst
      · exact (hvisited hstarted).elim
      · cases hfirst
        exact (hne rfl).elim
  | case4 visited current stack _ _ hget ih =>
      refine ih (hexplored.visit (List.Subset.refl stack) fun p hedge => ?_) h
      rcases hedge with ⟨r, hr, -⟩
      rw [hget] at hr
      cases hr
  | case5 => cases h
  | case6 visited current stack _ _ r hget stack' hpush ih =>
      refine ih (hexplored.visit (fun x hx => ?_) fun p hedge => ?_) h
      · exact (mem_of_pushParents hpush).2 (Or.inr hx)
      · rcases hedge with ⟨r', hr', hp⟩
        rw [hget] at hr'
        cases hr'
        refine ⟨(mem_of_pushParents hpush).2 (Or.inl hp), ?_⟩
        rintro rfl
        rw [pushParents_eq_none.2 hp] at hpush
        cases hpush

/-- The check fails exactly when the map leads from the hash of the record back to it. -/
theorem verifyDagAcyclic_iff (record : PresenceRecord) (epochRecords : EpochRecords) :
    record.verifyDagAcyclic epochRecords = false ↔
      TransGen (Edge epochRecords) record.recordHash record.recordHash := by
  constructor
  · refine transGen_of_search_eq_false fun h hmem => ?_
    rw [List.mem_singleton.1 hmem]
  · intro hcycle
    rw [← Bool.not_eq_true]
    intro htrue
    refine not_transGen_of_search_eq_true ?_ htrue hcycle
    exact { started := Or.inr rfl, parents := fun v hv => (Finset.notMem_empty v hv).elim }

/-! ## What it misses -/

/-- The graph with the record that is to be added. -/
def EdgeWith (record : PresenceRecord) (epochRecords : EpochRecords) : Hash → Hash → Prop :=
  WithEdges (Edge epochRecords) record.recordHash record.parentRecords

/-- The check fails exactly when some path leads from the record back to it. -/
def CycleCheckExact (record : PresenceRecord) (epochRecords : EpochRecords) : Prop :=
  record.verifyDagAcyclic epochRecords = false ↔
    TransGen (EdgeWith record epochRecords) record.recordHash record.recordHash

/-- The known records lead from `h` to the hash of the record, or it is that hash. -/
def LeadsBack (record : PresenceRecord) (epochRecords : EpochRecords) (h : Hash) : Prop :=
  ReflTransGen (Edge epochRecords) h record.recordHash

/-- The check is exact when no parent of the record leads back to it, or when the map already has
a record under its hash one of whose parents does. -/
theorem cycleCheckExact_iff (record : PresenceRecord) (epochRecords : EpochRecords) :
    CycleCheckExact record epochRecords ↔
      ((∃ p ∈ record.parentRecords, LeadsBack record epochRecords p) →
        ∃ r, epochRecords.get? record.recordHash = some r ∧
          ∃ p ∈ r.parentRecords, LeadsBack record epochRecords p) := by
  have hmap : TransGen (Edge epochRecords) record.recordHash record.recordHash ↔
      ∃ r, epochRecords.get? record.recordHash = some r ∧
        ∃ p ∈ r.parentRecords, LeadsBack record epochRecords p := by
    rw [TransGen.head'_iff]
    constructor
    · rintro ⟨p, ⟨r, hget, hp⟩, hback⟩
      exact ⟨r, hget, p, hp, hback⟩
    · rintro ⟨r, hget, p, hp, hback⟩
      exact ⟨p, ⟨r, hget, hp⟩, hback⟩
  have hwith : TransGen (EdgeWith record epochRecords) record.recordHash record.recordHash ↔
      (∃ p ∈ record.parentRecords, LeadsBack record epochRecords p) ∨
        TransGen (Edge epochRecords) record.recordHash record.recordHash := by
    rw [EdgeWith, transGen_withEdges_iff, TransGen.head'_iff]
    rfl
  rw [CycleCheckExact, verifyDagAcyclic_iff, hwith, ← hmap]
  exact iff_comm.trans or_iff_right_iff_imp

/-- For a record that is not yet in the map the check never fails. -/
theorem verifyDagAcyclic_of_get?_eq_none (record : PresenceRecord) {epochRecords : EpochRecords}
    (h : epochRecords.get? record.recordHash = none) :
    record.verifyDagAcyclic epochRecords = true := by
  rw [← Bool.not_eq_false, verifyDagAcyclic_iff, TransGen.head'_iff]
  rintro ⟨p, ⟨r, hget, -⟩, -⟩
  rw [h] at hget
  cases hget

end Dag

section Sample

attribute [local instance] unitTypes

/-- A record under the hash of one repeated byte, with one parent. -/
def linkedRecord (hash parent : UInt8) : PresenceRecord :=
  { firstInEpoch 2 1 7 (ByteArr.fill 32 parent) (ByteArr.fill 32 9) .presenceHeartbeat 1000 [] with
    recordHash := ByteArr.fill 32 hash }

/-- The new record names the known one as its parent, and the known one the new record. -/
def newRecord : PresenceRecord := linkedRecord 1 2

def knownRecord : PresenceRecord := linkedRecord 2 1

def knownRecords : EpochRecords := FinMap.empty.insert knownRecord.recordHash knownRecord

/-- The new record closes a cycle, and the check passes. -/
theorem cycle_not_detected :
    knownRecords.get? newRecord.recordHash = none ∧
      newRecord.verifyDagAcyclic knownRecords = true ∧
      ¬ CycleCheckExact newRecord knownRecords := by
  have hnew : knownRecords.get? newRecord.recordHash = none := by decide +kernel
  have hpass := newRecord.verifyDagAcyclic_of_get?_eq_none hnew
  refine ⟨hnew, hpass, fun hexact => ?_⟩
  have hknown : knownRecords.get? knownRecord.recordHash = some knownRecord :=
    FinMap.get?_insert_self _ _ _
  have hparent : newRecord.EdgeWith knownRecords newRecord.recordHash knownRecord.recordHash :=
    Or.inl ⟨rfl, List.mem_singleton_self _⟩
  have hback : newRecord.EdgeWith knownRecords knownRecord.recordHash newRecord.recordHash :=
    Or.inr ⟨knownRecord, hknown, List.mem_singleton_self _⟩
  have hfail := hexact.2 ((TransGen.single hparent).tail hback)
  rw [hpass] at hfail
  cases hfail

end Sample

end PresenceRecord
end Core
end Aevum
