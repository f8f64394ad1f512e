import Aevum.Lib.Lists
import Aevum.Core.Compute

/-!
# Core.ComputeSolution — `compute.rs`, solutions

A solution is accepted if its hash is the verification key of the task.  What is hashed depends on
the type of the task: most types put a domain and the id of the task or a namespace in front.

* `verifySolution_iff` : which solutions are accepted;
* `solution_bound` : a verification key admits one solution, of one task or namespace.
-/

namespace Aevum
namespace Core

open Lib Crypto

namespace ComputeTask

section Verification

variable [Blake3]

def verifyZk (solution : List UInt8) : Hash :=
  if solution.length < 384 then Hash.zero else Blake3.digest solution

def verifyMedia (solution : List UInt8) : Hash := Blake3.digest solution

def verifyGeneral (t : ComputeTask) (solution : List UInt8) : Hash :=
  Blake3.digest (ascii "AEVUM.SOLUTION.V2" ++ t.taskId.bytes ++ solution)

def verifyCustom (solution : List UInt8) (namespace_ : ByteArr 32) : Hash :=
  Blake3.digest (ascii "AEVUM.CUSTOM.V2" ++ namespace_.bytes ++ solution)

/-- The local variable `computed` of `verify_solution`. -/
def computed (t : ComputeTask) (solution : List UInt8) : Hash :=
  match t.taskType with
  | .zkProofGeneration => verifyZk solution
  | .imageGeneration | .videoGeneration | .audioProcessing => verifyMedia solution
  | .custom namespace_ => verifyCustom solution namespace_
  | _ => t.verifyGeneral solution

def verifySolution (t : ComputeTask) (solution : List UInt8) : Bool :=
  if solution.isEmpty then false else t.computed solution = t.verificationKey

end Verification

end ComputeTask

namespace ComputeTask

/-! ## What a key admits -/

/-- What a solution is hashed with: nothing, a task or a namespace. -/
inductive Seal
  | plain
  | task (id : Hash)
  | space (namespace_ : ByteArr 32)
  deriving DecidableEq

def Seal.bytes : Seal → List UInt8
  | .plain => []
  | .task id => ascii "AEVUM.SOLUTION.V2" ++ id.bytes
  | .space namespace_ => ascii "AEVUM.CUSTOM.V2" ++ namespace_.bytes

def sealOf (t : ComputeTask) : Seal :=
  match t.taskType with
  | .zkProofGeneration | .imageGeneration | .videoGeneration | .audioProcessing => .plain
  | .custom namespace_ => .space namespace_
  | _ => .task t.taskId

/-- Solutions under two seals never get the same bytes. -/
theorem Seal.eq_of_bytes {a b : Seal} {s s' : List UInt8} (ha : a ≠ .plain) (hb : b ≠ .plain)
    (h : a.bytes ++ s = b.bytes ++ s') : a = b ∧ s = s' := by
  have hsep : Separated (ascii "AEVUM.SOLUTION.V2") (ascii "AEVUM.CUSTOM.V2") := by decide
  cases a with
  | plain => exact (ha rfl).elim
  | task id =>
      cases b with
      | plain => exact (hb rfl).elim
      | task id' =>
          simp only [bytes, List.append_assoc] at h
          rcases ByteArr.append_inj (List.append_cancel_left h) with ⟨rfl, hs⟩
          exact ⟨rfl, hs⟩
      | space ns' =>
          simp only [bytes, List.append_assoc] at h
          exact (hsep.append_ne _ _ h).elim
  | space ns =>
      cases b with
      | plain => exact (hb rfl).elim
      | task id' =>
          simp only [bytes, List.append_assoc] at h
          exact (hsep.append_ne _ _ h.symm).elim
      | space ns' =>
          simp only [bytes, List.append_assoc] at h
          rcases ByteArr.append_inj (List.append_cancel_left h) with ⟨rfl, hs⟩
          exact ⟨rfl, hs⟩

/-- A proof too short to be hashed. -/
def Short (t : ComputeTask) (solution : List UInt8) : Prop :=
  t.taskType = .zkProofGeneration ∧ solution.length < 384

instance (t : ComputeTask) (solution : List UInt8) : Decidable (t.Short solution) :=
  inferInstanceAs (Decidable (_ ∧ _))

section Keys

variable [Blake3] {t t' : ComputeTask} {s s' : List UInt8}

theorem computed_of_short (h : t.Short s) : t.computed s = Hash.zero := by
  rw [computed, h.1]
  exact if_pos h.2

/-- Every other solution is hashed behind the seal of its task. -/
theorem computed_of_not_short (h : ¬ t.Short s) :
    t.computed s = Blake3.digest (t.sealOf.bytes ++ s) := by
  rw [computed, sealOf]
  split
  · rename_i htype
    exact if_neg fun hlen => h ⟨htype, hlen⟩
  all_goals simp only [verifyMedia, verifyCustom, verifyGeneral, List.append_assoc, *]
  all_goals rfl

/-- A solution is accepted if it hashes to the key; a proof too short to be hashed is accepted under
the zero key. -/
theorem verifySolution_iff :
    t.verifySolution s = true ↔
      s ≠ [] ∧ t.verificationKey =
        if t.Short s then Hash.zero else Blake3.digest (t.sealOf.bytes ++ s) := by
  have hcomputed : t.computed s =
      if t.Short s then Hash.zero else Blake3.digest (t.sealOf.bytes ++ s) := by
    split
    · exact computed_of_short ‹_›
    · exact computed_of_not_short ‹_›
  rw [verifySolution, ← hcomputed]
  cases s with
  | nil =>
      constructor
      · intro h
        cases h
      · rintro ⟨hne, -⟩
        exact (hne rfl).elim
  | cons b s =>
      rw [List.isEmpty_cons, if_neg Bool.false_ne_true, decide_eq_true_iff, eq_comm]
      exact (and_iff_right (List.cons_ne_nil b s)).symm

/-- Under a key other than zero nothing is accepted unhashed. -/
theorem key_eq_digest (h : t.verifySolution s = true) (hkey : t.verificationKey ≠ Hash.zero) :
    t.verificationKey = Blake3.digest (t.sealOf.bytes ++ s) := by
  have heq := (verifySolution_iff.1 h).2
  split at heq
  · exact (hkey heq).elim
  · exact heq

/-- A verification key other than zero admits one solution: if two solutions are accepted under it,
they are the same and for the same task or namespace.  Only a task that hashes nothing in front of
its solutions also admits what another one hashes in all. -/
theorem solution_bound {F : Set (List UInt8)} (hF : Set.InjOn Blake3.digest F)
    (h : t.verifySolution s = true) (h' : t'.verifySolution s' = true)
    (hkey : t.verificationKey = t'.verificationKey) (hzero : t.verificationKey ≠ Hash.zero)
    (hfed : t.sealOf.bytes ++ s ∈ F) (hfed' : t'.sealOf.bytes ++ s' ∈ F) :
    t.sealOf = t'.sealOf ∧ s = s' ∨ t.sealOf ≠ t'.sealOf ∧
      (t.sealOf = .plain ∧ s = t'.sealOf.bytes ++ s' ∨
        t'.sealOf = .plain ∧ s' = t.sealOf.bytes ++ s) := by
  have hbytes : t.sealOf.bytes ++ s = t'.sealOf.bytes ++ s' := by
    apply hF hfed hfed'
    rw [← key_eq_digest h hzero, ← key_eq_digest h' (hkey ▸ hzero), hkey]
  by_cases hseal : t.sealOf = t'.sealOf
  · rw [hseal] at hbytes
    exact Or.inl ⟨hseal, List.append_cancel_left hbytes⟩
  refine Or.inr ⟨hseal, ?_⟩
  by_cases hplain : t.sealOf = .plain
  · rw [hplain] at hbytes
    exact Or.inl ⟨hplain, hbytes⟩
  by_cases hplain' : t'.sealOf = .plain
  · rw [hplain'] at hbytes
    exact Or.inr ⟨hplain', hbytes.symm⟩
  exact (hseal (Seal.eq_of_bytes hplain hplain' hbytes).1).elim

end Keys

section Sample

attribute [local instance] polyBlake3

/-- A simulation whose solution is the byte 7. -/
def sampleSimulation : ComputeTask :=
  { taskId := Hash.zero
    taskType := .simulation
    inputData := []
    reward := 0
    deadline := 0
    verificationKey := Blake3.digest ((Seal.task Hash.zero).bytes ++ [7])
    issuer := .fill 32 0
    totalCombinations := 1
    chunkSize := 1 }

/-- An image with the key of the simulation. -/
def sampleImage : ComputeTask := { sampleSimulation with taskType := .imageGeneration }

/-- The image is what the simulation hashes. -/
theorem solution_bound_sample : sampleImage.sealOf = .plain := by
  let sealed := sampleSimulation.sealOf.bytes ++ [7]
  have haccepted : sampleSimulation.verifySolution [7] = true := by decide +kernel
  have haccepted' : sampleImage.verifySolution sealed = true := by decide +kernel
  have hinj : Set.InjOn Blake3.digest {bs | bs ∈ [sealed]} := injOn_of_nodup (by decide +kernel)
  have hbound := solution_bound hinj haccepted haccepted' rfl (by decide +kernel)
    List.mem_cons_self List.mem_cons_self
  rcases hbound with ⟨hseal, -⟩ | ⟨-, ⟨hplain, -⟩ | ⟨hplain, -⟩⟩
  · cases hseal
  · cases hplain
  · exact hplain

end Sample

end ComputeTask

end Core
end Aevum
