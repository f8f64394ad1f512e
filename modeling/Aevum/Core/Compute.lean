import Aevum.Crypto
import Aevum.Lib.EvenSplit

/-!
# Core.Compute — `compute.rs`

Compute tasks and the work that each of several workers gets of one.

* `toNat_chunkStart`, `toNat_chunkEnd` : a chunk of `get_chunk` is a part of the even split of all
  combinations;
* `partitioned` : so the chunks are a partition of them, and no operation on the way saturates.
-/

namespace Aevum
namespace Core

open Lib Crypto

/-! ## Data -/

inductive TaskType
  | drugDiscovery
  | climateModeling
  | zkProofGeneration
  | imageGeneration
  | videoGeneration
  | audioProcessing
  | molecularDocking
  | proteinFolding
  | rendering
  | simulation
  | generalCompute
  | custom (namespace_ : ByteArr 32)
  deriving DecidableEq

structure ComputeTask where
  taskId : Hash
  taskType : TaskType
  inputData : List UInt8
  reward : UInt64
  deadline : UInt64
  verificationKey : Hash
  issuer : ByteArr 32
  totalCombinations : UInt64
  chunkSize : UInt64
  deriving DecidableEq

namespace ComputeTask

def new [Blake3] (taskType : TaskType) (inputData : List UInt8) (reward deadline : UInt64)
    (verificationKey : Hash) (issuer : ByteArr 32) (totalCombinations : UInt64) : ComputeTask :=
  { taskId := Blake3.digest (ascii "AEVUM.COMPUTE_TASK.V2" ++ (u64Bytes reward).bytes ++
      (u64Bytes deadline).bytes ++ (u64Bytes totalCombinations).bytes ++ issuer.bytes ++
      inputData ++ verificationKey.bytes)
    taskType := taskType
    inputData := inputData
    reward := reward
    deadline := deadline
    verificationKey := verificationKey
    issuer := issuer
    totalCombinations := totalCombinations
    chunkSize := max (totalCombinations / 1024) 1 }

/-! ## Chunks -/

/-- The local variable `start` of `get_chunk`. -/
def chunkStart (t : ComputeTask) (worker workers : UInt64) : UInt64 :=
  let base := t.totalCombinations / workers
  let rem := t.totalCombinations % workers
  (worker.satMul base).satAdd (min worker rem)

/-- The local variable `end` of `get_chunk`. -/
def chunkEnd (t : ComputeTask) (worker workers : UInt64) : UInt64 :=
  let base := t.totalCombinations / workers
  let rem := t.totalCombinations % workers
  let stop := (t.chunkStart worker workers).satAdd base
  if worker < rem then stop.satAdd 1 else stop

def getChunk (t : ComputeTask) (worker workers : UInt64) : Option (UInt64 × UInt64) :=
  if workers = 0 ∨ worker ≥ workers then none
  else some (t.chunkStart worker workers, t.chunkEnd worker workers)

/-- None of the saturating operations of `get_chunk` saturates on its operands. -/
structure Exact (t : ComputeTask) (worker workers : UInt64) : Prop where
  product : worker.toNat * (t.totalCombinations / workers).toNat < 2 ^ 64
  start : (worker.satMul (t.totalCombinations / workers)).toNat +
    (min worker (t.totalCombinations % workers)).toNat < 2 ^ 64
  stop : (t.chunkStart worker workers).toNat + (t.totalCombinations / workers).toNat < 2 ^ 64
  stopRem : worker < t.totalCombinations % workers →
    ((t.chunkStart worker workers).satAdd (t.totalCombinations / workers)).toNat + 1 < 2 ^ 64

variable {t : ComputeTask} {worker workers : UInt64}

/-- The bound of the split that a worker's chunk begins at. -/
def bound (t : ComputeTask) (workers : UInt64) (i : ℕ) : ℕ :=
  evenBound t.totalCombinations.toNat workers.toNat i

theorem bound_lt (hi : worker < workers) :
    t.bound workers worker.toNat ≤ t.bound workers (worker.toNat + 1) ∧
      t.bound workers (worker.toNat + 1) ≤ t.totalCombinations.toNat := by
  have hlt : worker.toNat < workers.toNat := UInt64.lt_iff_toNat_lt.1 hi
  exact ⟨evenBound_mono _ _ (Nat.le_succ _), evenBound_le hlt (by omega)⟩

theorem bound_succ (t : ComputeTask) (workers : UInt64) (i : ℕ) :
    t.bound workers (i + 1) = t.bound workers i +
      (t.totalCombinations.toNat / workers.toNat +
        if i < t.totalCombinations.toNat % workers.toNat then 1 else 0) :=
  evenBound_succ _ _ _

theorem lt_rem_iff (t : ComputeTask) (worker workers : UInt64) :
    worker < t.totalCombinations % workers ↔
      worker.toNat < t.totalCombinations.toNat % workers.toNat := by
  rw [UInt64.lt_iff_toNat_lt, UInt64.toNat_mod]

theorem toNat_min_rem (t : ComputeTask) (worker workers : UInt64) :
    (min worker (t.totalCombinations % workers)).toNat =
      min worker.toNat (t.totalCombinations.toNat % workers.toNat) := by
  have hmin : ∀ a b : UInt64, (min a b).toNat = min a.toNat b.toNat := UInt64.toNat_min
  rw [hmin, UInt64.toNat_mod]

/-- Everything is below the total, which is a word. -/
theorem bound_succ_lt (h : worker < workers) :
    t.bound workers worker.toNat +
      (t.totalCombinations.toNat / workers.toNat +
        if worker.toNat < t.totalCombinations.toNat % workers.toNat then 1 else 0) < 2 ^ 64 := by
  rw [← bound_succ]
  exact lt_of_le_of_lt (bound_lt h).2 t.totalCombinations.toNat_lt

theorem toNat_product (h : worker < workers) :
    (worker.satMul (t.totalCombinations / workers)).toNat =
      worker.toNat * (t.totalCombinations.toNat / workers.toNat) := by
  have hlt := bound_succ_lt (t := t) h
  rw [bound, evenBound] at hlt
  rw [UInt64.toNat_satMul, UInt64.toNat_div]
  generalize t.totalCombinations.toNat / workers.toNat = base at hlt ⊢
  omega

theorem toNat_chunkStart (h : worker < workers) :
    (t.chunkStart worker workers).toNat = t.bound workers worker.toNat := by
  have hlt := bound_succ_lt (t := t) h
  rw [bound, evenBound] at hlt ⊢
  rw [chunkStart, UInt64.toNat_satAdd, toNat_product h, toNat_min_rem]
  generalize t.totalCombinations.toNat / workers.toNat = base at hlt ⊢
  omega

/-- The end before the remainder is looked at. -/
theorem toNat_chunkStart_satAdd (h : worker < workers) :
    ((t.chunkStart worker workers).satAdd (t.totalCombinations / workers)).toNat =
      t.bound workers worker.toNat + t.totalCombinations.toNat / workers.toNat := by
  have hlt := bound_succ_lt (t := t) h
  rw [UInt64.toNat_satAdd, toNat_chunkStart h, UInt64.toNat_div]
  omega

theorem toNat_chunkEnd (h : worker < workers) :
    (t.chunkEnd worker workers).toNat = t.bound workers (worker.toNat + 1) := by
  have hlt := bound_succ_lt (t := t) h
  rw [chunkEnd, bound_succ]
  by_cases hrem : worker < t.totalCombinations % workers
  · rw [if_pos ((lt_rem_iff t _ _).1 hrem)] at hlt ⊢
    rw [if_pos hrem, UInt64.toNat_satAdd, toNat_chunkStart_satAdd h, UInt64.toNat_one]
    omega
  · rw [if_neg hrem, if_neg (mt (lt_rem_iff t _ _).2 hrem), toNat_chunkStart_satAdd h,
      Nat.add_zero]

theorem exact_of_lt (h : worker < workers) : t.Exact worker workers := by
  have hlt := bound_succ_lt (t := t) h
  have hsum : t.bound workers worker.toNat =
      worker.toNat * (t.totalCombinations.toNat / workers.toNat) +
        min worker.toNat (t.totalCombinations.toNat % workers.toNat) := rfl
  refine
    { product := ?_
      start := ?_
      stop := ?_
      stopRem := fun hrem => ?_ }
  · rw [UInt64.toNat_div]
    generalize t.totalCombinations.toNat / workers.toNat = base at hlt hsum ⊢
    omega
  · rw [toNat_product h, toNat_min_rem]
    generalize t.totalCombinations.toNat / workers.toNat = base at hlt hsum ⊢
    omega
  · rw [toNat_chunkStart h, UInt64.toNat_div]
    omega
  · rw [if_pos ((lt_rem_iff t _ _).1 hrem)] at hlt
    rw [toNat_chunkStart_satAdd h]
    omega

/-! ## The partition -/

/-- The chunks of all workers, from `start w` to `stop w` for the worker `w`, are a partition of the
combinations into nearly equal parts. -/
structure Partition (t : ComputeTask) (workers : UInt64) (start stop : UInt64 → UInt64) :
    Prop where
  chunk : ∀ w < workers, t.getChunk w workers = some (start w, stop w)
  first : start 0 = 0
  contiguous : ∀ w < workers - 1, stop w = start (w + 1)
  last : stop (workers - 1) = t.totalCombinations
  ordered : ∀ w < workers, start w ≤ stop w ∧ stop w ≤ t.totalCombinations
  covered : ∀ p < t.totalCombinations, ∃! w, w < workers ∧ start w ≤ p ∧ p < stop w
  balanced : ∀ w < workers, ∀ v < workers,
    (stop w).toNat - (start w).toNat ≤ (stop v).toNat - (start v).toNat + 1

theorem getChunk_of_lt (h : worker < workers) :
    t.getChunk worker workers = some (t.chunkStart worker workers, t.chunkEnd worker workers) := by
  have hne : workers ≠ 0 := by
    rintro rfl
    exact UInt64.not_lt_zero h
  rw [getChunk, if_neg]
  rintro (hzero | hge)
  · exact hne hzero
  · exact UInt64.not_le.2 h hge

/-- Each combination belongs to exactly one worker. -/
theorem existsUnique_worker (hworkers : 1 ≤ workers) {p : UInt64} (hp : p < t.totalCombinations) :
    ∃! w, w < workers ∧ t.chunkStart w workers ≤ p ∧ p < t.chunkEnd w workers := by
  have hpos : 0 < workers.toNat := UInt64.le_iff_toNat_le.1 hworkers
  have hlast : t.bound workers workers.toNat = t.totalCombinations.toNat := evenBound_self hpos
  have hin : ∀ w < workers, (t.chunkStart w workers ≤ p ∧ p < t.chunkEnd w workers ↔
      t.bound workers w.toNat ≤ p.toNat ∧ p.toNat < t.bound workers (w.toNat + 1)) := by
    intro w hw
    rw [UInt64.le_iff_toNat_le, UInt64.lt_iff_toNat_lt, toNat_chunkStart hw, toNat_chunkEnd hw]
  have hp' : p.toNat < t.bound workers workers.toNat := hlast ▸ UInt64.lt_iff_toNat_lt.1 hp
  rcases existsUnique_part (evenBound_mono _ _) (evenBound_zero _ _) hp' with
    ⟨i, ⟨hi, hpart⟩, hunique⟩
  -- a number of a worker is a word
  have htoNat : (UInt64.ofNat i).toNat = i :=
    UInt64.toNat_ofNat_of_lt' (lt_trans hi workers.toNat_lt)
  have hlt : UInt64.ofNat i < workers := by
    rw [UInt64.lt_iff_toNat_lt, htoNat]
    exact hi
  refine ⟨UInt64.ofNat i, ⟨hlt, (hin _ hlt).2 (htoNat.symm ▸ hpart)⟩, ?_⟩
  rintro w ⟨hw, hmem⟩
  have heq : w.toNat = i :=
    hunique w.toNat ⟨UInt64.lt_iff_toNat_lt.1 hw, (hin w hw).1 hmem⟩
  rw [← heq, UInt64.ofNat_toNat]

/-- The chunks of any number of workers are a partition, and nothing saturates on the way. -/
theorem partitioned (t : ComputeTask) (workers : UInt64) (hworkers : 1 ≤ workers) :
    (∃ start stop, t.Partition workers start stop) ∧
      ∀ w < workers, t.Exact w workers := by
  have hpos : 1 ≤ workers.toNat := UInt64.le_iff_toNat_le.1 hworkers
  have hpred : (workers - 1).toNat = workers.toNat - 1 := UInt64.toNat_sub_of_le _ _ hworkers
  have hlastlt : workers - 1 < workers := by
    rw [UInt64.lt_iff_toNat_lt, hpred]
    omega
  have hzerolt : 0 < workers := UInt64.lt_iff_toNat_lt.2 hpos
  refine ⟨⟨fun w => t.chunkStart w workers, fun w => t.chunkEnd w workers, ?_⟩,
    fun w hw => exact_of_lt hw⟩
  refine
    { chunk := fun w hw => getChunk_of_lt hw
      first := ?_
      contiguous := fun w hw => ?_
      last := ?_
      ordered := fun w hw => ?_
      covered := fun p hp => existsUnique_worker hworkers hp
      balanced := fun w hw v hv => ?_ }
  · rw [← UInt64.toNat_inj, toNat_chunkStart hzerolt]
    exact evenBound_zero _ _
  · have hw' : w.toNat < workers.toNat - 1 := hpred ▸ UInt64.lt_iff_toNat_lt.1 hw
    have hsucc : (w + 1).toNat = w.toNat + 1 := by
      have hlt := workers.toNat_lt
      rw [UInt64.toNat_add_of_lt (by rw [UInt64.toNat_one]; omega), UInt64.toNat_one]
    have hnext : w + 1 < workers := by
      rw [UInt64.lt_iff_toNat_lt, hsucc]
      omega
    have hthis : w < workers := UInt64.lt_iff_toNat_lt.2 (by omega)
    rw [← UInt64.toNat_inj, toNat_chunkEnd hthis, toNat_chunkStart hnext, hsucc]
  · rw [← UInt64.toNat_inj, toNat_chunkEnd hlastlt, hpred, Nat.sub_add_cancel hpos]
    exact evenBound_self hpos
  · rw [UInt64.le_iff_toNat_le, UInt64.le_iff_toNat_le, toNat_chunkStart hw, toNat_chunkEnd hw]
    exact bound_lt hw
  · rw [toNat_chunkStart hw, toNat_chunkEnd hw, toNat_chunkStart hv, toNat_chunkEnd hv, bound_succ,
      bound_succ, Nat.add_sub_cancel_left, Nat.add_sub_cancel_left]
    split <;> split <;> omega

section Sample

attribute [local instance] polyBlake3

/-- Four workers and ten combinations. -/
theorem partitioned_sample :
    ∃ start stop, (new .rendering [] 0 0 Hash.zero (.fill 32 0) 10).Partition 4 start stop :=
  (partitioned _ 4 (by decide)).1

end Sample

end ComputeTask

end Core
end Aevum
