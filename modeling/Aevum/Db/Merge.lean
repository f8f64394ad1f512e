import Aevum.Lib.KWayMerge
import Aevum.Lib.Word
import Mathlib.Algebra.BigOperators.Group.Finset.Basic
import Mathlib.Logic.Function.Basic
import Mathlib.Data.List.FinRange

/-!
# Db.Merge — `merge.rs`

The merging iterator of the storage engine: a heap with the next entry of every input iterator, and
a flag for every iterator that has nothing more to give.

The memtable is not part of the repository: of a `MemEntry` the merge knows the sequence number and
a value of any type.  An input iterator is the list of what it will yield; there are `n` of them,
with indices in `Fin n`.  The heap is the list of its elements, taken out by an arbitrary
`BinaryHeap` over the order of the source.
-/

namespace Aevum
namespace Db

open Lib

/-! ## Entries -/

abbrev Key := List UInt8

/-- The errors of `error.rs`.  The merge makes `integrity`; all other variants only pass through it
and are known by their code. -/
inductive DbError
  | integrity (context : String)
  | other (code : UInt32)
  deriving DecidableEq

structure MemEntry (MemValue : Type) where
  seq : UInt64
  value : MemValue
  deriving DecidableEq

/-- What an iterator yields. -/
abbrev Item (MemValue : Type) := Except DbError (Key × MemEntry MemValue)

structure HeapEntry (MemValue : Type) (n : Nat) where
  key : Key
  value : MemValue
  seq : UInt64
  iterIdx : Fin n
  deriving DecidableEq

variable {MemValue : Type} {n : Nat}

namespace HeapEntry

/-- `Ord for HeapEntry`: the smallest key is the greatest entry, then the highest sequence number,
then the highest index. -/
def cmp (self other : HeapEntry MemValue n) : Ordering :=
  ((compare other.key self.key).then (compare self.seq other.seq)).then
    (compare self.iterIdx other.iterIdx)

instance : Std.TransCmp (@cmp MemValue n) :=
  inferInstanceAs (Std.TransCmp (compareLex
    (compareLex (fun a b : HeapEntry MemValue n => compareOn HeapEntry.key b a)
      (compareOn HeapEntry.seq))
    (compareOn HeapEntry.iterIdx)))

/-- The entry that `push_next` makes of what the iterator with index `idx` yielded. -/
def of (idx : Fin n) (kv : Key × MemEntry MemValue) : HeapEntry MemValue n :=
  { key := kv.1
    value := kv.2.value
    seq := kv.2.seq
    iterIdx := idx }

/-- What the merge yields for an entry. -/
def item (e : HeapEntry MemValue n) : Item MemValue :=
  .ok (e.key, { seq := e.seq, value := e.value })

end HeapEntry

/-! ## The iterator -/

structure MergingIterator (MemValue : Type) (n : Nat) where
  heap : List (HeapEntry MemValue n)
  iters : Fin n → List (Item MemValue)
  exhausted : Fin n → Bool
  lastKey : Option Key

namespace MergingIterator

def pushNext (mi : MergingIterator MemValue n) (idx : Fin n) : MergingIterator MemValue n :=
  if mi.exhausted idx then mi
  else
    match mi.iters idx with
    | .ok kv :: rest =>
        { mi with
          heap := HeapEntry.of idx kv :: mi.heap
          iters := Function.update mi.iters idx rest }
    | .error _ :: rest =>
        -- the error is dropped
        { mi with
          iters := Function.update mi.iters idx rest
          exhausted := Function.update mi.exhausted idx true }
    | [] => { mi with exhausted := Function.update mi.exhausted idx true }

/-- The iterator before its first fetch. -/
def start (iters : Fin n → List (Item MemValue)) : MergingIterator MemValue n :=
  { heap := []
    iters := iters
    exhausted := fun _ => false
    lastKey := none }

def new (iters : Fin n → List (Item MemValue)) : MergingIterator MemValue n :=
  (List.finRange n).foldl pushNext (start iters)

variable (pq : BinaryHeap (@HeapEntry.cmp MemValue n))

def nextEntry (mi : MergingIterator MemValue n) :
    Except DbError (Option (HeapEntry MemValue n)) × MergingIterator MemValue n :=
  match pq.pop mi.heap with
  | none => (.ok none, mi)
  | some (entry, heap) =>
      if mi.lastKey.any fun prev => entry.key < prev then
        -- the entry is already out of the heap, and its iterator is not asked for another one
        (.error (.integrity "merge: key ordering violation"), { mi with heap := heap })
      else
        let mi := { mi with heap := heap, lastKey := some entry.key }
        (.ok (some entry), mi.pushNext entry.iterIdx)

def next (mi : MergingIterator MemValue n) :
    Option (Item MemValue) × MergingIterator MemValue n :=
  match nextEntry pq mi with
  | (.ok (some e), mi') => (some e.item, mi')
  | (.ok none, mi') => (none, mi')
  | (.error e, mi') => (some (.error e), mi')

/-- An upper bound for how often `next` can yield something. -/
def pending (mi : MergingIterator MemValue n) : Nat :=
  mi.heap.length + ∑ i, (mi.iters i).length

/-- What the first calls of `next` yield, up to the first `None`. -/
def drainFor : Nat → MergingIterator MemValue n → List (Item MemValue)
  | 0, _ => []
  | calls + 1, mi =>
      match next pq mi with
      | (none, _) => []
      | (some r, mi') => r :: drainFor calls mi'

/-- Everything the iterator yields until it first yields `None`. -/
def drain (mi : MergingIterator MemValue n) : List (Item MemValue) :=
  drainFor pq mi.pending mi

/-! ## Draining -/

theorem pending_pushNext_le (mi : MergingIterator MemValue n) (idx : Fin n) :
    (mi.pushNext idx).pending ≤ mi.pending := by
  rw [pushNext]
  split
  · exact le_rfl
  · split
    · next hrun =>
        -- one item leaves the iterator and enters the heap
        have hsum := Merges.sum_length_update hrun
        simp only [pending, List.length_cons]
        omega
    · next hrun =>
        have hsum := Merges.sum_length_update hrun
        simp only [pending]
        omega
    · exact le_rfl

/-- The state in which the entry that `next` yields leaves the heap. -/
def popped (mi : MergingIterator MemValue n) (entry : HeapEntry MemValue n)
    (heap : List (HeapEntry MemValue n)) : MergingIterator MemValue n :=
  { mi with heap := heap, lastKey := some entry.key }

/-- Everything a call of `next` can do. -/
theorem next_cases (mi : MergingIterator MemValue n) :
    (mi.heap = [] ∧ next pq mi = (none, mi)) ∨
    ∃ entry heap, mi.heap.Perm (entry :: heap) ∧
      (∀ e ∈ mi.heap, (HeapEntry.cmp e entry).isLE) ∧
      ((∃ prev, mi.lastKey = some prev ∧ entry.key < prev ∧
          next pq mi = (some (.error (.integrity "merge: key ordering violation")),
            { mi with heap := heap })) ∨
        (∀ prev, mi.lastKey = some prev → ¬ entry.key < prev) ∧
          next pq mi = (some entry.item, (mi.popped entry heap).pushNext entry.iterIdx)) := by
  cases hpop : pq.pop mi.heap with
  | none =>
      refine Or.inl ⟨BinaryHeap.pop_eq_none hpop, ?_⟩
      rw [next, nextEntry, hpop]
  | some p =>
      rcases p with ⟨entry, heap⟩
      refine Or.inr ⟨entry, heap, pq.pop_perm _ _ _ hpop, pq.pop_max _ _ _ hpop, ?_⟩
      by_cases hviolation : mi.lastKey.any fun prev => entry.key < prev
      · refine Or.inl ?_
        rcases (Option.any_eq_true _ _).1 hviolation with ⟨prev, hprev, hlt⟩
        refine ⟨prev, hprev, of_decide_eq_true hlt, ?_⟩
        simp only [next, nextEntry, hpop, if_pos hviolation]
      · refine Or.inr ⟨fun prev hprev hlt => hviolation ?_, ?_⟩
        · rw [hprev]
          exact decide_eq_true hlt
        · simp only [next, nextEntry, hpop, if_neg hviolation]
          rfl

theorem pending_lt_of_next {mi mi' : MergingIterator MemValue n} {r : Item MemValue}
    (h : next pq mi = (some r, mi')) : mi'.pending < mi.pending := by
  rcases next_cases pq mi with ⟨-, hnone⟩ | ⟨entry, heap, hperm, -, hstep⟩
  · rw [hnone] at h
    cases h
  · have hlength := hperm.length_eq
    rw [List.length_cons] at hlength
    rcases hstep with ⟨prev, -, -, herr⟩ | ⟨-, hok⟩
    · rw [herr] at h
      cases h
      simp only [pending]
      omega
    · rw [hok] at h
      cases h
      have hle := pending_pushNext_le (mi.popped entry heap) entry.iterIdx
      have hpopped : (mi.popped entry heap).pending < mi.pending := by
        simp only [pending, popped]
        omega
      exact lt_of_le_of_lt hle hpopped

theorem drainFor_eq_nil {mi : MergingIterator MemValue n} (h : mi.pending = 0) (calls : Nat) :
    drainFor pq calls mi = [] := by
  cases calls with
  | zero => rfl
  | succ calls =>
      rw [drainFor]
      split
      · rfl
      · next hnext =>
          have hlt := pending_lt_of_next pq hnext
          omega

/-- More calls than entries are pending yield nothing more. -/
theorem drainFor_eq {calls calls' : Nat} {mi : MergingIterator MemValue n}
    (h : mi.pending ≤ calls) (h' : mi.pending ≤ calls') :
    drainFor pq calls mi = drainFor pq calls' mi := by
  induction calls generalizing mi calls' with
  | zero => rw [drainFor_eq_nil pq (by omega), drainFor_eq_nil pq (by omega)]
  | succ calls ih =>
      cases calls' with
      | zero => rw [drainFor_eq_nil pq (by omega), drainFor_eq_nil pq (by omega)]
      | succ calls' =>
          rw [drainFor, drainFor]
          split
          · rfl
          · next hnext =>
              have hlt := pending_lt_of_next pq hnext
              rw [ih (by omega) (Nat.le_of_lt_succ (Nat.lt_of_lt_of_le hlt h'))]

/-- Draining calls `next` until it yields `None`. -/
theorem drain_eq (mi : MergingIterator MemValue n) :
    drain pq mi =
      match next pq mi with
      | (none, _) => []
      | (some r, mi') => r :: drain pq mi' := by
  rw [drain, drainFor_eq pq (le_refl _) (Nat.le_succ _), drainFor]
  split
  · rfl
  · next r mi' hnext =>
      have hlt := pending_lt_of_next pq hnext
      rw [drain, drainFor_eq pq (Nat.le_of_lt hlt) (le_refl _)]

end MergingIterator
end Db
end Aevum
