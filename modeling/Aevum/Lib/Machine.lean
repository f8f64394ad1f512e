import Aevum.Lib.Run

/-!
# Machine — deterministic machines with outputs, and what a user sees of them

A machine is a function `next : S → I → S × O`.  This file defines:

* `stepOf next` : its step relation, whose labels pair an input with its output;
* `trace next s is` : the inputs with their outputs, from the state `s` on;
* `allowed next ok s is` : every input is allowed in the state it meets;
* `Unwinding next keep R` : `R` relates two states that answer all inputs in `keep` alike and that
  other inputs do not drive apart;

and proves that the trace is a run (`run_trace`, `RunWith.append_allowed`) and that, under an
unwinding relation, deleting inputs outside `keep` changes no output to the others (`trace_purge`).
-/

namespace Lib

variable {S I O : Type*}

def stepOf (next : S → I → S × O) (s : S) (l : I × O) (s' : S) : Prop :=
  next s l.1 = (s', l.2)

def trace (next : S → I → S × O) : S → List I → List (I × O)
  | _, [] => []
  | s, i :: is => (i, (next s i).2) :: trace next (next s i).1 is

/-- The state after all inputs. -/
def final (next : S → I → S × O) (s : S) (is : List I) : S :=
  is.foldl (fun s i => (next s i).1) s

variable {next : S → I → S × O} {s s' u : S} {is : List I}

theorem eq_of_stepOf {l : I × O} (h : stepOf next s l s') : (next s l.1).1 = s' :=
  congrArg Prod.fst h

/-- Every list of inputs has a run. -/
theorem RunWith.append_trace {tr : List (I × O)} (h : Run (stepOf next) s tr u) (is : List I) :
    Run (stepOf next) s (tr ++ trace next u is) (final next u is) := by
  induction is generalizing tr u with
  | nil =>
      rw [trace, List.append_nil]
      exact h
  | cons i is ih =>
      have hstep : Run (stepOf next) s (tr ++ [(i, (next u i).2)]) (next u i).1 :=
        Run.snoc h rfl
      rw [trace, List.append_cons]
      exact ih hstep

theorem run_trace (is : List I) : Run (stepOf next) s (trace next s is) (final next s is) :=
  RunWith.append_trace RunWith.nil is

theorem fst_mem_of_mem_trace {l : I × O} (h : l ∈ trace next s is) : l.1 ∈ is := by
  induction is generalizing s with
  | nil => cases h
  | cons i is ih =>
      rcases List.mem_cons.1 h with rfl | hrest
      · exact List.mem_cons_self
      · exact List.mem_cons_of_mem i (ih hrest)

/-- A change of the state that no input notices changes no trace. -/
theorem trace_hom {f : S → S} (hf : ∀ s i, next (f s) i = (f (next s i).1, (next s i).2)) (s : S)
    (is : List I) : trace next (f s) is = trace next s is := by
  induction is generalizing s with
  | nil => rfl
  | cons i is ih => rw [trace, trace, hf, ih]

/-! ## Machines that must be used with care -/

/-- Every input is one that `ok` allows in the state it meets. -/
def allowed (next : S → I → S × O) (ok : S → I → Bool) : S → List I → Bool
  | _, [] => true
  | s, i :: is => ok s i && allowed next ok (next s i).1 is

/-- Allowed inputs have a run of any step relation that follows `next` on them. -/
theorem RunWith.append_allowed {step : S → I × O → S → Prop}
    {P : List (I × O) → S → I × O → S → Prop} {ok : S → I → Bool} {s₀ : S} {tr : List (I × O)}
    (hok : ∀ tr s i, ok s i = true → step s (i, (next s i).2) (next s i).1 ∧
      P tr s (i, (next s i).2) (next s i).1)
    (h : RunWith step P s₀ tr u) (his : allowed next ok u is = true) :
    RunWith step P s₀ (tr ++ trace next u is) (final next u is) := by
  induction is generalizing tr u with
  | nil =>
      rw [trace, List.append_nil]
      exact h
  | cons i is ih =>
      rw [allowed, Bool.and_eq_true] at his
      -- `ok` speaks of the state before the input, which is the end of the run so far
      rcases hok tr u i his.1 with ⟨hstep, hP⟩
      rw [trace, List.append_cons]
      exact ih (h.snoc hstep hP) his.2

/-! ## Unwinding -/

structure Unwinding (next : S → I → S × O) (keep : I → Bool) (R : S → S → Prop) : Prop where
  kept : ∀ s u i, R s u → keep i = true →
    (next s i).2 = (next u i).2 ∧ R (next s i).1 (next u i).1
  dropped : ∀ s u i, R s u → keep i = false → R (next s i).1 u

/-- Inputs that are not kept can be deleted unnoticed. -/
theorem trace_purge {keep : I → Bool} {R : S → S → Prop} (h : Unwinding next keep R) (hR : R s u)
    (is : List I) :
    trace next u (is.filter keep) = (trace next s is).filter fun l => keep l.1 := by
  induction is generalizing s u with
  | nil => rfl
  | cons i is ih =>
      rw [trace]
      by_cases hi : keep i = true
      · rcases h.kept s u i hR hi with ⟨hout, hnext⟩
        rw [List.filter_cons_of_pos hi, List.filter_cons_of_pos (p := fun l : I × O => keep l.1) hi,
          trace, ih hnext, hout]
      · -- the purged machine stays where it is
        have hdrop := h.dropped s u i hR (Bool.eq_false_iff.2 hi)
        rw [List.filter_cons_of_neg hi, List.filter_cons_of_neg (p := fun l : I × O => keep l.1) hi,
          ih hdrop]

end Lib
