import Aevum.Lib.Word

/-!
# Codec — encodings that delimit themselves

What a hash commits to depends on how its preimage is framed.  An encoding is *delimited* on a set
of values when it can be told where it ends, whatever follows; concatenations of such encodings
can be taken apart again:

* `Delimited S enc R` : from equal byte strings that start with encodings of values of `S`, the
  values are related by `R` and the rests are equal;
* `Delimited.flatMap`, `Delimited.counted` : lists of one length, and lists behind their length;
* `Delimited.flatMap_whole` : lists of any lengths, when nothing follows and no encoding is empty;
* `delimited_of_prefixFree` : where no encoding is the beginning of another, it is delimited.

The relation is not always equality, because an encoding may leave fields of a value out.
-/

namespace Lib

variable {A : Type*} {S : Set A} {enc : A → List UInt8} {R : A → A → Prop} {l l' : List A}
  {xs ys : List UInt8}

def Delimited (S : Set A) (enc : A → List UInt8) (R : A → A → Prop) : Prop :=
  ∀ a ∈ S, ∀ a' ∈ S, ∀ xs ys, enc a ++ xs = enc a' ++ ys → R a a' ∧ xs = ys

namespace Delimited

/-- Encodings of lists that are known to have the same length. -/
theorem flatMap (h : Delimited S enc R) (hlen : l.length = l'.length) (hl : ∀ a ∈ l, a ∈ S)
    (hl' : ∀ a ∈ l', a ∈ S) (heq : l.flatMap enc ++ xs = l'.flatMap enc ++ ys) :
    List.Forall₂ R l l' ∧ xs = ys := by
  induction l generalizing l' with
  | nil =>
      have hnil : l' = [] := List.length_eq_zero_iff.1 hlen.symm
      subst hnil
      exact ⟨List.Forall₂.nil, heq⟩
  | cons a l ih =>
      cases l' with
      | nil => cases hlen
      | cons a' l' =>
          rw [List.forall_mem_cons] at hl hl'
          rw [List.flatMap_cons, List.flatMap_cons, List.append_assoc, List.append_assoc] at heq
          rcases h a hl.1 a' hl'.1 _ _ heq with ⟨ha, hrest⟩
          rcases ih (Nat.succ.inj hlen) hl.2 hl'.2 hrest with ⟨hl, hxs⟩
          exact ⟨List.Forall₂.cons ha hl, hxs⟩

/-- Encodings of lists behind their lengths. -/
theorem counted (h : Delimited S enc R) (hlt : l.length < 2 ^ 32) (hlt' : l'.length < 2 ^ 32)
    (hl : ∀ a ∈ l, a ∈ S) (hl' : ∀ a ∈ l', a ∈ S)
    (heq : (lenBytes l.length).bytes ++ (l.flatMap enc ++ xs) =
      (lenBytes l'.length).bytes ++ (l'.flatMap enc ++ ys)) :
    List.Forall₂ R l l' ∧ xs = ys := by
  rcases ByteArr.append_inj heq with ⟨hcount, heq⟩
  exact h.flatMap (lenBytes_inj hlt hlt' hcount) hl hl' heq

/-- Encodings of lists whose lengths are not known: the end of the bytes is the end of the list. -/
theorem flatMap_whole (h : Delimited S enc R) (hne : ∀ a ∈ S, enc a ≠ []) (hl : ∀ a ∈ l, a ∈ S)
    (hl' : ∀ a ∈ l', a ∈ S) (heq : l.flatMap enc = l'.flatMap enc) : List.Forall₂ R l l' := by
  induction l generalizing l' with
  | nil =>
      cases l' with
      | nil => exact .nil
      | cons a' l' =>
          rw [List.flatMap_nil, List.flatMap_cons] at heq
          have hnil := (List.append_eq_nil_iff.1 heq.symm).1
          exact absurd hnil (hne a' (hl' a' List.mem_cons_self))
  | cons a l ih =>
      cases l' with
      | nil =>
          rw [List.flatMap_nil, List.flatMap_cons] at heq
          have hnil := (List.append_eq_nil_iff.1 heq).1
          exact absurd hnil (hne a (hl a List.mem_cons_self))
      | cons a' l' =>
          rw [List.forall_mem_cons] at hl hl'
          rw [List.flatMap_cons, List.flatMap_cons] at heq
          rcases h a hl.1 a' hl'.1 _ _ heq with ⟨ha, hrest⟩
          exact .cons ha (ih hl.2 hl'.2 hrest)

end Delimited

/-- An injective encoding is delimited when no encoding begins with another one. -/
theorem delimited_of_prefixFree (hinj : Function.Injective enc)
    (hfree : ∀ a a', enc a <+: enc a' → enc a = enc a') : Delimited Set.univ enc Eq := by
  intro a _ a' _ xs ys heq
  have henc : enc a = enc a' := by
    have hleft : enc a <+: enc a' ++ ys := heq ▸ List.prefix_append (enc a) xs
    rcases List.prefix_or_prefix_of_prefix hleft (List.prefix_append (enc a') ys) with h | h
    · exact hfree a a' h
    · exact (hfree a' a h).symm
  rw [henc] at heq
  exact ⟨hinj henc, List.append_cancel_left heq⟩

/-- A byte string behind its length. -/
theorem delimited_lenPrefixed :
    Delimited {w : List UInt8 | w.length < 2 ^ 32} (fun w => (lenBytes w.length).bytes ++ w)
      Eq := by
  intro w hw w' hw' xs ys heq
  rw [List.append_assoc, List.append_assoc] at heq
  rcases ByteArr.append_inj heq with ⟨hlen, heq⟩
  exact List.append_inj heq (lenBytes_inj hw hw' hlen)

end Lib
