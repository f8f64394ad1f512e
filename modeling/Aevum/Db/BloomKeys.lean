import Aevum.Db.Bloom

/-!
# Db.BloomKeys — a filter is a function of its keys

What a filter of `bloom.rs` answers, and what it stores, depends on nothing but the filter it
started as and the set of the keys added since: not on their order, not on how often each was
added, and not on the round trips through bytes or raw parts in between.
-/

namespace Aevum
namespace Db

open Lib

namespace BloomFilter

section Keys

variable [FxHasher]

/-- One of the keys that were added sets the bit `i`, in filters of the size of `f₀`. -/
def SetBy (f₀ : BloomFilter) (tr : List Event) (i : Nat) : Prop :=
  ∃ (T : Type) (_ : Hash T) (key : T), .add key ∈ tr ∧ i ∈ f₀.indices key

/-- The bits of a filter are those of `f₀` and those of the keys. -/
structure Exact (f₀ : BloomFilter) (tr : List Event) (f : BloomFilter) : Prop where
  wellFormed : f.WellFormed
  length_eq : f.bits.length = f₀.bits.length
  numHashes_eq : f.numHashes = f₀.numHashes
  testBit_iff : ∀ i, BitSet.testBit f.bits i ↔ BitSet.testBit f₀.bits i ∨ SetBy f₀ tr i

variable {f₀ f f' g : BloomFilter} {tr tr' : List Event} {l : Event}

theorem Exact.indices_eq (h : Exact f₀ tr f) {T : Type} [Hash T] (key : T) :
    f.indices key = f₀.indices key :=
  indices_congr h.length_eq h.numHashes_eq key

theorem setBy_snoc {i : Nat} : SetBy f₀ (tr ++ [l]) i ↔ SetBy f₀ tr i ∨ SetBy f₀ [l] i := by
  simp only [SetBy, List.mem_append, or_and_right, exists_or]

/-- The same filter with a new counter. -/
theorem Exact.reset (h : Exact f₀ tr f) (hl : ∀ i, ¬ SetBy f₀ [l] i) :
    Exact f₀ (tr ++ [l]) { f with count := 0 } :=
  { wellFormed := { bits_ne_nil := h.wellFormed.bits_ne_nil, clamped := h.wellFormed.clamped }
    length_eq := h.length_eq
    numHashes_eq := h.numHashes_eq
    testBit_iff := fun i => by
      rw [setBy_snoc, or_iff_left (hl i)]
      exact h.testBit_iff i }

theorem Exact.add (h : Exact f₀ tr f) {T : Type} [Hash T] (key : T) :
    Exact f₀ (tr ++ [.add key]) (f.add key) := by
  have hbits : (f.add key).bits.length = f.bits.length ∧ (f.add key).numHashes = f.numHashes := by
    rw [BloomFilter.add]
    split
    · exact ⟨rfl, rfl⟩
    · exact ⟨BitSet.length_foldl_setBit _ _, rfl⟩
  have hlast : ∀ i, SetBy f₀ [.add key] i ↔ i ∈ f₀.indices key := by
    intro i
    constructor
    · rintro ⟨T', hT', key', hmem, hi⟩
      cases List.mem_singleton.1 hmem
      exact hi
    · intro hi
      exact ⟨T, _, key, List.mem_singleton_self _, hi⟩
  refine
    { wellFormed := h.wellFormed.add key
      length_eq := hbits.1.trans h.length_eq
      numHashes_eq := hbits.2.trans h.numHashes_eq
      testBit_iff := fun i => ?_ }
  rw [testBit_add h.wellFormed, h.indices_eq, h.testBit_iff, setBy_snoc, hlast]
  tauto

theorem Exact.snoc (h : Exact f₀ tr f) (hstep : Step f l f') : Exact f₀ (tr ++ [l]) f' := by
  cases hstep with
  | add key => exact h.add key
  | bytes hbytes =>
      rw [fromBytes_toBytes h.wellFormed] at hbytes
      cases hbytes
      refine h.reset fun i hset => ?_
      rcases hset with ⟨T, _, key, hmem, -⟩
      cases List.mem_singleton.1 hmem
  | raw =>
      rw [fromRaw_bits h.wellFormed]
      refine h.reset fun i hset => ?_
      rcases hset with ⟨T, _, key, hmem, -⟩
      cases List.mem_singleton.1 hmem

theorem exact_run (hmade : Made f₀) (hrun : Run Step f₀ tr f) : Exact f₀ tr f := by
  refine RunWith.invariant (Exact f₀) ?_ (fun _ _ _ _ _ hI hstep _ => hI.snoc hstep) hrun
  refine
    { wellFormed := hmade.wellFormed
      length_eq := rfl
      numHashes_eq := rfl
      testBit_iff := fun i => (or_iff_left ?_).symm }
  rintro ⟨T, _, key, hmem, -⟩
  cases hmem

/-- Two histories of one filter that add the same keys end in the same bits, so that the same bytes
are stored and the same answers given: a key is found exactly when each of its bits is one of the
first filter or of some key that was added. -/
theorem bits_determined (hmade : Made f₀) (hrun : Run Step f₀ tr f) (hrun' : Run Step f₀ tr' g)
    (hkeys : ∀ {T : Type} [Hash T] (key : T), .add key ∈ tr ↔ .add key ∈ tr') :
    f.toBytes = g.toBytes ∧
      ∀ {T : Type} [Hash T] (key : T), f.mayContain key = g.mayContain key ∧
        (f.mayContain key ↔
          ∀ i ∈ f₀.indices key, BitSet.testBit f₀.bits i ∨ SetBy f₀ tr i) := by
  have hf := exact_run hmade hrun
  have hg := exact_run hmade hrun'
  have hset : ∀ i, SetBy f₀ tr i ↔ SetBy f₀ tr' i := by
    intro i
    simp only [SetBy, hkeys]
  have hbits : f.bits = g.bits := by
    refine BitSet.ext (hf.length_eq.trans hg.length_eq.symm) fun i => ?_
    rw [Bool.eq_iff_iff, hf.testBit_iff, hg.testBit_iff, hset]
  have hhashes : f.numHashes = g.numHashes := hf.numHashes_eq.trans hg.numHashes_eq.symm
  have hanswer : ∀ {T : Type} [Hash T] (key : T), f.mayContain key ↔
      ∀ i ∈ f₀.indices key, BitSet.testBit f₀.bits i ∨ SetBy f₀ tr i := by
    intro T _ key
    rw [mayContain_iff hf.wellFormed, hf.indices_eq]
    exact forall₂_congr fun i _ => hf.testBit_iff i
  refine ⟨?_, fun key => ⟨?_, hanswer key⟩⟩
  · rw [toBytes, toBytes, hbits, hhashes]
  · rw [Bool.eq_iff_iff, mayContain_iff hf.wellFormed, mayContain_iff hg.wellFormed, hf.indices_eq,
      hg.indices_eq, hbits]

end Keys

/-! ## Two orders -/

section Sample

attribute [local instance] polyHasher wordHash

/-- Two keys in one order, and in the other order with a repetition. -/
theorem bits_determined_sample :
    (((fromRaw [0, 1] 7).add (5 : UInt64)).add (9 : UInt64)).toBytes =
      ((((fromRaw [0, 1] 7).add (9 : UInt64)).add (5 : UInt64)).add (9 : UInt64)).toBytes := by
  have hrun : Run Step (fromRaw [0, 1] 7) [.add (5 : UInt64), .add (9 : UInt64)]
      (((fromRaw [0, 1] 7).add (5 : UInt64)).add (9 : UInt64)) :=
    (Run.single (.add _ _)).snoc (.add _ _)
  have hrun' : Run Step (fromRaw [0, 1] 7)
      [.add (9 : UInt64), .add (5 : UInt64), .add (9 : UInt64)]
      ((((fromRaw [0, 1] 7).add (9 : UInt64)).add (5 : UInt64)).add (9 : UInt64)) :=
    ((Run.single (.add _ _)).snoc (.add _ _)).snoc (.add _ _)
  refine (bits_determined (.fromRaw [0, 1] 7) hrun hrun' fun key => ?_).1
  simp only [List.mem_cons, List.not_mem_nil, or_false]
  tauto

end Sample

end BloomFilter
end Db
end Aevum
