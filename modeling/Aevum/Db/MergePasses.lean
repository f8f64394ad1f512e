import Aevum.Db.MergeSorted
import Aevum.Lib.Lists

/-!
# Db.MergePasses — merging in several passes

A merging iterator of `merge.rs` is an iterator again, so files can be merged in one pass or in
several, some of them first and their merge with others later.  For sorted inputs the passes make
no difference: keys and sequence numbers come out in one order, and so do the entries if no version
of a key is there twice.  Which of two entries with one version comes first is left to the passes,
as the indices of the iterators decide it.
-/

namespace Aevum
namespace Db

open Lib

variable {MemValue : Type}

/-! ## Versions -/

/-- What the order of a merge is about: a key and a sequence number. -/
def version (kv : Key × MemEntry MemValue) : Key × UInt64 := (kv.1, kv.2.seq)

/-- Smaller keys first, and newer versions of one key first. -/
def VersionLE (v w : Key × UInt64) : Prop :=
  v.1 < w.1 ∨ v.1 = w.1 ∧ w.2 ≤ v.2

instance (v w : Key × UInt64) : Decidable (VersionLE v w) :=
  inferInstanceAs (Decidable (_ ∨ _))

namespace VersionLE

variable {u v w : Key × UInt64}

theorem trans (huv : VersionLE u v) (hvw : VersionLE v w) : VersionLE u w := by
  rcases huv with huv | ⟨hkuv, huv⟩
  · rcases hvw with hvw | ⟨hkvw, -⟩
    · exact Or.inl (List.lt_trans huv hvw)
    · exact Or.inl (hkvw ▸ huv)
  · rcases hvw with hvw | ⟨hkvw, hvw⟩
    · exact Or.inl (hkuv ▸ hvw)
    · exact Or.inr ⟨hkuv.trans hkvw, UInt64.le_trans hvw huv⟩

theorem antisymm (hvw : VersionLE v w) (hwv : VersionLE w v) : v = w := by
  rcases hvw with hvw | ⟨hkey, hvw⟩
  · rcases hwv with hwv | ⟨hkey, -⟩
    · exact (List.lt_asymm hvw hwv).elim
    · exact (List.lt_irrefl v.1 (hkey ▸ hvw)).elim
  · rcases hwv with hwv | ⟨-, hwv⟩
    · exact (List.lt_irrefl v.1 (hkey ▸ hwv)).elim
    · exact Prod.ext hkey (UInt64.le_antisymm hwv hvw)

theorem key_le (h : VersionLE v w) : v.1 ≤ w.1 := by
  rcases h with hlt | ⟨heq, -⟩
  · exact List.le_of_lt hlt
  · exact heq ▸ List.le_refl v.1

end VersionLE

/-- The order of an input, or of the output of a merge. -/
abbrev Ordered (l : List (Key × MemEntry MemValue)) : Prop :=
  l.Pairwise fun a b => VersionLE (version a) (version b)

/-- What the merge yields for an entry, without the iterator it came from. -/
def HeapEntry.entry {n : Nat} (e : HeapEntry MemValue n) : Key × MemEntry MemValue :=
  (e.key, { seq := e.seq, value := e.value })

theorem HeapEntry.Before.versionLE {n : Nat} {a b : HeapEntry MemValue n}
    (h : HeapEntry.Before a b) : VersionLE (version a.entry) (version b.entry) := by
  rcases h with hkey | ⟨hkey, hseq | ⟨hseq, -⟩⟩
  · exact Or.inl hkey
  · exact Or.inr ⟨hkey, UInt64.le_of_lt hseq⟩
  · exact Or.inr ⟨hkey, UInt64.le_of_eq hseq.symm⟩

/-! ## One pass -/

namespace MergingIterator

/-- Ordered inputs may hold versions twice, their merge is ordered all the same. -/
theorem drain_ordered {n : Nat} (pq : BinaryHeap (@HeapEntry.cmp MemValue n))
    (inputs : Fin n → List (Key × MemEntry MemValue)) (hordered : ∀ i, Ordered (inputs i)) :
    ∃ out, drain pq (new fun i => (inputs i).map .ok) = out.map .ok ∧
      out.Perm ((List.finRange n).flatMap inputs) ∧ Ordered out := by
  have hkeys : ∀ i, (readable i ((inputs i).map .ok)).Pairwise fun a b => a.key ≤ b.key := by
    intro i
    rw [readable_map_ok, List.pairwise_map]
    exact (hordered i).imp VersionLE.key_le
  rcases drain_new_merges pq (fun i => (inputs i).map .ok) hkeys with ⟨out, hdrain, hmerges⟩
  simp only [readable_map_ok] at hmerges
  have hversions : Merges
      (fun a b : HeapEntry MemValue n => VersionLE (version a.entry) (version b.entry))
      (fun i => (inputs i).map (HeapEntry.of i)) out :=
    hmerges.mono fun _ _ => HeapEntry.Before.versionLE
  refine ⟨out.map HeapEntry.entry, ?_, ?_, ?_⟩
  · rw [hdrain, List.map_map]
    rfl
  · have hperm := hmerges.perm_flatMap.map HeapEntry.entry
    rw [List.map_flatMap] at hperm
    -- an entry of the heap is the input's entry again
    simpa only [List.map_map, Function.comp_def, HeapEntry.entry, HeapEntry.of, List.map_id']
      using hperm
  · rw [Ordered, List.pairwise_map]
    refine hversions.pairwise (fun _ _ _ => VersionLE.trans) fun i => ?_
    rw [List.pairwise_map]
    exact hordered i

end MergingIterator

/-! ## Plans -/

/-- In which passes files are merged. -/
inductive MergePlan (MemValue : Type)
  | input (file : List (Key × MemEntry MemValue))
  | merge (n : Nat) (parts : Fin n → MergePlan MemValue)

namespace MergePlan

/-- All entries of all files. -/
def entries : MergePlan MemValue → List (Key × MemEntry MemValue)
  | input file => file
  | merge n parts => (List.finRange n).flatMap fun i => entries (parts i)

/-- All files are ordered. -/
def Sorted : MergePlan MemValue → Prop
  | input file => Ordered file
  | merge _ parts => ∀ i, Sorted (parts i)

/-- What the last merging iterator yields, with any implementation of the heap. -/
def output (pq : ∀ n, BinaryHeap (@HeapEntry.cmp MemValue n)) :
    MergePlan MemValue → List (Item MemValue)
  | input file => file.map .ok
  | merge n parts => (MergingIterator.new fun i => output pq (parts i)).drain (pq n)

variable {p q : MergePlan MemValue}

/-- The passes yield all entries in order, and no error. -/
theorem output_ordered (pq : ∀ n, BinaryHeap (@HeapEntry.cmp MemValue n)) (h : p.Sorted) :
    ∃ out, p.output pq = out.map .ok ∧ out.Perm p.entries ∧ Ordered out := by
  induction p with
  | input file => exact ⟨file, rfl, List.Perm.refl file, h⟩
  | merge n parts ih =>
      have hparts : ∀ i, ∃ out, (parts i).output pq = out.map .ok ∧
          out.Perm (parts i).entries ∧ Ordered out := fun i => ih i (h i)
      choose outs hout hperm hordered using hparts
      rcases MergingIterator.drain_ordered (pq n) outs hordered with ⟨out, hdrain, hall, hsorted⟩
      refine ⟨out, ?_, ?_, hsorted⟩
      · rw [output, funext hout]
        exact hdrain
      · apply hall.trans
        exact List.Perm.flatMap_left _ fun i _ => hperm i

/-- Two plans for the same entries yield the same versions in the same order, and the same entries
if there is one for each version. -/
theorem output_unique (pq pq' : ∀ n, BinaryHeap (@HeapEntry.cmp MemValue n))
    (hp : p.Sorted) (hq : q.Sorted) (hperm : p.entries.Perm q.entries) :
    ∃ out out', p.output pq = out.map .ok ∧ q.output pq' = out'.map .ok ∧
      out.Perm p.entries ∧ Ordered out ∧ out.map version = out'.map version ∧
      ((p.entries.map version).Nodup → out = out') := by
  rcases output_ordered pq hp with ⟨out, hout, hpermp, hordered⟩
  rcases output_ordered pq' hq with ⟨out', hout', hpermq, hordered'⟩
  have hall : out.Perm out' := hpermp.trans (hperm.trans hpermq.symm)
  have hversions : out.map version = out'.map version := by
    have hanti : ∀ v w, v ∈ out.map version → w ∈ out'.map version →
        VersionLE v w → VersionLE w v → v = w := fun _ _ _ _ => VersionLE.antisymm
    apply List.Perm.eq_of_pairwise hanti
    · exact List.pairwise_map.2 hordered
    · exact List.pairwise_map.2 hordered'
    · exact hall.map version
  refine ⟨out, out', hout, hout', hpermp, hordered, hversions, fun hnodup => ?_⟩
  have hinj : Set.InjOn version {kv | kv ∈ out} := fun a ha b hb =>
    List.inj_on_of_nodup_map ((hpermp.map version).nodup_iff.2 hnodup) ha hb
  exact eq_of_map_eq_of_injOn hinj (fun _ => id) (fun _ => hall.mem_iff.2) hversions

/-! ## Two passes and one -/

/-- Three files. -/
def sampleFiles : Fin 3 → List (Key × MemEntry Unit) :=
  ![[([1], ⟨7, ()⟩), ([2], ⟨5, ()⟩)], [([1], ⟨4, ()⟩)], [([0], ⟨1, ()⟩), ([1], ⟨6, ()⟩)]]

/-- The last two files are merged first. -/
def sampleTwoPasses : MergePlan Unit :=
  .merge 2 ![.input (sampleFiles 0), .merge 2 ![.input (sampleFiles 1), .input (sampleFiles 2)]]

def sampleOnePass : MergePlan Unit := .merge 3 fun i => .input (sampleFiles i)

theorem output_unique_sample :
    sampleTwoPasses.output (fun _ => BinaryHeap.scan HeapEntry.cmp) =
      sampleOnePass.output (fun _ => BinaryHeap.scan HeapEntry.cmp) := by
  have hfiles : ∀ i, Ordered (sampleFiles i) := by decide +kernel
  have hlast : (merge 2 ![input (sampleFiles 1), input (sampleFiles 2)]).Sorted
    | 0 => hfiles 1
    | 1 => hfiles 2
  have htwo : sampleTwoPasses.Sorted
    | 0 => hfiles 0
    | 1 => hlast
  have hone : sampleOnePass.Sorted := hfiles
  rcases output_unique (fun _ => BinaryHeap.scan HeapEntry.cmp)
    (fun _ => BinaryHeap.scan HeapEntry.cmp) htwo hone (by decide +kernel) with
    ⟨out, out', hout, hout', -, -, -, hunique⟩
  rw [hout, hout', hunique (by decide +kernel)]

end MergePlan

end Db
end Aevum
