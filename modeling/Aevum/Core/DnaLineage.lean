import Aevum.Core.DnaTree
import Aevum.Lib.Lists

/-!
# Core.DnaLineage — from every range back to the root

The ids of a tree of ranges name its nodes uniquely, because no two nodes have the same interval
and an id commits to the interval.  A bridge computes the id anew from unchanged data, so the ids
that children hold of their parents stay valid.

* `rangeId_nodup` : the ids are distinct;
* `parentOf_of_isChild` : the parent's id leads from a node to its parent;
* `lineage_of_run` : both, with the way to the root.
-/

namespace Aevum
namespace Core
namespace DnaRange

open Lib Crypto SplitTree

/-- `p` is the range of the tree that the `parent_range_id` of `c` names, and `c` is a proper part
of it. -/
structure ParentOf (t : SplitTree DnaRange) (c p : DnaRange) : Prop where
  mem : p ∈ t.nodes
  parentRangeId : c.parentRangeId = some p.rangeId
  lineage : verifyLineage p c = true
  within : p.start ≤ c.start ∧ c.start ≤ c.end_ ∧ c.end_ ≤ p.end_
  proper : p.start < c.start ∨ c.end_ < p.end_

theorem Link.verifyLineage {p c : DnaRange} (h : Link p c) : verifyLineage p c = true := by
  simp [DnaRange.verifyLineage, h.parentRangeId, h.rootId]

section Runs

variable [Blake3] {root : DnaRange} {t t' : SplitTree DnaRange}

structure Lineage (root : DnaRange) (t : SplitTree DnaRange) : Prop where
  unique : (t.nodes.map rangeId).Nodup
  /-- A bridge leaves every id as it is. -/
  bridged : ∀ path bridge t', step t (path, .bridgeToL2 bridge) t' →
    t'.nodes.map rangeId = t.nodes.map rangeId
  top : t.value.rangeId = root.rangeId ∧ t.value.parentRangeId = none
  reaches : ∀ c ∈ t.nodes, Relation.ReflTransGen (ParentOf t) c t.value

/-- Different nodes have different ids, if the digests of what they are computed from differ. -/
theorem rangeId_nodup (hinv : Inv root t)
    (hinj : Set.InjOn Blake3.digest {bs | bs ∈ t.nodes.map idInput}) :
    (t.nodes.map rangeId).Nodup := by
  have hintervals := intervals_nodup (hinv.built.imp fun _ _ _ => Edge.halves)
  -- equal ids come from equal preimages, and these end with the intervals
  refine (hintervals.of_map _).map_on fun x hx y hy heq => ?_
  refine List.inj_on_of_nodup_map hintervals hx hy ?_
  rw [(hinv.descendants x hx).minted.rangeId, (hinv.descendants y hy).minted.rangeId] at heq
  have hinput : x.idInput = y.idInput :=
    hinj (List.mem_map_of_mem hx) (List.mem_map_of_mem hy) heq
  rcases interval_of_idInput_eq hinput with ⟨hstart, hend⟩
  rw [hstart, hend]

theorem rangeId_bridged (hinv : Inv root t) {path : List Bool} {bridge : Hash}
    (hstep : step t (path, .bridgeToL2 bridge) t') :
    t'.nodes.map rangeId = t.nodes.map rangeId := by
  refine map_nodes_replaceLeaf hstep ?_ hinv.descendants
  intro r s (hr : Descendant root r) happly
  cases happly
  exact congrArg (fun i => [i]) (hr.minted.rangeId_bridgeToL2 bridge)

/-- The left child ends early, the right child starts late. -/
theorem parentOf_of_isChild (hinv : Inv root t) {p c : DnaRange} (h : t.IsChild p c) :
    ParentOf t c p := by
  rcases h.exists_edge hinv.built with ⟨s, hedge | hedge⟩
  · rcases hedge.halves.left_inside with ⟨hstart, hle, hlt⟩
    exact
      { mem := h.parent_mem
        parentRangeId := hedge.left.parentRangeId
        lineage := hedge.left.verifyLineage
        within := ⟨hstart, hle, Nat.le_of_lt hlt⟩
        proper := Or.inr hlt }
  · rcases hedge.halves.right_inside with ⟨hlt, hle, hend⟩
    exact
      { mem := h.parent_mem
        parentRangeId := hedge.right.parentRangeId
        lineage := hedge.right.verifyLineage
        within := ⟨Nat.le_of_lt hlt, hle, hend⟩
        proper := Or.inl hlt }

/-- In a tree grown from a root, every node has an id of its own and leads back to the root. -/
theorem lineage_of_run {tr : List (List Bool × Op)} (hroot : IsRoot root)
    (hrun : Run step (.leaf root) tr t)
    (hinj : Set.InjOn Blake3.digest {bs | bs ∈ t.nodes.map idInput}) : Lineage root t := by
  have hinv := inv_of_run hroot hrun
  exact
    { unique := rangeId_nodup hinv hinj
      bridged := fun _ _ _ hstep => rangeId_bridged hinv hstep
      top := ⟨hinv.value.rangeId, hinv.value.parentRangeId.trans hroot.parentRangeId⟩
      reaches := by
        intro c hc
        exact Relation.ReflTransGen.mono (fun _ _ h => parentOf_of_isChild hinv h) _ _
          (reaches_root t c hc) }

end Runs

/-! ## The sample tree -/

section Sample

attribute [local instance] polyBlake3

theorem lineage_of_run_sample : sampleTree.nodes.length = 5 ∧ Lineage sampleRoot sampleTree := by
  have hinj : Set.InjOn Blake3.digest {bs | bs ∈ sampleTree.nodes.map idInput} :=
    injOn_of_nodup (by decide +kernel)
  exact ⟨rfl, lineage_of_run (IsRoot.genesis _ _ _ _) sample_run hinj⟩

end Sample

end DnaRange
end Core
end Aevum
