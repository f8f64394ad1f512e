import Aevum.Core.DnaRange
import Aevum.Lib.Run
import Aevum.Lib.SplitTree

/-!
# Core.DnaTree — all ranges that come from one root

A root is made by `new_genesis` or `new_epoch`.  From then on every step is a successful `split` of
a leaf, which becomes an inner node, or a `bridge_to_l2`, which changes a leaf in place.

* `Inv` : every node carries the data of the root and its own id and proof, and every inner node is
  linked to its two children and halved by them;
* `inv_of_run` : the invariant holds after every run;
* `supply_conserved` : the leaves tile the interval of the root.
-/

namespace Aevum
namespace Core
namespace DnaRange

open Lib Crypto SplitTree

/-! ## Links -/

/-- What a child records of its parent. -/
structure Link (p c : DnaRange) : Prop where
  parentRangeId : c.parentRangeId = some p.rangeId
  rootId : c.rootId = p.rootId
  transferCount : c.transferCount = p.transferCount + 1

structure Edge (p a b : DnaRange) : Prop where
  halves : Halves (fun r : DnaRange => r.start.toNat) (fun r => r.end_.toNat) p a b
  left : Link p a
  right : Link p b

/-- `b` is `a`, but for what a bridge changes. -/
structure SameRange (a b : DnaRange) : Prop where
  rangeId : b.rangeId = a.rangeId
  rootId : b.rootId = a.rootId
  parentRangeId : b.parentRangeId = a.parentRangeId
  transferCount : b.transferCount = a.transferCount
  start : b.start = a.start
  end_ : b.end_ = a.end_

theorem SameRange.refl (a : DnaRange) : SameRange a a := ⟨rfl, rfl, rfl, rfl, rfl, rfl⟩

theorem SameRange.trans {a b c : DnaRange} (hab : SameRange a b) (hbc : SameRange b c) :
    SameRange a c where
  rangeId := hbc.rangeId.trans hab.rangeId
  rootId := hbc.rootId.trans hab.rootId
  parentRangeId := hbc.parentRangeId.trans hab.parentRangeId
  transferCount := hbc.transferCount.trans hab.transferCount
  start := hbc.start.trans hab.start
  end_ := hbc.end_.trans hab.end_

theorem SameRange.link {p a b : DnaRange} (h : SameRange a b) (hlink : Link p a) : Link p b where
  parentRangeId := h.parentRangeId.trans hlink.parentRangeId
  rootId := h.rootId.trans hlink.rootId
  transferCount := h.transferCount.trans hlink.transferCount

/-- No edge mentions what a bridge changes of a child. -/
theorem exchangeable : Exchangeable Edge SameRange where
  refl := SameRange.refl
  left := by
    intro p a b s hsame hedge
    have hhalves := hedge.halves.congr_left (congrArg UInt64.toNat hsame.start)
      (congrArg UInt64.toNat hsame.end_)
    exact ⟨hhalves, hsame.link hedge.left, hedge.right⟩
  right := by
    intro p a b s hsame hedge
    have hhalves := hedge.halves.congr_right (congrArg UInt64.toNat hsame.start)
      (congrArg UInt64.toNat hsame.end_)
    exact ⟨hhalves, hedge.left, hsame.link hedge.right⟩

/-- Below depth `2 ^ 32` the counters of children are one more than those of their parents. -/
theorem transferCount_succ {t : SplitTree DnaRange} (ht : t.Built Edge)
    (hlt : t.value.transferCount.toNat + t.depth < 2 ^ 32) :
    ∀ p c, t.IsChild p c → c.transferCount.toNat = p.transferCount.toNat + 1 := by
  induction t with
  | leaf a =>
      intro p c h
      cases h
  | node a l r ihl ihr =>
      rcases ht with ⟨hedge, hl, hr⟩
      -- there is room for one more transfer above each subtree
      simp only [value, depth] at hlt
      have hsucc : (a.transferCount + 1).toNat = a.transferCount.toNat + 1 := by
        rw [UInt32.toNat_add, UInt32.toNat_one]
        omega
      have hleft : l.value.transferCount.toNat = a.transferCount.toNat + 1 := by
        rw [hedge.left.transferCount, hsucc]
      have hright : r.value.transferCount.toNat = a.transferCount.toNat + 1 := by
        rw [hedge.right.transferCount, hsucc]
      intro p c h
      rcases h with ⟨rfl, rfl | rfl⟩ | h | h
      · exact hleft
      · exact hright
      · exact ihl hl (by omega) p c h
      · exact ihr hr (by omega) p c h

/-! ## Steps -/

section Runs

variable [Blake3]

/-- The calls on a range. -/
inductive Op
  | split (point : UInt64) (left right : ByteArr 32) (tx : Hash) (block : UInt64)
  | bridgeToL2 (bridge : Hash)
  deriving DecidableEq

/-- What a call puts in the place of a leaf; nothing if it fails. -/
def Op.apply : Op → DnaRange → Option (SplitTree DnaRange)
  | .split point left right tx block, r =>
      match r.split point left right tx block with
      | .ok (a, b) => some (.node r (.leaf a) (.leaf b))
      | .error _ => none
  | .bridgeToL2 bridge, r => some (.leaf (r.bridgeToL2 bridge))

/-- A call on the leaf at a path. -/
def step (t : SplitTree DnaRange) (l : List Bool × Op) (t' : SplitTree DnaRange) : Prop :=
  replaceLeaf l.2.apply l.1 t = some t'

inductive IsRoot : DnaRange → Prop
  | genesis (rootId : Hash) (owner : ByteArr 32) (height timestamp : UInt64) :
      IsRoot (newGenesis rootId owner height timestamp)
  | epoch (rootId : Hash) (origin : DnaOrigin) (start end_ epoch height timestamp : UInt64)
      (miner owner : ByteArr 32) :
      IsRoot (newEpoch rootId origin start end_ epoch height timestamp miner owner)

theorem newGenesis_supply (rootId : Hash) (owner : ByteArr 32) (height timestamp : UInt64) :
    (newGenesis rootId owner height timestamp).start ≤
        (newGenesis rootId owner height timestamp).end_ ∧
      (newGenesis rootId owner height timestamp).end_ < maxSupply := by
  simp only [newGenesis, withIdAndProof]
  decide

/-! ## The invariant -/

/-- `r` has its own id and proof and the provenance of `root`. -/
structure Descendant (root r : DnaRange) : Prop where
  minted : Minted r
  rootId : r.rootId = root.rootId
  origin : r.origin = root.origin
  miner : r.miner = root.miner
  birthEpoch : r.birthEpoch = root.birthEpoch
  birthHeight : r.birthHeight = root.birthHeight
  birthTimestamp : r.birthTimestamp = root.birthTimestamp

structure Inv (root : DnaRange) (t : SplitTree DnaRange) : Prop where
  descendants : ∀ r ∈ t.nodes, Descendant root r
  built : t.Built Edge
  value : SameRange root t.value

/-! ## What a step does -/

section Steps

variable {root r : DnaRange} {s t t' : SplitTree DnaRange} {op : Op}

theorem apply_split {point : UInt64} (hpoint : r.start < point ∧ point ≤ r.end_)
    (left right : ByteArr 32) (tx : Hash) (block : UInt64) :
    (Op.split point left right tx block).apply r =
      some (.node r (.leaf (r.child r.start (point - 1) left tx block))
        (.leaf (r.child point r.end_ right tx block))) := by
  rw [Op.apply, split_eq_ok.2 ⟨hpoint, rfl⟩]

theorem apply_cases (h : op.apply r = some s) :
    (∃ bridge, op = .bridgeToL2 bridge ∧ s = .leaf (r.bridgeToL2 bridge)) ∨
      ∃ point left right tx block, op = .split point left right tx block ∧
        (r.start < point ∧ point ≤ r.end_) ∧
        s = .node r (.leaf (r.child r.start (point - 1) left tx block))
          (.leaf (r.child point r.end_ right tx block)) := by
  cases op with
  | bridgeToL2 bridge => exact Or.inl ⟨bridge, rfl, (Option.some.inj h).symm⟩
  | split point left right tx block =>
      rw [Op.apply] at h
      cases hsplit : r.split point left right tx block with
      | error e =>
          rw [hsplit] at h
          cases h
      | ok ab =>
          rw [hsplit] at h
          rcases split_eq_ok.1 hsplit with ⟨hpoint, rfl⟩
          exact Or.inr ⟨point, left, right, tx, block, rfl, hpoint, (Option.some.inj h).symm⟩

theorem descendant_bridgeToL2 (h : Descendant root r) (bridge : Hash) :
    Descendant root (r.bridgeToL2 bridge) :=
  ⟨minted_withIdAndProof _, h.rootId, h.origin, h.miner, h.birthEpoch, h.birthHeight,
    h.birthTimestamp⟩

theorem descendant_child (h : Descendant root r) (start end_ : UInt64) (owner : ByteArr 32)
    (tx : Hash) (block : UInt64) : Descendant root (r.child start end_ owner tx block) :=
  ⟨minted_withIdAndProof _, h.rootId, h.origin, h.miner, h.birthEpoch, h.birthHeight,
    h.birthTimestamp⟩

theorem edge_child {point : UInt64} (hpoint : r.start < point ∧ point ≤ r.end_)
    (left right : ByteArr 32) (tx : Hash) (block : UInt64) :
    Edge r (r.child r.start (point - 1) left tx block) (r.child point r.end_ right tx block) := by
  refine ⟨?_, ⟨rfl, rfl, rfl⟩, ⟨rfl, rfl, rfl⟩⟩
  have hlt : r.start.toNat < point.toNat := UInt64.lt_iff_toNat_lt.1 hpoint.1
  have hle : point.toNat ≤ r.end_.toNat := UInt64.le_iff_toNat_le.1 hpoint.2
  have hone : (1 : UInt64) ≤ point := by
    rw [UInt64.le_iff_toNat_le, UInt64.toNat_one]
    omega
  have hpred : (point - 1).toNat = point.toNat - 1 := UInt64.toNat_sub_of_le _ _ hone
  constructor <;> simp only [child, withIdAndProof, hpred] <;> omega

theorem descendant_apply (hr : Descendant root r) (h : op.apply r = some s) :
    ∀ c ∈ s.nodes, Descendant root c := by
  rcases apply_cases h with ⟨bridge, -, rfl⟩ | ⟨point, left, right, tx, block, -, -, rfl⟩
  · intro c hc
    rw [List.mem_singleton.1 hc]
    exact descendant_bridgeToL2 hr bridge
  · intro c hc
    simp only [nodes, List.singleton_append, List.mem_cons, List.not_mem_nil, or_false] at hc
    rcases hc with rfl | rfl | rfl
    · exact hr
    · exact descendant_child hr _ _ _ _ _
    · exact descendant_child hr _ _ _ _ _

theorem built_apply (hr : Minted r) (h : op.apply r = some s) :
    s.Built Edge ∧ SameRange r s.value := by
  rcases apply_cases h with ⟨bridge, -, rfl⟩ | ⟨point, left, right, tx, block, -, hpoint, rfl⟩
  · -- a bridged leaf keeps its id, because the id does not commit to layer and bridge
    exact ⟨trivial, hr.rangeId_bridgeToL2 bridge, rfl, rfl, rfl, rfl, rfl⟩
  · exact ⟨⟨edge_child hpoint left right tx block, trivial, trivial⟩, SameRange.refl r⟩

/-- The invariant is kept. -/
theorem Inv.step {l : List Bool × Op} (h : Inv root t) (hstep : step t l t') : Inv root t' := by
  have hbuilt := built_replaceLeaf exchangeable hstep
    (fun _ _ (hr : Descendant root _) happly => built_apply hr.minted happly)
    h.descendants h.built
  exact
    { descendants := forall_nodes_replaceLeaf hstep (fun _ _ => descendant_apply) h.descendants
      built := hbuilt.1
      value := h.value.trans hbuilt.2 }

theorem IsRoot.minted (h : IsRoot root) : Minted root := by
  cases h <;> exact minted_withIdAndProof _

theorem IsRoot.parentRangeId (h : IsRoot root) : root.parentRangeId = none := by
  cases h <;> rfl

theorem IsRoot.transferCount (h : IsRoot root) : root.transferCount = 0 := by
  cases h <;> rfl

theorem inv_of_run {tr : List (List Bool × Op)} (hroot : IsRoot root)
    (h : Run step (.leaf root) tr t) : Inv root t := by
  refine h.invariant_state (Inv root) ?_ fun _ _ _ _ _ hinv hstep _ => hinv.step hstep
  refine ⟨fun r hr => ?_, trivial, SameRange.refl root⟩
  rw [List.mem_singleton.1 hr]
  exact ⟨hroot.minted, rfl, rfl, rfl, rfl, rfl, rfl⟩

end Steps

/-! ## Conservation -/

/-- What holds of the leaves of a tree grown from `root`, from left to right. -/
structure Conserved (root : DnaRange) (t : SplitTree DnaRange) : Prop where
  nonempty : ∀ r ∈ t.leaves, r.start ≤ r.end_
  disjoint : t.leaves.Pairwise fun a b => a.end_ < b.start
  contiguous : t.leaves.IsChain fun a b => a.end_.toNat + 1 = b.start.toNat
  covers : ∀ s, root.contains s = true ↔ ∃ r ∈ t.leaves, r.contains s = true
  amounts : (t.leaves.map fun r => r.amount.toNat).sum = root.amount.toNat
  verified : ∀ r ∈ t.leaves, r.verify = true
  provenance : ∀ r ∈ t.leaves, Descendant root r
  splits : ∀ r ∈ t.leaves, ∀ point left right tx block,
    ((∃ ab, r.split point left right tx block = .ok ab) ↔ r.start < point ∧ point ≤ r.end_) ∧
      r.split point left right tx block ≠ .error "supply violation"
  /-- No transfer counter has wrapped around. -/
  counted : ∀ p c, t.IsChild p c → c.transferCount.toNat = p.transferCount.toNat + 1

section Conservation

variable {root : DnaRange} {t : SplitTree DnaRange}

/-- From a root on the supply, whatever is split and bridged, the leaves partition the root. -/
theorem supply_conserved {tr : List (List Bool × Op)} (hroot : IsRoot root)
    (hle : root.start ≤ root.end_) (hmax : root.end_ < maxSupply)
    (hrun : Run step (.leaf root) tr t) (hdepth : t.depth < 2 ^ 32) : Conserved root t := by
  have hinv := inv_of_run hroot hrun
  have hhalves := hinv.built.imp fun _ _ _ => Edge.halves
  have hvalue : t.value.start.toNat ≤ t.value.end_.toNat := by
    rw [hinv.value.start, hinv.value.end_]
    exact UInt64.le_iff_toNat_le.1 hle
  -- on naturals the leaves tile the interval; the rest reads this off on words
  have htiles := tiles_leaves hhalves hvalue
  rw [hinv.value.start, hinv.value.end_] at htiles
  have hnonempty : ∀ r ∈ t.leaves, r.start ≤ r.end_ := by
    intro r hr
    exact UInt64.le_iff_toNat_le.2 (htiles.bounds r hr).2.1
  -- the amounts are the lengths, since no leaf reaches beyond the supply
  have hamount : ∀ r ∈ t.leaves, r.amount.toNat = r.end_.toNat - r.start.toNat + 1 := by
    intro r hr
    refine toNat_amount (hnonempty r hr) (UInt64.lt_of_le_of_lt ?_ hmax)
    exact UInt64.le_iff_toNat_le.2 (Nat.le_of_lt_succ (htiles.bounds r hr).2.2)
  have hsum : (t.leaves.map fun r => r.amount.toNat).sum = root.amount.toNat := by
    have hlengths := htiles.sum_length
    rw [List.map_congr_left hamount, toNat_amount hle hmax]
    have hroot := UInt64.le_iff_toNat_le.1 hle
    omega
  have hdescendant : ∀ r ∈ t.leaves, Descendant root r := fun r hr =>
    hinv.descendants r (leaves_subset_nodes t hr)
  exact
    { nonempty := hnonempty
      disjoint := htiles.pairwise.imp UInt64.lt_iff_toNat_lt.2
      contiguous := htiles.isChain
      covers := by
        intro s
        simp only [contains_iff, ← htiles.covers, Nat.lt_succ_iff]
      amounts := hsum
      verified := fun r hr => (hdescendant r hr).minted.verify (hnonempty r hr)
      provenance := hdescendant
      splits := by
        intro r _ point left right tx block
        refine ⟨⟨?_, fun h => ⟨_, split_eq_ok.2 ⟨h, rfl⟩⟩⟩, split_ne_violation⟩
        rintro ⟨ab, hok⟩
        exact (split_eq_ok.1 hok).1
      counted := by
        refine transferCount_succ hinv.built ?_
        rw [hinv.value.transferCount, hroot.transferCount, UInt32.toNat_zero, Nat.zero_add]
        exact hdepth }

end Conservation

end Runs

/-! ## A tree to evaluate -/

section Sample

attribute [local instance] polyBlake3

def sampleRoot : DnaRange :=
  newGenesis (ByteArr.fill 32 1) (ByteArr.fill 32 2) 0 0

def sampleSplit : Op :=
  .split 1000 (ByteArr.fill 32 3) (ByteArr.fill 32 4) (ByteArr.fill 32 9) 1

def sampleLower : DnaRange :=
  sampleRoot.child 0 999 (ByteArr.fill 32 3) (ByteArr.fill 32 9) 1

def sampleUpper : DnaRange :=
  sampleRoot.child 1000 (genesisSupply - 1) (ByteArr.fill 32 4) (ByteArr.fill 32 9) 1

/-- The lower part is bridged and then split again. -/
def sampleBridged : DnaRange := sampleLower.bridgeToL2 (ByteArr.fill 32 8)

def sampleSplitAgain : Op :=
  .split 400 (ByteArr.fill 32 5) (ByteArr.fill 32 6) (ByteArr.fill 32 7) 2

def sampleTree : SplitTree DnaRange :=
  .node sampleRoot
    (.node sampleBridged
      (.leaf (sampleBridged.child 0 399 (ByteArr.fill 32 5) (ByteArr.fill 32 7) 2))
      (.leaf (sampleBridged.child 400 999 (ByteArr.fill 32 6) (ByteArr.fill 32 7) 2)))
    (.leaf sampleUpper)

theorem sample_run :
    Run step (.leaf sampleRoot)
      [([], sampleSplit), ([false], .bridgeToL2 (ByteArr.fill 32 8)), ([false], sampleSplitAgain)]
      sampleTree := by
  have hsplit : step (.leaf sampleRoot) ([], sampleSplit)
      (.node sampleRoot (.leaf sampleLower) (.leaf sampleUpper)) :=
    apply_split (by decide) _ _ _ _
  have hbridge : step (.node sampleRoot (.leaf sampleLower) (.leaf sampleUpper))
      ([false], .bridgeToL2 (ByteArr.fill 32 8))
      (.node sampleRoot (.leaf sampleBridged) (.leaf sampleUpper)) := rfl
  have hagain : step (.node sampleRoot (.leaf sampleBridged) (.leaf sampleUpper))
      ([false], sampleSplitAgain) sampleTree :=
    congrArg (Option.map fun l => node sampleRoot l (leaf sampleUpper))
      (apply_split (r := sampleBridged) (by decide) _ _ _ _)
  exact Run.snoc (Run.snoc (Run.single hsplit) hbridge) hagain

theorem supply_conserved_sample :
    sampleTree.leaves.length = 3 ∧ Conserved sampleRoot sampleTree :=
  ⟨rfl, supply_conserved (IsRoot.genesis _ _ _ _) (newGenesis_supply _ _ _ _).1
    (newGenesis_supply _ _ _ _).2 sample_run (by decide)⟩

end Sample

end DnaRange
end Core
end Aevum
