import Aevum.P2p.DhtOrder
import Mathlib.Algebra.Order.BigOperators.Group.Finset

/-!
# P2p.DhtNearest — what `Dht::find_closest` leaves out

The walk visits the buckets in the order of their numbers, to the left and to the right of the
target's.  The distances to the target go by the highest bits: of two buckets the one with the
higher bit is nearer to the target when the target's own distance has this bit, and farther when it
has not.  `find_nearest_iff` compares the two orders on the numbers of living nodes in the buckets.
-/

namespace Aevum
namespace P2p

open Lib

namespace Dht

/-! ## Nearest nodes and the buckets visited -/

section Covers

variable (dht : Dht) (targetId : NodeId) (count : Nat) (now timeoutSecs : UInt64)

/-- No living node that the result leaves out is strictly closer to the target than one in it. -/
def Nearest : Prop :=
  ∀ n ∈ dht.nodes, isAlive now timeoutSecs n = true →
    n ∉ dht.findClosest targetId count now timeoutSecs →
      ∀ m ∈ dht.findClosest targetId count now timeoutSecs,
        ¬ xorDistance targetId n < xorDistance targetId m

/-- The least number of rounds around the target's bucket that meet `count` living nodes. -/
structure LeastRadius (radius : Nat) : Prop where
  enough : count ≤ (dht.reach now timeoutSecs (dht.targetBucket targetId) radius).length
  least : ∀ r < radius,
    (dht.reach now timeoutSecs (dht.targetBucket targetId) r).length < count

/-- Against every living node outside the buckets visited, enough of the living nodes in them are at
least as close to the target. -/
def Covers (radius : Nat) : Prop :=
  ∀ n ∈ dht.nodes, isAlive now timeoutSecs n = true →
    n ∉ dht.reach now timeoutSecs (dht.targetBucket targetId) radius →
      count ≤ (dht.reach now timeoutSecs (dht.targetBucket targetId) radius).countP
        fun m => xorDistance targetId m ≤ xorDistance targetId n

variable {dht targetId count now timeoutSecs}

theorem LeastRadius.unique {r r' : Nat} (h : LeastRadius dht targetId count now timeoutSecs r)
    (h' : LeastRadius dht targetId count now timeoutSecs r') : r = r' := by
  rcases Nat.lt_trichotomy r r' with hlt | heq | hgt
  · exact (Nat.not_lt.2 h.enough (h'.least r hlt)).elim
  · exact heq
  · exact (Nat.not_lt.2 h'.enough (h.least r' hgt)).elim

/-- A search that stops with enough nodes leaves out no closer node exactly when the buckets visited
cover the others. -/
theorem nearest_take_iff {radius : Nat} {closest : List DhtNode}
    (hperm : closest.Perm (dht.reach now timeoutSecs (dht.targetBucket targetId) radius))
    (hsorted : closest.Pairwise fun a b => xorDistance targetId a ≤ xorDistance targetId b)
    (hfind : dht.findClosest targetId count now timeoutSecs = closest.take count)
    (henough : count ≤ (dht.reach now timeoutSecs (dht.targetBucket targetId) radius).length) :
    Nearest dht targetId count now timeoutSecs ↔
      Covers dht targetId count now timeoutSecs radius := by
  have hcount : ∀ n, (∀ m ∈ closest.take count, ¬ xorDistance targetId n < xorDistance targetId m) ↔
      count ≤ (dht.reach now timeoutSecs (dht.targetBucket targetId) radius).countP
        fun m => xorDistance targetId m ≤ xorDistance targetId n := by
    intro n
    have hmono : closest.Pairwise fun a b =>
        decide (xorDistance targetId b ≤ xorDistance targetId n) = true →
          decide (xorDistance targetId a ≤ xorDistance targetId n) = true :=
      hsorted.imp fun hle hb => decide_eq_true (hle.trans (of_decide_eq_true hb))
    rw [← hperm.countP_eq, ← forall_take_iff hmono (henough.trans_eq hperm.length_eq.symm)]
    exact forall₂_congr fun m _ => Nat.not_lt.trans decide_eq_true_iff.symm
  rw [Nearest, Covers, hfind]
  refine forall₃_congr fun n hn halive => ?_
  rw [hcount]
  constructor
  · intro h hout
    exact h fun hmem => hout (hperm.subset (List.mem_of_mem_take hmem))
  · intro h hout
    by_cases hmem : n ∈ dht.reach now timeoutSecs (dht.targetBucket targetId) radius
    · -- it was collected and cut off
      exact (hcount n).1 fun m hm =>
        Nat.not_lt.2 (le_of_notMem_take hsorted (hperm.symm.subset hmem) hout hm)
    · exact h hmem

/-- `find_closest` returns nearest nodes exactly when the buckets visited cover the others. -/
theorem nearest_iff_covers (dht : Dht) (targetId : NodeId) (count : Nat)
    (now timeoutSecs : UInt64) :
    Nearest dht targetId count now timeoutSecs ↔
      ∀ radius, LeastRadius dht targetId count now timeoutSecs radius →
        Covers dht targetId count now timeoutSecs radius := by
  rcases find_spec dht targetId count now timeoutSecs with
    ⟨radius, closest, hstops, hperm, hsorted, hfind⟩
  by_cases henough : count ≤ (dht.reach now timeoutSecs (dht.targetBucket targetId) radius).length
  · have hleast : LeastRadius dht targetId count now timeoutSecs radius :=
      ⟨henough, hstops.least⟩
    rw [nearest_take_iff hperm hsorted hfind henough]
    constructor
    · intro h r hr
      rwa [hr.unique hleast]
    · intro h
      exact h radius hleast
  · -- everything alive is returned, and no radius holds enough
    have hall := hstops.enough.resolve_left henough
    have hfew : ∀ r,
        (dht.reach now timeoutSecs (dht.targetBucket targetId) r).length < count := by
      intro r
      have hle := (reach_sublist dht now timeoutSecs (dht.targetBucket targetId) r).length_le
      rw [hall] at henough
      omega
    refine iff_of_true (fun n hn halive hout => ?_) fun r hr => ?_
    · rw [hfind, List.take_of_length_le (by rw [hperm.length_eq]; exact (hfew radius).le)] at hout
      refine (hout (hperm.symm.subset ?_)).elim
      rw [hall]
      exact List.mem_filter.2 ⟨hn, halive⟩
    · exact (Nat.not_lt.2 hr.enough (hfew r)).elim

end Covers

/-! ## Buckets -/

/-- The round of the walk that visits a bucket: the target's bucket and the next one to the right
come first. -/
def visitRound (start i : Nat) : Nat :=
  if i ≤ start then start - i else i - start - 1

/-- The place of the highest bit of all distances in a bucket. -/
def bucketBit (i : Nat) : Nat := 8 * (31 - i / 8) + i % 8

/-- The number of living nodes in a bucket. -/
def living (dht : Dht) (now timeoutSecs : UInt64) (i : Bucket) : Nat :=
  ((dht.buckets i).filter (isAlive now timeoutSecs)).length

/-- The buckets that the walk visits in its first rounds. -/
def visited (start radius : Nat) : Finset Bucket :=
  Finset.univ.filter fun i : Bucket => visitRound start i < radius

/-- The buckets whose nodes are nearer to a target than those of `j`; `d` is the distance between
the target and the own identity. -/
def nearerBuckets (d : Nat) (j : Bucket) : Finset Bucket :=
  Finset.univ.filter fun i : Bucket => NearerBit d (bucketBit i) (bucketBit j)

/-- For every bucket with living nodes: if there are enough living nodes in the buckets visited in
earlier rounds, then there are enough in the buckets that are nearer to the target. -/
def WalksByDistance (dht : Dht) (targetId : NodeId) (count : Nat) (now timeoutSecs : UInt64) :
    Prop :=
  let toTarget := distance targetId dht.ourId
  ∀ j : Bucket, 0 < dht.living now timeoutSecs j →
    count ≤ ∑ i ∈ visited (bucketIndex toTarget) (visitRound (bucketIndex toTarget) j),
      dht.living now timeoutSecs i →
    count ≤ ∑ i ∈ nearerBuckets (beNat toTarget.bytes) j, dht.living now timeoutSecs i

section Buckets

variable {ourId targetId : NodeId} {dht : Dht} {count : Nat} {now timeoutSecs : UInt64}

theorem bucketBit_bucketIndex {d : NodeId} (hd : d ≠ ByteArr.fill 32 0) :
    bucketBit (bucketIndex d) = highestBit d := by
  have hlt := highestBit_lt hd
  rw [bucketBit, bucketIndex_eq hd]
  omega

theorem distance_ne_zero {a b : NodeId} (hne : b ≠ a) : distance a b ≠ ByteArr.fill 32 0 := by
  intro hzero
  have hnat : beNat a.bytes ^^^ beNat b.bytes = 0 := by
    rw [← beNat_zipWith_xor (a.length_eq.trans b.length_eq.symm)]
    exact (congrArg (fun d : NodeId => beNat d.bytes) hzero).trans (by decide)
  have hsame := Nat.xor_eq_zero_iff.1 hnat
  exact hne (ByteArr.ext (beNat_inj (b.length_eq.trans a.length_eq.symm) hsame.symm))

/-- The distance to a target is the difference of two distances from the own identity. -/
theorem xorDistance_eq (targetId ourId : NodeId) (n : DhtNode) :
    xorDistance targetId n =
      beNat (distance ourId n.nodeId).bytes ^^^ beNat (distance targetId ourId).bytes := by
  have hxor : ∀ a b : NodeId, beNat (distance a b).bytes = beNat a.bytes ^^^ beNat b.bytes :=
    fun a b => beNat_zipWith_xor (a.length_eq.trans b.length_eq.symm)
  calc
    xorDistance targetId n = beNat n.nodeId.bytes ^^^ beNat targetId.bytes := hxor _ _
    _ = beNat n.nodeId.bytes ^^^ (beNat ourId.bytes ^^^ beNat ourId.bytes) ^^^
        beNat targetId.bytes := by rw [Nat.xor_self, Nat.xor_zero]
    _ = beNat ourId.bytes ^^^ beNat n.nodeId.bytes ^^^
        (beNat targetId.bytes ^^^ beNat ourId.bytes) := by
      rw [← Nat.xor_assoc, Nat.xor_comm (beNat n.nodeId.bytes), Nat.xor_assoc, Nat.xor_assoc,
        Nat.xor_assoc, Nat.xor_comm (beNat ourId.bytes) (beNat targetId.bytes)]
    _ = beNat (distance ourId n.nodeId).bytes ^^^ beNat (distance targetId ourId).bytes := by
      rw [hxor, hxor]

/-- The highest bit of the distance of a stored node is that of its bucket. -/
theorem Valid.log2_distance (h : Valid ourId dht) {i : Bucket} {n : DhtNode}
    (hn : n ∈ dht.buckets i) :
    Nat.log2 (beNat (distance dht.ourId n.nodeId).bytes) = bucketBit i := by
  rw [h.ourId_eq, ← h.placed i n hn]
  exact (bucketBit_bucketIndex (distance_ne_zero (h.foreign i n hn))).symm

theorem bucketBit_ne {i j : Bucket} (hij : i ≠ j) : bucketBit i ≠ bucketBit j := by
  intro heq
  refine hij (Fin.ext ?_)
  have hi := i.isLt
  have hj := j.isLt
  simp only [bucketBit, kBuckets] at heq hi hj
  omega

/-- Nodes in different buckets compare like their buckets. -/
theorem Valid.xorDistance_lt_iff (h : Valid ourId dht) {i j : Bucket} (hij : i ≠ j) {n m : DhtNode}
    (hn : n ∈ dht.buckets i) (hm : m ∈ dht.buckets j) :
    xorDistance targetId n < xorDistance targetId m ↔
      NearerBit (beNat (distance targetId dht.ourId).bytes) (bucketBit i) (bucketBit j) := by
  rw [xorDistance_eq targetId dht.ourId n, xorDistance_eq targetId dht.ourId m,
    ← h.log2_distance hn, ← h.log2_distance hm]
  refine xor_lt_xor_iff _ ?_
  rw [h.log2_distance hn, h.log2_distance hm]
  exact bucketBit_ne hij

/-- What the walk has visited after some rounds, in terms of the rounds of the buckets. -/
theorem visited_iff (start i radius : Nat) :
    (start : Int) - radius < i ∧ (i : Int) < start + 1 + radius ↔ visitRound start i < radius := by
  rw [visitRound]
  split <;> omega

theorem visited_mono {start r r' : Nat} (hle : r ≤ r') : visited start r ⊆ visited start r' := by
  intro i hi
  have hlt := (Finset.mem_filter.1 hi).2
  exact Finset.mem_filter.2 ⟨Finset.mem_univ i, hlt.trans_le hle⟩

theorem mem_reach {start radius : Nat} {n : DhtNode} :
    n ∈ dht.reach now timeoutSecs start radius ↔
      ∃ i : Bucket, visitRound start i < radius ∧ n ∈ dht.buckets i ∧
        isAlive now timeoutSecs n = true := by
  simp only [reach, window, List.mem_flatMap, List.mem_filter, List.mem_finRange, true_and,
    decide_eq_true_iff, visited_iff]

theorem countP_reach (p : DhtNode → Bool) (start radius : Nat) :
    (dht.reach now timeoutSecs start radius).countP p =
      ∑ i ∈ visited start radius,
        ((dht.buckets i).filter (isAlive now timeoutSecs)).countP p := by
  have hnodup : ((List.finRange kBuckets).filter fun i : Bucket =>
      visitRound start i < radius).Nodup := (List.nodup_finRange kBuckets).filter _
  have hset : ((List.finRange kBuckets).filter fun i : Bucket =>
      visitRound start i < radius).toFinset = visited start radius := by
    ext i
    simp [visited]
  rw [reach, window, List.countP_flatMap, ← hset, List.sum_toFinset _ hnodup]
  simp only [visited_iff]
  rfl

theorem length_reach (start radius : Nat) :
    (dht.reach now timeoutSecs start radius).length =
      ∑ i ∈ visited start radius, dht.living now timeoutSecs i := by
  have hcount := @countP_reach dht now timeoutSecs (fun _ => true) start radius
  simp only [List.countP_true] at hcount
  exact hcount

theorem living_pos {i : Bucket} :
    0 < dht.living now timeoutSecs i ↔
      ∃ n ∈ dht.buckets i, isAlive now timeoutSecs n = true := by
  rw [living, List.length_pos_iff_exists_mem]
  exact exists_congr fun n => List.mem_filter

/-- What is reached and not farther than a node that is not reached lies in nearer buckets. -/
theorem Valid.countP_reach_le (h : Valid ourId dht) {start radius : Nat} {j : Bucket}
    (hj : radius ≤ visitRound start j) {n : DhtNode} (hn : n ∈ dht.buckets j) :
    (dht.reach now timeoutSecs start radius).countP
        (fun m => xorDistance targetId m ≤ xorDistance targetId n) ≤
      ∑ i ∈ nearerBuckets (beNat (distance targetId dht.ourId).bytes) j,
        dht.living now timeoutSecs i := by
  rw [countP_reach]
  calc
    _ ≤ ∑ i ∈ nearerBuckets (beNat (distance targetId dht.ourId).bytes) j,
        ((dht.buckets i).filter (isAlive now timeoutSecs)).countP
          fun m => xorDistance targetId m ≤ xorDistance targetId n := by
      refine Finset.sum_le_sum_of_ne_zero fun i hi hsome => ?_
      rcases List.countP_pos_iff.1 (Nat.pos_of_ne_zero hsome) with ⟨m, hm, hle⟩
      have hmem := (List.mem_filter.1 hm).1
      have hij : i ≠ j := by
        rintro rfl
        exact Nat.not_lt.2 hj (Finset.mem_filter.1 hi).2
      refine Finset.mem_filter.2 ⟨Finset.mem_univ i, ?_⟩
      -- otherwise the node of `j` would be the nearer one
      refine (nearerBit_total _ (bucketBit_ne hij)).resolve_right fun hfar => ?_
      exact Nat.not_lt.2 (of_decide_eq_true hle) ((h.xorDistance_lt_iff hij.symm hn hmem).2 hfar)
    _ ≤ _ := Finset.sum_le_sum fun i _ => List.countP_le_length

/-- When all nodes of the nearer buckets are reached, they count. -/
theorem Valid.le_countP_reach (h : Valid ourId dht) {start radius : Nat} {j : Bucket}
    {n : DhtNode} (hn : n ∈ dht.buckets j)
    (hall : ∀ m ∈ dht.nodes, isAlive now timeoutSecs m = true →
      xorDistance targetId m < xorDistance targetId n →
        m ∈ dht.reach now timeoutSecs start radius) :
    ∑ i ∈ nearerBuckets (beNat (distance targetId dht.ourId).bytes) j,
        dht.living now timeoutSecs i ≤
      (dht.reach now timeoutSecs start radius).countP
        fun m => xorDistance targetId m ≤ xorDistance targetId n := by
  have hnearer : ∀ i ∈ nearerBuckets (beNat (distance targetId dht.ourId).bytes) j,
      ∀ m ∈ dht.buckets i, xorDistance targetId m < xorDistance targetId n := by
    intro i hi m hm
    have hbit := (Finset.mem_filter.1 hi).2
    have hij : i ≠ j := by
      rintro rfl
      exact hbit.ne rfl
    exact (h.xorDistance_lt_iff hij hm hn).2 hbit
  rw [countP_reach]
  calc
    _ = ∑ i ∈ nearerBuckets (beNat (distance targetId dht.ourId).bytes) j,
        ((dht.buckets i).filter (isAlive now timeoutSecs)).countP
          fun m => xorDistance targetId m ≤ xorDistance targetId n := by
      refine Finset.sum_congr rfl fun i hi => ?_
      refine (List.countP_eq_length.2 fun m hm => decide_eq_true ?_).symm
      exact (hnearer i hi m (List.mem_filter.1 hm).1).le
    _ ≤ _ := by
      refine Finset.sum_le_sum_of_ne_zero fun i hi hsome => ?_
      rcases List.countP_pos_iff.1 (Nat.pos_of_ne_zero hsome) with ⟨m, hm, -⟩
      rcases List.mem_filter.1 hm with ⟨hmem, halive⟩
      -- a node of the bucket is reached, so the bucket is visited
      rcases mem_reach.1 (hall m (mem_nodes.2 ⟨i, hmem⟩) halive (hnearer i hi m hmem)) with
        ⟨i', hi', hmem', -⟩
      rw [← h.placed i m hmem, h.placed i' m hmem']
      exact Finset.mem_filter.2 ⟨Finset.mem_univ i', hi'⟩

/-- Some rounds are the least that meet enough living nodes, if any are enough. -/
theorem exists_leastRadius {radius : Nat}
    (henough : count ≤ (dht.reach now timeoutSecs (dht.targetBucket targetId) radius).length) :
    ∃ r ≤ radius, LeastRadius dht targetId count now timeoutSecs r := by
  classical
  have hexists : ∃ r, count ≤ (dht.reach now timeoutSecs (dht.targetBucket targetId) r).length :=
    ⟨radius, henough⟩
  exact ⟨Nat.find hexists, Nat.find_min' hexists henough, Nat.find_spec hexists,
    fun r hr => Nat.lt_of_not_le (Nat.find_min hexists hr)⟩

/-- On a reachable table, `find_closest` returns nearest nodes exactly when for every bucket that
the walk does not need to visit, enough living nodes are in buckets that are nearer to the
target. -/
theorem find_nearest_iff {tr : List Call} (hrun : Run Step (new ourId) tr dht) (targetId : NodeId)
    (count : Nat) (now timeoutSecs : UInt64) :
    Nearest dht targetId count now timeoutSecs ↔
      WalksByDistance dht targetId count now timeoutSecs := by
  have hvalid := valid_run hrun
  rw [nearest_iff_covers]
  constructor
  · intro hcovers j hj hbefore
    rw [← length_reach] at hbefore
    rcases living_pos.1 hj with ⟨n, hn, halive⟩
    rcases exists_leastRadius hbefore with ⟨r, hle, hleast⟩
    -- the walk stops before it gets to this bucket
    have hout : n ∉ dht.reach now timeoutSecs (dht.targetBucket targetId) r := by
      intro hmem
      rcases mem_reach.1 hmem with ⟨i, hi, hmem, -⟩
      rw [← hvalid.placed i n hmem, hvalid.placed j n hn] at hi
      omega
    have hcount := hcovers r hleast n (mem_nodes.2 ⟨j, hn⟩) halive hout
    exact hcount.trans (hvalid.countP_reach_le hle hn)
  · intro hwalk r hleast n hmem halive hout
    -- of the living nodes that are not reached, take one that is nearest to the target
    rcases exists_least_notMem (xorDistance targetId) (List.mem_filter.2 ⟨hmem, halive⟩) hout with
      ⟨m, hm, hout', hmin, hall⟩
    rcases List.mem_filter.1 hm with ⟨hmem', halive'⟩
    rcases mem_nodes.1 hmem' with ⟨j, hj⟩
    -- its bucket is not visited, so the walk has had enough before
    have hround : r ≤ visitRound (bucketIndex (distance targetId dht.ourId)) j :=
      Nat.le_of_not_lt fun hlt => hout' (mem_reach.2 ⟨j, hlt, hj, halive'⟩)
    calc
      count ≤ ∑ i ∈ nearerBuckets (beNat (distance targetId dht.ourId).bytes) j,
          dht.living now timeoutSecs i := by
        refine hwalk j (living_pos.2 ⟨m, hj, halive'⟩) ?_
        refine hleast.enough.trans ?_
        rw [targetBucket, length_reach]
        exact Finset.sum_le_sum_of_subset (visited_mono hround)
      _ ≤ (dht.reach now timeoutSecs (dht.targetBucket targetId) r).countP
          fun m' => xorDistance targetId m' ≤ xorDistance targetId m :=
        hvalid.le_countP_reach hj fun m' hm' halive'' hlt =>
          hall m' (List.mem_filter.2 ⟨hm', halive''⟩) hlt
      _ ≤ (dht.reach now timeoutSecs (dht.targetBucket targetId) r).countP
          fun m' => xorDistance targetId m' ≤ xorDistance targetId n :=
        List.countP_mono_left fun m' _ hle =>
          decide_eq_true ((of_decide_eq_true hle).trans hmin)

end Buckets

section Sample

/-- A target next to the node in bucket 6: the walk stops after one round, and what it has not
visited is farther. -/
theorem find_nearest_sample : Nearest sampleTable (sampleId 0x41) 1 2000 3600 := by
  refine (find_nearest_iff run_sampleTable (sampleId 0x41) 1 2000 3600).2 ?_
  rw [WalksByDistance]
  decide +kernel

/-- The farther of two nodes is found: its bucket lies to the right of the target's and is visited
in the first round, the bucket of the closer one lies two to the left. -/
theorem not_find_nearest :
    ¬ ∀ (ourId : NodeId) (tr : List Call) (dht : Dht), Run Step (new ourId) tr dht →
      ∀ (targetId : NodeId) (count : Nat) (now timeoutSecs : UInt64),
        (∀ n ∈ dht.nodes, n.lastSeen ≤ now) → Nearest dht targetId count now timeoutSecs := by
  intro h
  have hnearest := h _ _ _ run_sampleTable (sampleId 0x20) 1 2000 3600 (by decide +kernel)
  exact hnearest ⟨sampleId 0x08, .v4 (ByteArr.fill 4 127) 9733, 1000⟩ (by decide +kernel)
    (by decide +kernel) (by decide +kernel) ⟨sampleId 0x40, .v4 (ByteArr.fill 4 127) 9733, 1000⟩
    (by decide +kernel) (by decide +kernel)

end Sample

end Dht
end P2p
end Aevum
