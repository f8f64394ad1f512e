import Aevum.Lib.BigEndian
import Aevum.P2p.Dht

/-!
# P2p.DhtSearch — `Dht::find_closest`

The search starts at the bucket of the distance between the target and the own identity and walks
outwards, one bucket to the left and one to the right a round, until it has enough living nodes;
then it sorts what it has by the distance to the target.

* `find_spec` : what has been collected when the walk stops, the living nodes of the buckets around
  the first, for the least radius that holds enough of them, or all there are;
* `find_complete` : enough nodes come back, alive, each once and in order.
-/

namespace Aevum
namespace P2p

open Lib

/-- The sort key: four big-endian words. -/
def u256FromBytes (bytes : NodeId) : List UInt64 := beWords 4 bytes.bytes

/-- The keys are ordered like the 256-bit numbers. -/
theorem u256FromBytes_le_iff (a b : NodeId) :
    u256FromBytes a ≤ u256FromBytes b ↔ beNat a.bytes ≤ beNat b.bytes := by
  have hvalue : ∀ id : NodeId, wordDigits.value (u256FromBytes id) = beNat id.bytes :=
    fun id => value_words id.length_eq
  rw [← wordDigits.value_le_iff (by rw [u256FromBytes, u256FromBytes, length_beWords,
    length_beWords]), hvalue, hvalue]

namespace Dht

/-! ## The search -/

/-- A living node was seen less than the timeout ago. -/
def isAlive (now timeoutSecs : UInt64) (n : DhtNode) : Bool :=
  now - n.lastSeen < timeoutSecs

/-- `alive_nodes`. -/
def aliveNodes (dht : Dht) (now timeoutSecs : UInt64) : Nat :=
  (dht.nodes.filter (isAlive now timeoutSecs)).length

/-- `self.buckets[i as usize]`, where the cursor `i` is an `i32`. -/
def bucketAt (dht : Dht) (i : Int) : List DhtNode :=
  if h : i.toNat < kBuckets then dht.buckets ⟨i.toNat, h⟩ else []

/-- The `while` loop. -/
def collect (dht : Dht) (count : Nat) (now timeoutSecs : UInt64) (left right : Int)
    (closest : List DhtNode) : List DhtNode :=
  if h : closest.length < count ∧ (left ≥ 0 ∨ right < kBuckets) then
    let closest :=
      if left ≥ 0 then closest ++ (dht.bucketAt left).filter (isAlive now timeoutSecs)
      else closest
    let closest :=
      if right < kBuckets then closest ++ (dht.bucketAt right).filter (isAlive now timeoutSecs)
      else closest
    dht.collect count now timeoutSecs (if left ≥ 0 then left - 1 else left)
      (if right < kBuckets then right + 1 else right) closest
  else closest
termination_by (left + 1).toNat + (kBuckets - right).toNat
decreasing_by
  -- at least one cursor moves
  have hmove := h.2
  split <;> split <;> omega

def findClosest (dht : Dht) (targetId : NodeId) (count : Nat) (now timeoutSecs : UInt64) :
    List DhtNode :=
  let targetIdx : Int := bucketIndex (distance targetId dht.ourId)
  let closest := dht.collect count now timeoutSecs targetIdx (targetIdx + 1) []
  (sortBy (fun n => u256FromBytes (distance n.nodeId targetId)) closest).take count

/-! ## The buckets visited -/

section Search

variable {dht : Dht} {count : Nat} {now timeoutSecs : UInt64}

variable (dht now timeoutSecs) in
/-- The living nodes of the buckets strictly between two cursors. -/
def window (left right : Int) : List DhtNode :=
  ((List.finRange kBuckets).filter fun i : Bucket => left < i.val ∧ (i.val : Int) < right).flatMap
    fun i => (dht.buckets i).filter (isAlive now timeoutSecs)

/-- Every bucket lies between the outermost cursors. -/
theorem window_all {left right : Int} (hleft : left < 0) (hright : kBuckets ≤ right) :
    dht.window now timeoutSecs left right = dht.nodes.filter (isAlive now timeoutSecs) := by
  have hall : ((List.finRange kBuckets).filter fun i : Bucket =>
      left < i.val ∧ (i.val : Int) < right) = List.finRange kBuckets := by
    refine List.filter_eq_self.2 fun i _ => decide_eq_true ?_
    have hi := i.isLt
    omega
  rw [window, hall, nodes, List.filter_flatMap]

/-- Moving a cursor past one bucket adds its living nodes. -/
theorem window_perm {left right left' right' : Int} (i : Bucket)
    (hi : ¬ (left < i.val ∧ (i.val : Int) < right))
    (hnext : ∀ j : Bucket, (left' < j.val ∧ (j.val : Int) < right') ↔
      j = i ∨ left < j.val ∧ (j.val : Int) < right) :
    (dht.window now timeoutSecs left right ++
      (dht.buckets i).filter (isAlive now timeoutSecs)).Perm
        (dht.window now timeoutSecs left' right') := by
  have hbuckets := filter_perm_cons
    (p := fun j : Bucket => left < j.val ∧ (j.val : Int) < right)
    (q := fun j : Bucket => left' < j.val ∧ (j.val : Int) < right')
    (List.nodup_finRange kBuckets) (List.mem_finRange i) (decide_eq_false hi)
    (fun j _ => by simpa using hnext j)
  exact List.perm_append_comm.trans
    (hbuckets.flatMap_right fun j => (dht.buckets j).filter (isAlive now timeoutSecs)).symm

/-- A cursor to the left of all buckets may move on. -/
theorem window_congr {left right left' right' : Int}
    (h : ∀ j : Bucket, (left' < j.val ∧ (j.val : Int) < right') ↔
      left < j.val ∧ (j.val : Int) < right) :
    dht.window now timeoutSecs left' right' = dht.window now timeoutSecs left right := by
  have hfilter : ((List.finRange kBuckets).filter fun j : Bucket =>
      left' < j.val ∧ (j.val : Int) < right') = (List.finRange kBuckets).filter fun j : Bucket =>
        left < j.val ∧ (j.val : Int) < right :=
    List.filter_congr fun j _ => decide_eq_decide.2 (h j)
  rw [window, window, hfilter]

/-- The left half of a round; `left` is the next bucket to the left, cut off at `-1`. -/
theorem perm_left {left next right : Int} {closest : List DhtNode}
    (hperm : closest.Perm (dht.window now timeoutSecs next right)) (hclip : left = max (-1) next)
    (hlt : next < right) (hbound : next < kBuckets) :
    (if left ≥ 0 then closest ++ (dht.bucketAt left).filter (isAlive now timeoutSecs)
      else closest).Perm (dht.window now timeoutSecs (next - 1) right) := by
  split
  · next hpos =>
      have hsame : left = next := by omega
      subst hsame
      have hlow : left.toNat < kBuckets := by omega
      rw [bucketAt, dif_pos hlow]
      refine (hperm.append_right _).trans
        (window_perm ⟨left.toNat, hlow⟩ (by simp only; omega) fun j => ?_)
      have hval : j = ⟨left.toNat, hlow⟩ ↔ j.val = left.toNat := Fin.ext_iff
      rw [hval]
      omega
  · next hneg =>
      -- there is no bucket to the left
      rwa [window_congr fun j => (by omega : next - 1 < j.val ∧ (j.val : Int) < right ↔
        next < j.val ∧ (j.val : Int) < right)]

/-- The right half of a round. -/
theorem perm_right {left next right : Int} {closest : List DhtNode}
    (hperm : closest.Perm (dht.window now timeoutSecs left next))
    (hclip : right = min (kBuckets : Int) next) (hlt : left < next) (hpos : 0 ≤ next) :
    (if right < kBuckets then closest ++ (dht.bucketAt right).filter (isAlive now timeoutSecs)
      else closest).Perm (dht.window now timeoutSecs left (next + 1)) := by
  split
  · next hbound =>
      have hsame : right = next := by omega
      subst hsame
      have hhigh : right.toNat < kBuckets := by omega
      rw [bucketAt, dif_pos hhigh]
      refine (hperm.append_right _).trans
        (window_perm ⟨right.toNat, hhigh⟩ (by simp only; omega) fun j => ?_)
      have hval : j = ⟨right.toNat, hhigh⟩ ↔ j.val = right.toNat := Fin.ext_iff
      rw [hval]
      omega
  · next hend =>
      -- there is no bucket to the right
      rwa [window_congr fun j => (by omega : left < j.val ∧ (j.val : Int) < next + 1 ↔
        left < j.val ∧ (j.val : Int) < next)]

variable (dht now timeoutSecs) in
/-- The living nodes of the buckets that `radius` rounds visit around the bucket `idx`. -/
def reach (idx : Int) (radius : Nat) : List DhtNode :=
  dht.window now timeoutSecs (idx - radius) (idx + 1 + radius)

/-- Where the walk stops: at the least radius that holds enough living nodes, or with all of
them. -/
structure Stops (dht : Dht) (now timeoutSecs : UInt64) (count : Nat) (idx : Int) (radius : Nat) :
    Prop where
  least : ∀ r < radius, (dht.reach now timeoutSecs idx r).length < count
  enough : count ≤ (dht.reach now timeoutSecs idx radius).length ∨
    dht.reach now timeoutSecs idx radius = dht.nodes.filter (isAlive now timeoutSecs)

theorem collect_spec {idx left right : Int} {closest : List DhtNode} (radius : Nat)
    (hidx : 0 ≤ idx ∧ idx < kBuckets) (hleft : left = max (-1) (idx - radius))
    (hright : right = min (kBuckets : Int) (idx + 1 + radius))
    (hperm : closest.Perm (dht.reach now timeoutSecs idx radius))
    (hless : ∀ r < radius, (dht.reach now timeoutSecs idx r).length < count) :
    ∃ r, Stops dht now timeoutSecs count idx r ∧
      (dht.collect count now timeoutSecs left right closest).Perm
        (dht.reach now timeoutSecs idx r) := by
  fun_induction collect dht count now timeoutSecs left right closest generalizing radius with
  | case1 left right closest h closestL closestR ih =>
      -- one round widens the radius by one
      have hboth := perm_right (perm_left hperm hleft (by omega) (by omega)) hright (by omega)
        (by omega)
      have hreach : dht.reach now timeoutSecs idx (radius + 1) =
          dht.window now timeoutSecs (idx - radius - 1) (idx + 1 + radius + 1) :=
        window_congr fun j => by omega
      refine ih (radius + 1) ?_ ?_ ?_ ?_
      · split <;> omega
      · split <;> omega
      · rw [hreach]
        exact hboth
      · intro r hr
        rcases Nat.lt_succ_iff_lt_or_eq.1 hr with hlt | rfl
        · exact hless r hlt
        · rw [← hperm.length_eq]
          exact h.1
  | case2 left right closest h =>
      refine ⟨radius, ⟨hless, ?_⟩, hperm⟩
      rw [not_and_or, not_or] at h
      rcases h with henough | hall
      · left
        rw [← hperm.length_eq]
        exact Nat.le_of_not_lt henough
      · right
        exact window_all (by omega) (by omega)

theorem reach_zero (idx : Int) : dht.reach now timeoutSecs idx 0 = [] := by
  have hnone : ((List.finRange kBuckets).filter fun j : Bucket =>
      idx - (0 : Nat) < j.val ∧ (j.val : Int) < idx + 1 + (0 : Nat)) = [] := by
    refine List.filter_eq_nil_iff.2 fun j _ => ?_
    rw [decide_eq_true_iff]
    omega
  rw [reach, window, hnone, List.flatMap_nil]

variable (dht now timeoutSecs) in
theorem reach_sublist (idx : Int) (radius : Nat) :
    (dht.reach now timeoutSecs idx radius).Sublist
      (dht.nodes.filter (isAlive now timeoutSecs)) := by
  rw [reach, window, nodes, List.filter_flatMap]
  exact List.filter_sublist.flatMap _

/-- The bucket at which the search for a target starts. -/
def targetBucket (dht : Dht) (targetId : NodeId) : Int := bucketIndex (distance targetId dht.ourId)

/-- The distance between a node and a target as a number. -/
def xorDistance (targetId : NodeId) (n : DhtNode) : ℕ := beNat (distance n.nodeId targetId).bytes

/-- What `find_closest` returns: the first of the nodes collected, by distance. -/
theorem find_spec (dht : Dht) (targetId : NodeId) (count : Nat) (now timeoutSecs : UInt64) :
    ∃ (radius : Nat) (closest : List DhtNode),
      Stops dht now timeoutSecs count (dht.targetBucket targetId) radius ∧
      closest.Perm (dht.reach now timeoutSecs (dht.targetBucket targetId) radius) ∧
      closest.Pairwise (fun a b => xorDistance targetId a ≤ xorDistance targetId b) ∧
      dht.findClosest targetId count now timeoutSecs = closest.take count := by
  have hlt := bucketIndex_lt (distance targetId dht.ourId)
  have hbucket : 0 ≤ dht.targetBucket targetId ∧ dht.targetBucket targetId < kBuckets := by
    rw [targetBucket]
    omega
  have hempty : ([] : List DhtNode).Perm
      (dht.reach now timeoutSecs (dht.targetBucket targetId) 0) := by rw [reach_zero]
  have hleft : dht.targetBucket targetId = max (-1) (dht.targetBucket targetId - (0 : Nat)) := by
    omega
  have hright : dht.targetBucket targetId + 1 =
      min (kBuckets : Int) (dht.targetBucket targetId + 1 + (0 : Nat)) := by omega
  have hless : ∀ r < 0,
      (dht.reach now timeoutSecs (dht.targetBucket targetId) r).length < count :=
    fun r hr => (Nat.not_lt_zero r hr).elim
  rcases collect_spec 0 hbucket hleft hright hempty hless with ⟨radius, hstops, hperm⟩
  have hsorted := pairwise_sortBy (fun n : DhtNode => u256FromBytes (distance n.nodeId targetId))
    (dht.collect count now timeoutSecs (dht.targetBucket targetId) (dht.targetBucket targetId + 1)
      [])
  exact ⟨radius, _, hstops, (sortBy_perm _ _).trans hperm,
    hsorted.imp fun hle => (u256FromBytes_le_iff _ _).1 hle, rfl⟩

end Search

/-! ## Completeness -/

/-- On every reachable table, `find_closest` returns as many living nodes as are asked for or as
there are, each identity once, in the order of their distance to the target. -/
theorem find_complete {ourId : NodeId} {tr : List Call} {dht : Dht}
    (hrun : Run Step (new ourId) tr dht) (targetId : NodeId) (count : Nat)
    (now timeoutSecs : UInt64) :
    (dht.findClosest targetId count now timeoutSecs).length =
        min count (dht.aliveNodes now timeoutSecs) ∧
      (∀ n ∈ dht.findClosest targetId count now timeoutSecs,
        n ∈ dht.nodes ∧ isAlive now timeoutSecs n = true) ∧
      ((dht.findClosest targetId count now timeoutSecs).map DhtNode.nodeId).Nodup ∧
      (dht.findClosest targetId count now timeoutSecs).Pairwise
        fun a b => xorDistance targetId a ≤ xorDistance targetId b := by
  rcases find_spec dht targetId count now timeoutSecs with
    ⟨radius, closest, hstops, hperm, hsorted, hfind⟩
  have hreach := reach_sublist dht now timeoutSecs (dht.targetBucket targetId) radius
  rw [hfind]
  refine ⟨?_, fun n hn => ?_, ?_, hsorted.sublist (List.take_sublist _ _)⟩
  · have hle := hreach.length_le
    rw [List.length_take, hperm.length_eq, aliveNodes]
    rcases hstops.enough with henough | hall
    · omega
    · rw [hall]
  · have hmem := hreach.subset (hperm.subset (List.mem_of_mem_take hn))
    exact List.mem_filter.1 hmem
  · have hdistinct : ((dht.nodes.filter (isAlive now timeoutSecs)).map DhtNode.nodeId).Nodup :=
      (valid_run hrun).nodup_nodes.sublist (List.filter_sublist.map DhtNode.nodeId)
    have hnodup := (hperm.map DhtNode.nodeId).nodup_iff.2
      (hdistinct.sublist (hreach.map DhtNode.nodeId))
    exact hnodup.sublist ((List.take_sublist _ _).map DhtNode.nodeId)

/-- A node with the identity zero that knows two others. -/
def sampleTable : Dht :=
  ((new (sampleId 0)).addOrUpdate (sampleId 0x40) (.v4 (ByteArr.fill 4 127) 9733) 1000).addOrUpdate
    (sampleId 0x08) (.v4 (ByteArr.fill 4 127) 9733) 1000

theorem run_sampleTable :
    Run Step (new (sampleId 0))
      [.addOrUpdate (sampleId 0x40) (.v4 (ByteArr.fill 4 127) 9733) 1000,
        .addOrUpdate (sampleId 0x08) (.v4 (ByteArr.fill 4 127) 9733) 1000] sampleTable :=
  (Run.single (.addOrUpdate _ _ _ _)).snoc (.addOrUpdate _ _ _ _)

/-- Both nodes are found, the closer one first. -/
theorem find_complete_sample :
    (sampleTable.findClosest (sampleId 0x20) 5 2000 3600).length =
        min 5 (sampleTable.aliveNodes 2000 3600) ∧
      (sampleTable.findClosest (sampleId 0x20) 5 2000 3600).map DhtNode.nodeId =
        [sampleId 0x08, sampleId 0x40] :=
  ⟨(find_complete run_sampleTable (sampleId 0x20) 5 2000 3600).1, by decide +kernel⟩

end Dht
end P2p
end Aevum
