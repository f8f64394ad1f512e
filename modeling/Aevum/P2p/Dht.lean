import Aevum.Lib.AgingBucket
import Aevum.Lib.Run
import Aevum.P2p.Address
import Mathlib.Data.List.FinRange
import Mathlib.Logic.Function.Basic

/-!
# P2p.Dht — `dht.rs`

The table of known nodes: 256 buckets by the XOR distance from the own identity, each with at most
`k` nodes.

Times are 64-bit seconds and the age `now - last_seen` wraps, as in a build without overflow
checks; on times that are not before any stored `last_seen` it does not.
-/

namespace Aevum
namespace P2p

open Lib

def kBuckets : Nat := 256

def k : Nat := 8

/-- Bucket numbers. -/
abbrev Bucket := Fin kBuckets

structure DhtNode where
  nodeId : NodeId
  addr : SocketAddr
  lastSeen : UInt64
  deriving DecidableEq

structure Dht where
  buckets : Bucket → List DhtNode
  ourId : NodeId

namespace Dht

/-! ## Distances -/

def distance (a b : NodeId) : NodeId :=
  ⟨List.zipWith (· ^^^ ·) a.bytes b.bytes, by
    rw [List.length_zipWith, a.length_eq, b.length_eq, min_self]⟩

/-- The loop of `bucket_index` from the byte with index `i` on. -/
def bucketLoop (i : Nat) : List UInt8 → Nat
  | [] => 0
  | b :: bytes =>
      if b ≠ 0 then
        let bit := 7 - b.leadingZeros
        min (i * 8 + bit) (kBuckets - 1)
      else bucketLoop (i + 1) bytes

def bucketIndex (distance : NodeId) : Nat :=
  bucketLoop 0 distance.bytes

theorem bucketLoop_lt (i : Nat) (bytes : List UInt8) : bucketLoop i bytes < kBuckets := by
  induction bytes generalizing i with
  | nil => exact (by decide : 0 < kBuckets)
  | cons b bytes ih =>
      rw [bucketLoop]
      split
      · simp only [kBuckets]
        omega
      · exact ih (i + 1)

theorem bucketIndex_lt (distance : NodeId) : bucketIndex distance < kBuckets :=
  bucketLoop_lt 0 distance.bytes

/-- The bucket a node belongs to. -/
def bucketOf (ourId nodeId : NodeId) : Bucket :=
  ⟨bucketIndex (distance ourId nodeId), bucketIndex_lt _⟩

/-! ## The table -/

def new (ourId : NodeId) : Dht :=
  { buckets := fun _ => []
    ourId := ourId }

def addOrUpdate (dht : Dht) (nodeId : NodeId) (addr : SocketAddr) (now : UInt64) : Dht :=
  if nodeId = dht.ourId then dht
  else
    let idx := bucketOf dht.ourId nodeId
    let node : DhtNode :=
      { nodeId := nodeId
        addr := addr
        lastSeen := now }
    -- update in place, push, or put it in the place of the first node by `last_seen`
    { dht with
      buckets := Function.update dht.buckets idx
        (upsert k DhtNode.nodeId DhtNode.lastSeen node (dht.buckets idx)) }

def cleanup (dht : Dht) (now timeoutSecs : UInt64) : Dht :=
  { dht with
    buckets := fun idx => (dht.buckets idx).filter fun n => now - n.lastSeen < timeoutSecs }

/-- All stored nodes, bucket by bucket. -/
def nodes (dht : Dht) : List DhtNode :=
  (List.finRange kBuckets).flatMap dht.buckets

theorem mem_nodes {dht : Dht} {n : DhtNode} : n ∈ dht.nodes ↔ ∃ idx, n ∈ dht.buckets idx := by
  simp [nodes]

/-! ## The invariant -/

/-- What holds of the table of a node with identity `ourId`. -/
structure Valid (ourId : NodeId) (dht : Dht) : Prop where
  ourId_eq : dht.ourId = ourId
  foreign : ∀ idx, ∀ n ∈ dht.buckets idx, n.nodeId ≠ ourId
  placed : ∀ idx, ∀ n ∈ dht.buckets idx, bucketOf ourId n.nodeId = idx
  distinct : ∀ idx, ((dht.buckets idx).map DhtNode.nodeId).Nodup
  bounded : ∀ idx, (dht.buckets idx).length ≤ k

variable {ourId : NodeId} {dht : Dht}

theorem new_valid (ourId : NodeId) : Valid ourId (new ourId) :=
  { ourId_eq := rfl
    foreign := fun _ _ hn => (List.not_mem_nil hn).elim
    placed := fun _ _ hn => (List.not_mem_nil hn).elim
    distinct := fun _ => List.nodup_nil
    bounded := fun _ => Nat.zero_le k }

/-- In different buckets are different identities, so none occurs twice in the whole table. -/
theorem Valid.nodup_nodes (h : Valid ourId dht) : (dht.nodes.map DhtNode.nodeId).Nodup := by
  rw [nodes, List.map_flatMap, List.nodup_flatMap]
  refine ⟨fun idx _ => h.distinct idx, ?_⟩
  refine (List.nodup_finRange kBuckets).imp fun {idx idx'} hne => ?_
  intro id hid hid'
  rcases List.mem_map.1 hid with ⟨n, hn, rfl⟩
  rcases List.mem_map.1 hid' with ⟨n', hn', hsame⟩
  exact hne (by rw [← h.placed idx n hn, ← h.placed idx' n' hn', hsame])

/-- What `add_or_update` does to a table: the node is stored, and every other node stays but for at
most one, an oldest node of the full bucket. -/
structure Added (dht dht' : Dht) (node : DhtNode) : Prop where
  stored : node ∈ dht'.buckets (bucketOf dht.ourId node.nodeId)
  others : ∃ evicted : Option DhtNode,
    (∀ idx n, n.nodeId ≠ node.nodeId →
      (n ∈ dht'.buckets idx ↔ n ∈ dht.buckets idx ∧ evicted ≠ some n)) ∧
    ∀ old, evicted = some old →
      old ∈ dht.buckets (bucketOf dht.ourId node.nodeId) ∧
        (dht.buckets (bucketOf dht.ourId node.nodeId)).length = k ∧
        ∀ n ∈ dht.buckets (bucketOf dht.ourId node.nodeId), old.lastSeen ≤ n.lastSeen

section AddOrUpdate

variable {nodeId : NodeId} {addr : SocketAddr} {now : UInt64}

theorem buckets_addOrUpdate (addr : SocketAddr) (now : UInt64) (hforeign : nodeId ≠ dht.ourId)
    (idx : Bucket) :
    (dht.addOrUpdate nodeId addr now).buckets idx =
      if idx = bucketOf dht.ourId nodeId then
        upsert k DhtNode.nodeId DhtNode.lastSeen ⟨nodeId, addr, now⟩ (dht.buckets idx)
      else dht.buckets idx := by
  rw [addOrUpdate, if_neg hforeign]
  by_cases h : idx = bucketOf dht.ourId nodeId
  · rw [if_pos h, h]
    exact Function.update_self _ _ _
  · rw [if_neg h]
    exact Function.update_of_ne h _ _

theorem Valid.added (h : Valid ourId dht) (hforeign : nodeId ≠ ourId) :
    Added dht (dht.addOrUpdate nodeId addr now) ⟨nodeId, addr, now⟩ := by
  have hk : 0 < k := by decide
  have hne : nodeId ≠ dht.ourId := h.ourId_eq ▸ hforeign
  have hbuckets := buckets_addOrUpdate addr now hne
  refine { stored := ?_, others := ?_ }
  · rw [hbuckets, if_pos rfl]
    exact mem_upsert_self hk
  · rcases mem_upsert_of_ne DhtNode.lastSeen ⟨nodeId, addr, now⟩ hk
      (h.distinct (bucketOf dht.ourId nodeId)) with ⟨evicted, hothers, hold⟩
    refine ⟨evicted, fun idx n hn => ?_, fun old heq => ?_⟩
    · rw [hbuckets]
      split
      · next hidx =>
          rw [hidx]
          exact hothers n hn
      · next hidx =>
          -- the evicted node is not in this bucket
          refine ⟨fun hmem => ⟨hmem, fun heq => hidx ?_⟩, And.left⟩
          have hplaced := h.placed _ n (hold n heq).1
          exact (h.placed idx n hmem).symm.trans hplaced
    · rcases hold old heq with ⟨hmem, hfull, -, holdest⟩
      exact ⟨hmem, le_antisymm (h.bounded _) hfull, holdest⟩

theorem Valid.addOrUpdate (h : Valid ourId dht) (nodeId : NodeId) (addr : SocketAddr)
    (now : UInt64) : Valid ourId (dht.addOrUpdate nodeId addr now) := by
  by_cases hforeign : nodeId = ourId
  · rw [Dht.addOrUpdate, if_pos (h.ourId_eq ▸ hforeign)]
    exact h
  · have hk : 0 < k := by decide
    have hne : nodeId ≠ dht.ourId := h.ourId_eq ▸ hforeign
    have hbuckets := buckets_addOrUpdate addr now hne
    rcases (h.added hforeign : Added dht _ ⟨nodeId, addr, now⟩).others with ⟨evicted, hothers, -⟩
    have hnew : ∀ idx, ∀ n ∈ (dht.addOrUpdate nodeId addr now).buckets idx, n.nodeId ≠ nodeId →
        n ∈ dht.buckets idx := fun idx n hn hid => ((hothers idx n hid).1 hn).1
    exact
      { ourId_eq := by
          rw [Dht.addOrUpdate, if_neg hne]
          exact h.ourId_eq
        foreign := fun idx n hn => by
          by_cases hid : n.nodeId = nodeId
          · rwa [hid]
          · exact h.foreign idx n (hnew idx n hn hid)
        placed := fun idx n hn => by
          by_cases hid : n.nodeId = nodeId
          · by_cases hidx : idx = bucketOf dht.ourId nodeId
            · rw [hid, hidx, h.ourId_eq]
            · rw [hbuckets, if_neg hidx] at hn
              exact h.placed idx n hn
          · exact h.placed idx n (hnew idx n hn hid)
        distinct := fun idx => by
          rw [hbuckets]
          split
          · exact nodup_upsert hk (h.distinct idx)
          · exact h.distinct idx
        bounded := fun idx => by
          rw [hbuckets]
          split
          · exact length_upsert_le hk (h.bounded idx)
          · exact h.bounded idx }

end AddOrUpdate

theorem Valid.cleanup (h : Valid ourId dht) (now timeoutSecs : UInt64) :
    Valid ourId (dht.cleanup now timeoutSecs) := by
  have hsub : ∀ idx, ((dht.cleanup now timeoutSecs).buckets idx).Sublist (dht.buckets idx) :=
    fun _ => List.filter_sublist
  exact
    { ourId_eq := h.ourId_eq
      foreign := fun idx n hn => h.foreign idx n ((hsub idx).subset hn)
      placed := fun idx n hn => h.placed idx n ((hsub idx).subset hn)
      distinct := fun idx => (h.distinct idx).sublist ((hsub idx).map DhtNode.nodeId)
      bounded := fun idx => (hsub idx).length_le.trans (h.bounded idx) }

/-! ## Runs -/

inductive Call
  | addOrUpdate (nodeId : NodeId) (addr : SocketAddr) (now : UInt64)
  | cleanup (now timeoutSecs : UInt64)

/-- One call; `cleanup` is called at a time that is not before any stored `last_seen`. -/
inductive Step : Dht → Call → Dht → Prop
  | addOrUpdate (dht : Dht) (nodeId : NodeId) (addr : SocketAddr) (now : UInt64) :
      Step dht (.addOrUpdate nodeId addr now) (dht.addOrUpdate nodeId addr now)
  | cleanup (dht : Dht) (now timeoutSecs : UInt64) :
      (∀ n ∈ dht.nodes, n.lastSeen ≤ now) →
        Step dht (.cleanup now timeoutSecs) (dht.cleanup now timeoutSecs)

theorem Valid.step {dht' : Dht} {c : Call} (h : Valid ourId dht) (hstep : Step dht c dht') :
    Valid ourId dht' := by
  cases hstep with
  | addOrUpdate nodeId addr now => exact h.addOrUpdate nodeId addr now
  | cleanup now timeoutSecs _ => exact h.cleanup now timeoutSecs

theorem valid_run {tr : List Call} (hrun : Run Step (new ourId) tr dht) : Valid ourId dht :=
  RunWith.invariant_state (Valid ourId) (new_valid ourId)
    (fun _ _ _ _ _ hI hstep _ => hI.step hstep) hrun

/-- Every reachable table is valid, holds no identity twice, and stores a node that is added, at the
price of at most one oldest node of its full bucket. -/
theorem table_invariant {tr : List Call} (hrun : Run Step (new ourId) tr dht) :
    Valid ourId dht ∧ (dht.nodes.map DhtNode.nodeId).Nodup ∧
      ∀ nodeId addr now, nodeId ≠ ourId →
        Added dht (dht.addOrUpdate nodeId addr now) ⟨nodeId, addr, now⟩ := by
  have hvalid := valid_run hrun
  exact ⟨hvalid, hvalid.nodup_nodes, fun _ _ _ hforeign => hvalid.added hforeign⟩

section Sample

/-- An identity that is zero but for its first byte. -/
def sampleId (first : UInt8) : NodeId := ⟨first :: List.replicate 31 0, by simp⟩

/-- The `i`-th of some nodes of one bucket, seen one second after the other. -/
def sampleNode (i : Nat) : DhtNode :=
  { nodeId := sampleId (0x80 + i.toUInt8)
    addr := .v4 (ByteArr.fill 4 127) 9733
    lastSeen := 1000 + i.toUInt64 }

def sampleCall (n : DhtNode) : Call := .addOrUpdate n.nodeId n.addr n.lastSeen

/-- The table of the node with the identity zero after it has seen some nodes. -/
def sampleSeen (l : List DhtNode) : Dht :=
  l.foldl (fun dht n => dht.addOrUpdate n.nodeId n.addr n.lastSeen) (new (sampleId 0))

theorem run_sampleSeen (l : List DhtNode) :
    Run Step (new (sampleId 0)) (l.map sampleCall) (sampleSeen l) := by
  induction l using List.reverseRecOn with
  | nil => exact .nil
  | append_singleton l n ih =>
      rw [List.map_append, List.map_singleton, sampleSeen, List.foldl_append]
      exact ih.snoc (.addOrUpdate _ n.nodeId n.addr n.lastSeen)

/-- The ninth node of a bucket takes the place of the one that was seen first, and a clean-up keeps
all eight. -/
theorem table_invariant_sample :
    ∃ dht, Run Step (new (sampleId 0))
        (((List.range 9).map sampleNode).map sampleCall ++ [.cleanup 2000 3600]) dht ∧
      dht.nodes = sampleNode 8 :: (List.range' 1 7).map sampleNode ∧ Valid (sampleId 0) dht ∧
      Added dht (dht.addOrUpdate (sampleId 0x89) (.v4 (ByteArr.fill 4 127) 9733) 2000)
        ⟨sampleId 0x89, .v4 (ByteArr.fill 4 127) 9733, 2000⟩ := by
  have hrun : Run Step (new (sampleId 0))
      (((List.range 9).map sampleNode).map sampleCall ++ [.cleanup 2000 3600]) _ :=
    (run_sampleSeen _).snoc (.cleanup _ 2000 3600 (by decide +kernel))
  rcases table_invariant hrun with ⟨hvalid, -, hadded⟩
  exact ⟨_, hrun, by decide +kernel, hvalid, hadded _ _ _ (by decide)⟩

end Sample

end Dht
end P2p
end Aevum
