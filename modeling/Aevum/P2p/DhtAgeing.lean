import Aevum.Lib.Checks
import Aevum.P2p.DhtSearch

/-!
# P2p.DhtAgeing — `now - n.last_seen`

`cleanup`, `find_closest`, `random_nodes` and `alive_nodes` subtract in plain arithmetic.  A build
with overflow checks panics where a node was seen later than `now`; here such a build is modelled by
functions into `Option`, which fail at the subtraction.  The build without the checks is the one of
`P2p.Dht` and `P2p.DhtSearch`, where the difference wraps.

* `checked_eq` : while no node is later than `now`, both builds do the same;
* `ageing_safe_iff` : the table ages safely as long as the clock has not gone back behind a call.
-/

namespace Aevum
namespace P2p

open Lib

namespace Dht

/-! ## The functions with overflow checks -/

/-- `now - n.last_seen < timeout_secs`. -/
def checkedIsAlive (now timeoutSecs : UInt64) (n : DhtNode) : Option Bool :=
  (now.checkedSub n.lastSeen).map fun age => age < timeoutSecs

def checkedCleanup (dht : Dht) (now timeoutSecs : UInt64) : Option Dht :=
  -- `retain` in one bucket after the other; the first panic ends the call
  (updateEach (filterChecked (checkedIsAlive now timeoutSecs)) (List.finRange kBuckets)
    dht.buckets).map fun buckets => { dht with buckets := buckets }

def checkedAliveNodes (dht : Dht) (now timeoutSecs : UInt64) : Option Nat :=
  (filterChecked (checkedIsAlive now timeoutSecs) dht.nodes).map List.length

/-- `shuffle` is what the random number generator makes of a list. -/
def randomNodes (shuffle : List DhtNode → List DhtNode) (dht : Dht) (count : Nat)
    (now timeoutSecs : UInt64) : List DhtNode :=
  (shuffle (dht.nodes.filter (isAlive now timeoutSecs))).take count

def checkedRandomNodes (shuffle : List DhtNode → List DhtNode) (dht : Dht) (count : Nat)
    (now timeoutSecs : UInt64) : Option (List DhtNode) :=
  (filterChecked (checkedIsAlive now timeoutSecs) dht.nodes).map fun all => (shuffle all).take count

/-- One half of a round of the `while` loop of `find_closest`. -/
def checkedExtend (dht : Dht) (now timeoutSecs : UInt64) (inside : Prop) [Decidable inside]
    (cursor : Int) (closest : List DhtNode) : Option (List DhtNode) :=
  if inside then
    (filterChecked (checkedIsAlive now timeoutSecs) (dht.bucketAt cursor)).map (closest ++ ·)
  else some closest

/-- The `while` loop of `find_closest`. -/
def checkedCollect (dht : Dht) (count : Nat) (now timeoutSecs : UInt64) (left right : Int)
    (closest : List DhtNode) : Option (List DhtNode) :=
  if h : closest.length < count ∧ (left ≥ 0 ∨ right < kBuckets) then do
    let closest ← dht.checkedExtend now timeoutSecs (left ≥ 0) left closest
    let closest ← dht.checkedExtend now timeoutSecs (right < kBuckets) right closest
    dht.checkedCollect count now timeoutSecs (if left ≥ 0 then left - 1 else left)
      (if right < kBuckets then right + 1 else right) closest
  else some closest
termination_by (left + 1).toNat + (kBuckets - right).toNat
decreasing_by
  -- as in `collect`, at least one cursor moves
  have hmove := h.2
  split <;> split <;> omega

def checkedFindClosest (dht : Dht) (targetId : NodeId) (count : Nat) (now timeoutSecs : UInt64) :
    Option (List DhtNode) :=
  let targetIdx : Int := bucketIndex (distance targetId dht.ourId)
  (dht.checkedCollect count now timeoutSecs targetIdx (targetIdx + 1) []).map fun closest =>
    (sortBy (fun n => u256FromBytes (distance n.nodeId targetId)) closest).take count

/-! ## One node -/

section OneNode

variable {now timeoutSecs : UInt64} {n : DhtNode}

theorem checkedIsAlive_of_le (h : n.lastSeen ≤ now) :
    checkedIsAlive now timeoutSecs n = some (isAlive now timeoutSecs n) := by
  rw [checkedIsAlive, UInt64.checkedSub_of_le (UInt64.le_iff_toNat_le.1 h)]
  rfl

theorem checkedIsAlive_of_lt (h : now < n.lastSeen) :
    checkedIsAlive now timeoutSecs n = none := by
  rw [checkedIsAlive, UInt64.checkedSub, if_neg (UInt64.not_le.2 h)]
  rfl

/-- A node that was seen at `now` is alive. -/
theorem isAlive_self (htimeout : 0 < timeoutSecs) (h : n.lastSeen = now) :
    isAlive now timeoutSecs n = true := by
  rw [isAlive, h, UInt64.sub_self, decide_eq_true_iff]
  exact htimeout

end OneNode

/-! ## The whole table -/

section Table

variable {dht : Dht} {now timeoutSecs : UInt64}

theorem mem_nodes_of_bucketAt {n : DhtNode} {i : Int} (h : n ∈ dht.bucketAt i) :
    n ∈ dht.nodes := by
  rw [bucketAt] at h
  split at h
  · exact mem_nodes.2 ⟨_, h⟩
  · cases h

variable (timeoutSecs) in
/-- A loop over nodes none of which is later than `now`. -/
theorem filterChecked_of_le {l : List DhtNode} (h : ∀ n ∈ l, n.lastSeen ≤ now) :
    filterChecked (checkedIsAlive now timeoutSecs) l =
      some (l.filter (isAlive now timeoutSecs)) :=
  filterChecked_of_forall fun n hn => checkedIsAlive_of_le (h n hn)

theorem filterChecked_of_lt {l : List DhtNode} {n : DhtNode} (hn : n ∈ l)
    (h : now < n.lastSeen) : filterChecked (checkedIsAlive now timeoutSecs) l = none :=
  filterChecked_eq_none.2 ⟨n, hn, checkedIsAlive_of_lt h⟩

theorem checkedCleanup_of_le (h : ∀ n ∈ dht.nodes, n.lastSeen ≤ now) :
    dht.checkedCleanup now timeoutSecs = some (dht.cleanup now timeoutSecs) := by
  have hbuckets := updateEach_of_forall (List.nodup_finRange kBuckets)
    fun idx _ => filterChecked_of_le timeoutSecs fun n (hn : n ∈ dht.buckets idx) =>
      h n (mem_nodes.2 ⟨idx, hn⟩)
  rw [checkedCleanup, hbuckets, Option.map_some]
  simp only [List.mem_finRange, if_true]
  rfl

theorem checkedCleanup_of_lt {n : DhtNode} (hn : n ∈ dht.nodes) (h : now < n.lastSeen) :
    dht.checkedCleanup now timeoutSecs = none := by
  rcases mem_nodes.1 hn with ⟨idx, hidx⟩
  rw [checkedCleanup, updateEach_eq_none (List.nodup_finRange kBuckets) (List.mem_finRange idx)
    (filterChecked_of_lt hidx h)]
  rfl

theorem checkedExtend_of_le (h : ∀ n ∈ dht.nodes, n.lastSeen ≤ now) (inside : Prop)
    [Decidable inside] (cursor : Int) (closest : List DhtNode) :
    dht.checkedExtend now timeoutSecs inside cursor closest =
      some (if inside then closest ++ (dht.bucketAt cursor).filter (isAlive now timeoutSecs)
        else closest) := by
  rw [checkedExtend, filterChecked_of_le _ fun n hn => h n (mem_nodes_of_bucketAt hn)]
  split
  · rfl
  · rfl

theorem checkedCollect_of_le (h : ∀ n ∈ dht.nodes, n.lastSeen ≤ now) (count : Nat)
    (left right : Int) (closest : List DhtNode) :
    dht.checkedCollect count now timeoutSecs left right closest =
      some (dht.collect count now timeoutSecs left right closest) := by
  fun_induction collect dht count now timeoutSecs left right closest with
  | case1 left right closest hgo closestL closestR ih =>
      rw [checkedCollect, dif_pos hgo, checkedExtend_of_le h, Option.bind_eq_bind, Option.bind_some,
        checkedExtend_of_le h, Option.bind_some]
      exact ih
  | case2 left right closest hstop => rw [checkedCollect, dif_neg hstop]

/-- While no node is later than `now`, the build with overflow checks does what the other does. -/
theorem checked_eq (h : ∀ n ∈ dht.nodes, n.lastSeen ≤ now) (timeoutSecs : UInt64) :
    dht.checkedCleanup now timeoutSecs = some (dht.cleanup now timeoutSecs) ∧
      (∀ targetId count, dht.checkedFindClosest targetId count now timeoutSecs =
        some (dht.findClosest targetId count now timeoutSecs)) ∧
      (∀ shuffle count, dht.checkedRandomNodes shuffle count now timeoutSecs =
        some (dht.randomNodes shuffle count now timeoutSecs)) ∧
      dht.checkedAliveNodes now timeoutSecs = some (dht.aliveNodes now timeoutSecs) := by
  have hnodes := filterChecked_of_le timeoutSecs h
  refine ⟨checkedCleanup_of_le h, fun targetId count => ?_, fun shuffle count => ?_, ?_⟩
  · rw [checkedFindClosest, checkedCollect_of_le h]
    rfl
  · rw [checkedRandomNodes, hnodes]
    rfl
  · rw [checkedAliveNodes, hnodes]
    rfl

end Table

/-! ## Safe ageing -/

/-- No function underflows, and a node that was seen at `now` or later counts as living and survives
the clean-up. -/
structure AgesSafely (dht : Dht) (now timeoutSecs : UInt64) : Prop where
  cleanup : (dht.checkedCleanup now timeoutSecs).isSome
  findClosest : ∀ targetId count,
    (dht.checkedFindClosest targetId count now timeoutSecs).isSome
  randomNodes : ∀ shuffle count, (dht.checkedRandomNodes shuffle count now timeoutSecs).isSome
  aliveNodes : (dht.checkedAliveNodes now timeoutSecs).isSome
  living : ∀ n ∈ dht.nodes, now ≤ n.lastSeen →
    isAlive now timeoutSecs n = true ∧ n ∈ (dht.cleanup now timeoutSecs).nodes

theorem mem_nodes_cleanup {dht : Dht} {now timeoutSecs : UInt64} {n : DhtNode} :
    n ∈ (dht.cleanup now timeoutSecs).nodes ↔ n ∈ dht.nodes ∧ isAlive now timeoutSecs n = true := by
  simp [mem_nodes, cleanup, isAlive]

theorem agesSafely_iff {dht : Dht} {now timeoutSecs : UInt64} (htimeout : 0 < timeoutSecs) :
    AgesSafely dht now timeoutSecs ↔ ∀ n ∈ dht.nodes, n.lastSeen ≤ now := by
  constructor
  · intro hsafe n hn
    by_contra hlater
    -- `cleanup` looks at every node, so it panics at this one
    have hcleanup := hsafe.cleanup
    rw [checkedCleanup_of_lt hn (UInt64.not_le.1 hlater)] at hcleanup
    cases hcleanup
  · intro h
    rcases checked_eq h timeoutSecs with ⟨hcleanup, hfind, hrandom, halive⟩
    refine
      { cleanup := hcleanup ▸ rfl
        findClosest := fun targetId count => hfind targetId count ▸ rfl
        randomNodes := fun shuffle count => hrandom shuffle count ▸ rfl
        aliveNodes := halive ▸ rfl
        living := fun n hn hlate => ?_ }
    -- it was seen right now
    have hself := isAlive_self htimeout (UInt64.le_antisymm (h n hn) hlate)
    exact ⟨hself, mem_nodes_cleanup.2 ⟨hn, hself⟩⟩

/-! ## Runs -/

section Runs

variable {ourId : NodeId} {tr : List Call} {dht : Dht}

/-- After a call only the node it is about is new. -/
theorem Valid.mem_nodes_addOrUpdate (h : Valid ourId dht) {nodeId : NodeId} {addr : SocketAddr}
    {now : UInt64} (hforeign : nodeId ≠ ourId) {n : DhtNode}
    (hn : n ∈ (dht.addOrUpdate nodeId addr now).nodes) :
    n = ⟨nodeId, addr, now⟩ ∨ n ∈ dht.nodes := by
  have hadded : Added dht (dht.addOrUpdate nodeId addr now) ⟨nodeId, addr, now⟩ :=
    h.added hforeign
  have hvalid := h.addOrUpdate nodeId addr now
  rcases mem_nodes.1 hn with ⟨idx, hidx⟩
  by_cases hid : n.nodeId = nodeId
  · left
    -- no identity is stored twice, and this one is stored with the new time
    have hnew := mem_nodes.2 ⟨_, hadded.stored⟩
    exact List.inj_on_of_nodup_map hvalid.nodup_nodes hn hnew hid
  · right
    rcases hadded.others with ⟨evicted, hothers, -⟩
    exact mem_nodes.2 ⟨idx, ((hothers idx n hid).1 hidx).1⟩

/-- What is stored was put there by a call, at the time it was last seen. -/
theorem call_of_mem_nodes (hrun : Run Step (new ourId) tr dht) :
    ∀ n ∈ dht.nodes, .addOrUpdate n.nodeId n.addr n.lastSeen ∈ tr ∧ n.nodeId ≠ ourId := by
  refine RunWith.invariant (fun tr (dht : Dht) => ∀ n ∈ dht.nodes,
    .addOrUpdate n.nodeId n.addr n.lastSeen ∈ tr ∧ n.nodeId ≠ ourId) ?_ ?_ hrun
  · intro n hn
    rcases mem_nodes.1 hn with ⟨idx, hidx⟩
    cases hidx
  · intro tr dht c dht' hrun ih hstep _ n hn
    have hold : n ∈ dht.nodes → .addOrUpdate n.nodeId n.addr n.lastSeen ∈ tr ++ [c] ∧
        n.nodeId ≠ ourId := fun hn => ⟨List.mem_append_left _ (ih n hn).1, (ih n hn).2⟩
    have hvalid := valid_run hrun
    cases hstep with
    | addOrUpdate nodeId addr now =>
        by_cases hforeign : nodeId = ourId
        · -- a call about the own identity changes nothing
          rw [addOrUpdate, if_pos (hvalid.ourId_eq ▸ hforeign)] at hn
          exact hold hn
        · rcases hvalid.mem_nodes_addOrUpdate hforeign hn with rfl | hn
          · exact ⟨List.mem_append_right _ List.mem_cons_self, hforeign⟩
          · exact hold hn
    | cleanup now timeoutSecs _ => exact hold (mem_nodes_cleanup.1 hn).1

/-- A table ages safely exactly when no stored node was seen later than `now`.  On the way to it,
every table ages safely exactly when no call stored a node later than `now`. -/
theorem ageing_safe_iff (hrun : Run Step (new ourId) tr dht) (now timeoutSecs : UInt64)
    (htimeout : 0 < timeoutSecs) :
    (AgesSafely dht now timeoutSecs ↔ ∀ n ∈ dht.nodes, n.lastSeen ≤ now) ∧
      ((∀ tr' dht', tr' <+: tr → Run Step (new ourId) tr' dht' → AgesSafely dht' now timeoutSecs) ↔
        ∀ nodeId addr t, .addOrUpdate nodeId addr t ∈ tr → nodeId ≠ ourId → t ≤ now) := by
  refine ⟨agesSafely_iff htimeout, ?_, ?_⟩
  · intro hsafe nodeId addr t hcall hforeign
    -- the table right after the call
    rcases List.append_of_mem hcall with ⟨before, after, rfl⟩
    rcases hrun.exists_step with ⟨dht₁, dht₂, hbefore, hstep, -⟩
    have hprefix : before ++ [.addOrUpdate nodeId addr t] <+:
        before ++ .addOrUpdate nodeId addr t :: after := ⟨after, by simp⟩
    have hall := (agesSafely_iff htimeout).1 (hsafe _ _ hprefix (hbefore.snoc hstep trivial))
    cases hstep with
    | addOrUpdate nodeId addr now =>
        have hadded : Added dht₁ (dht₁.addOrUpdate nodeId addr t) ⟨nodeId, addr, t⟩ :=
          (valid_run hbefore).added hforeign
        exact hall _ (mem_nodes.2 ⟨_, hadded.stored⟩)
  · intro htimes tr' dht' hpart hrun'
    refine (agesSafely_iff htimeout).2 fun n hn => ?_
    rcases call_of_mem_nodes hrun' n hn with ⟨hcall, hforeign⟩
    exact htimes _ _ _ (hpart.subset hcall) hforeign

end Runs

theorem ageing_safe_iff_sample : AgesSafely sampleTable 1000 3600 :=
  (ageing_safe_iff run_sampleTable 1000 3600 (by decide)).1.2 (by decide +kernel)

/-- Nodes that were added at 1000, looked at after the clock was set back to 500. -/
theorem not_ageing_safe :
    ¬ ∀ (ourId : NodeId) (tr : List Call) (dht : Dht),
      (∀ c ∈ tr, ∃ nodeId addr t, c = .addOrUpdate nodeId addr t) →
        Run Step (new ourId) tr dht → ∀ now timeoutSecs : UInt64, 0 < timeoutSecs →
          AgesSafely dht now timeoutSecs := by
  intro hclaim
  have hsafe := hclaim _ _ _ (by simp) run_sampleTable 500 3600 (by decide)
  exact absurd ((agesSafely_iff (by decide)).1 hsafe) (by decide +kernel)

end Dht
end P2p
end Aevum
