import Aevum.P2p.DhtAgeing

/-!
# P2p.DhtRetention — which nodes stay in the table

A full bucket of `dht.rs` gives up its oldest node for a new one.  Over a whole run in which the
clock does not go back, this decides what became of every node that was ever seen: it is stored as
it was last seen, or a clean-up found it expired, or `k` other nodes of its bucket were seen no
earlier.  So nobody can push a node out of the table without `k` identities in its bucket.
-/

namespace Aevum
namespace P2p

open Lib

namespace Dht

/-! ## What can happen to a node -/

def Call.time : Call → UInt64
  | .addOrUpdate _ _ now => now
  | .cleanup now _ => now

/-- The times of the calls do not decrease. -/
abbrev Clocked (tr : List Call) : Prop := tr.Pairwise fun c c' => c.time ≤ c'.time

/-- One of the calls is a clean-up that finds the node too old. -/
def Expired (after : List Call) (node : DhtNode) : Prop :=
  ∃ now timeoutSecs, .cleanup now timeoutSecs ∈ after ∧ isAlive now timeoutSecs node = false

/-- `k` other nodes of the bucket of `nodeId` were seen at times with the property `since`. -/
def Crowded (ourId : NodeId) (tr : List Call) (nodeId : NodeId) (since : UInt64 → Prop) : Prop :=
  ∃ ids : Finset NodeId, ids.card = k ∧ ∀ id ∈ ids, id ≠ nodeId ∧ id ≠ ourId ∧
    bucketOf ourId id = bucketOf ourId nodeId ∧
      ∃ addr now, .addOrUpdate id addr now ∈ tr ∧ since now

/-- What became of a node, with `after` the calls since it was last seen. -/
inductive Fate (ourId : NodeId) (tr after : List Call) (dht : Dht) (node : DhtNode) : Prop
  | stored : node ∈ dht.nodes → Fate ourId tr after dht node
  | expired : Expired after node → Fate ourId tr after dht node
  | pushedOut :
      (∀ n ∈ dht.nodes, bucketOf ourId n.nodeId = bucketOf ourId node.nodeId →
        node.lastSeen ≤ n.lastSeen) →
      Crowded ourId tr node.nodeId (node.lastSeen ≤ ·) → Fate ourId tr after dht node

section Facts

variable {ourId nodeId : NodeId} {tr after : List Call} {since : UInt64 → Prop}

theorem Expired.snoc {node : DhtNode} (h : Expired after node) (c : Call) :
    Expired (after ++ [c]) node := by
  rcases h with ⟨now, timeoutSecs, hmem, hold⟩
  exact ⟨now, timeoutSecs, List.mem_append_left _ hmem, hold⟩

theorem Crowded.snoc (h : Crowded ourId tr nodeId since) (c : Call) :
    Crowded ourId (tr ++ [c]) nodeId since := by
  rcases h with ⟨ids, hcard, hids⟩
  refine ⟨ids, hcard, fun id hid => ?_⟩
  rcases hids id hid with ⟨hne, hforeign, hbucket, addr, now, hmem, hsince⟩
  exact ⟨hne, hforeign, hbucket, addr, now, List.mem_append_left _ hmem, hsince⟩

/-- Of two nodes the one that was seen later lives longer. -/
theorem isAlive_mono {n n' : DhtNode} {now timeoutSecs : UInt64} (h : n.lastSeen ≤ n'.lastSeen)
    (hnow : n'.lastSeen ≤ now) (halive : isAlive now timeoutSecs n = true) :
    isAlive now timeoutSecs n' = true := by
  simp only [isAlive, decide_eq_true_eq] at halive ⊢
  rw [UInt64.le_iff_toNat_le] at h hnow
  rw [UInt64.lt_iff_toNat_lt] at halive ⊢
  rw [UInt64.toNat_sub_of_le _ _ (UInt64.le_iff_toNat_le.2 (h.trans hnow))] at halive
  rw [UInt64.toNat_sub_of_le _ _ (UInt64.le_iff_toNat_le.2 hnow)]
  omega

theorem Valid.mem_bucket {dht : Dht} (h : Valid ourId dht) {n : DhtNode} (hn : n ∈ dht.nodes) :
    n ∈ dht.buckets (bucketOf ourId n.nodeId) := by
  rcases mem_nodes.1 hn with ⟨idx, hidx⟩
  rwa [h.placed idx n hidx]

end Facts

/-! ## One call -/

section Step

variable {ourId nodeId : NodeId} {tr after : List Call} {dht dht' : Dht} {node : DhtNode}
  {addr : SocketAddr} {now : UInt64}

/-- The bucket that gives up a node is full, with nodes that were seen no earlier. -/
theorem Fate.of_evicted (hrun : Run Step (new ourId) tr dht) (hforeign : nodeId ≠ ourId)
    (hne : node.nodeId ≠ nodeId) (hle : node.lastSeen ≤ now) (hstored : node ∈ dht.nodes)
    (hgone : node ∉ (dht.addOrUpdate nodeId addr now).nodes) :
    Fate ourId (tr ++ [.addOrUpdate nodeId addr now]) after (dht.addOrUpdate nodeId addr now)
      node := by
  have hvalid := valid_run hrun
  have hvalid' := hvalid.addOrUpdate nodeId addr now
  have hadded : Added dht (dht.addOrUpdate nodeId addr now) ⟨nodeId, addr, now⟩ :=
    hvalid.added hforeign
  rcases hadded.others with ⟨evicted, hothers, hold⟩
  -- it was in the bucket of the new node, and an oldest one there
  have hevicted : evicted = some node := by
    by_contra hkept
    exact hgone (mem_nodes.2 ⟨_, (hothers _ node hne).2 ⟨hvalid.mem_bucket hstored, hkept⟩⟩)
  rcases hold node hevicted with ⟨hmem, hfull, holdest⟩
  rw [hvalid.ourId_eq] at hmem hfull holdest
  have hbucket : bucketOf ourId node.nodeId = bucketOf ourId nodeId := hvalid.placed _ node hmem
  have holder : ∀ n ∈ (dht.addOrUpdate nodeId addr now).nodes,
      bucketOf ourId n.nodeId = bucketOf ourId node.nodeId → node.lastSeen ≤ n.lastSeen := by
    intro n hn hsame
    rcases hvalid.mem_nodes_addOrUpdate hforeign hn with rfl | hn
    · exact hle
    · apply holdest n
      rw [← hbucket, ← hsame]
      exact hvalid.mem_bucket hn
  refine .pushedOut holder ?_
  -- the nodes in the bucket now are the ones that were seen since
  let bucket := (dht.addOrUpdate nodeId addr now).buckets (bucketOf ourId nodeId)
  have hlength : bucket.length = k := by
    apply le_antisymm (hvalid'.bounded _)
    rw [buckets_addOrUpdate addr now (hvalid.ourId_eq ▸ hforeign), hvalid.ourId_eq, if_pos rfl]
    exact hfull.symm.trans_le (length_le_length_upsert (by decide))
  refine ⟨(bucket.map DhtNode.nodeId).toFinset, ?_, fun id hid => ?_⟩
  · rw [List.toFinset_card_of_nodup (hvalid'.distinct _), List.length_map, hlength]
  · rcases List.mem_map.1 (List.mem_toFinset.1 hid) with ⟨n, hn, rfl⟩
    have hnode := mem_nodes.2 ⟨_, hn⟩
    have hplaced : bucketOf ourId n.nodeId = bucketOf ourId node.nodeId :=
      (hvalid'.placed _ n hn).trans hbucket.symm
    rcases call_of_mem_nodes (hrun.snoc (.addOrUpdate dht nodeId addr now)) n hnode with
      ⟨hcall, hother⟩
    refine ⟨fun hid => ?_, hother, hplaced, n.addr, n.lastSeen, hcall, holder n hnode hplaced⟩
    -- no second node has the identity of the one that is gone
    rcases hvalid.mem_nodes_addOrUpdate hforeign hnode with rfl | hbefore
    · exact hne hid.symm
    · exact hgone (List.inj_on_of_nodup_map hvalid.nodup_nodes hbefore hstored hid ▸ hnode)

theorem Fate.addOrUpdate (hrun : Run Step (new ourId) tr dht)
    (h : Fate ourId tr after dht node) (hne : node.nodeId ≠ nodeId)
    (hle : node.lastSeen ≤ now) :
    Fate ourId (tr ++ [.addOrUpdate nodeId addr now]) (after ++ [.addOrUpdate nodeId addr now])
      (dht.addOrUpdate nodeId addr now) node := by
  have hvalid := valid_run hrun
  cases h with
  | expired hold => exact .expired (hold.snoc _)
  | stored hmem =>
      by_cases hkept : node ∈ (dht.addOrUpdate nodeId addr now).nodes
      · exact .stored hkept
      · refine Fate.of_evicted hrun (fun hown => hkept ?_) hne hle hmem hkept
        rwa [Dht.addOrUpdate, if_pos (hvalid.ourId_eq ▸ hown)]
  | pushedOut holder hcrowd =>
      refine .pushedOut (fun n hn hsame => ?_) (hcrowd.snoc _)
      by_cases hown : nodeId = ourId
      · rw [Dht.addOrUpdate, if_pos (hvalid.ourId_eq ▸ hown)] at hn
        exact holder n hn hsame
      · rcases hvalid.mem_nodes_addOrUpdate hown hn with rfl | hn
        · exact hle
        · exact holder n hn hsame

theorem Fate.cleanup (h : Fate ourId tr after dht node) (now timeoutSecs : UInt64) :
    Fate ourId (tr ++ [.cleanup now timeoutSecs]) (after ++ [.cleanup now timeoutSecs])
      (dht.cleanup now timeoutSecs) node := by
  cases h with
  | stored hmem =>
      by_cases halive : isAlive now timeoutSecs node = true
      · exact .stored (mem_nodes_cleanup.2 ⟨hmem, halive⟩)
      · exact .expired ⟨now, timeoutSecs, List.mem_append_right _ List.mem_cons_self,
          Bool.not_eq_true _ ▸ halive⟩
  | expired hold => exact .expired (hold.snoc _)
  | pushedOut holder hcrowd =>
      exact .pushedOut (fun n hn => holder n (mem_nodes_cleanup.1 hn).1) (hcrowd.snoc _)

end Step

/-! ## Runs -/

section Runs

variable {ourId nodeId : NodeId} {before after : List Call} {dht : Dht} {addr : SocketAddr}
  {t : UInt64}

/-- What became of a node, and that it is stored as it was last seen if it is. -/
theorem fate_run (hforeign : nodeId ≠ ourId)
    (hrun : Run Step (new ourId) (before ++ .addOrUpdate nodeId addr t :: after) dht)
    (hclock : Clocked (before ++ .addOrUpdate nodeId addr t :: after))
    (hlast : ∀ addr' t', .addOrUpdate nodeId addr' t' ∉ after) :
    Fate ourId (before ++ .addOrUpdate nodeId addr t :: after) after dht ⟨nodeId, addr, t⟩ ∧
      ∀ n ∈ dht.nodes, n.nodeId = nodeId → n = ⟨nodeId, addr, t⟩ := by
  revert hclock hlast
  refine RunWith.after (fun after dht =>
    Clocked (before ++ .addOrUpdate nodeId addr t :: after) →
      (∀ addr' t', .addOrUpdate nodeId addr' t' ∉ after) →
        Fate ourId (before ++ .addOrUpdate nodeId addr t :: after) after dht ⟨nodeId, addr, t⟩ ∧
          ∀ n ∈ dht.nodes, n.nodeId = nodeId → n = ⟨nodeId, addr, t⟩) ?_ ?_ hrun
  · intro dht dht' hrun hstep _ _
    cases hstep with
    | addOrUpdate nodeId addr t =>
        have hvalid := valid_run hrun
        have hadded : Added dht (dht.addOrUpdate nodeId addr t) ⟨nodeId, addr, t⟩ :=
          hvalid.added hforeign
        have hstored := mem_nodes.2 ⟨_, hadded.stored⟩
        refine ⟨.stored hstored, fun n hn hid => ?_⟩
        exact List.inj_on_of_nodup_map (hvalid.addOrUpdate nodeId addr t).nodup_nodes hn hstored hid
  · intro after dht c dht' hrun ih hstep hclock hlast
    have hlist : before ++ .addOrUpdate nodeId addr t :: (after ++ [c]) =
        (before ++ .addOrUpdate nodeId addr t :: after) ++ [c] := by
      simp
    rw [hlist] at hclock ⊢
    rcases List.pairwise_append.1 hclock with ⟨hclock, -, hlater⟩
    have hle : t ≤ c.time := hlater (.addOrUpdate nodeId addr t)
      (List.mem_append_right _ List.mem_cons_self) c List.mem_cons_self
    rcases ih hclock fun addr' t' hmem => hlast addr' t' (List.mem_append_left _ hmem) with
      ⟨hfate, hunique⟩
    cases hstep with
    | cleanup now timeoutSecs _ =>
        exact ⟨hfate.cleanup now timeoutSecs,
          fun n hn hid => hunique n (mem_nodes_cleanup.1 hn).1 hid⟩
    | addOrUpdate nodeId' addr' now =>
        have hne : nodeId ≠ nodeId' := fun heq =>
          hlast addr' now (heq ▸ List.mem_append_right _ List.mem_cons_self)
        refine ⟨hfate.addOrUpdate hrun hne hle, fun n hn hid => ?_⟩
        by_cases hown : nodeId' = ourId
        · rw [Dht.addOrUpdate, if_pos ((valid_run hrun).ourId_eq ▸ hown)] at hn
          exact hunique n hn hid
        · rcases (valid_run hrun).mem_nodes_addOrUpdate hown hn with rfl | hn
          · exact absurd hid.symm hne
          · exact hunique n hn hid

/-- An expired node is gone, unless it was seen again. -/
theorem notMem_of_expired
    (hrun : Run Step (new ourId) (before ++ .addOrUpdate nodeId addr t :: after) dht)
    (hlast : ∀ addr' t', .addOrUpdate nodeId addr' t' ∉ after)
    (h : Expired after ⟨nodeId, addr, t⟩) : ⟨nodeId, addr, t⟩ ∉ dht.nodes := by
  rcases h with ⟨now, timeoutSecs, hmem, hdead⟩
  rcases List.append_of_mem hmem with ⟨mid, rest, rfl⟩
  have hrest : ∀ addr' t', .addOrUpdate nodeId addr' t' ∉ rest := fun addr' t' hmem =>
    hlast addr' t' (List.mem_append_right _ (List.mem_cons_of_mem _ hmem))
  have hlist : before ++ .addOrUpdate nodeId addr t :: (mid ++ .cleanup now timeoutSecs :: rest) =
      (before ++ .addOrUpdate nodeId addr t :: mid) ++ .cleanup now timeoutSecs :: rest := by
    simp
  rw [hlist] at hrun
  clear hlast hmem hlist
  revert hrest
  refine RunWith.after (fun rest dht => (∀ addr' t', .addOrUpdate nodeId addr' t' ∉ rest) →
    ⟨nodeId, addr, t⟩ ∉ dht.nodes) ?_ ?_ hrun
  · intro dht dht' _ hstep _ hn
    cases hstep with
    | cleanup now timeoutSecs _ =>
        rw [mem_nodes_cleanup, hdead] at hn
        exact absurd hn.2 Bool.false_ne_true
  · intro rest dht c dht' hrun ih hstep hlast hn
    have hgone := ih fun addr' t' hmem => hlast addr' t' (List.mem_append_left _ hmem)
    cases hstep with
    | cleanup now timeoutSecs _ => exact hgone (mem_nodes_cleanup.1 hn).1
    | addOrUpdate nodeId' addr' now =>
        by_cases hown : nodeId' = ourId
        · rw [Dht.addOrUpdate, if_pos ((valid_run hrun).ourId_eq ▸ hown)] at hn
          exact hgone hn
        · rcases (valid_run hrun).mem_nodes_addOrUpdate hown hn with heq | hn
          · cases heq
            exact hlast addr t (List.mem_append_right _ List.mem_cons_self)
          · exact hgone hn

/-- The last call about a node. -/
theorem exists_last_call {tr : List Call} (hclock : Clocked tr)
    (hmem : .addOrUpdate nodeId addr t ∈ tr) :
    ∃ before addr' t' after, tr = before ++ .addOrUpdate nodeId addr' t' :: after ∧ t ≤ t' ∧
      ∀ addr t, .addOrUpdate nodeId addr t ∉ after := by
  rcases exists_last_of_kind (fun c => ∃ addr t, c = .addOrUpdate nodeId addr t)
    ⟨_, hmem, addr, t, rfl⟩ with ⟨before, _, after, rfl, ⟨addr', t', rfl⟩, hlast⟩
  refine ⟨before, addr', t', after, rfl, ?_, fun addr t hlater => hlast _ hlater ⟨addr, t, rfl⟩⟩
  rcases List.mem_append.1 hmem with hmem | hmem
  · exact (List.pairwise_append.1 hclock).2.2 _ hmem _ List.mem_cons_self
  · rcases List.mem_cons.1 hmem with heq | hmem
    · cases heq
      exact UInt64.le_refl t
    · exact absurd ⟨addr, t, rfl⟩ (hlast _ hmem)

/-- Beside a stored node there is no room for `k` others. -/
theorem Crowded.exists_out {tr : List Call} {since : UInt64 → Prop} {node : DhtNode}
    (h : Crowded ourId tr node.nodeId since) (hvalid : Valid ourId dht)
    (hstored : node ∈ dht.nodes) :
    ∃ id addr now, .addOrUpdate id addr now ∈ tr ∧ since now ∧ id ≠ ourId ∧
      bucketOf ourId id = bucketOf ourId node.nodeId ∧ ∀ n ∈ dht.nodes, n.nodeId ≠ id := by
  rcases h with ⟨ids, hcard, hids⟩
  let stored := ((dht.buckets (bucketOf ourId node.nodeId)).map DhtNode.nodeId).toFinset
  have hout : ∃ id ∈ ids, id ∉ stored := by
    by_contra hall
    push Not at hall
    have hsubset : insert node.nodeId ids ⊆ stored := by
      intro id hid
      rcases Finset.mem_insert.1 hid with rfl | hid
      · exact List.mem_toFinset.2 (List.mem_map.2 ⟨_, hvalid.mem_bucket hstored, rfl⟩)
      · exact hall id hid
    have hle := (Finset.card_le_card hsubset).trans (List.toFinset_card_le _)
    rw [Finset.card_insert_of_notMem fun hmem => (hids _ hmem).1 rfl, hcard,
      List.length_map] at hle
    exact absurd (hle.trans (hvalid.bounded _)) (Nat.not_succ_le_self k)
  rcases hout with ⟨id, hid, hnot⟩
  rcases hids id hid with ⟨-, hother, hbucket, addr, now, hmem, hsince⟩
  refine ⟨id, addr, now, hmem, hsince, hother, hbucket, fun n hn heq => hnot ?_⟩
  have hin := hvalid.mem_bucket hn
  rw [heq, hbucket] at hin
  exact List.mem_toFinset.2 (List.mem_map.2 ⟨n, hin, heq⟩)

/-- A node is gone after `k` others of its bucket have been seen later. -/
theorem notMem_of_crowded
    (hrun : Run Step (new ourId) (before ++ .addOrUpdate nodeId addr t :: after) dht)
    (hclock : Clocked (before ++ .addOrUpdate nodeId addr t :: after))
    (hlast : ∀ addr' t', .addOrUpdate nodeId addr' t' ∉ after)
    (h : Crowded ourId (before ++ .addOrUpdate nodeId addr t :: after) nodeId (t < ·)) :
    ⟨nodeId, addr, t⟩ ∉ dht.nodes := by
  intro hstored
  rcases Crowded.exists_out h (valid_run hrun) hstored with
    ⟨id, addr₁, t₁, hmem, hlt, hother, hbucket, hout⟩
  rcases exists_last_call hclock hmem with ⟨before', addr₂, t₂, after', htr, hle, hlast'⟩
  have hseen : t < t₂ := UInt64.lt_of_lt_of_le hlt hle
  -- the other node was seen later, and is gone all the same
  have hrun' := hrun
  have hclock' := hclock
  rw [htr] at hrun' hclock'
  have hfate := (fate_run hother hrun' hclock' hlast').1
  cases hfate with
  | stored hmem => exact hout _ hmem rfl
  | pushedOut holder _ => exact UInt64.not_le.2 hseen (holder _ hstored hbucket.symm)
  | expired hold =>
      rcases hold with ⟨now, timeoutSecs, hcleanup, hdead⟩
      have hnow : t₂ ≤ now :=
        (List.pairwise_cons.1 (List.pairwise_append.1 hclock').2.1).1 _ hcleanup
      -- the clean-up that found it too old did so with `nodeId` before
      have hafter : .cleanup now timeoutSecs ∈ after := by
        have hall : .cleanup now timeoutSecs ∈ before ++ .addOrUpdate nodeId addr t :: after :=
          htr ▸ List.mem_append_right _ (List.mem_cons_of_mem _ hcleanup)
        rcases List.mem_append.1 hall with hall | hall
        · have hle : now ≤ t :=
            (List.pairwise_append.1 hclock).2.2 _ hall _ List.mem_cons_self
          exact absurd (UInt64.lt_of_lt_of_le hseen (UInt64.le_trans hnow hle))
            (UInt64.lt_irrefl t)
        · exact (List.mem_cons.1 hall).resolve_left (by simp)
      have hmono : isAlive now timeoutSecs ⟨nodeId, addr, t⟩ = true →
          isAlive now timeoutSecs ⟨id, addr₂, t₂⟩ = true :=
        isAlive_mono (UInt64.le_of_lt hseen) hnow
      refine notMem_of_expired hrun hlast ⟨now, timeoutSecs, hafter, ?_⟩ hstored
      rw [← Bool.not_eq_true]
      intro halive
      rw [hmono halive] at hdead
      cases hdead

/-- A node that was last seen at `t` is stored with what was said of it then, or it has expired, or
`k` other nodes of its bucket were seen no earlier.  It is not stored any more once it has expired
or `k` others were seen later. -/
theorem retention (hforeign : nodeId ≠ ourId)
    (hrun : Run Step (new ourId) (before ++ .addOrUpdate nodeId addr t :: after) dht)
    (hclock : Clocked (before ++ .addOrUpdate nodeId addr t :: after))
    (hlast : ∀ addr' t', .addOrUpdate nodeId addr' t' ∉ after) :
    (∀ n ∈ dht.nodes, n.nodeId = nodeId → n = ⟨nodeId, addr, t⟩) ∧
      (⟨nodeId, addr, t⟩ ∈ dht.nodes ∨ Expired after ⟨nodeId, addr, t⟩ ∨
        Crowded ourId (before ++ .addOrUpdate nodeId addr t :: after) nodeId (t ≤ ·)) ∧
      (Expired after ⟨nodeId, addr, t⟩ ∨
          Crowded ourId (before ++ .addOrUpdate nodeId addr t :: after) nodeId (t < ·) →
        ⟨nodeId, addr, t⟩ ∉ dht.nodes) := by
  rcases fate_run hforeign hrun hclock hlast with ⟨hfate, hunique⟩
  refine ⟨hunique, ?_, ?_⟩
  · cases hfate with
    | stored hmem => exact Or.inl hmem
    | expired hold => exact Or.inr (Or.inl hold)
    | pushedOut _ hcrowd => exact Or.inr (Or.inr hcrowd)
  · rintro (hold | hcrowd)
    · exact notMem_of_expired hrun hlast hold
    · exact notMem_of_crowded hrun hclock hlast hcrowd

end Runs

/-! ## A full bucket -/

section Sample

/-- After eight others have been seen the first node is gone. -/
theorem retention_sample :
    ∃ dht, Run Step (new (sampleId 0)) (((List.range 9).map sampleNode).map sampleCall) dht ∧
      sampleNode 0 ∉ dht.nodes := by
  have hrun := run_sampleSeen ((List.range 9).map sampleNode)
  refine ⟨_, hrun, ?_⟩
  have hothers : ∀ i ∈ List.range 8, sampleId (0x80 + (i + 1).toUInt8) ≠ sampleId 0x80 ∧
      sampleId (0x80 + (i + 1).toUInt8) ≠ sampleId 0 ∧
      bucketOf (sampleId 0) (sampleId (0x80 + (i + 1).toUInt8)) =
        bucketOf (sampleId 0) (sampleId 0x80) ∧
      (1000 : UInt64) < 1000 + (i + 1).toUInt64 := by
    decide +kernel
  refine (@retention _ _ [] (((List.range 8).map (sampleNode ∘ Nat.succ)).map
    sampleCall) _ _ _ (by decide +kernel) hrun ?_ ?_).2.2 (Or.inr ?_)
  · decide +kernel
  · intro addr t hmem
    rcases List.mem_map.1 hmem with ⟨n, hn, heq⟩
    rcases List.mem_map.1 hn with ⟨i, hi, rfl⟩
    rw [sampleCall, Call.addOrUpdate.injEq] at heq
    exact (hothers i hi).1 heq.1
  · refine ⟨((List.range 8).map fun i => sampleId (0x80 + (i + 1).toUInt8)).toFinset,
      by decide +kernel, fun id hid => ?_⟩
    rcases List.mem_map.1 (List.mem_toFinset.1 hid) with ⟨i, hi, rfl⟩
    rcases hothers i hi with ⟨hne, hforeign, hbucket, hlater⟩
    refine ⟨hne, hforeign, hbucket, (sampleNode (i + 1)).addr, 1000 + (i + 1).toUInt64, ?_, hlater⟩
    apply List.mem_cons_of_mem
    exact List.mem_map.2 ⟨sampleNode (i + 1), List.mem_map.2 ⟨i, hi, rfl⟩, rfl⟩

end Sample

end Dht
end P2p
end Aevum
