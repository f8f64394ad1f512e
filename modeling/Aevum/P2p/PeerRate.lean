import Aevum.Lib.RateWindow
import Aevum.P2p.PeerCounters

/-!
# P2p.PeerRate — how many messages a peer is sent

`send_to` counts the messages to a peer in windows of one second, which start with the first message
after the last window and with every registration.  So more than `RATE_LIMIT_PER_SEC` messages fit
into one second, but not more than twice as many, unless the node registers again
(`sends_bounded`).
-/

namespace Aevum
namespace P2p
namespace PeersManager

open Lib

variable {Tx : Type}

/-! ## What a run shows of the messages -/

/-- The time after which `send_to` starts a new count. -/
def second : Duration := .fromSecs 1

/-- The time that a call reads from the clock. -/
def Call.time? : Call Tx → Option Instant
  | .registerPeer _ _ _ _ now => some now
  | .sendTo _ _ now => some now
  | .markConnectFailed _ now => some now
  | .tryReserveOutboundSlot _ now => some now
  | _ => none

def clockTimes (tr : List (Call Tx × Option Bool)) : List Instant :=
  tr.filterMap fun l => l.1.time?

/-- A message was sent to the node in the second that starts at `a`. -/
def isSent (nodeId : NodeId) (a : Instant) : Call Tx × Option Bool → Bool
  | (.sendTo nodeId' _ now, some true) =>
      decide (nodeId' = nodeId) && RateWindow.inside second a now
  | _ => false

/-- The node registered in the second that starts at `a`. -/
def isRegistered (nodeId : NodeId) (a : Instant) : Call Tx × Option Bool → Bool
  | (.registerPeer nodeId' _ _ _ now, _) =>
      decide (nodeId' = nodeId) && RateWindow.inside second a now
  | _ => false

/-! ## The window of a peer -/

/-- The window that the messages to a peer are counted in. -/
def windowOf (peer : PeerState Tx) : RateWindow :=
  ⟨peer.lastReset, peer.msgCount.toNat⟩

def window (s : PeersManager Tx) (nodeId : NodeId) : Option RateWindow :=
  (s.peers.get? nodeId).map windowOf

variable {s s' : PeersManager Tx} {nodeId : NodeId}

theorem window_registerPeer (s : PeersManager Tx) (nodeId nodeId' : NodeId) (addr : SocketAddr)
    (tx : Tx) (isOutbound : Bool) (now : Instant) :
    (s.registerPeer nodeId addr tx isOutbound now).window nodeId' =
      if nodeId' = nodeId then some ⟨now, 0⟩ else s.window nodeId' := by
  have hpeers : ∃ peer : PeerState Tx, peer.lastReset = now ∧ peer.msgCount = 0 ∧
      (s.registerPeer nodeId addr tx isOutbound now).peers = s.peers.insert nodeId peer := by
    rw [registerPeer]
    cases s.peers.get? nodeId with
    | none => exact ⟨_, rfl, rfl, rfl⟩
    | some old => exact ⟨_, rfl, rfl, rfl⟩
  rcases hpeers with ⟨peer, hreset, hcount, hpeers⟩
  rw [window, hpeers, FinMap.get?_insert]
  split
  · rw [Option.map_some, windowOf, hreset, hcount]
    rfl
  · rfl

theorem window_removePeer (s : PeersManager Tx) (nodeId nodeId' : NodeId) :
    (s.removePeer nodeId).window nodeId' =
      if nodeId' = nodeId then none else s.window nodeId' := by
  rw [window, get?_peers_removePeer]
  split <;> rfl

/-- After a broadcast a node has its window as before, or it is gone. -/
theorem window_broadcast (s : PeersManager Tx) (isClosed : NodeId → Tx → Bool) (nodeId : NodeId) :
    (s.broadcast isClosed).window nodeId = none ∨
      (s.broadcast isClosed).window nodeId = s.window nodeId := by
  refine broadcast_invariant (fun s' => s'.window nodeId = none ∨
    s'.window nodeId = s.window nodeId) (fun s' dead h => ?_) (Or.inr rfl) isClosed
  rw [window_removePeer]
  split
  · exact Or.inl rfl
  · exact h

theorem window_updatePeerHeight (s : PeersManager Tx) (nodeId nodeId' : NodeId)
    (height : UInt64) :
    (s.updatePeerHeight nodeId height).window nodeId' = s.window nodeId' := by
  rw [updatePeerHeight]
  cases hget : s.peers.get? nodeId with
  | none => rfl
  | some peer =>
      dsimp only
      rw [window, window, FinMap.get?_insert]
      split
      · next heq =>
          rw [heq, hget]
          rfl
      · rfl

theorem window_tryReserveOutboundSlot (s : PeersManager Tx) (addr : SocketAddr) (now : Instant)
    (nodeId : NodeId) :
    (s.tryReserveOutboundSlot addr now).1.window nodeId = s.window nodeId := by
  rcases tryReserveOutboundSlot_cases s addr now with ⟨_, heq⟩ | ⟨_, heq, -, -⟩
  · rw [heq]
    rfl
  · rw [heq]
    rfl

/-- `send_to` brings the window of the node up to date.  It counts the message, or refuses it when
the window is full; a node that is not connected is sent nothing. -/
inductive Sends (s : PeersManager Tx) (nodeId : NodeId) (now : Instant)
    (s' : PeersManager Tx) : Bool → Prop
  | absent : s.window nodeId = none → s'.window nodeId = none → Sends s nodeId now s' false
  | refused {w : RateWindow} : s.window nodeId = some w →
      s'.window nodeId = some (w.roll second now) → Sends s nodeId now s' false
  | counted {w : RateWindow} (sent : Bool) : s.window nodeId = some w →
      s'.window nodeId = some (w.hit second now) →
      (w.roll second now).count < rateLimitPerSec.toNat → Sends s nodeId now s' sent

theorem window_insert (s : PeersManager Tx) (nodeId nodeId' : NodeId) (peer : PeerState Tx) :
    window { s with peers := s.peers.insert nodeId peer } nodeId' =
      if nodeId' = nodeId then some (windowOf peer) else s.window nodeId' := by
  rw [window, FinMap.get?_insert]
  split <;> rfl

theorem window_sendTo (s : PeersManager Tx) (nodeId : NodeId) (trySend : Tx → Bool)
    (now : Instant) :
    Sends s nodeId now (s.sendTo nodeId trySend now).1 (s.sendTo nodeId trySend now).2 ∧
      ∀ nodeId' ≠ nodeId, (s.sendTo nodeId trySend now).1.window nodeId' = s.window nodeId' := by
  rw [sendTo]
  cases hget : s.peers.get? nodeId with
  | none =>
      have hnone : s.window nodeId = none := by
        rw [window, hget, Option.map_none]
      exact ⟨.absent hnone hnone, fun _ _ => rfl⟩
  | some peer =>
      have hwindow : s.window nodeId = some (windowOf peer) := by
        rw [window, hget, Option.map_some]
      dsimp only
      generalize hpeer₁ : (if durationSince now peer.lastReset ≥ .fromSecs 1 then
        { peer with
          msgCount := 0
          lastReset := now }
        else peer) = peer₁
      have hroll : windowOf peer₁ = (windowOf peer).roll second now := by
        rw [← hpeer₁, RateWindow.roll]
        by_cases hover : durationSince now peer.lastReset ≥ .fromSecs 1
        · rw [if_pos hover]
          exact (if_pos hover).symm
        · rw [if_neg hover]
          exact (if_neg hover).symm
      split
      · refine ⟨.refused hwindow ?_, fun nodeId' hne => ?_⟩
        · rw [window_insert, if_pos rfl, hroll]
        · rw [window_insert, if_neg hne]
      · next hbelow =>
          rw [ge_iff_le, UInt32.not_le, UInt32.lt_iff_toNat_lt] at hbelow
          refine ⟨.counted _ hwindow ?_ ?_, fun nodeId' hne => ?_⟩
          · -- the count is below the limit, so it does not wrap
            have hsucc : (peer₁.msgCount + 1).toNat = peer₁.msgCount.toNat + 1 := by
              have hlimit : rateLimitPerSec.toNat = 100 := rfl
              rw [UInt32.toNat_add, Nat.mod_eq_of_lt]
              · rfl
              · rw [show (1 : UInt32).toNat = 1 from rfl]
                omega
            rw [window_insert, if_pos rfl, RateWindow.hit, ← hroll, windowOf, hsucc]
            rfl
          · rw [← hroll]
            exact hbelow
          · rw [window_insert, if_neg hne]

/-! ## Every run -/

/-- What was sent to a node in the second that starts at `a` is within the limit of its windows. -/
def Limited (nodeId : NodeId) (a : Instant) (tr : List (Call Tx × Option Bool)) (now : Instant)
    (s : PeersManager Tx) : Prop :=
  RateWindow.Within rateLimitPerSec.toNat second a (tr.countP (isSent nodeId a))
    (tr.countP (isRegistered nodeId a)) now (s.window nodeId)

variable {a now t : Instant} {tr : List (Call Tx × Option Bool)} {l : Call Tx × Option Bool}

/-- A call that neither sends nor registers, and does not touch the window. -/
theorem Limited.other (h : Limited nodeId a tr now s) (ht : now ≤ t)
    (hsent : isSent nodeId a l = false) (hregistered : isRegistered nodeId a l = false)
    (hwindow : s'.window nodeId = none ∨ s'.window nodeId = s.window nodeId) :
    Limited nodeId a (tr ++ [l]) t s' := by
  rw [Limited, countP_snoc, countP_snoc, hsent, hregistered]
  rcases hwindow with hwindow | hwindow
  · rw [hwindow]
    exact (RateWindow.Within.wait h ht).close
  · rw [hwindow]
    exact RateWindow.Within.wait h ht

theorem Limited.registerPeer (h : Limited nodeId a tr now s) (ht : now ≤ t) (nodeId' : NodeId)
    (addr : SocketAddr) (tx : Tx) (isOutbound : Bool) (r : Option Bool) :
    Limited nodeId a (tr ++ [(.registerPeer nodeId' addr tx isOutbound t, r)]) t
      (s.registerPeer nodeId' addr tx isOutbound t) := by
  by_cases hnode : nodeId' = nodeId
  · have hsent : isSent nodeId a (.registerPeer nodeId' addr tx isOutbound t, r) = false := rfl
    rw [Limited, countP_snoc, countP_snoc, hsent, isRegistered, decide_eq_true hnode,
      Bool.true_and, window_registerPeer, if_pos hnode.symm]
    exact RateWindow.Within.reopen h ht
  · refine h.other ht rfl ?_ (Or.inr ?_)
    · rw [isRegistered, decide_eq_false hnode, Bool.false_and]
    · rw [window_registerPeer, if_neg (Ne.symm hnode)]

theorem Limited.sendTo (h : Limited nodeId a tr now s) (ht : now ≤ t) (nodeId' : NodeId)
    (trySend : Tx → Bool) :
    Limited nodeId a (tr ++ [(.sendTo nodeId' trySend t, some (s.sendTo nodeId' trySend t).2)]) t
      (s.sendTo nodeId' trySend t).1 := by
  rcases window_sendTo s nodeId' trySend t with ⟨hsends, hother⟩
  by_cases hnode : nodeId' = nodeId
  · subst hnode
    generalize (s.sendTo nodeId' trySend t).2 = sent at hsends ⊢
    rw [Limited] at h
    cases hsends with
    | absent _ hwindow => exact Limited.other h ht rfl rfl (Or.inl hwindow)
    | refused hbefore hwindow =>
        rw [hbefore] at h
        rw [Limited, countP_snoc, countP_snoc, hwindow]
        exact h.roll ht
    | counted _ hbefore hwindow hlt =>
        rw [hbefore] at h
        rw [Limited, countP_snoc, countP_snoc, hwindow]
        refine (h.hit ht hlt).fewer (Nat.add_le_add_left ?_ _)
        -- the channel may not have taken the message
        cases sent with
        | false => exact Nat.zero_le _
        | true => rw [isSent, decide_eq_true rfl, Bool.true_and]
  · refine h.other ht ?_ rfl (Or.inr (hother nodeId (Ne.symm hnode)))
    cases (s.sendTo nodeId' trySend t).2 with
    | false => rfl
    | true => rw [isSent, decide_eq_false hnode, Bool.false_and]

theorem Limited.step (h : Limited nodeId a tr now s) (hstep : stepOf next s l s')
    (ht : ∀ t ∈ l.1.time?, now ≤ t) : Limited nodeId a (tr ++ [l]) (l.1.time?.getD now) s' := by
  rcases l with ⟨call, r⟩
  rw [stepOf] at hstep
  cases call with
  | registerPeer nodeId' addr tx isOutbound t =>
      cases hstep
      exact h.registerPeer (ht t rfl) nodeId' addr tx isOutbound none
  | removePeer nodeId' =>
      cases hstep
      refine h.other le_rfl rfl rfl ?_
      rw [window_removePeer]
      split
      · exact Or.inl rfl
      · exact Or.inr rfl
  | sendTo nodeId' trySend t =>
      cases hstep
      exact h.sendTo (ht t rfl) nodeId' trySend
  | broadcast isClosed =>
      cases hstep
      exact h.other le_rfl rfl rfl (window_broadcast s isClosed nodeId)
  | updatePeerHeight nodeId' height =>
      cases hstep
      exact h.other le_rfl rfl rfl (Or.inr (window_updatePeerHeight s nodeId' nodeId height))
  | markConnectFailed addr t =>
      cases hstep
      exact h.other (ht t rfl) rfl rfl (Or.inr rfl)
  | tryReserveOutboundSlot addr t =>
      cases hstep
      exact h.other (ht t rfl) rfl rfl
        (Or.inr (window_tryReserveOutboundSlot s addr t nodeId))

/-- The last time that was read from the clock. -/
def lastTime (tr : List (Call Tx × Option Bool)) : Instant :=
  (clockTimes tr).getLastD 0

theorem clockTimes_snoc (tr : List (Call Tx × Option Bool)) (l : Call Tx × Option Bool) :
    clockTimes (tr ++ [l]) = clockTimes tr ++ l.1.time?.toList := by
  rw [clockTimes, List.filterMap_append]
  cases h : l.1.time? <;> simp [clockTimes, h]

theorem lastTime_snoc (tr : List (Call Tx × Option Bool)) (l : Call Tx × Option Bool) :
    lastTime (tr ++ [l]) = l.1.time?.getD (lastTime tr) := by
  rw [lastTime, clockTimes_snoc]
  cases l.1.time? with
  | none => rw [Option.toList_none, List.append_nil, Option.getD_none, lastTime]
  | some t => rw [Option.toList_some, List.getLastD_concat, Option.getD_some]

/-- A clock that does not go back shows times from the last one on. -/
theorem lastTime_le (hclock : (clockTimes (tr ++ [l])).Pairwise (· ≤ ·)) :
    ∀ t ∈ l.1.time?, lastTime tr ≤ t := by
  intro t ht
  rw [clockTimes_snoc, Option.mem_def.1 ht, Option.toList_some] at hclock
  have hall := (List.pairwise_append.1 hclock).2.2
  rcases List.mem_cons.1 (List.getLastD_mem_cons (l := clockTimes tr) (a := 0)) with hzero | hmem
  · rw [lastTime, hzero]
    exact Nat.zero_le t
  · exact hall _ hmem t (List.mem_singleton_self t)

theorem limited_new (nodeId : NodeId) (a : Instant) :
    Limited nodeId a [] 0 (new : PeersManager Tx) :=
  RateWindow.within_none

/-- In any second a node is sent at most twice the limit, and once more the limit for every time it
registers. -/
theorem sends_bounded (hrun : Run (stepOf next) new tr s)
    (hclock : (clockTimes tr).Pairwise (· ≤ ·)) (nodeId : NodeId) (a : Instant) :
    tr.countP (isSent nodeId a) ≤
      rateLimitPerSec.toNat * (2 + tr.countP (isRegistered nodeId a)) := by
  have hlimited : Limited nodeId a tr (lastTime tr) s := by
    refine RunWith.invariant (fun tr s => (clockTimes tr).Pairwise (· ≤ ·) →
      Limited nodeId a tr (lastTime tr) s) (fun _ => limited_new nodeId a) ?_ hrun hclock
    intro tr s l s' _ ih hstep _ hclock
    have htr : (clockTimes tr).Pairwise (· ≤ ·) := by
      rw [clockTimes_snoc] at hclock
      exact (List.pairwise_append.1 hclock).1
    rw [lastTime_snoc]
    exact (ih htr).step hstep (lastTime_le hclock)
  exact hlimited.total

/-- The node is sent two messages in the second that starts with its registration. -/
def sampleSends : List (Call Unit) :=
  [.registerPeer (sampleId 1) (sampleAddr 1 9000) () false 0,
    .sendTo (sampleId 1) (fun _ => true) 5,
    .sendTo (sampleId 1) (fun _ => true) 7]

theorem sends_bounded_sample :
    (trace next new sampleSends).countP (isSent (sampleId 1) 0) = 2 ∧
      (trace next new sampleSends).countP (isSent (sampleId 1) 0) ≤
        rateLimitPerSec.toNat *
          (2 + (trace next new sampleSends).countP (isRegistered (sampleId 1) 0)) :=
  ⟨by decide +kernel, sends_bounded (run_trace sampleSends) (by decide +kernel) _ _⟩

end PeersManager
end P2p
end Aevum
