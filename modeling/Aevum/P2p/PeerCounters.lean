import Aevum.P2p.Peers

/-!
# P2p.PeerCounters — the counters of the registry are exact

`connected_count`, `outbound_count` and the connections per IP are kept up to date one call at a
time.  A node that registers again is removed first (`registerPeer_removePeer`), so every change of
the peer table is the removal of a stored peer or the arrival of a new one.
-/

namespace Aevum
namespace P2p
namespace PeersManager

open Lib

variable {Tx : Type}

/-- The number of connected peers with an IP. -/
def peersAt (s : PeersManager Tx) (ip : IpAddr) : Nat :=
  s.peers.count fun peer => decide (peer.addr.ip = ip)

/-- The counters say what the peer table holds. -/
structure Counted (s : PeersManager Tx) : Prop where
  connected : s.connectedCount = s.peers.size
  outbound : s.outboundCount = s.peers.count PeerState.isOutbound
  perIp : Tally.Counts s.ipConnections s.peersAt

theorem new_counted : Counted (new : PeersManager Tx) :=
  { connected := rfl
    outbound := rfl
    perIp := Tally.counts_empty }

variable {s s' : PeersManager Tx} {nodeId : NodeId}

/-! ## Nothing is counted below zero -/

/-- A stored peer is counted by every counter that its removal decreases. -/
structure Backed (s : PeersManager Tx) (peer : PeerState Tx) : Prop where
  connected : 0 < s.connectedCount
  outbound : peer.isOutbound = true → 0 < s.outboundCount
  perIp : ∃ v, s.ipConnections.get? peer.addr.ip = some v ∧ 0 < v

theorem Counted.backed {peer : PeerState Tx} (h : Counted s)
    (hget : s.peers.get? nodeId = some peer) : Backed s peer := by
  have hsize := FinMap.size_erase s.peers nodeId
  -- whatever holds of the peer is counted at least once
  have hcount : ∀ p : PeerState Tx → Bool, p peer = true → 0 < s.peers.count p := by
    intro p hp
    have herase := FinMap.count_erase p s.peers nodeId
    rw [hget, Option.elim_some, hp, Bool.toNat_true] at herase
    omega
  have hip : 0 < s.peersAt peer.addr.ip := hcount _ (decide_eq_true rfl)
  exact
    { connected := by
        rw [hget, Option.elim_some] at hsize
        rw [h.connected]
        omega
      outbound := fun hout => h.outbound ▸ hcount _ hout
      perIp := ⟨_, by rw [h.perIp, if_neg hip.ne'], hip⟩ }

/-! ## One step -/

theorem Counted.removePeer (h : Counted s) (nodeId : NodeId) : Counted (s.removePeer nodeId) := by
  cases hget : s.peers.get? nodeId with
  | none =>
      rw [removePeer_of_get?_eq_none hget]
      exact h
  | some peer =>
      have hbacked := h.backed hget
      rw [removePeer_of_get?_eq_some hget]
      constructor
      · have hsize := FinMap.size_erase s.peers nodeId
        rw [hget, Option.elim_some, ← h.connected, ← fetchSub_add_one hbacked.connected] at hsize
        exact (Nat.add_right_cancel hsize).symm
      · have hcount := FinMap.count_erase PeerState.isOutbound s.peers nodeId
        rw [hget, Option.elim_some, ← h.outbound] at hcount
        dsimp only
        -- only an outbound peer was counted
        split
        · next hout =>
            rw [hout, Bool.toNat_true, ← fetchSub_add_one (hbacked.outbound hout)] at hcount
            exact (Nat.add_right_cancel hcount).symm
        · next hin =>
            rw [Bool.eq_false_iff.2 hin, Bool.toNat_false] at hcount
            exact hcount.symm
      · refine h.perIp.decr peer.addr.ip fun ip => ?_
        have hcount := FinMap.count_erase (fun p => decide (p.addr.ip = ip)) s.peers nodeId
        rw [hget, Option.elim_some] at hcount
        exact hcount

theorem Counted.registerPeer_new (h : Counted s) (hnew : s.peers.get? nodeId = none)
    (addr : SocketAddr) (tx : Tx) (isOutbound : Bool) (now : Instant) :
    Counted (s.registerPeer nodeId addr tx isOutbound now) := by
  rw [PeersManager.registerPeer, hnew]
  constructor
  · dsimp only
    rw [FinMap.size_insert_of_get?_eq_none _ hnew, h.connected]
  · dsimp only
    rw [FinMap.count_insert_of_get?_eq_none _ _ hnew, ← h.outbound]
    cases isOutbound <;> rfl
  · refine h.perIp.incr addr.ip fun ip => ?_
    exact FinMap.count_insert_of_get?_eq_none (fun p => decide (p.addr.ip = ip)) _ hnew

theorem Counted.registerPeer (h : Counted s) (nodeId : NodeId) (addr : SocketAddr) (tx : Tx)
    (isOutbound : Bool) (now : Instant) :
    Counted (s.registerPeer nodeId addr tx isOutbound now) := by
  rw [← registerPeer_removePeer tx fun peer hget => (h.backed hget).connected]
  -- now the node is new
  have hgone : (s.removePeer nodeId).peers.get? nodeId = none := by
    rw [get?_peers_removePeer, if_pos rfl]
  exact (h.removePeer nodeId).registerPeer_new hgone addr tx isOutbound now

theorem Counted.touched (h : Counted s) (htouched : Touched s s') : Counted s' := by
  rcases htouched with rfl | ⟨nodeId, peer, peer', hget, rfl, haddr, hout⟩
  · exact h
  · -- no counter looks at what has changed
    have hpeersAt : ∀ ip, s.peersAt ip = (s.peers.insert nodeId peer').count
        fun peer => decide (peer.addr.ip = ip) := by
      intro ip
      exact (FinMap.count_insert_of_eq hget (by rw [haddr])).symm
    constructor
    · rw [FinMap.size_insert_of_get?_eq_some peer' hget]
      exact h.connected
    · rw [FinMap.count_insert_of_eq hget hout]
      exact h.outbound
    · intro ip
      rw [peersAt, ← hpeersAt]
      exact h.perIp ip

theorem Counted.tryReserveOutboundSlot (h : Counted s) (addr : SocketAddr) (now : Instant) :
    Counted (s.tryReserveOutboundSlot addr now).1 := by
  rcases tryReserveOutboundSlot_cases s addr now with ⟨_, heq⟩ | ⟨_, heq, -, -⟩
  · rw [heq]
    exact ⟨h.connected, h.outbound, h.perIp⟩
  · rw [heq]
    exact ⟨h.connected, h.outbound, h.perIp⟩

theorem Counted.step {l : Call Tx × Option Bool} (h : Counted s) (hstep : stepOf next s l s') :
    Counted s' := by
  rw [← eq_of_stepOf hstep]
  cases l.1 with
  | registerPeer nodeId addr tx isOutbound now => exact h.registerPeer nodeId addr tx isOutbound now
  | removePeer nodeId => exact h.removePeer nodeId
  | sendTo nodeId trySend now => exact h.touched (sendTo_touched s nodeId trySend now)
  | broadcast isClosed =>
      exact broadcast_invariant Counted (fun _ nodeId h => h.removePeer nodeId) h isClosed
  | updatePeerHeight nodeId height => exact h.touched (updatePeerHeight_touched s nodeId height)
  | markConnectFailed addr now => exact ⟨h.connected, h.outbound, h.perIp⟩
  | tryReserveOutboundSlot addr now => exact h.tryReserveOutboundSlot addr now

/-! ## Every run -/

theorem Counted.canAccept_iff (h : Counted s) (addr : SocketAddr) :
    s.canAccept addr = true ↔ s.peers.size < maxPeers ∧ s.peersAt addr.ip < maxPerIp := by
  rw [canAccept, h.connected, h.perIp addr.ip]
  -- an IP without an entry has no peers
  by_cases hfull : s.peers.size ≥ maxPeers
  · simp [hfull]
  · by_cases hnone : s.peersAt addr.ip = 0
    · simp [hnone, maxPerIp, not_le.1 hfull]
    · simp [hnone, not_le.1 hfull]

theorem counted_of_run {tr : List (Call Tx × Option Bool)} (hrun : Run (stepOf next) new tr s) :
    Counted s :=
  RunWith.invariant_state Counted new_counted (fun _ _ _ _ _ h hstep _ => h.step hstep) hrun

/-- In every reachable state the counters are exact, no removal takes one below zero, and
`can_accept` decides on the true numbers. -/
theorem counters_exact {tr : List (Call Tx × Option Bool)} (hrun : Run (stepOf next) new tr s) :
    Counted s ∧ (∀ nodeId peer, s.peers.get? nodeId = some peer → Backed s peer) ∧
      ∀ addr, s.canAccept addr = true ↔
        s.peers.size < maxPeers ∧ s.peersAt addr.ip < maxPerIp := by
  have hcounted := counted_of_run hrun
  exact ⟨hcounted, fun _ _ hget => hcounted.backed hget, hcounted.canAccept_iff⟩

/-! ## A node that comes back from another address -/

def sampleId (n : UInt8) : NodeId := .fill 32 n

def sampleAddr (n : UInt8) (port : UInt16) : SocketAddr := .v4 (.fill 4 n) port

/-- The first node registers again, from another IP and in the other direction. -/
def sampleCalls : List (Call Unit) :=
  [.registerPeer (sampleId 1) (sampleAddr 1 9000) () false 0,
    .registerPeer (sampleId 2) (sampleAddr 1 9001) () false 0,
    .registerPeer (sampleId 1) (sampleAddr 2 9000) () true 1]

theorem counters_exact_sample :
    (final next new sampleCalls).outboundCount = 1 ∧
      (final next new sampleCalls).peersAt (sampleAddr 1 0).ip = 1 ∧
      Counted (final next new sampleCalls) :=
  ⟨by decide +kernel, by decide +kernel, (counters_exact (run_trace sampleCalls)).1⟩

end PeersManager
end P2p
end Aevum
