import Aevum.Lib.Machine
import Aevum.Lib.Tally
import Aevum.P2p.Address

/-!
# P2p.Peers — `peers.rs`

The registry of connected peers, with its address index, its counters and the reservations of
outbound slots.  A call runs to its end before the next one starts and reads the clock once.  What
is saved in the peer storage is not part of the state; `save_peer_address_indexed` is left out.

The counters are `usize` and wrap below zero where the code subtracts with `fetch_sub`.  They are
not cut off at the top: more than 2^64 entries do not fit into a map.
-/

namespace Aevum
namespace P2p

open Lib

def maxPeers : Nat := 1000

def maxOutbound : Nat := 32

def maxConnecting : Nat := 8

def maxPerIp : Nat := 4

def rateLimitPerSec : UInt32 := 100

/-- `std::time::Instant`, in nanoseconds. -/
abbrev Instant := Nat

/-- `std::time::Duration`, in nanoseconds. -/
abbrev Duration := Nat

def Duration.fromSecs (secs : Nat) : Duration := secs * 1000000000

def connectRetry : Duration := .fromSecs 30

def attemptTtl : Duration := .fromSecs 600

/-- `now.duration_since(t)`, zero for a time that is still to come. -/
def durationSince (now t : Instant) : Duration := now - t

/-- `AtomicUsize::fetch_sub(1)`. -/
def fetchSub (n : Nat) : Nat :=
  if n = 0 then 2 ^ 64 - 1 else n - 1

inductive ConnectionState
  | connecting
  | connected
  deriving DecidableEq

/-- A peer; `Tx` is the type of the sending ends of channels. -/
structure PeerState (Tx : Type) where
  tx : Tx
  addr : SocketAddr
  peerHeight : UInt64
  msgCount : UInt32
  lastReset : Instant
  connectedAt : Instant
  isOutbound : Bool
  state : ConnectionState

structure PeersManager (Tx : Type) where
  peers : FinMap NodeId (PeerState Tx)
  addrToPeer : FinMap SocketAddr NodeId
  ipConnections : FinMap IpAddr Nat
  lastConnectAttempt : FinMap SocketAddr Instant
  connectedCount : Nat
  outboundCount : Nat
  connectingCount : Nat

namespace PeersManager

variable {Tx : Type}

def new : PeersManager Tx :=
  { peers := .empty
    addrToPeer := .empty
    ipConnections := .empty
    lastConnectAttempt := .empty
    connectedCount := 0
    outboundCount := 0
    connectingCount := 0 }

def canAccept (s : PeersManager Tx) (addr : SocketAddr) : Bool :=
  if s.connectedCount ≥ maxPeers then false
  else ((s.ipConnections.get? addr.ip).map fun v => decide (v < maxPerIp)).getD true

/-! ## Registration and removal -/

/-- `decrement_ip`; the entry goes when nothing is left. -/
def decrementIp (s : PeersManager Tx) (ip : IpAddr) : PeersManager Tx :=
  { s with ipConnections := Tally.decr s.ipConnections ip }

def registerPeer (s : PeersManager Tx) (nodeId : NodeId) (addr : SocketAddr) (tx : Tx)
    (isOutbound : Bool) (now : Instant) : PeersManager Tx :=
  let state : PeerState Tx :=
    { tx := tx
      addr := addr
      peerHeight := 0
      msgCount := 0
      lastReset := now
      connectedAt := now
      isOutbound := isOutbound
      state := .connected }
  let s₁ :=
    match s.peers.get? nodeId with
    | some old =>
        -- the entry of the old address goes, whichever node it names
        { s with
          peers := s.peers.insert nodeId state
          addrToPeer := s.addrToPeer.erase old.addr
          ipConnections := (s.decrementIp old.addr.ip).ipConnections
          outboundCount := if old.isOutbound then fetchSub s.outboundCount else s.outboundCount }
    | none =>
        { s with
          peers := s.peers.insert nodeId state
          connectedCount := s.connectedCount + 1 }
  -- one attempt less is counted for inbound peers, too
  { s₁ with
    addrToPeer := s₁.addrToPeer.insert addr nodeId
    ipConnections := Tally.incr s₁.ipConnections addr.ip
    outboundCount := if isOutbound then s₁.outboundCount + 1 else s₁.outboundCount
    connectingCount := s₁.connectingCount - 1 }

def removePeer (s : PeersManager Tx) (nodeId : NodeId) : PeersManager Tx :=
  match s.peers.get? nodeId with
  | some state =>
      { s with
        peers := s.peers.erase nodeId
        addrToPeer := s.addrToPeer.erase state.addr
        ipConnections := (s.decrementIp state.addr.ip).ipConnections
        outboundCount := if state.isOutbound then fetchSub s.outboundCount else s.outboundCount
        connectedCount := fetchSub s.connectedCount }
  | none => s

/-! ## Lookups -/

def getNodeId (s : PeersManager Tx) (addr : SocketAddr) : Option NodeId :=
  s.addrToPeer.get? addr

def getAddrByNodeId (s : PeersManager Tx) (nodeId : NodeId) : Option SocketAddr :=
  (s.peers.get? nodeId).map PeerState.addr

def connectedAddrSet (s : PeersManager Tx) : Finset SocketAddr :=
  s.addrToPeer.keySet

def knownAddressesWithIds (s : PeersManager Tx) : List (SocketAddr × NodeId) :=
  s.addrToPeer.toList

/-! ## Messages -/

/-- `send_to`; `trySend` tells which channels take the message. -/
def sendTo (s : PeersManager Tx) (nodeId : NodeId) (trySend : Tx → Bool) (now : Instant) :
    PeersManager Tx × Bool :=
  match s.peers.get? nodeId with
  | none => (s, false)
  | some peer =>
      -- a new second starts a new count
      let peer₁ :=
        if durationSince now peer.lastReset ≥ .fromSecs 1 then
          { peer with
            msgCount := 0
            lastReset := now }
        else peer
      if peer₁.msgCount ≥ rateLimitPerSec then
        ({ s with peers := s.peers.insert nodeId peer₁ }, false)
      else
        let peer₂ := { peer₁ with msgCount := peer₁.msgCount + 1 }
        ({ s with peers := s.peers.insert nodeId peer₂ }, trySend peer₂.tx)

/-- `broadcast`; `isClosed` tells what the channel of a peer answers when the loop gets there. -/
def broadcast (s : PeersManager Tx) (isClosed : NodeId → Tx → Bool) : PeersManager Tx :=
  let dead := s.peers.keysWhere fun nodeId peer => isClosed nodeId peer.tx
  dead.foldl removePeer s

def updatePeerHeight (s : PeersManager Tx) (nodeId : NodeId) (height : UInt64) :
    PeersManager Tx :=
  match s.peers.get? nodeId with
  | some peer =>
      let peer₁ := { peer with peerHeight := max peer.peerHeight height }
      { s with peers := s.peers.insert nodeId peer₁ }
  | none => s

def getPeerHeight (s : PeersManager Tx) (nodeId : NodeId) : UInt64 :=
  ((s.peers.get? nodeId).map PeerState.peerHeight).getD 0

/-! ## Outbound slots -/

def markConnectFailed (s : PeersManager Tx) (addr : SocketAddr) (now : Instant) :
    PeersManager Tx :=
  { s with
    lastConnectAttempt := s.lastConnectAttempt.insert addr now
    connectingCount := s.connectingCount - 1 }

def tryReserveOutboundSlot (s : PeersManager Tx) (addr : SocketAddr) (now : Instant) :
    PeersManager Tx × Bool :=
  -- attempts in flight are checked against a limit of their own, and not against this one
  if s.outboundCount ≥ maxOutbound then (s, false)
  else if s.connectingCount ≥ maxConnecting then (s, false)
  else
    let attempts := s.lastConnectAttempt.retain fun _ t => decide (durationSince now t < attemptTtl)
    -- the last attempt on this address may be too recent
    if (attempts.get? addr).any fun t => decide (durationSince now t < connectRetry) then
      ({ s with lastConnectAttempt := attempts }, false)
    else
      ({ s with
          lastConnectAttempt := attempts.insert addr now
          connectingCount := s.connectingCount + 1 }, true)

/-! ## Calls -/

inductive Call (Tx : Type)
  | registerPeer (nodeId : NodeId) (addr : SocketAddr) (tx : Tx) (isOutbound : Bool)
      (now : Instant)
  | removePeer (nodeId : NodeId)
  | sendTo (nodeId : NodeId) (trySend : Tx → Bool) (now : Instant)
  | broadcast (isClosed : NodeId → Tx → Bool)
  | updatePeerHeight (nodeId : NodeId) (height : UInt64)
  | markConnectFailed (addr : SocketAddr) (now : Instant)
  | tryReserveOutboundSlot (addr : SocketAddr) (now : Instant)

/-- One call and what it returns. -/
def next (s : PeersManager Tx) : Call Tx → PeersManager Tx × Option Bool
  | .registerPeer nodeId addr tx isOutbound now =>
      (s.registerPeer nodeId addr tx isOutbound now, none)
  | .removePeer nodeId => (s.removePeer nodeId, none)
  | .sendTo nodeId trySend now =>
      let (s', sent) := s.sendTo nodeId trySend now
      (s', some sent)
  | .broadcast isClosed => (s.broadcast isClosed, none)
  | .updatePeerHeight nodeId height => (s.updatePeerHeight nodeId height, none)
  | .markConnectFailed addr now => (s.markConnectFailed addr now, none)
  | .tryReserveOutboundSlot addr now =>
      let (s', reserved) := s.tryReserveOutboundSlot addr now
      (s', some reserved)

/-! ## What the calls change -/

theorem fetchSub_add_one {n : Nat} (h : 0 < n) : fetchSub n + 1 = n := by
  rw [fetchSub, if_neg h.ne']
  exact Nat.sub_add_cancel h

section Facts

variable {s : PeersManager Tx} {nodeId : NodeId} {addr : SocketAddr} {isOutbound : Bool}
  {now : Instant}

theorem removePeer_of_get?_eq_none (h : s.peers.get? nodeId = none) : s.removePeer nodeId = s := by
  rw [removePeer, h]

theorem removePeer_of_get?_eq_some {peer : PeerState Tx} (h : s.peers.get? nodeId = some peer) :
    s.removePeer nodeId =
      { s with
        peers := s.peers.erase nodeId
        addrToPeer := s.addrToPeer.erase peer.addr
        ipConnections := Tally.decr s.ipConnections peer.addr.ip
        outboundCount := if peer.isOutbound then fetchSub s.outboundCount else s.outboundCount
        connectedCount := fetchSub s.connectedCount } := by
  rw [removePeer, h]
  rfl

theorem get?_peers_removePeer (s : PeersManager Tx) (nodeId nodeId' : NodeId) :
    (s.removePeer nodeId).peers.get? nodeId' =
      if nodeId' = nodeId then none else s.peers.get? nodeId' := by
  cases h : s.peers.get? nodeId with
  | none =>
      rw [removePeer_of_get?_eq_none h]
      split
      · next heq => rw [heq, h]
      · rfl
  | some peer =>
      rw [removePeer_of_get?_eq_some h]
      exact FinMap.get?_erase _ _ _

/-- A node that registers again is removed first. -/
theorem registerPeer_removePeer (tx : Tx)
    (hpos : ∀ peer, s.peers.get? nodeId = some peer → 0 < s.connectedCount) :
    (s.removePeer nodeId).registerPeer nodeId addr tx isOutbound now =
      s.registerPeer nodeId addr tx isOutbound now := by
  cases h : s.peers.get? nodeId with
  | none => rw [removePeer_of_get?_eq_none h]
  | some peer =>
      have hgone : (s.peers.erase nodeId).get? nodeId = none := by
        rw [FinMap.get?_erase, if_pos rfl]
      -- the removal takes one from the counter, and the registration of a new node gives it back
      have hcount : fetchSub s.connectedCount + 1 = s.connectedCount :=
        fetchSub_add_one (hpos peer h)
      rw [removePeer_of_get?_eq_some h]
      simp only [registerPeer, h, hgone, FinMap.insert_erase, hcount]
      rfl

/-- `broadcast` removes one closed peer after the other. -/
theorem broadcast_invariant (I : PeersManager Tx → Prop)
    (hremove : ∀ s nodeId, I s → I (s.removePeer nodeId)) (h : I s)
    (isClosed : NodeId → Tx → Bool) : I (s.broadcast isClosed) := by
  rw [broadcast]
  generalize s.peers.keysWhere _ = dead
  induction dead generalizing s with
  | nil => exact h
  | cons nodeId dead ih => exact ih (hremove s nodeId h)

/-- The state after a call that only changes heights, message counts and times of one peer. -/
def Touched (s s' : PeersManager Tx) : Prop :=
  s' = s ∨ ∃ nodeId peer peer', s.peers.get? nodeId = some peer ∧
    s' = { s with peers := s.peers.insert nodeId peer' } ∧
    peer'.addr = peer.addr ∧ peer'.isOutbound = peer.isOutbound

theorem Touched.counts {s' : PeersManager Tx} (h : Touched s s') :
    s'.outboundCount = s.outboundCount ∧ s'.connectingCount = s.connectingCount := by
  rcases h with rfl | ⟨_, _, _, -, rfl, -, -⟩
  · exact ⟨rfl, rfl⟩
  · exact ⟨rfl, rfl⟩

theorem sendTo_touched (s : PeersManager Tx) (nodeId : NodeId) (trySend : Tx → Bool)
    (now : Instant) : Touched s (s.sendTo nodeId trySend now).1 := by
  cases h : s.peers.get? nodeId with
  | none =>
      rw [sendTo, h]
      exact Or.inl rfl
  | some peer =>
      simp only [sendTo, h]
      right
      split <;> split <;> exact ⟨nodeId, peer, _, h, rfl, rfl, rfl⟩

theorem updatePeerHeight_touched (s : PeersManager Tx) (nodeId : NodeId) (height : UInt64) :
    Touched s (s.updatePeerHeight nodeId height) := by
  cases h : s.peers.get? nodeId with
  | none =>
      rw [updatePeerHeight, h]
      exact Or.inl rfl
  | some peer =>
      rw [updatePeerHeight, h]
      exact Or.inr ⟨nodeId, peer, _, h, rfl, rfl, rfl⟩

/-- A slot is refused, and at most old attempts are forgotten, or it is reserved below both
limits. -/
theorem tryReserveOutboundSlot_cases (s : PeersManager Tx) (addr : SocketAddr) (now : Instant) :
    (∃ attempts, s.tryReserveOutboundSlot addr now =
      ({ s with lastConnectAttempt := attempts }, false)) ∨
    (∃ attempts, s.tryReserveOutboundSlot addr now =
        ({ s with
            lastConnectAttempt := attempts
            connectingCount := s.connectingCount + 1 }, true) ∧
      s.outboundCount < maxOutbound ∧ s.connectingCount < maxConnecting) := by
  by_cases hout : s.outboundCount ≥ maxOutbound
  · exact Or.inl ⟨_, if_pos hout⟩
  · by_cases hconn : s.connectingCount ≥ maxConnecting
    · exact Or.inl ⟨_, (if_neg hout).trans (if_pos hconn)⟩
    · rw [tryReserveOutboundSlot, if_neg hout, if_neg hconn]
      dsimp only
      split
      · exact Or.inl ⟨_, rfl⟩
      · exact Or.inr ⟨_, rfl, not_le.1 hout, not_le.1 hconn⟩

end Facts

end PeersManager
end P2p
end Aevum
