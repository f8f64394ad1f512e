import Aevum.Lib.ReverseIndex
import Aevum.P2p.PeerCounters

/-!
# P2p.PeerIndex — when the address index matches the peer table

Two nodes may announce one address.  The index holds one of them, and forgets the address when
either of the two goes away or registers again from elsewhere.

* `getNodeId_removePeer`, `getNodeId_registerPeer` : what happens to the index;
* `index_exact_iff` : in a run of registrations and removals the index stays exact if and only if no
  node ever gives up an address that another node has too.
-/

namespace Aevum
namespace P2p
namespace PeersManager

open Lib

variable {Tx : Type}

/-- `addr_to_peer` names a connected peer for every address of a connected peer, and only peers
that have the address. -/
def IndexExact (s : PeersManager Tx) : Prop :=
  Indexes s.getAddrByNodeId s.getNodeId

/-- What the lookups promise. -/
structure LookupsExact (s : PeersManager Tx) : Prop where
  getNodeId : ∀ addr nodeId, s.getNodeId addr = some nodeId →
    ∃ peer, s.peers.get? nodeId = some peer ∧ peer.addr = addr
  connectedAddrSet : ∀ addr, addr ∈ s.connectedAddrSet ↔
    ∃ nodeId peer, s.peers.get? nodeId = some peer ∧ peer.addr = addr
  knownAddressesWithIds : ∀ nodeId peer, s.peers.get? nodeId = some peer →
    ∃ nodeId', (peer.addr, nodeId') ∈ s.knownAddressesWithIds ∧
      s.getAddrByNodeId nodeId' = some peer.addr

section Rules

variable {s s' : PeersManager Tx} {nodeId nodeId' : NodeId} {addr addr' : SocketAddr}

theorem getAddrByNodeId_eq_some : s.getAddrByNodeId nodeId = some addr ↔
    ∃ peer, s.peers.get? nodeId = some peer ∧ peer.addr = addr := by
  rw [getAddrByNodeId, Option.map_eq_some_iff]

theorem IndexExact.lookupsExact (h : IndexExact s) : LookupsExact s :=
  { getNodeId := fun addr nodeId hid => getAddrByNodeId_eq_some.1 (h.named addr nodeId hid)
    connectedAddrSet := fun addr => by
      rw [PeersManager.connectedAddrSet, FinMap.mem_keySet]
      refine (h.exists_iff addr).trans (exists_congr fun nodeId => getAddrByNodeId_eq_some)
    knownAddressesWithIds := fun nodeId peer hget => by
      have haddr := getAddrByNodeId_eq_some.2 ⟨peer, hget, rfl⟩
      rcases h.indexed peer.addr nodeId haddr with ⟨nodeId', hid⟩
      exact ⟨nodeId', FinMap.mem_toList.2 hid, h.named peer.addr nodeId' hid⟩ }

/-! ## One step -/

theorem getAddrByNodeId_removePeer (s : PeersManager Tx) (nodeId nodeId' : NodeId) :
    (s.removePeer nodeId).getAddrByNodeId nodeId' =
      if nodeId' = nodeId then none else s.getAddrByNodeId nodeId' := by
  rw [getAddrByNodeId, get?_peers_removePeer, getAddrByNodeId]
  split <;> rfl

theorem getNodeId_removePeer (s : PeersManager Tx) (nodeId : NodeId) (addr : SocketAddr) :
    (s.removePeer nodeId).getNodeId addr =
      if s.getAddrByNodeId nodeId = some addr then none else s.getNodeId addr := by
  cases hget : s.peers.get? nodeId with
  | none =>
      rw [removePeer_of_get?_eq_none hget, getAddrByNodeId, hget, Option.map_none, if_neg nofun]
  | some peer =>
      rw [removePeer_of_get?_eq_some hget, getAddrByNodeId, hget, Option.map_some]
      refine (FinMap.get?_erase s.addrToPeer peer.addr addr).trans ?_
      exact if_congr (eq_comm.trans Option.some_inj.symm) rfl rfl

theorem getAddrByNodeId_registerPeer (s : PeersManager Tx) (nodeId nodeId' : NodeId)
    (addr : SocketAddr) (tx : Tx) (isOutbound : Bool) (now : Instant) :
    (s.registerPeer nodeId addr tx isOutbound now).getAddrByNodeId nodeId' =
      if nodeId' = nodeId then some addr else s.getAddrByNodeId nodeId' := by
  -- of the new entry only the address matters here
  have hpeers : ∃ state : PeerState Tx,
      (s.registerPeer nodeId addr tx isOutbound now).peers = s.peers.insert nodeId state ∧
        state.addr = addr := by
    rw [registerPeer]
    cases s.peers.get? nodeId <;> exact ⟨_, rfl, rfl⟩
  rcases hpeers with ⟨state, hpeers, haddr⟩
  rw [getAddrByNodeId, hpeers, FinMap.get?_insert, getAddrByNodeId]
  split
  · rw [Option.map_some, haddr]
  · rfl

theorem getNodeId_registerPeer (s : PeersManager Tx) (nodeId : NodeId) (addr addr' : SocketAddr)
    (tx : Tx) (isOutbound : Bool) (now : Instant) :
    (s.registerPeer nodeId addr tx isOutbound now).getNodeId addr' =
      if addr' = addr then some nodeId
      else if s.getAddrByNodeId nodeId = some addr' then none else s.getNodeId addr' := by
  -- the index is updated as if the node had been removed before
  have hindex : (s.registerPeer nodeId addr tx isOutbound now).addrToPeer =
      (s.removePeer nodeId).addrToPeer.insert addr nodeId := by
    rw [registerPeer, removePeer]
    cases s.peers.get? nodeId <;> rfl
  rw [← getNodeId_removePeer, getNodeId, hindex]
  exact FinMap.get?_insert _ _ _ _

def Call.isRegistration : Call Tx → Bool
  | .registerPeer .. => true
  | .removePeer .. => true
  | _ => false

/-- No other node has the address that the call takes from the index for good. -/
def Unshared (s : PeersManager Tx) : Call Tx → Prop
  | .registerPeer nodeId addr _ _ _ =>
      ∀ old, s.getAddrByNodeId nodeId = some old → old ≠ addr → OnlyAt s.getAddrByNodeId nodeId old
  | .removePeer nodeId =>
      ∀ addr, s.getAddrByNodeId nodeId = some addr → OnlyAt s.getAddrByNodeId nodeId addr
  | _ => True

theorem IndexExact.next_iff {call : Call Tx} (h : IndexExact s)
    (hcall : call.isRegistration = true) :
    IndexExact (next s call).1 ↔ Unshared s call := by
  cases call with
  | registerPeer nodeId addr tx isOutbound now =>
      exact h.put_iff (fun nodeId' => getAddrByNodeId_registerPeer s nodeId nodeId' addr tx _ _)
        (fun addr' => getNodeId_registerPeer s nodeId addr addr' tx _ _)
  | removePeer nodeId =>
      exact h.erase_iff (getAddrByNodeId_removePeer s nodeId) (getNodeId_removePeer s nodeId)
  | _ => cases hcall

/-! ## Every run -/

theorem new_indexExact : IndexExact (new : PeersManager Tx) :=
  { named := fun _ _ h => by cases h
    indexed := fun _ _ h => by cases h }

theorem indexExact_of_run {tr : List (Call Tx × Option Bool)}
    (hrun : RunWith (stepOf next) (fun _ _ l s' => l.1.isRegistration = true ∧ IndexExact s') new
      tr s) : IndexExact s :=
  hrun.invariant_state IndexExact new_indexExact fun _ _ _ _ _ _ _ hP => hP.2

/-- The index is exact in all states of a run of registrations and removals if and only if no step
of the run makes it forget an address that another node has; then the lookups are right. -/
theorem index_exact_iff (tr : List (Call Tx × Option Bool)) (s : PeersManager Tx) :
    (RunWith (stepOf next) (fun _ _ l s' => l.1.isRegistration = true ∧ IndexExact s') new tr s ↔
      RunWith (stepOf next) (fun _ s l _ => l.1.isRegistration = true ∧ Unshared s l.1) new tr s) ∧
    (RunWith (stepOf next) (fun _ s l _ => l.1.isRegistration = true ∧ Unshared s l.1) new tr s →
      IndexExact s ∧ LookupsExact s) := by
  have hiff : RunWith (stepOf next) (fun _ _ l s' => l.1.isRegistration = true ∧ IndexExact s')
      new tr s ↔
        RunWith (stepOf next) (fun _ s l _ => l.1.isRegistration = true ∧ Unshared s l.1)
          new tr s := by
    refine RunWith.congr fun tr s l s' hrun _ hstep => and_congr_right fun hcall => ?_
    rw [← eq_of_stepOf hstep]
    exact (indexExact_of_run hrun).next_iff hcall
  refine ⟨hiff, fun hrun => ?_⟩
  have h := indexExact_of_run (hiff.2 hrun)
  exact ⟨h, h.lookupsExact⟩

end Rules

/-! ## Two nodes at one address -/

/-- Two nodes announce one address, and the first one leaves. -/
def sharedCalls : List (Call Unit) :=
  [.registerPeer (sampleId 1) (sampleAddr 1 9000) () false 0,
    .registerPeer (sampleId 2) (sampleAddr 1 9000) () false 0,
    .removePeer (sampleId 1)]

/-- The address of the node that stays is no longer found. -/
theorem sharedAddress_forgotten :
    ∃ (tr : List (Call Unit × Option Bool)) (s : PeersManager Unit),
      Run (stepOf next) new tr s ∧ (∀ l ∈ tr, l.1.isRegistration = true) ∧
        s.getAddrByNodeId (sampleId 2) = some (sampleAddr 1 9000) ∧
        s.getNodeId (sampleAddr 1 9000) = none ∧ ¬ IndexExact s := by
  have haddr : (final next new sharedCalls).getAddrByNodeId (sampleId 2) =
      some (sampleAddr 1 9000) := by
    decide +kernel
  have hid : (final next new sharedCalls).getNodeId (sampleAddr 1 9000) = none := by
    decide +kernel
  refine ⟨_, _, run_trace sharedCalls, by decide +kernel, haddr, hid, fun h => ?_⟩
  -- an exact index would name some node for the address
  rcases h.indexed _ _ haddr with ⟨nodeId, hsome⟩
  rw [hid] at hsome
  cases hsome

end PeersManager
end P2p
end Aevum
