import Aevum.P2p.PeerCounters

/-!
# P2p.Outbound — reservations of outbound slots

An attempt to connect reserves a slot and later registers the peer or reports a failure; until then
it is in flight.  The registry has no record of the attempts but `connecting_count`, so a session
counts them beside it.

* `outbound_bounded` : the outbound limit holds if no slot is reserved when the peers and the
  attempts in flight fill it;
* `connecting_exact_iff` : `connecting_count` is the number of attempts in flight if and only if
  inbound peers register only while there are none.
-/

namespace Aevum
namespace P2p
namespace PeersManager

open Lib

variable {Tx : Type}

/-! ## Sessions -/

/-- The registry and the number of reservations that are not resolved yet. -/
structure Session (Tx : Type) where
  manager : PeersManager Tx
  inFlight : Nat

def Call.isOutbound : Call Tx → Bool
  | .registerPeer _ _ _ isOutbound _ => isOutbound
  | _ => false

def Call.isInbound : Call Tx → Bool
  | .registerPeer _ _ _ isOutbound _ => !isOutbound
  | _ => false

/-- The calls that end an attempt. -/
def Call.resolves : Call Tx → Bool
  | .registerPeer _ _ _ isOutbound _ => isOutbound
  | .markConnectFailed .. => true
  | _ => false

def Call.isReservation : Call Tx → Bool
  | .tryReserveOutboundSlot .. => true
  | _ => false

/-- A slot has been reserved. -/
def Granted (l : Call Tx × Option Bool) : Prop :=
  l.1.isReservation = true ∧ l.2 = some true

instance (l : Call Tx × Option Bool) : Decidable (Granted l) :=
  inferInstanceAs (Decidable (_ ∧ _))

/-- A call in a session.  An outbound peer registers only to resolve a reservation; a failure may
resolve one or not. -/
inductive Step : Session Tx → Call Tx × Option Bool → Session Tx → Prop
  | reserved {s s' : PeersManager Tx} {n : Nat} {l : Call Tx × Option Bool} :
      stepOf next s l s' → Granted l → Step ⟨s, n⟩ l ⟨s', n + 1⟩
  | resolved {s s' : PeersManager Tx} {n : Nat} {l : Call Tx × Option Bool} :
      stepOf next s l s' → l.1.resolves = true → Step ⟨s, n + 1⟩ l ⟨s', n⟩
  | other {s s' : PeersManager Tx} {n : Nat} {l : Call Tx × Option Bool} :
      stepOf next s l s' → ¬ Granted l → l.1.isOutbound = false → Step ⟨s, n⟩ l ⟨s', n⟩

def Session.new : Session Tx :=
  { manager := PeersManager.new
    inFlight := 0 }

/-! ## What a call does to the two counters -/

section Counters

variable {s s' : PeersManager Tx} {l : Call Tx × Option Bool}

theorem Granted.exists_eq (h : Granted l) :
    ∃ addr now, l = (.tryReserveOutboundSlot addr now, some true) := by
  rcases l with ⟨call, r⟩
  rcases h with ⟨hcall, rfl⟩
  cases call with
  | tryReserveOutboundSlot addr now => exact ⟨addr, now, rfl⟩
  | _ => cases hcall

theorem outboundCount_removePeer_le (h : Counted s) (nodeId : NodeId) :
    (s.removePeer nodeId).outboundCount ≤ s.outboundCount := by
  cases hget : s.peers.get? nodeId with
  | none => rw [removePeer_of_get?_eq_none hget]
  | some peer =>
      rw [removePeer_of_get?_eq_some hget]
      dsimp only
      -- the counter does not wrap, as the removed peer is counted
      split
      · next hout =>
          have hsub := fetchSub_add_one ((h.backed hget).outbound hout)
          omega
      · exact le_rfl

theorem outboundCount_broadcast_le (h : Counted s) (isClosed : NodeId → Tx → Bool) :
    (s.broadcast isClosed).outboundCount ≤ s.outboundCount := by
  -- the bound is kept together with the counters
  have hkeep : ∀ (s' : PeersManager Tx) (nodeId : NodeId),
      Counted s' ∧ s'.outboundCount ≤ s.outboundCount →
        Counted (s'.removePeer nodeId) ∧ (s'.removePeer nodeId).outboundCount ≤ s.outboundCount :=
    fun s' nodeId hs' =>
      ⟨hs'.1.removePeer nodeId, (outboundCount_removePeer_le hs'.1 nodeId).trans hs'.2⟩
  exact (broadcast_invariant _ hkeep ⟨h, le_rfl⟩ isClosed).2

theorem outboundCount_registerPeer (s : PeersManager Tx) (nodeId : NodeId) (addr : SocketAddr)
    (tx : Tx) (isOutbound : Bool) (now : Instant) :
    (s.registerPeer nodeId addr tx isOutbound now).outboundCount =
      (s.removePeer nodeId).outboundCount + isOutbound.toNat := by
  rw [registerPeer, removePeer]
  cases s.peers.get? nodeId <;> cases isOutbound <;> rfl

/-- Only the registration of an outbound peer adds to `outbound_count`. -/
theorem outboundCount_le_of_step (h : Counted s) (hstep : stepOf next s l s') :
    s'.outboundCount ≤ s.outboundCount + l.1.isOutbound.toNat := by
  rw [← eq_of_stepOf hstep]
  cases l.1 with
  | registerPeer nodeId addr tx isOutbound now =>
      have hle := outboundCount_removePeer_le h nodeId
      exact (outboundCount_registerPeer s nodeId addr tx isOutbound now).trans_le
        (Nat.add_le_add_right hle _)
  | removePeer nodeId => exact outboundCount_removePeer_le h nodeId
  | sendTo nodeId trySend now => exact (sendTo_touched s nodeId trySend now).counts.1.le
  | broadcast isClosed => exact outboundCount_broadcast_le h isClosed
  | updatePeerHeight nodeId height => exact (updatePeerHeight_touched s nodeId height).counts.1.le
  | markConnectFailed addr now => exact le_rfl
  | tryReserveOutboundSlot addr now =>
      rcases tryReserveOutboundSlot_cases s addr now with ⟨_, heq⟩ | ⟨_, heq, -, -⟩
      · exact (congrArg (fun r => outboundCount r.1) heq).le
      · exact (congrArg (fun r => outboundCount r.1) heq).le

theorem connectingCount_removePeer (s : PeersManager Tx) (nodeId : NodeId) :
    (s.removePeer nodeId).connectingCount = s.connectingCount := by
  rw [removePeer]
  cases s.peers.get? nodeId <;> rfl

theorem connectingCount_broadcast (s : PeersManager Tx) (isClosed : NodeId → Tx → Bool) :
    (s.broadcast isClosed).connectingCount = s.connectingCount :=
  broadcast_invariant (fun s' => s'.connectingCount = s.connectingCount)
    (fun s' nodeId hs' => (connectingCount_removePeer s' nodeId).trans hs') rfl isClosed

theorem connectingCount_registerPeer (s : PeersManager Tx) (nodeId : NodeId) (addr : SocketAddr)
    (tx : Tx) (isOutbound : Bool) (now : Instant) :
    (s.registerPeer nodeId addr tx isOutbound now).connectingCount = s.connectingCount - 1 := by
  rw [registerPeer]
  cases s.peers.get? nodeId <;> rfl

/-- A slot is reserved below the limit of attempts, and one more is counted. -/
theorem connectingCount_of_granted (hstep : stepOf next s l s') (hgranted : Granted l) :
    s'.connectingCount = s.connectingCount + 1 ∧ s.connectingCount < maxConnecting := by
  rcases hgranted.exists_eq with ⟨addr, now, rfl⟩
  have hnext : next s (.tryReserveOutboundSlot addr now) = (s', some true) := hstep
  rcases tryReserveOutboundSlot_cases s addr now with ⟨_, heq⟩ | ⟨_, heq, -, hroom⟩
  · rw [next, heq] at hnext
    cases hnext
  · rw [next, heq] at hnext
    cases hnext
    exact ⟨rfl, hroom⟩

/-- Every other registration and every failure counts one less, down to zero. -/
theorem connectingCount_of_not_granted (hstep : stepOf next s l s') (hgranted : ¬ Granted l) :
    s'.connectingCount = s.connectingCount - (l.1.resolves || l.1.isInbound).toNat := by
  rcases l with ⟨call, r⟩
  have hnext : (next s call).1 = s' := eq_of_stepOf hstep
  cases call with
  | registerPeer nodeId addr tx isOutbound now =>
      rw [← hnext]
      cases isOutbound <;> exact connectingCount_registerPeer s nodeId addr tx _ now
  | removePeer nodeId =>
      rw [← hnext]
      exact connectingCount_removePeer s nodeId
  | sendTo nodeId trySend now =>
      rw [← hnext]
      exact (sendTo_touched s nodeId trySend now).counts.2
  | broadcast isClosed =>
      rw [← hnext]
      exact connectingCount_broadcast s isClosed
  | updatePeerHeight nodeId height =>
      rw [← hnext]
      exact (updatePeerHeight_touched s nodeId height).counts.2
  | markConnectFailed addr now =>
      rw [← hnext]
      rfl
  | tryReserveOutboundSlot addr now =>
      have hnext : next s (.tryReserveOutboundSlot addr now) = (s', r) := hstep
      rcases tryReserveOutboundSlot_cases s addr now with ⟨_, heq⟩ | ⟨_, heq, -, -⟩
      · rw [next, heq] at hnext
        cases hnext
        rfl
      · rw [next, heq] at hnext
        cases hnext
        exact (hgranted ⟨rfl, rfl⟩).elim

end Counters

section Rules

variable {x x' : Session Tx} {l : Call Tx × Option Bool} {tr : List (Call Tx × Option Bool)}

/-! ## Running a session -/

theorem Granted.isOutbound_eq_false (h : Granted l) : l.1.isOutbound = false := by
  rcases h.exists_eq with ⟨addr, now, rfl⟩
  rfl

theorem Granted.isInbound_eq_false (h : Granted l) : l.1.isInbound = false := by
  rcases h.exists_eq with ⟨addr, now, rfl⟩
  rfl

theorem not_granted_of_resolves (h : l.1.resolves = true) : ¬ Granted l := by
  intro hgranted
  rcases hgranted.exists_eq with ⟨addr, now, rfl⟩
  cases h

theorem isInbound_eq_false_of_resolves (h : l.1.resolves = true) : l.1.isInbound = false := by
  cases hcall : l.1 with
  | registerPeer nodeId addr tx isOutbound now =>
      rw [hcall] at h
      exact congrArg not h
  | _ => rfl

theorem isOutbound_eq_false_of_not_resolves {call : Call Tx} (h : call.resolves = false) :
    call.isOutbound = false := by
  cases call with
  | registerPeer nodeId addr tx isOutbound now => exact h
  | _ => rfl

/-- A registration of an outbound peer and a failure each resolve a reservation. -/
def Resolves (x : Session Tx) (l : Call Tx × Option Bool) (x' : Session Tx) : Prop :=
  l.1.resolves = true → x.inFlight = x'.inFlight + 1

/-- A call in a session in which every failure resolves a reservation. -/
def Session.next (x : Session Tx) (call : Call Tx) : Session Tx × Option Bool :=
  let (s', r) := PeersManager.next x.manager call
  let inFlight :=
    if Granted (call, r) then x.inFlight + 1
    else if call.resolves then x.inFlight - 1
    else x.inFlight
  ({ manager := s'
     inFlight := inFlight }, r)

/-- There is an attempt in flight for a call that resolves one. -/
def Session.mayCall (x : Session Tx) (call : Call Tx) : Bool :=
  !call.resolves || decide (0 < x.inFlight)

theorem Session.step_next {x : Session Tx} {call : Call Tx} (h : x.mayCall call = true) :
    Step x (call, (x.next call).2) (x.next call).1 ∧
      Resolves x (call, (x.next call).2) (x.next call).1 := by
  rcases x with ⟨s, n⟩
  generalize hr : PeersManager.next s call = p
  rcases p with ⟨s', r⟩
  simp only [Session.next, hr]
  cases hres : call.resolves with
  | true =>
      rw [if_neg (not_granted_of_resolves hres), if_pos rfl]
      -- the attempt that the call resolves
      rcases n with _ | n
      · simp [mayCall, hres] at h
      · exact ⟨Step.resolved hr hres, fun _ => rfl⟩
  | false =>
      refine ⟨?_, fun htrue => ?_⟩
      · split
        · next hgranted => exact Step.reserved hr hgranted
        · next hrefused => exact Step.other hr hrefused (isOutbound_eq_false_of_not_resolves hres)
      · rw [hres] at htrue
        cases htrue

/-- Calls that keep to the discipline make a session. -/
theorem Session.run_of_allowed (calls : List (Call Tx))
    (h : allowed Session.next Session.mayCall Session.new calls = true) :
    RunWith Step (fun _ x l x' => Resolves x l x') Session.new
      (trace Session.next Session.new calls) (final Session.next Session.new calls) := by
  have hok : ∀ (tr : List (Call Tx × Option Bool)) (x : Session Tx) (call : Call Tx),
      x.mayCall call = true → Step x (call, (x.next call).2) (x.next call).1 ∧
        Resolves x (call, (x.next call).2) (x.next call).1 :=
    fun _ _ _ h => Session.step_next h
  exact RunWith.append_allowed (P := fun _ x l x' => Resolves x l x') hok RunWith.nil h

def reserveCall (n : Nat) : Call Unit :=
  .tryReserveOutboundSlot (sampleAddr n.toUInt8 9000) 0

def registerCall (isOutbound : Bool) (n : Nat) : Call Unit :=
  .registerPeer (sampleId n.toUInt8) (sampleAddr n.toUInt8 9000) () isOutbound 0

/-! ## The outbound limit -/

/-- A slot is reserved only while the outbound peers and the attempts in flight leave one. -/
def Spare (x : Session Tx) (l : Call Tx × Option Bool) : Prop :=
  Granted l → x.manager.outboundCount + x.inFlight < maxOutbound

/-- The limit holds even if all attempts in flight succeed. -/
structure WithinLimit (x : Session Tx) : Prop where
  counted : Counted x.manager
  bounded : x.manager.outboundCount + x.inFlight ≤ maxOutbound

theorem WithinLimit.step (h : WithinLimit x) (hstep : Step x l x') (hspare : Spare x l) :
    WithinLimit x' := by
  rcases h with ⟨hcounted, hbounded⟩
  cases hstep with
  | @reserved s s' n l hnext hgranted =>
      have hle := outboundCount_le_of_step (s := s) hcounted hnext
      have hroom : s.outboundCount + n < maxOutbound := hspare hgranted
      rw [hgranted.isOutbound_eq_false, Bool.toNat_false] at hle
      refine ⟨hcounted.step hnext, ?_⟩
      dsimp only
      omega
  | @resolved s s' n l hnext _ =>
      -- a new peer takes the slot of the attempt
      have hle := outboundCount_le_of_step (s := s) hcounted hnext
      have hone := Bool.toNat_le l.1.isOutbound
      refine ⟨hcounted.step hnext, ?_⟩
      dsimp only at hbounded ⊢
      omega
  | @other s s' n l hnext _ hout =>
      have hle := outboundCount_le_of_step (s := s) hcounted hnext
      rw [hout, Bool.toNat_false] at hle
      exact ⟨hcounted.step hnext, (Nat.add_le_add_right hle n).trans hbounded⟩

/-- The number of outbound peers stays within the limit in every session that reserves a slot only
while the peers and the attempts in flight leave one. -/
theorem outbound_bounded (hrun : RunWith Step (fun _ x l _ => Spare x l) Session.new tr x) :
    x.manager.outboundCount ≤ maxOutbound := by
  have hnew : WithinLimit (Session.new : Session Tx) := ⟨new_counted, Nat.zero_le _⟩
  have h : WithinLimit x :=
    hrun.invariant_state WithinLimit hnew fun _ _ _ _ _ hI hstep hspare => hI.step hstep hspare
  exact (Nat.le_add_right _ _).trans h.bounded

/-- A call may be made and leaves room for one more attempt. -/
def Session.hasRoom (x : Session Tx) (call : Call Tx) : Bool :=
  x.mayCall call && decide (x.manager.outboundCount + x.inFlight < maxOutbound)

theorem Session.run_of_hasRoom (calls : List (Call Tx))
    (h : allowed Session.next Session.hasRoom Session.new calls = true) :
    RunWith Step (fun _ x l _ => Spare x l) Session.new
      (trace Session.next Session.new calls) (final Session.next Session.new calls) := by
  have hok : ∀ (tr : List (Call Tx × Option Bool)) (x : Session Tx) (call : Call Tx),
      x.hasRoom call = true → Step x (call, (x.next call).2) (x.next call).1 ∧
        Spare x (call, (x.next call).2) := by
    intro _ x call hroom
    rw [hasRoom, Bool.and_eq_true, decide_eq_true_eq] at hroom
    exact ⟨(Session.step_next hroom.1).1, fun _ => hroom.2⟩
  exact RunWith.append_allowed (P := fun _ x l _ => Spare x l) hok RunWith.nil h

/-- Four attempts beside each other, two of them on one IP: two succeed, one fails, and one is still
in flight after an inbound peer has come and an outbound one has gone. -/
def sampleSession : List (Call Unit) :=
  [reserveCall 1, reserveCall 2, .tryReserveOutboundSlot (sampleAddr 2 9001) 0,
    registerCall true 2, .markConnectFailed (sampleAddr 1 9000) 0,
    .registerPeer (sampleId 3) (sampleAddr 2 9001) () true 0, registerCall false 4,
    .removePeer (sampleId 2), reserveCall 5]

theorem outbound_bounded_sample :
    (final Session.next Session.new sampleSession).manager.outboundCount = 1 ∧
      (final Session.next Session.new sampleSession).inFlight = 1 ∧
      (final Session.next Session.new sampleSession).manager.outboundCount ≤ maxOutbound :=
  ⟨by decide +kernel, by decide +kernel,
    outbound_bounded (Session.run_of_hasRoom sampleSession (by decide +kernel))⟩

/-- After 31 attempts one by one, 8 are started at once for the last slot. -/
def overbookedCalls : List (Call Unit) :=
  (List.range 31).flatMap (fun n => [reserveCall n, registerCall true n]) ++
    (List.range' 31 8).map reserveCall ++ (List.range' 31 8).map (registerCall true)

/-- All of them succeed. -/
theorem outbound_exceeded :
    ∃ (tr : List (Call Unit × Option Bool)) (x : Session Unit),
      RunWith Step (fun _ x l x' => Resolves x l x') Session.new tr x ∧
        maxOutbound < x.manager.outboundCount :=
  ⟨_, _, Session.run_of_allowed overbookedCalls (by decide +kernel), by decide +kernel⟩

/-! ## The attempts in flight -/

/-- `connecting_count` is the number of attempts in flight, and the limit on it holds. -/
structure ConnectingExact (x : Session Tx) : Prop where
  counted : x.manager.connectingCount = x.inFlight
  bounded : x.inFlight ≤ maxConnecting

theorem ConnectingExact.step_iff (h : ConnectingExact x) (hstep : Step x l x')
    (hresolves : Resolves x l x') :
    ConnectingExact x' ↔ (l.1.isInbound = true → x.inFlight = 0) := by
  rcases h with ⟨hcounted, hbounded⟩
  cases hstep with
  | @reserved s s' n l hnext hgranted =>
      rcases connectingCount_of_granted hnext hgranted with ⟨hone, hroom⟩
      refine iff_of_true ⟨?_, ?_⟩ fun hin => ?_
      · exact hone.trans (congrArg (· + 1) hcounted)
      · exact Nat.succ_le_of_lt (hcounted.symm.trans_lt hroom)
      · rw [hgranted.isInbound_eq_false] at hin
        cases hin
  | @resolved s s' n l hnext hres =>
      have hless := connectingCount_of_not_granted hnext (not_granted_of_resolves hres)
      rw [hres, Bool.true_or, Bool.toNat_true, hcounted] at hless
      -- counter and attempts go down together
      refine iff_of_true ⟨hless, Nat.le_of_succ_le hbounded⟩ fun hin => ?_
      rw [isInbound_eq_false_of_resolves hres] at hin
      cases hin
  | @other s s' n l hnext hrefused hout =>
      have hless := connectingCount_of_not_granted hnext hrefused
      -- a failure would have resolved a reservation
      have hres : l.1.resolves = false :=
        Bool.eq_false_iff.2 fun hres => Nat.succ_ne_self n (hresolves hres).symm
      rw [hres, Bool.false_or, hcounted] at hless
      -- so an inbound registration is the only call that moves the counter, unless it is zero
      constructor
      · intro h' hin
        have hkept : s'.connectingCount = n := h'.counted
        rw [hin, Bool.toNat_true, hkept] at hless
        dsimp only at hless ⊢
        omega
      · intro hidle
        refine ⟨?_, hbounded⟩
        dsimp only at hless hidle ⊢
        cases hin : l.1.isInbound with
        | false => rw [hless, hin, Bool.toNat_false, Nat.sub_zero]
        | true => rw [hless, hidle hin, Nat.zero_sub]

/-- `connecting_count` is exact throughout a session in which every outbound peer and every failure
resolves a reservation if and only if inbound peers register only while no attempt is in flight. -/
theorem connecting_exact_iff (tr : List (Call Tx × Option Bool)) (x : Session Tx) :
    RunWith Step (fun _ x l x' => Resolves x l x' ∧ ConnectingExact x') Session.new tr x ↔
      RunWith Step (fun _ x l x' => Resolves x l x' ∧ (l.1.isInbound = true → x.inFlight = 0))
        Session.new tr x := by
  refine RunWith.congr fun tr x l x' hrun _ hstep => and_congr_right fun hresolves => ?_
  have hnew : ConnectingExact (Session.new : Session Tx) := ⟨rfl, Nat.zero_le _⟩
  have h : ConnectingExact x :=
    hrun.invariant_state ConnectingExact hnew fun _ _ _ _ _ _ _ hP => hP.2
  exact h.step_iff hstep hresolves

/-- Inbound peers register while 8 attempts are in flight, and 8 more attempts are started. -/
def driftingCalls : List (Call Unit) :=
  (List.range 8).map reserveCall ++ (List.range' 100 8).map (registerCall false) ++
    (List.range' 8 8).map reserveCall

theorem connecting_drifts :
    ∃ (tr : List (Call Unit × Option Bool)) (x : Session Unit),
      RunWith Step (fun _ x l x' => Resolves x l x') Session.new tr x ∧
        x.manager.connectingCount ≠ x.inFlight ∧ maxConnecting < x.inFlight :=
  ⟨_, _, Session.run_of_allowed driftingCalls (by decide +kernel), by decide +kernel,
    by decide +kernel⟩

end Rules

end PeersManager
end P2p
end Aevum
