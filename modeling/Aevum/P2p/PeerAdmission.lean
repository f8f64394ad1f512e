import Aevum.P2p.PeerRate

/-!
# P2p.PeerAdmission — who is let in, and how often an address is tried

* `attempts_spaced` : after an attempt to connect to an address, the next one is granted a slot
  `CONNECT_RETRY` later at the earliest, although old attempts are forgotten;
* `admission_bounded` : as long as peers are registered only where `can_accept` allows it, the
  registry holds at most `MAX_PEERS` peers and at most `MAX_PER_IP` with one IP;
* `peer_height_max` : the height of a peer is the largest one it has announced since it registered.
-/

namespace Aevum
namespace P2p
namespace PeersManager

open Lib

variable {Tx : Type}

/-! ## Attempts -/

/-- The time of an attempt on the address that a call has recorded. -/
def attemptAt (addr : SocketAddr) : Call Tx × Option Bool → Option Instant
  | (.tryReserveOutboundSlot addr' now, some true) => if addr' = addr then some now else none
  | (.markConnectFailed addr' now, _) => if addr' = addr then some now else none
  | _ => none

/-- The attempts that are remembered at the time `now`. -/
def remembered (s : PeersManager Tx) (now : Instant) : FinMap SocketAddr Instant :=
  s.lastConnectAttempt.retain fun _ t => decide (durationSince now t < attemptTtl)

variable {s s' : PeersManager Tx} {addr : SocketAddr} {now t : Instant}

/-- What `try_reserve_outbound_slot` does to the attempts. -/
theorem attempts_tryReserveOutboundSlot (s : PeersManager Tx) (addr : SocketAddr)
    (now : Instant) :
    ((s.tryReserveOutboundSlot addr now).2 = false ∧
      ((s.tryReserveOutboundSlot addr now).1.lastConnectAttempt = s.lastConnectAttempt ∨
        (s.tryReserveOutboundSlot addr now).1.lastConnectAttempt = s.remembered now)) ∨
    ((s.tryReserveOutboundSlot addr now).2 = true ∧
      (∀ t ∈ (s.remembered now).get? addr, connectRetry ≤ durationSince now t) ∧
      (s.tryReserveOutboundSlot addr now).1.lastConnectAttempt =
        (s.remembered now).insert addr now) := by
  rw [tryReserveOutboundSlot]
  split
  · exact Or.inl ⟨rfl, Or.inl rfl⟩
  · split
    · exact Or.inl ⟨rfl, Or.inl rfl⟩
    · dsimp only
      split
      · exact Or.inl ⟨rfl, Or.inr rfl⟩
      · next hold =>
          refine Or.inr ⟨rfl, fun t ht => ?_, rfl⟩
          rw [remembered, Option.mem_def] at ht
          rw [ht, Option.any_some, decide_eq_true_iff] at hold
          exact not_lt.1 hold

/-- An attempt at the time `t` is known: a later one has replaced it, or the clock has been read
when it could be forgotten. -/
def Known (addr : SocketAddr) (t : Instant) (times : List Instant) (s : PeersManager Tx) : Prop :=
  (∃ u, s.lastConnectAttempt.get? addr = some u ∧ t ≤ u) ∨ ∃ u ∈ times, t + attemptTtl ≤ u

theorem get?_remembered (s : PeersManager Tx) (now : Instant) (addr : SocketAddr) :
    (s.remembered now).get? addr =
      (s.lastConnectAttempt.get? addr).filter fun t => durationSince now t < attemptTtl :=
  FinMap.get?_retain _ _ _

section Known

variable {times : List Instant}

theorem Known.mono {times' : List Instant} (h : Known addr t times s)
    (hsub : ∀ u ∈ times, u ∈ times')
    (heq : s'.lastConnectAttempt = s.lastConnectAttempt) : Known addr t times' s' := by
  rcases h with ⟨u, hget, hle⟩ | ⟨u, hu, hle⟩
  · exact Or.inl ⟨u, heq ▸ hget, hle⟩
  · exact Or.inr ⟨u, hsub u hu, hle⟩

theorem old_enough {t u now : Instant} {d : Duration} (hpos : 0 < d) (hle : t ≤ u)
    (hold : d ≤ durationSince now u) : t + d ≤ now := by
  have hsub : d + u ≤ now := Nat.add_le_of_le_sub (Nat.le_of_lt (Nat.lt_of_sub_pos
    (hpos.trans_le hold))) hold
  calc
    t + d ≤ u + d := Nat.add_le_add_right hle d
    _ = d + u := Nat.add_comm u d
    _ ≤ now := hsub

/-- An entry that is forgotten is old. -/
theorem Known.remembered (h : Known addr t times s) (now : Instant) :
    (∃ u, (s.remembered now).get? addr = some u ∧ t ≤ u) ∨
      ∃ u ∈ times ++ [now], t + attemptTtl ≤ u := by
  rcases h with ⟨u, hget, hle⟩ | ⟨u, hu, hle⟩
  · rw [get?_remembered, hget, Option.filter]
    by_cases hyoung : durationSince now u < attemptTtl
    · exact Or.inl ⟨u, if_pos (decide_eq_true hyoung), hle⟩
    · refine Or.inr ⟨now, List.mem_append_right _ (List.mem_singleton_self now), ?_⟩
      exact old_enough (by decide) hle (not_lt.1 hyoung)
  · exact Or.inr ⟨u, List.mem_append_left _ hu, hle⟩

/-- The attempt on the address is replaced by one that is not earlier, or another address is
tried. -/
theorem Known.insert {attempts : FinMap SocketAddr Instant} {addr' : SocketAddr}
    (h : (∃ u, attempts.get? addr = some u ∧ t ≤ u) ∨ ∃ u ∈ times, t + attemptTtl ≤ u)
    (hle : t ≤ now) (hs' : s'.lastConnectAttempt = attempts.insert addr' now) :
    Known addr t times s' := by
  rcases h with ⟨u, hget, htu⟩ | ⟨u, hu, htu⟩
  · by_cases haddr : addr = addr'
    · subst haddr
      exact Or.inl ⟨now, by rw [hs', FinMap.get?_insert_self], hle⟩
    · exact Or.inl ⟨u, by rw [hs', FinMap.get?_insert_ne _ _ haddr, hget], htu⟩
  · exact Or.inr ⟨u, hu, htu⟩

end Known

theorem attempts_registerPeer (s : PeersManager Tx) (nodeId : NodeId) (addr : SocketAddr)
    (tx : Tx) (isOutbound : Bool) (now : Instant) :
    (s.registerPeer nodeId addr tx isOutbound now).lastConnectAttempt =
      s.lastConnectAttempt := by
  rw [registerPeer]
  cases s.peers.get? nodeId <;> rfl

theorem attempts_removePeer (s : PeersManager Tx) (nodeId : NodeId) :
    (s.removePeer nodeId).lastConnectAttempt = s.lastConnectAttempt := by
  rw [removePeer]
  cases s.peers.get? nodeId <;> rfl

theorem attempts_broadcast (s : PeersManager Tx) (isClosed : NodeId → Tx → Bool) :
    (s.broadcast isClosed).lastConnectAttempt = s.lastConnectAttempt :=
  broadcast_invariant (fun s' => s'.lastConnectAttempt = s.lastConnectAttempt)
    (fun s' dead h => (attempts_removePeer s' dead).trans h) rfl isClosed

theorem Touched.attempts (h : Touched s s') :
    s'.lastConnectAttempt = s.lastConnectAttempt := by
  rcases h with rfl | ⟨_, _, _, -, rfl, -, -⟩
  · rfl
  · rfl

/-- Every call keeps an attempt known, as long as the clock does not go back behind it. -/
theorem Known.step {tr : List (Call Tx × Option Bool)} {l : Call Tx × Option Bool}
    (h : Known addr t (clockTimes tr) s) (hstep : stepOf next s l s')
    (hle : ∀ now ∈ l.1.time?, t ≤ now) : Known addr t (clockTimes (tr ++ [l])) s' := by
  have hsub : ∀ u ∈ clockTimes tr, u ∈ clockTimes (tr ++ [l]) := by
    intro u hu
    rw [clockTimes_snoc]
    exact List.mem_append_left _ hu
  rw [← eq_of_stepOf hstep]
  rcases l with ⟨call, r⟩
  cases call with
  | registerPeer nodeId addr' tx isOutbound now =>
      exact h.mono hsub (attempts_registerPeer s nodeId addr' tx isOutbound now)
  | removePeer nodeId => exact h.mono hsub (attempts_removePeer s nodeId)
  | sendTo nodeId trySend now => exact h.mono hsub (sendTo_touched s nodeId trySend now).attempts
  | broadcast isClosed => exact h.mono hsub (attempts_broadcast s isClosed)
  | updatePeerHeight nodeId height =>
      exact h.mono hsub (updatePeerHeight_touched s nodeId height).attempts
  | markConnectFailed addr' now =>
      have heq : (s.markConnectFailed addr' now).lastConnectAttempt =
          s.lastConnectAttempt.insert addr' now := rfl
      exact Known.insert (h.imp_right fun ⟨u, hu, htu⟩ => ⟨u, hsub u hu, htu⟩) (hle now rfl) heq
  | tryReserveOutboundSlot addr' now =>
      have hforget := h.remembered now
      rw [clockTimes_snoc]
      rcases attempts_tryReserveOutboundSlot s addr' now with ⟨-, heq | heq⟩ | ⟨-, -, heq⟩
      · exact h.mono (fun u hu => List.mem_append_left _ hu) heq
      · rw [Known]
        exact heq ▸ hforget
      · exact Known.insert hforget (hle now rfl) heq

theorem time?_of_attemptAt {l : Call Tx × Option Bool} (hl : attemptAt addr l = some t) :
    l.1.time? = some t := by
  rw [attemptAt.eq_def] at hl
  split at hl
  · split at hl
    · exact hl
    · cases hl
  · split at hl
    · exact hl
    · cases hl
  · cases hl

/-- Whatever records an attempt makes it known. -/
theorem known_of_attemptAt {l : Call Tx × Option Bool} (hl : attemptAt addr l = some t)
    (hstep : stepOf next s l s') : Known addr t [] s' := by
  rw [attemptAt.eq_def] at hl
  split at hl
  · split at hl
    · next haddr =>
        subst haddr
        cases hl
        have htrue : some (s.tryReserveOutboundSlot _ t).2 = some true := congrArg Prod.snd hstep
        rw [← eq_of_stepOf hstep]
        rcases attempts_tryReserveOutboundSlot s _ t with ⟨hfalse, -⟩ | ⟨-, -, heq⟩
        · rw [hfalse] at htrue
          cases htrue
        · exact Or.inl ⟨t, by rw [next, heq, FinMap.get?_insert_self], le_rfl⟩
    · cases hl
  · split at hl
    · next haddr =>
        subst haddr
        cases hl
        rw [← eq_of_stepOf hstep]
        exact Or.inl ⟨t, FinMap.get?_insert_self _ _ _, le_rfl⟩
    · cases hl
  · cases hl

/-- A slot is granted only when the last known attempt is old enough. -/
theorem Known.le_of_granted {times : List Instant} (h : Known addr t times s)
    (hgranted : (s.tryReserveOutboundSlot addr now).2 = true) (htimes : ∀ u ∈ times, u ≤ now) :
    t + connectRetry ≤ now := by
  have hpos : 0 < connectRetry := by decide
  have hlt : connectRetry ≤ attemptTtl := by decide
  rcases attempts_tryReserveOutboundSlot s addr now with ⟨hfalse, -⟩ | ⟨-, hold, -⟩
  · rw [hfalse] at hgranted
    cases hgranted
  · rcases h.remembered now with ⟨u, hget, hle⟩ | ⟨u, hu, hle⟩
    · exact old_enough hpos hle (hold u hget)
    · -- the clock shows that the attempt was forgotten long after it
      have hnow : u ≤ now := by
        rcases List.mem_append.1 hu with hu | hu
        · exact htimes u hu
        · rw [List.mem_singleton.1 hu]
      calc
        t + connectRetry ≤ t + attemptTtl := Nat.add_le_add_left hlt t
        _ ≤ u := hle
        _ ≤ now := hnow

theorem clockTimes_append (tr tr' : List (Call Tx × Option Bool)) :
    clockTimes (tr ++ tr') = clockTimes tr ++ clockTimes tr' :=
  List.filterMap_append

/-- Attempts on one address are `CONNECT_RETRY` apart, whatever happens between them. -/
theorem attempts_spaced {tr₁ tr₂ tr₃ : List (Call Tx × Option Bool)} {l : Call Tx × Option Bool}
    {t' : Instant}
    (hrun : Run (stepOf next) new
      (tr₁ ++ l :: tr₂ ++ (.tryReserveOutboundSlot addr t', some true) :: tr₃) s)
    (hclock : (clockTimes
      (tr₁ ++ l :: tr₂ ++ (.tryReserveOutboundSlot addr t', some true) :: tr₃)).Pairwise (· ≤ ·))
    (hl : attemptAt addr l = some t) : t + connectRetry ≤ t' := by
  rcases hrun.exists_step with ⟨s₁, s₂, hrun₁, hstep, -⟩
  -- the times from the first attempt on
  rw [clockTimes_append, clockTimes_append] at hclock
  have hbefore := List.pairwise_append.1 hclock
  have hmid := (List.pairwise_append.1 hbefore.1).2.1
  have hknown : (clockTimes (l :: tr₂)).Pairwise (· ≤ ·) → Known addr t (clockTimes tr₂) s₁ := by
    refine RunWith.after (fun tr s => (clockTimes (l :: tr)).Pairwise (· ≤ ·) →
      Known addr t (clockTimes tr) s) ?_ ?_ hrun₁
    · intro s₀ s₁ _ hstep _
      exact known_of_attemptAt hl hstep
    · intro tr s l' s' _ ih hstep hclock
      rw [← List.cons_append, clockTimes_append] at hclock
      have hparts := List.pairwise_append.1 hclock
      refine (ih hparts.1).step hstep fun now hnow => hparts.2.2 t ?_ now ?_
      · exact List.mem_filterMap.2 ⟨l, List.mem_cons_self, time?_of_attemptAt hl⟩
      · exact List.mem_filterMap.2 ⟨l', List.mem_singleton_self l', hnow⟩
  have htime : t' ∈ clockTimes ((Call.tryReserveOutboundSlot addr t', some true) :: tr₃) :=
    List.mem_cons_self
  have hgranted : (s₁.tryReserveOutboundSlot addr t').2 = true := by
    have hsome : some (s₁.tryReserveOutboundSlot addr t').2 = some true :=
      congrArg Prod.snd hstep
    exact Option.some_inj.1 hsome
  refine (hknown hmid).le_of_granted hgranted fun u hu => hbefore.2.2 u ?_ t' htime
  refine List.mem_append_right _ ?_
  rw [← List.singleton_append, clockTimes_append]
  exact List.mem_append_right _ hu

/-- An attempt fails after two nanoseconds and is repeated as soon as possible. -/
def sampleAttempts : List (Call Unit) :=
  [.tryReserveOutboundSlot (sampleAddr 1 9000) 5, .markConnectFailed (sampleAddr 1 9000) 7,
    .tryReserveOutboundSlot (sampleAddr 1 9000) 30000000007]

theorem attempts_spaced_sample : 7 + connectRetry ≤ 30000000007 := by
  have hrun : Run (stepOf next) new
      ([((.tryReserveOutboundSlot (sampleAddr 1 9000) 5 : Call Unit), some true)] ++
        (.markConnectFailed (sampleAddr 1 9000) 7, none) :: [] ++
        [(.tryReserveOutboundSlot (sampleAddr 1 9000) 30000000007, some true)])
      (final next new sampleAttempts) := run_trace sampleAttempts
  exact attempts_spaced hrun (by decide +kernel) rfl

/-! ## Limits -/

/-- A peer is registered only where `can_accept` allows it. -/
def Admits (s : PeersManager Tx) : Call Tx → Prop
  | .registerPeer _ addr _ _ _ => s.canAccept addr = true
  | _ => True

instance (s : PeersManager Tx) : (call : Call Tx) → Decidable (Admits s call)
  | .registerPeer _ addr _ _ _ => inferInstanceAs (Decidable (s.canAccept addr = true))
  | .removePeer _ => instDecidableTrue
  | .sendTo _ _ _ => instDecidableTrue
  | .broadcast _ => instDecidableTrue
  | .updatePeerHeight _ _ => instDecidableTrue
  | .markConnectFailed _ _ => instDecidableTrue
  | .tryReserveOutboundSlot _ _ => instDecidableTrue

/-- There are not more peers, neither in all nor with one IP. -/
structure NoMore (s s' : PeersManager Tx) : Prop where
  size : s'.peers.size ≤ s.peers.size
  perIp : ∀ ip, s'.peersAt ip ≤ s.peersAt ip

theorem NoMore.refl (s : PeersManager Tx) : NoMore s s :=
  ⟨le_rfl, fun _ => le_rfl⟩

theorem NoMore.of_peers_eq (h : s'.peers = s.peers) : NoMore s s' :=
  ⟨by rw [h], fun ip => by rw [peersAt, peersAt, h]⟩

theorem NoMore.trans {s₁ s₂ s₃ : PeersManager Tx} (h : NoMore s₁ s₂) (h' : NoMore s₂ s₃) :
    NoMore s₁ s₃ :=
  ⟨h'.size.trans h.size, fun ip => (h'.perIp ip).trans (h.perIp ip)⟩

theorem noMore_removePeer (s : PeersManager Tx) (nodeId : NodeId) :
    NoMore s (s.removePeer nodeId) := by
  cases hget : s.peers.get? nodeId with
  | none =>
      rw [removePeer_of_get?_eq_none hget]
      exact NoMore.refl s
  | some peer =>
      rw [removePeer_of_get?_eq_some hget]
      refine ⟨FinMap.size_erase_le _ _, fun ip => ?_⟩
      have hcount := FinMap.count_erase (fun p => decide (p.addr.ip = ip)) s.peers nodeId
      rw [peersAt, peersAt, ← hcount]
      exact Nat.le_add_right _ _

theorem Touched.noMore (h : Touched s s') : NoMore s s' := by
  rcases h with rfl | ⟨nodeId, peer, peer', hget, rfl, haddr, -⟩
  · exact NoMore.refl _
  · refine ⟨le_of_eq (FinMap.size_insert_of_get?_eq_some peer' hget), fun ip => le_of_eq ?_⟩
    exact FinMap.count_insert_of_eq hget (by rw [haddr])

theorem peers_registerPeer (s : PeersManager Tx) (nodeId : NodeId) (addr : SocketAddr) (tx : Tx)
    (isOutbound : Bool) (now : Instant) :
    ∃ peer : PeerState Tx, peer.addr = addr ∧ peer.peerHeight = 0 ∧
      (s.registerPeer nodeId addr tx isOutbound now).peers = s.peers.insert nodeId peer := by
  rw [registerPeer]
  cases s.peers.get? nodeId with
  | none => exact ⟨_, rfl, rfl, rfl⟩
  | some old => exact ⟨_, rfl, rfl, rfl⟩

/-- The registry is within its limits. -/
structure WithinLimits (s : PeersManager Tx) : Prop where
  size : s.peers.size ≤ maxPeers
  perIp : ∀ ip, s.peersAt ip ≤ maxPerIp

theorem WithinLimits.noMore (h : WithinLimits s) (hless : NoMore s s') : WithinLimits s' :=
  ⟨hless.size.trans h.size, fun ip => (hless.perIp ip).trans (h.perIp ip)⟩

/-- A new peer takes a place that `can_accept` has found free. -/
theorem WithinLimits.registerPeer (h : WithinLimits s) (hcounted : Counted s)
    (haccept : s.canAccept addr = true) (nodeId : NodeId) (tx : Tx) (isOutbound : Bool)
    (now : Instant) : WithinLimits (s.registerPeer nodeId addr tx isOutbound now) := by
  rcases (hcounted.canAccept_iff addr).1 haccept with ⟨hsize, hip⟩
  rcases peers_registerPeer s nodeId addr tx isOutbound now with ⟨peer, haddr, -, hpeers⟩
  constructor
  · rw [hpeers, FinMap.size_insert]
    have herase := FinMap.size_erase_le s.peers nodeId
    omega
  · intro ip
    have hcount := FinMap.count_insert (fun p => decide (p.addr.ip = ip)) s.peers nodeId peer
    have herase := FinMap.count_erase (fun p => decide (p.addr.ip = ip)) s.peers nodeId
    have hlimit := h.perIp ip
    rw [peersAt] at hip hlimit ⊢
    rw [hpeers, hcount]
    by_cases heq : peer.addr.ip = ip
    · rw [← haddr, heq] at hip
      rw [decide_eq_true heq, Bool.toNat_true]
      omega
    · rw [decide_eq_false heq, Bool.toNat_false]
      omega

/-- Every call other than a registration leaves the number of peers as it is or smaller. -/
theorem noMore_step {l : Call Tx × Option Bool} (hstep : stepOf next s l s')
    (hl : ∀ nodeId addr tx isOutbound now, l.1 ≠ .registerPeer nodeId addr tx isOutbound now) :
    NoMore s s' := by
  rw [← eq_of_stepOf hstep]
  cases hcall : l.1 with
  | registerPeer nodeId addr tx isOutbound now =>
      exact absurd hcall (hl nodeId addr tx isOutbound now)
  | removePeer nodeId => exact noMore_removePeer s nodeId
  | sendTo nodeId trySend now => exact (sendTo_touched s nodeId trySend now).noMore
  | broadcast isClosed =>
      exact broadcast_invariant (NoMore s) (fun s' dead h => h.trans (noMore_removePeer s' dead))
        (NoMore.refl s) isClosed
  | updatePeerHeight nodeId height => exact (updatePeerHeight_touched s nodeId height).noMore
  | markConnectFailed addr now => exact NoMore.of_peers_eq rfl
  | tryReserveOutboundSlot addr now =>
      rcases tryReserveOutboundSlot_cases s addr now with ⟨_, heq⟩ | ⟨_, heq, -, -⟩
      · exact NoMore.of_peers_eq (by rw [next, heq])
      · exact NoMore.of_peers_eq (by rw [next, heq])

/-- Where only admitted peers are registered, the registry stays within its limits. -/
theorem admission_bounded {tr : List (Call Tx × Option Bool)}
    (hrun : RunWith (stepOf next) (fun _ s l _ => Admits s l.1) new tr s) : WithinLimits s := by
  have hnew : WithinLimits (new : PeersManager Tx) :=
    ⟨Nat.zero_le _, fun _ => Nat.zero_le _⟩
  have hboth : Counted s ∧ WithinLimits s := by
    refine RunWith.invariant_state (fun s => Counted s ∧ WithinLimits s) ⟨new_counted, hnew⟩
      (fun tr s l s' _ h hstep hadmits => ⟨h.1.step hstep, ?_⟩) hrun
    by_cases hl : ∀ nodeId addr tx isOutbound now,
        l.1 ≠ .registerPeer nodeId addr tx isOutbound now
    · exact h.2.noMore (noMore_step hstep hl)
    · simp only [ne_eq, not_forall, not_not] at hl
      rcases hl with ⟨nodeId, addr, tx, isOutbound, now, hl⟩
      rw [hl] at hadmits
      rw [← eq_of_stepOf hstep, hl]
      exact h.2.registerPeer h.1 hadmits nodeId tx isOutbound now
  exact hboth.2

/-- Four peers of one IP and one of another; then an attempt fails, one of the four goes, and the
next of their IP takes its place. -/
def sampleArrivals : List (Call Unit) :=
  [.registerPeer (sampleId 1) (sampleAddr 1 9000) () false 0,
    .registerPeer (sampleId 2) (sampleAddr 1 9001) () false 0,
    .registerPeer (sampleId 3) (sampleAddr 2 9000) () true 0,
    .registerPeer (sampleId 4) (sampleAddr 1 9002) () true 0,
    .registerPeer (sampleId 5) (sampleAddr 1 9003) () false 0,
    .markConnectFailed (sampleAddr 3 9000) 1, .removePeer (sampleId 2),
    .registerPeer (sampleId 6) (sampleAddr 1 9004) () false 2]

theorem admission_bounded_sample :
    (final next new sampleArrivals).peersAt (sampleAddr 1 0).ip = maxPerIp ∧
      (final next new sampleArrivals).canAccept (sampleAddr 1 9001) = false ∧
      WithinLimits (final next new sampleArrivals) := by
  have hok : ∀ (tr : List (Call Unit × Option Bool)) (s : PeersManager Unit) (call : Call Unit),
      decide (Admits s call) = true →
        stepOf next s (call, (next s call).2) (next s call).1 ∧ Admits s call :=
    fun _ _ _ hadmits => ⟨rfl, of_decide_eq_true hadmits⟩
  have hrun := RunWith.append_allowed (P := fun _ s l _ => Admits s l.1) hok RunWith.nil
    (by decide +kernel : allowed next _ new sampleArrivals = true)
  exact ⟨by decide +kernel, by decide +kernel, admission_bounded hrun⟩

/-! ## Heights -/

/-- The height that a call announces for the node. -/
def announced (nodeId : NodeId) (l : Call Tx × Option Bool) : Option UInt64 :=
  match l.1 with
  | .updatePeerHeight nodeId' height => if nodeId' = nodeId then some height else none
  | _ => none

def heightsOf (nodeId : NodeId) (tr : List (Call Tx × Option Bool)) : List UInt64 :=
  tr.filterMap (announced nodeId)

/-- The largest of some heights, `0` when there are none. -/
def highest (heights : List UInt64) : UInt64 := heights.foldl max 0

theorem heightsOf_snoc (nodeId : NodeId) (tr : List (Call Tx × Option Bool))
    (l : Call Tx × Option Bool) :
    heightsOf nodeId (tr ++ [l]) = heightsOf nodeId tr ++ (announced nodeId l).toList := by
  rw [heightsOf, List.filterMap_append]
  cases h : announced nodeId l <;> simp [heightsOf, h]

theorem highest_snoc (heights : List UInt64) (height : UInt64) :
    highest (heights ++ [height]) = max (highest heights) height := by
  rw [highest, List.foldl_append]
  rfl

/-- The call does not register the node. -/
def NotRegistered (nodeId : NodeId) (l : Call Tx × Option Bool) : Prop :=
  ∀ addr tx isOutbound now, l.1 ≠ .registerPeer nodeId addr tx isOutbound now

def heightAt (s : PeersManager Tx) (nodeId : NodeId) : Option UInt64 :=
  (s.peers.get? nodeId).map PeerState.peerHeight

theorem getPeerHeight_eq (s : PeersManager Tx) (nodeId : NodeId) :
    s.getPeerHeight nodeId = (s.heightAt nodeId).getD 0 := rfl

theorem heightAt_removePeer (s : PeersManager Tx) (nodeId nodeId' : NodeId) :
    (s.removePeer nodeId).heightAt nodeId' =
      if nodeId' = nodeId then none else s.heightAt nodeId' := by
  rw [heightAt, get?_peers_removePeer]
  split <;> rfl

theorem heightAt_registerPeer (s : PeersManager Tx) (nodeId nodeId' : NodeId) (addr : SocketAddr)
    (tx : Tx) (isOutbound : Bool) (now : Instant) :
    (s.registerPeer nodeId addr tx isOutbound now).heightAt nodeId' =
      if nodeId' = nodeId then some 0 else s.heightAt nodeId' := by
  rcases peers_registerPeer s nodeId addr tx isOutbound now with ⟨peer, -, hheight, hpeers⟩
  rw [heightAt, hpeers, FinMap.get?_insert]
  split
  · rw [Option.map_some, hheight]
  · rfl

/-- A peer that is replaced by one of the same height leaves all heights as they are. -/
theorem heightAt_insert {nodeId : NodeId} {peer peer' : PeerState Tx}
    (hget : s.peers.get? nodeId = some peer) (hheight : peer'.peerHeight = peer.peerHeight)
    (nodeId' : NodeId) :
    heightAt { s with peers := s.peers.insert nodeId peer' } nodeId' = s.heightAt nodeId' := by
  rw [heightAt, heightAt, FinMap.get?_insert]
  split
  · next heq => rw [heq, hget, Option.map_some, Option.map_some, hheight]
  · rfl

theorem heightAt_sendTo (s : PeersManager Tx) (nodeId nodeId' : NodeId) (trySend : Tx → Bool)
    (now : Instant) :
    (s.sendTo nodeId trySend now).1.heightAt nodeId' = s.heightAt nodeId' := by
  cases hget : s.peers.get? nodeId with
  | none => rw [sendTo, hget]
  | some peer =>
      rw [sendTo, hget]
      dsimp only
      split <;> split <;> exact heightAt_insert hget (by rfl) nodeId'

theorem heightAt_updatePeerHeight (s : PeersManager Tx) (nodeId nodeId' : NodeId)
    (height : UInt64) :
    (s.updatePeerHeight nodeId height).heightAt nodeId' =
      if nodeId' = nodeId then (s.heightAt nodeId').map fun old => max old height
      else s.heightAt nodeId' := by
  cases hget : s.peers.get? nodeId with
  | none =>
      rw [updatePeerHeight, hget]
      dsimp only
      split
      · next heq => rw [heq, heightAt, hget, Option.map_none, Option.map_none]
      · rfl
  | some peer =>
      rw [updatePeerHeight, hget, heightAt, heightAt, FinMap.get?_insert]
      split
      · next heq => rw [heq, hget, Option.map_some, Option.map_some, Option.map_some]
      · rfl

/-- The node is gone, or its height is the largest one of a list. -/
def HeightIs (nodeId : NodeId) (heights : List UInt64) (s : PeersManager Tx) : Prop :=
  s.heightAt nodeId = none ∨ s.heightAt nodeId = some (highest heights)

theorem HeightIs.of_eq {nodeId : NodeId} {heights : List UInt64} (h : HeightIs nodeId heights s)
    (heq : s'.heightAt nodeId = s.heightAt nodeId) : HeightIs nodeId heights s' := by
  rw [HeightIs, heq]
  exact h

theorem HeightIs.removePeer {nodeId : NodeId} {heights : List UInt64}
    (h : HeightIs nodeId heights s) (nodeId' : NodeId) :
    HeightIs nodeId heights (s.removePeer nodeId') := by
  rw [HeightIs, heightAt_removePeer]
  split
  · exact Or.inl rfl
  · exact h

theorem HeightIs.updatePeerHeight {nodeId : NodeId} {heights : List UInt64}
    (h : HeightIs nodeId heights s) (nodeId' : NodeId) (height : UInt64) (r : Option Bool) :
    HeightIs nodeId
      (heights ++ (announced nodeId ((Call.updatePeerHeight nodeId' height : Call Tx), r)).toList)
      (s.updatePeerHeight nodeId' height) := by
  rw [HeightIs, heightAt_updatePeerHeight, announced]
  dsimp only
  by_cases hnode : nodeId' = nodeId
  · rw [if_pos hnode.symm, if_pos hnode, Option.toList_some, highest_snoc]
    rcases h with hnone | hsome
    · rw [hnone]
      exact Or.inl rfl
    · rw [hsome]
      exact Or.inr rfl
  · rw [if_neg (Ne.symm hnode), if_neg hnode, Option.toList_none, List.append_nil]
    exact h

theorem HeightIs.step {nodeId : NodeId} {tr : List (Call Tx × Option Bool)}
    {l : Call Tx × Option Bool} (h : HeightIs nodeId (heightsOf nodeId tr) s)
    (hstep : stepOf next s l s') (hl : NotRegistered nodeId l) :
    HeightIs nodeId (heightsOf nodeId (tr ++ [l])) s' := by
  rw [heightsOf_snoc, ← eq_of_stepOf hstep]
  -- only one call announces a height
  have hnone : announced nodeId l = none → HeightIs nodeId (heightsOf nodeId tr) (next s l.1).1 →
      HeightIs nodeId (heightsOf nodeId tr ++ (announced nodeId l).toList) (next s l.1).1 := by
    intro hl h
    rw [hl, Option.toList_none, List.append_nil]
    exact h
  rcases l with ⟨call, r⟩
  cases call with
  | registerPeer nodeId' addr tx isOutbound now =>
      have hne : nodeId ≠ nodeId' := by
        rintro rfl
        exact hl addr tx isOutbound now rfl
      refine hnone rfl (h.of_eq ?_)
      rw [next, heightAt_registerPeer, if_neg hne]
  | removePeer nodeId' => exact hnone rfl (h.removePeer nodeId')
  | sendTo nodeId' trySend now =>
      exact hnone rfl (h.of_eq (heightAt_sendTo s nodeId' nodeId trySend now))
  | broadcast isClosed =>
      exact hnone rfl (broadcast_invariant (HeightIs nodeId (heightsOf nodeId tr))
        (fun _ dead h => h.removePeer dead) h isClosed)
  | updatePeerHeight nodeId' height => exact h.updatePeerHeight nodeId' height r
  | markConnectFailed addr now => exact hnone rfl (h.of_eq rfl)
  | tryReserveOutboundSlot addr now =>
      refine hnone rfl (h.of_eq ?_)
      rcases tryReserveOutboundSlot_cases s addr now with ⟨_, heq⟩ | ⟨_, heq, -, -⟩
      · rw [next, heq]
        rfl
      · rw [next, heq]
        rfl

/-- From its registration on, the height of a connected peer is the largest one announced. -/
theorem peer_height_max {tr₁ tr₂ : List (Call Tx × Option Bool)} {nodeId : NodeId} {tx : Tx}
    {isOutbound : Bool} {r : Option Bool}
    (hrun : Run (stepOf next) new
      (tr₁ ++ (.registerPeer nodeId addr tx isOutbound now, r) :: tr₂) s)
    (honce : ∀ l ∈ tr₂, NotRegistered nodeId l) (hconnected : s.getAddrByNodeId nodeId ≠ none) :
    s.getPeerHeight nodeId = highest (heightsOf nodeId tr₂) := by
  have hheight : (∀ l ∈ tr₂, NotRegistered nodeId l) →
      HeightIs nodeId (heightsOf nodeId tr₂) s := by
    refine RunWith.after (fun tr s => (∀ l ∈ tr, NotRegistered nodeId l) →
      HeightIs nodeId (heightsOf nodeId tr) s) ?_ ?_ hrun
    · intro s₁ s₂ _ hstep _
      rw [← eq_of_stepOf hstep]
      refine Or.inr ?_
      rw [next, heightAt_registerPeer, if_pos rfl]
      rfl
    · intro tr s l s' _ ih hstep honce
      rw [List.forall_mem_append] at honce
      exact (ih honce.1).step hstep (honce.2 l (List.mem_singleton_self l))
  rw [getPeerHeight_eq]
  rcases hheight honce with hnone | hsome
  · rw [heightAt, Option.map_eq_none_iff] at hnone
    rw [getAddrByNodeId, hnone] at hconnected
    exact absurd rfl hconnected
  · rw [hsome, Option.getD_some]

def sampleHeights : List (Call Unit) :=
  [.registerPeer (sampleId 1) (sampleAddr 1 9000) () false 0,
    .updatePeerHeight (sampleId 1) 12, .updatePeerHeight (sampleId 1) 7]

theorem peer_height_max_sample :
    (final next new sampleHeights).getPeerHeight (sampleId 1) = 12 := by
  have hrun : Run (stepOf next) (new : PeersManager Unit)
      ([] ++ (.registerPeer (sampleId 1) (sampleAddr 1 9000) () false 0, none) ::
        [(.updatePeerHeight (sampleId 1) 12, none), (.updatePeerHeight (sampleId 1) 7, none)])
      (final next new sampleHeights) := run_trace sampleHeights
  refine (peer_height_max hrun ?_ (by decide +kernel)).trans (by decide +kernel)
  refine List.forall_mem_cons.2 ⟨?_, List.forall_mem_singleton.2 ?_⟩
  · intro addr tx isOutbound now h
    cases h
  · intro addr tx isOutbound now h
    cases h

end PeersManager
end P2p
end Aevum
