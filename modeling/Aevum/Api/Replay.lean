import Aevum.Api.Auth

/-!
# Api.Replay — how often a request can be accepted

The queue of a sender is a window on the nonces of its accepted requests: it holds the last ones, as
many as the configured size and at least one.  A nonce that has left the window is fresh again, and
while the timestamp is still acceptable so is the request that carried it.

* `queue_eq_recent` : the queue after any run;
* `replay_needs_eviction` : between two acceptances of one nonce a whole queue of others has been
  accepted from the same sender.
-/

namespace Aevum
namespace Api
namespace AuthServiceV2

open Lib Crypto

/-- The nonce of an accepted request of the sender. -/
def acceptedNonce (addr : Address) : Call × Option AuthResultV2 → Option UInt64
  | (.verify req, some .valid) =>
      if Address.ofKey req.publicKey = addr then some req.nonce else none
  | _ => none

/-- The nonces of all accepted requests of the sender, the oldest first. -/
def acceptedNonces (addr : Address) (tr : List (Call × Option AuthResultV2)) : List UInt64 :=
  tr.filterMap (acceptedNonce addr)

section Rules

variable {addr : Address} {tr : List (Call × Option AuthResultV2)} {req : SignedRequestV2}
  {s s' : AuthServiceV2} {config : AuthConfigV2}

theorem acceptedNonces_concat (l : Call × Option AuthResultV2) :
    acceptedNonces addr (tr ++ [l]) = acceptedNonces addr tr ++ (acceptedNonce addr l).toList := by
  rw [acceptedNonces, List.filterMap_append, acceptedNonces]
  cases hl : acceptedNonce addr l with
  | none => simp [hl]
  | some nonce => simp [hl]

theorem acceptedNonce_of_ne {r : AuthResultV2} (h : r ≠ .valid) :
    acceptedNonce addr (.verify req, some r) = none := by
  cases r with
  | valid => exact (h rfl).elim
  | _ => rfl

/-- The queue of a sender holds its last accepted nonces, which are distinct. -/
structure Recent (addr : Address) (tr : List (Call × Option AuthResultV2)) (s : AuthServiceV2) :
    Prop where
  queue : s.nonces.queue addr = (acceptedNonces addr tr).rtake (max 1 s.nonces.maxSize)
  nodup : (s.nonces.queue addr).Nodup

theorem Recent.of_eq {l : Call × Option AuthResultV2} (h : Recent addr tr s)
    (hnonces : s'.nonces = s.nonces) (hl : acceptedNonce addr l = none) :
    Recent addr (tr ++ [l]) s' := by
  constructor
  · rw [acceptedNonces_concat, hl, hnonces, h.queue, Option.toList_none, List.append_nil]
  · rw [hnonces]
    exact h.nodup

variable [Blake3] [Signatures]

theorem Recent.step {l : Call × Option AuthResultV2} (h : Recent addr tr s)
    (hstep : stepOf next s l s') : Recent addr (tr ++ [l]) s' := by
  rcases l with ⟨c, r⟩
  cases c with
  | tick time =>
      cases hstep
      exact h.of_eq rfl rfl
  | verify req =>
      cases hstep
      rcases verify_cases s req with ⟨haccepted, heq⟩ | ⟨-, heq, hne⟩
      · rw [heq]
        by_cases haddr : Address.ofKey req.publicKey = addr
        · -- the window moves on by one
          subst haddr
          constructor
          · rw [acceptedNonces_concat, NonceCache.queue_insert, if_pos rfl, h.queue, push_rtake]
            simp [acceptedNonce]
          · rw [NonceCache.queue_insert, if_pos rfl]
            exact nodup_push h.nodup haccepted.unseen
        · -- the queue of another sender has changed
          have hqueue : (s.nonces.insert (Address.ofKey req.publicKey) req.nonce).queue addr =
              s.nonces.queue addr := by
            rw [NonceCache.queue_insert, if_neg (Ne.symm haddr)]
          have hnone : acceptedNonce addr (.verify req, some .valid) = none := if_neg haddr
          constructor
          · rw [acceptedNonces_concat, hnone, hqueue, h.queue, Option.toList_none, List.append_nil]
            rfl
          · rw [hqueue]
            exact h.nodup
      · rw [heq]
        exact h.of_eq rfl (acceptedNonce_of_ne hne)

theorem queue_eq_recent (h : Run (stepOf next) (new config) tr s) : Recent addr tr s := by
  have hinit : Recent addr [] (new config) :=
    ⟨(List.rtake_nil _).symm, List.nodup_nil⟩
  refine h.invariant (Recent addr) hinit ?_
  intro tr s l s' _ hrecent hstep _
  exact hrecent.step hstep

/-- Between two acceptances of one nonce of one sender at least `max 1 nonceCacheSize` other
nonces of this sender have been accepted. -/
theorem replay_needs_eviction {pre mid : List (Call × Option AuthResultV2)}
    {req' : SignedRequestV2}
    (h : Run (stepOf next) (new config)
      (pre ++ (.verify req, some .valid) :: mid ++ [(.verify req', some .valid)]) s)
    (hkey : req'.publicKey = req.publicKey) (hnonce : req'.nonce = req.nonce) :
    max 1 config.nonceCacheSize ≤
      ((acceptedNonces (Address.ofKey req.publicKey) mid).toFinset.erase req.nonce).card := by
  -- the state that the second call meets
  rcases h.exists_step with ⟨s₁, s₂, hrun, hstep, -⟩
  have hvalid : (s₁.verify req').2 = .valid := Option.some.inj (congrArg Prod.snd hstep)
  have hunseen := (verify_eq_valid.1 hvalid).unseen
  rw [hkey, hnonce] at hunseen
  have hrecent : Recent (Address.ofKey req.publicKey) _ s₁ := queue_eq_recent hrun
  -- the first acceptance stands in front of the ones in between
  have hsplit : acceptedNonces (Address.ofKey req.publicKey)
      (pre ++ (.verify req, some .valid) :: mid) =
        acceptedNonces (Address.ofKey req.publicKey) pre ++
          req.nonce :: acceptedNonces (Address.ofKey req.publicKey) mid := by
    simp [acceptedNonces, acceptedNonce]
  -- so the nonce has been pushed out of the window
  have hnodup := hrecent.nodup
  rw [hrecent.queue, (config_of_run hrun).2, hsplit] at hunseen hnodup
  exact le_card_of_notMem hnodup hunseen

end Rules

/-! ## A queue of one nonce -/

section Sample

attribute [local instance] polyBlake3 anySignature

def sampleConfig : AuthConfigV2 :=
  { AuthConfigV2.default with nonceCacheSize := 1 }

/-- A request of one sender at time 1000. -/
def sampleRequest (nonce : UInt64) : SignedRequestV2 :=
  { body := []
    publicKey := sampleKey 7
    signature := ByteArr.fill 64 0
    timestamp := 1000
    nonce := nonce
    chainId := 1
    endpoint := 0
    apiVersion := 2 }

/-- The first request again, after another one. -/
def sampleCalls : List Call :=
  [.tick 1000, .verify (sampleRequest 1), .verify (sampleRequest 2), .verify (sampleRequest 1)]

theorem sampleCalls_trace :
    trace next (new sampleConfig) sampleCalls =
      [(.tick 1000, none)] ++ (.verify (sampleRequest 1), some .valid) ::
        [(.verify (sampleRequest 2), some .valid)] ++
          [(.verify (sampleRequest 1), some .valid)] := by
  decide +kernel

theorem replay_needs_eviction_sample :
    max 1 sampleConfig.nonceCacheSize ≤
      ((acceptedNonces (Address.ofKey (sampleKey 7))
        [(.verify (sampleRequest 2), some .valid)]).toFinset.erase 1).card := by
  have hrun : Run (stepOf next) (new sampleConfig) (trace next (new sampleConfig) sampleCalls) _ :=
    run_trace sampleCalls
  rw [sampleCalls_trace] at hrun
  have h := replay_needs_eviction hrun rfl rfl
  exact h

/-- The times of the ticks. -/
def tickTimes (calls : List Call) : List UInt64 :=
  calls.filterMap fun c =>
    match c with
    | .tick time => some time
    | .verify _ => none

theorem not_accepted_once :
    ¬ ∀ (config : AuthConfigV2) (calls : List Call), (tickTimes calls).Pairwise (· ≤ ·) →
      ∀ req, (trace next (new config) calls).count (.verify req, some .valid) ≤ 1 := by
  intro h
  have honce := h sampleConfig sampleCalls (by decide) (sampleRequest 1)
  rw [sampleCalls_trace] at honce
  exact absurd honce (by decide +kernel)

end Sample

end AuthServiceV2
end Api
end Aevum
