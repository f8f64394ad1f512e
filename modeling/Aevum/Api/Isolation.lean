import Aevum.Api.Replay

/-!
# Api.Isolation — what senders and chains see of each other

A service keeps one queue for each sender, so the calls of one sender do not show in the results of
another one.  Chains are not kept apart: `verify` never reads the `chain_id` of the configuration,
and a request that is valid on one chain is valid on every other one.

* `noninterference` : deleting the requests of all other senders changes no result of a sender;
* `chainBound_iff` : requests are bound to the chain of the service exactly as long as no request of
  another chain is handed to it.
-/

namespace Aevum
namespace Api
namespace AuthServiceV2

open Lib Crypto

/-! ## Senders -/

/-- The calls that concern a sender: its own requests and all ticks. -/
def Call.concerns (addr : Address) : Call → Bool
  | .tick _ => true
  | .verify req => Address.ofKey req.publicKey = addr

/-- The two services look the same to a sender. -/
structure SameFor (addr : Address) (s u : AuthServiceV2) : Prop where
  config : s.config = u.config
  currentTime : s.currentTime = u.currentTime
  maxSize : s.nonces.maxSize = u.nonces.maxSize
  queue : s.nonces.queue addr = u.nonces.queue addr

section Senders

variable {addr : Address} {s u : AuthServiceV2} {req : SignedRequestV2}

theorem SameFor.refl (addr : Address) (s : AuthServiceV2) : SameFor addr s s :=
  ⟨rfl, rfl, rfl, rfl⟩

theorem SameFor.tick (h : SameFor addr s u) (time : UInt64) :
    SameFor addr (s.tick time) (u.tick time) :=
  ⟨h.config, rfl, h.maxSize, h.queue⟩

/-- The nonce goes into the queue of the sender on both sides. -/
theorem SameFor.insert (h : SameFor addr s u) (nonce : UInt64) :
    SameFor addr { s with nonces := s.nonces.insert addr nonce }
      { u with nonces := u.nonces.insert addr nonce } := by
  refine ⟨h.config, h.currentTime, h.maxSize, ?_⟩
  rw [NonceCache.queue_insert, NonceCache.queue_insert, if_pos rfl, if_pos rfl, h.maxSize, h.queue]

/-- The nonce goes into the queue of someone else on one side. -/
theorem SameFor.insert_other (h : SameFor addr s u) {other : Address} (hother : other ≠ addr)
    (nonce : UInt64) : SameFor addr { s with nonces := s.nonces.insert other nonce } u := by
  refine ⟨h.config, h.currentTime, h.maxSize, ?_⟩
  rw [NonceCache.queue_insert, if_neg hother.symm, h.queue]

variable [Blake3] [Signatures]

theorem SameFor.verify (h : SameFor addr s u) (haddr : Address.ofKey req.publicKey = addr) :
    (s.verify req).2 = (u.verify req).2 ∧ SameFor addr (s.verify req).1 (u.verify req).1 := by
  subst haddr
  have hinsert := h.insert req.nonce
  rw [h.config, h.currentTime] at hinsert
  -- both sides make the same checks
  simp only [AuthServiceV2.verify, NonceCache.contains_eq, h.config, h.currentTime, h.queue]
  split_ifs
  · exact ⟨rfl, h⟩
  · exact ⟨rfl, h⟩
  · exact ⟨rfl, h⟩
  · exact ⟨rfl, hinsert⟩
  · exact ⟨rfl, h⟩

theorem SameFor.verify_other (h : SameFor addr s u) (haddr : Address.ofKey req.publicKey ≠ addr) :
    SameFor addr (s.verify req).1 u := by
  rcases verify_cases s req with ⟨-, heq⟩ | ⟨-, heq, -⟩
  · rw [heq]
    exact h.insert_other haddr req.nonce
  · rw [heq]
    exact h

theorem unwinding_sameFor (addr : Address) :
    Unwinding next (Call.concerns addr) (SameFor addr) where
  kept := by
    intro s u c h hc
    cases c with
    | tick time => exact ⟨rfl, h.tick time⟩
    | verify req =>
        rcases h.verify (of_decide_eq_true hc) with ⟨hresult, hnext⟩
        exact ⟨congrArg some hresult, hnext⟩
  dropped := by
    intro s u c h hc
    cases c with
    | tick time => cases hc
    | verify req => exact h.verify_other (of_decide_eq_false hc)

/-- Deleting the requests of all other senders changes nothing that a sender gets. -/
theorem noninterference (config : AuthConfigV2) (addr : Address) (calls : List Call) :
    trace next (new config) (calls.filter (Call.concerns addr)) =
      (trace next (new config) calls).filter fun l => Call.concerns addr l.1 :=
  trace_purge (unwinding_sameFor addr) (SameFor.refl addr (new config)) calls

end Senders

/-! ## Chains -/

/-- The chain ids of the requests handed to `verify`. -/
def chainIds (calls : List Call) : List UInt64 :=
  calls.filterMap fun
    | .verify req => some req.chainId
    | .tick _ => none

theorem chainId_mem_chainIds {calls : List Call} {req : SignedRequestV2}
    (h : .verify req ∈ calls) : req.chainId ∈ chainIds calls :=
  List.mem_filterMap.2 ⟨.verify req, h, rfl⟩

/-- The service of another chain. -/
def withChainId (id : UInt64) (s : AuthServiceV2) : AuthServiceV2 :=
  { s with config := { s.config with chainId := id } }

section Chains

variable [Blake3] [Signatures] {config : AuthConfigV2} {s : AuthServiceV2} {calls : List Call}

theorem next_withChainId (id : UInt64) (s : AuthServiceV2) (c : Call) :
    next (withChainId id s) c = (withChainId id (next s c).1, (next s c).2) := by
  cases c with
  | tick time => rfl
  | verify req =>
      have hfuture : (withChainId id s).config.maxFutureDrift = s.config.maxFutureDrift := rfl
      have hpast : (withChainId id s).config.maxTimestampDrift = s.config.maxTimestampDrift := rfl
      have hnonces : (withChainId id s).nonces = s.nonces := rfl
      have htime : (withChainId id s).currentTime = s.currentTime := rfl
      -- this is all that the checks read
      simp only [next, AuthServiceV2.verify, hfuture, hpast, hnonces, htime]
      split_ifs <;> rfl

/-- Every accepted request carries the chain id of the service. -/
def ChainBound (config : AuthConfigV2) (calls : List Call) : Prop :=
  ∀ req, (.verify req, some .valid) ∈ trace next (new config) calls → req.chainId = config.chainId

/-- No request is accepted by both services. -/
def ChainsApart (config config' : AuthConfigV2) (calls calls' : List Call) : Prop :=
  ∀ req, (.verify req, some .valid) ∈ trace next (new config) calls →
    (.verify req, some .valid) ∉ trace next (new config') calls'

/-- The queue of a sender leaves nonces for new requests, as long as not all of them fit in. -/
theorem exists_unseen {tr : List (Call × Option AuthResultV2)}
    (hrun : Run (stepOf next) (new config) tr s) (hsize : config.nonceCacheSize < 2 ^ 64)
    (addr : Address) : ∃ nonce, nonce ∉ s.nonces.queue addr := by
  have hrecent : Recent addr tr s := queue_eq_recent hrun
  have hlength : (s.nonces.queue addr).length < 2 ^ 64 := by
    rw [hrecent.queue, (config_of_run hrun).2, List.rtake_eq_reverse_take_reverse,
      List.length_reverse, List.length_take]
    omega
  by_contra! hall
  -- otherwise all nonces would be in it
  have hnodup : ((List.range (2 ^ 64)).map UInt64.ofNat).Nodup := by
    refine List.nodup_range.map_on fun i hi j hj hij => ?_
    have hsame := congrArg UInt64.toNat hij
    rw [UInt64.toNat_ofNat_of_lt' (List.mem_range.1 hi),
      UInt64.toNat_ofNat_of_lt' (List.mem_range.1 hj)] at hsame
    exact hsame
  have hle := (hnodup.subperm fun nonce _ => hall nonce).length_le
  rw [List.length_map, List.length_range] at hle
  omega

section Signed

variable [Signers]

/-- A request without a body, signed by the owner of the key. -/
def signedRequest (keypair : Keypair) (id time nonce : UInt64) : SignedRequestV2 :=
  let req : SignedRequestV2 :=
    { body := []
      publicKey := keypair.publicKey
      signature := ByteArr.fill 64 0
      timestamp := time
      nonce := nonce
      chainId := id
      endpoint := 0
      apiVersion := 2 }
  { req with signature := Signers.sign keypair.privateKey (buildPayload req) }

/-- A signed request is accepted on time, whatever its chain id, if its nonce is a new one. -/
theorem accepted_signedRequest {keypair : Keypair} (id : UInt64) {nonce : UInt64}
    (h : nonce ∉ s.nonces.queue (Address.ofKey keypair.publicKey)) :
    Accepted s (signedRequest keypair id s.currentTime nonce) where
  notFuture := by
    have hlt := s.currentTime.toNat_lt
    rw [signedRequest, UInt64.le_iff_toNat_le, UInt64.toNat_satAdd]
    exact Nat.le_min.2 ⟨Nat.le_add_right _ _, Nat.le_pred_of_lt hlt⟩
  notExpired := by
    rw [signedRequest, UInt64.le_iff_toNat_le, UInt64.toNat_satSub, Nat.sub_self]
    exact Nat.zero_le _
  unseen := h
  -- the payload does not read the signature
  signed := keypair.verify_sign _

/-- A fresh service accepts the first request of every key. -/
theorem mem_trace_signedRequest (config : AuthConfigV2) (keypair : Keypair) (id : UInt64) :
    (.verify (signedRequest keypair id 0 0), some .valid) ∈
      trace next (new config) [.verify (signedRequest keypair id 0 0)] := by
  have haccepted : Accepted (new config) (signedRequest keypair id 0 0) :=
    accepted_signedRequest id List.not_mem_nil
  rw [trace, next, verify_eq_valid.2 haccepted]
  exact List.mem_cons_self

/-- Let the requests handed to two services carry chain ids in `ids` and `ids'`.  All that is
accepted is bound to the chain of the service exactly when `ids` holds no other id, and nothing is
accepted by both services exactly when `ids` and `ids'` have no id in common.  The chain id of the
configuration changes no answer, and in every state that a service reaches it accepts some request
of every chain. -/
theorem chainBound_iff (keypair : Keypair) (config config' : AuthConfigV2) (ids ids' : Set UInt64) :
    ((∀ calls, (∀ id ∈ chainIds calls, id ∈ ids) → ChainBound config calls) ↔
        ∀ id ∈ ids, id = config.chainId) ∧
      ((∀ calls calls', (∀ id ∈ chainIds calls, id ∈ ids) → (∀ id ∈ chainIds calls', id ∈ ids') →
          ChainsApart config config' calls calls') ↔ ∀ id ∈ ids, id ∉ ids') ∧
      (∀ id calls, trace next (new { config with chainId := id }) calls =
        trace next (new config) calls) ∧
      ∀ tr s, config.nonceCacheSize < 2 ^ 64 → Run (stepOf next) (new config) tr s →
        ∀ id, ∃ req, req.chainId = id ∧ (s.verify req).2 = .valid := by
  have hmem : ∀ {config : AuthConfigV2} {calls : List Call} {req : SignedRequestV2},
      (.verify req, some .valid) ∈ trace next (new config) calls →
        req.chainId ∈ chainIds calls := by
    intro config calls req h
    exact chainId_mem_chainIds (fst_mem_of_mem_trace h)
  -- the request that carries an id is the only one of its run
  have hone : ∀ {ids : Set UInt64} {id : UInt64}, id ∈ ids →
      ∀ id' ∈ chainIds [.verify (signedRequest keypair id 0 0)], id' ∈ ids := by
    intro ids id hid id' hid'
    rw [List.mem_singleton.1 hid']
    exact hid
  refine ⟨⟨?_, ?_⟩, ⟨?_, ?_⟩, ?_, ?_⟩
  · intro hbound id hid
    exact hbound _ (hone hid) _ (mem_trace_signedRequest config keypair id)
  · intro hids calls hcalls req h
    exact hids _ (hcalls _ (hmem h))
  · intro hapart id hid hid'
    exact hapart _ _ (hone hid) (hone hid') _ (mem_trace_signedRequest config keypair id)
      (mem_trace_signedRequest config' keypair id)
  · intro hdisjoint calls calls' hcalls hcalls' req h h'
    exact hdisjoint _ (hcalls _ (hmem h)) (hcalls' _ (hmem h'))
  · intro id calls
    exact trace_hom (next_withChainId id) (new config) calls
  · intro tr s hsize hrun id
    rcases exists_unseen hrun hsize (Address.ofKey keypair.publicKey) with ⟨nonce, hnonce⟩
    exact ⟨_, rfl, verify_eq_valid.2 (accepted_signedRequest id hnonce)⟩

end Signed

end Chains

/-! ## Two chains -/

section Sample

attribute [local instance] polyBlake3 anySignature zeroSigner

def otherConfig : AuthConfigV2 :=
  { AuthConfigV2.default with chainId := 2 }

def sampleKeypair : Keypair :=
  { publicKey := sampleKey 7
    privateKey := ()
    verify_sign := fun _ => rfl }

/-- A service of chain 1 that is only asked about requests of chain 1, one of chain 2 that is only
asked about requests of chain 2, and the first one after a request of its own. -/
theorem chainBound_iff_sample :
    (ChainBound AuthConfigV2.default [.tick 1000, .verify (sampleRequest 1)] ∧
      ChainsApart AuthConfigV2.default otherConfig [.tick 1000, .verify (sampleRequest 1)]
        [.tick 1000, .verify { sampleRequest 1 with chainId := 2 }]) ∧
      ∃ req, req.chainId = 2 ∧
        ((final next (new AuthConfigV2.default) [.tick 1000, .verify (sampleRequest 1)]).verify
          req).2 = .valid := by
  have hmain := chainBound_iff sampleKeypair AuthConfigV2.default otherConfig {1} {2}
  have hone : ∀ id ∈ chainIds [.tick 1000, .verify (sampleRequest 1)], id ∈ ({1} : Set UInt64) :=
    List.forall_mem_singleton.2 rfl
  have htwo : ∀ id ∈ chainIds [.tick 1000, .verify { sampleRequest 1 with chainId := 2 }],
      id ∈ ({2} : Set UInt64) := List.forall_mem_singleton.2 rfl
  refine ⟨⟨?_, ?_⟩, ?_⟩
  · exact hmain.1.2 (fun id hid => hid) _ hone
  · exact hmain.2.1.2 (by simp) _ _ hone htwo
  · exact hmain.2.2.2 _ _ (by decide) (run_trace _) 2

theorem not_chainBound :
    ¬ ∀ (config config' : AuthConfigV2) (calls calls' : List Call),
      config.chainId ≠ config'.chainId →
      ∀ req, (.verify req, some .valid) ∈ trace next (new config) calls →
        (.verify req, some .valid) ∉ trace next (new config') calls' := by
  intro h
  exact h AuthConfigV2.default otherConfig [.tick 1000, .verify (sampleRequest 1)]
    [.tick 1000, .verify (sampleRequest 1)] (by decide) (sampleRequest 1)
    (by decide +kernel) (by decide +kernel)

end Sample

end AuthServiceV2
end Api
end Aevum
