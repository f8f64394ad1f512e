import Aevum.Api.Replay

/-!
# Api.Decisions — what a verdict depends on

The service keeps queues, but what it answers is a function of its log: of the last tick, and of
the last accepted nonces of the sender, as many as the configured size (`decided_by_log`).  Times
are compared as numbers; that the code saturates makes no difference.

So the size of the cache can be chosen for a load: a sender that gets no more requests accepted
than the cache holds, in any part of the log in which the clock advances by at most the two drifts,
never gets a request accepted twice (`replay_free`).
-/

namespace Aevum
namespace Api
namespace AuthServiceV2

open Lib Crypto

/-! ## The log -/

/-- The time after a call. -/
def timeAfter (now : UInt64) (l : Call × Option AuthResultV2) : UInt64 :=
  match l.1 with
  | .tick time => time
  | .verify _ => now

/-- The time of the last tick. -/
def lastTick (tr : List (Call × Option AuthResultV2)) : UInt64 := tr.foldl timeAfter 0

theorem lastTick_snoc (tr : List (Call × Option AuthResultV2)) (l : Call × Option AuthResultV2) :
    lastTick (tr ++ [l]) = timeAfter (lastTick tr) l :=
  List.foldl_append

section Verdict

variable [Blake3] [Signatures]

/-- The answer to a request at a time, after the nonces `recent` of its sender. -/
def verdict (config : AuthConfigV2) (now : UInt64) (recent : List UInt64)
    (req : SignedRequestV2) : AuthResultV2 :=
  if now.toNat + config.maxFutureDrift.toNat < req.timestamp.toNat then .futureTimestamp
  else if req.timestamp.toNat + config.maxTimestampDrift.toNat < now.toNat then .expired
  else if req.nonce ∈ recent then .replay
  else if Signatures.verify req.publicKey (buildPayload req) req.signature then .valid
  else .invalidSignature

variable {config : AuthConfigV2} {s s' : AuthServiceV2} {req req' : SignedRequestV2}
  {tr pre mid post : List (Call × Option AuthResultV2)}

theorem verify_eq_verdict (s : AuthServiceV2) (req : SignedRequestV2) :
    (s.verify req).2 = verdict s.config s.currentTime
      (s.nonces.queue (Address.ofKey req.publicKey)) req := by
  have hfuture : req.timestamp > s.currentTime.satAdd s.config.maxFutureDrift ↔
      s.currentTime.toNat + s.config.maxFutureDrift.toNat < req.timestamp.toNat := by
    have hlt := req.timestamp.toNat_lt
    rw [gt_iff_lt, UInt64.lt_iff_toNat_lt, UInt64.toNat_satAdd]
    omega
  have hexpired : s.currentTime.satSub req.timestamp > s.config.maxTimestampDrift ↔
      req.timestamp.toNat + s.config.maxTimestampDrift.toNat < s.currentTime.toNat := by
    rw [gt_iff_lt, UInt64.lt_iff_toNat_lt, UInt64.toNat_satSub]
    omega
  simp only [verify, verdict, hfuture, hexpired, NonceCache.contains_iff]
  -- the same branches on both sides, but that the code refuses before it stores the nonce
  split_ifs <;> rfl

theorem currentTime_eq (hrun : Run (stepOf next) (new config) tr s) :
    s.currentTime = lastTick tr := by
  refine hrun.invariant (fun tr s => s.currentTime = lastTick tr) rfl ?_
  intro tr s l s' _ ih hstep _
  rw [lastTick_snoc, ← ih]
  rcases l with ⟨c, r⟩
  cases c with
  | tick time =>
      cases hstep
      rfl
  | verify req =>
      cases hstep
      rcases verify_cases s req with ⟨-, heq⟩ | ⟨-, heq, -⟩
      · rw [heq]
        rfl
      · rw [heq]
        rfl

/-- The state that a call of a run meets. -/
theorem exists_verify {r : AuthResultV2}
    (hrun : Run (stepOf next) (new config) (pre ++ (.verify req, some r) :: post) s) :
    ∃ s₁, s₁.config = config ∧ s₁.currentTime = lastTick pre ∧
      Recent (Address.ofKey req.publicKey) pre s₁ ∧ s₁.nonces.maxSize = config.nonceCacheSize ∧
        (s₁.verify req).2 = r := by
  rcases hrun.exists_step with ⟨s₁, s₂, hpre, hstep, -⟩
  have hconfig := config_of_run hpre
  exact ⟨s₁, hconfig.1, currentTime_eq hpre, queue_eq_recent hpre, hconfig.2,
    Option.some.inj (congrArg Prod.snd hstep)⟩

/-- Every answer of a run is the verdict on the log before it. -/
theorem decided_by_log {r : AuthResultV2}
    (hrun : Run (stepOf next) (new config) (pre ++ (.verify req, some r) :: post) s) :
    r = verdict config (lastTick pre)
      ((acceptedNonces (Address.ofKey req.publicKey) pre).rtake (max 1 config.nonceCacheSize))
      req := by
  rcases exists_verify hrun with ⟨s₁, hconfig, htime, hrecent, hsize, hresult⟩
  rw [← hresult, verify_eq_verdict, hconfig, htime, hrecent.queue, hsize]

/-! ## The size of the cache -/

/-- While the clock advances by at most the two drifts, no sender gets more requests accepted than
the cache holds. -/
def Rated (config : AuthConfigV2) (tr : List (Call × Option AuthResultV2)) : Prop :=
  ∀ pre mid post, tr = pre ++ mid ++ post →
    (lastTick (pre ++ mid)).toNat ≤ (lastTick pre).toNat + config.maxTimestampDrift.toNat +
      config.maxFutureDrift.toNat →
    ∀ addr, (acceptedNonces addr mid).length ≤ max 1 config.nonceCacheSize

/-- What an accepted request says about the time. -/
theorem Accepted.drift (h : Accepted s req) :
    req.timestamp.toNat ≤ s.currentTime.toNat + s.config.maxFutureDrift.toNat ∧
      s.currentTime.toNat ≤ req.timestamp.toNat + s.config.maxTimestampDrift.toNat := by
  have hfuture := UInt64.le_iff_toNat_le.1 h.notFuture
  have hexpired := UInt64.le_iff_toNat_le.1 h.notExpired
  rw [UInt64.toNat_satAdd] at hfuture
  rw [UInt64.toNat_satSub] at hexpired
  omega

/-- At such rates no two accepted requests of one sender have the same nonce and timestamp, whatever
else they say; in particular no request is accepted twice. -/
theorem replay_free (hrun : Run (stepOf next) (new config)
      (pre ++ (.verify req, some .valid) :: mid ++ (.verify req', some .valid) :: post) s)
    (hrated : Rated config
      (pre ++ (.verify req, some .valid) :: mid ++ (.verify req', some .valid) :: post)) :
    ¬ (req'.publicKey = req.publicKey ∧ req'.nonce = req.nonce ∧
      req'.timestamp = req.timestamp) := by
  rintro ⟨hkey, hnonce, htime⟩
  rcases exists_verify hrun with ⟨s₂, hconfig₂, htime₂, hrecent, hsize, hvalid₂⟩
  rw [List.append_assoc, List.cons_append] at hrun
  rcases exists_verify hrun with ⟨s₁, hconfig₁, htime₁, -, -, hvalid₁⟩
  have hfirst := verify_eq_valid.1 hvalid₁
  have hsecond := verify_eq_valid.1 hvalid₂
  -- the timestamp is accepted at both times
  have hclock : (lastTick (pre ++ (.verify req, some .valid) :: mid)).toNat ≤
      (lastTick pre).toNat + config.maxTimestampDrift.toNat + config.maxFutureDrift.toNat := by
    have hlow := hfirst.drift.1
    have hhigh := hsecond.drift.2
    rw [hconfig₁, htime₁] at hlow
    rw [hconfig₂, htime₂, htime] at hhigh
    omega
  have hrate := hrated pre ((.verify req, some .valid) :: mid) _ rfl hclock
    (Address.ofKey req.publicKey)
  have haccepted : acceptedNonces (Address.ofKey req.publicKey)
      ((.verify req, some .valid) :: mid) =
        req.nonce :: acceptedNonces (Address.ofKey req.publicKey) mid := by
    simp [acceptedNonces, acceptedNonce]
  -- but the nonce has left the queue by then
  have hfull : max 1 config.nonceCacheSize ≤
      (acceptedNonces (Address.ofKey req.publicKey) mid).length := by
    have hunseen := hsecond.unseen
    have hnodup := hrecent.nodup
    have hsplit : acceptedNonces (Address.ofKey req.publicKey)
        (pre ++ (.verify req, some .valid) :: mid) =
          acceptedNonces (Address.ofKey req.publicKey) pre ++
            req.nonce :: acceptedNonces (Address.ofKey req.publicKey) mid := by
      rw [← haccepted]
      exact List.filterMap_append
    rw [hrecent.queue, hkey, hsize, hsplit] at hunseen hnodup
    rw [hnonce] at hunseen
    calc max 1 config.nonceCacheSize
      _ ≤ ((acceptedNonces (Address.ofKey req.publicKey) mid).toFinset.erase req.nonce).card :=
          le_card_of_notMem hnodup hunseen
      _ ≤ (acceptedNonces (Address.ofKey req.publicKey) mid).toFinset.card :=
          Finset.card_le_card (Finset.erase_subset _ _)
      _ ≤ (acceptedNonces (Address.ofKey req.publicKey) mid).length := List.toFinset_card_le _
  rw [haccepted, List.length_cons] at hrate
  omega

end Verdict

/-! ## Two requests -/

section Sample

attribute [local instance] polyBlake3 anySignature

def sampleLog : List (Call × Option AuthResultV2) :=
  [(.tick 1000, none), (.verify (sampleRequest 1), some .valid),
    (.verify (sampleRequest 2), some .valid)]

theorem run_sampleLog : ∃ s, Run (stepOf next) (new AuthConfigV2.default) sampleLog s := by
  have htrace : trace next (new AuthConfigV2.default)
      [.tick 1000, .verify (sampleRequest 1), .verify (sampleRequest 2)] = sampleLog := by
    decide +kernel
  exact ⟨_, htrace ▸ run_trace _⟩

theorem decided_by_log_sample :
    verdict AuthConfigV2.default (lastTick [(.tick 1000, none)])
      ((acceptedNonces (Address.ofKey (sampleKey 7)) [(.tick 1000, none)]).rtake 5000)
      (sampleRequest 1) = .valid := by
  rcases run_sampleLog with ⟨s, hrun⟩
  exact (@decided_by_log _ _ _ _ _ [(.tick 1000, none)] _ _ hrun).symm

/-- The cache of the default configuration is large enough for two requests. -/
theorem replay_free_sample : (sampleRequest 2).nonce ≠ (sampleRequest 1).nonce := by
  rcases run_sampleLog with ⟨s, hrun⟩
  have hrated : Rated AuthConfigV2.default sampleLog := by
    intro pre mid post hsplit _ addr
    have hlength := congrArg List.length hsplit
    rw [List.length_append, List.length_append] at hlength
    calc (acceptedNonces addr mid).length
      _ ≤ mid.length := List.length_filterMap_le _ _
      _ ≤ 3 := by
          have hthree : sampleLog.length = 3 := rfl
          omega
      _ ≤ max 1 AuthConfigV2.default.nonceCacheSize := by decide
  intro hnonce
  exact @replay_free _ _ _ _ _ _ [(.tick 1000, none)] [] [] hrun hrated ⟨rfl, hnonce, rfl⟩

end Sample

end AuthServiceV2
end Api
end Aevum
