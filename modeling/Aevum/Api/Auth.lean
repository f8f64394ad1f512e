import Aevum.Crypto
import Aevum.Lib.FinMap
import Aevum.Lib.Machine
import Aevum.Lib.BoundedQueue

/-!
# Api.Auth — `auth.rs`

Authentication of signed requests: a window of timestamps, a queue of nonces for every sender, and
a signature over the digest of the request.

* `verify_cases` : a request that passes the four checks (`Accepted`) is valid and its nonce is
  stored; any other one is not and changes nothing;
* `next` : the service as a machine, whose inputs are the calls.
-/

namespace Aevum
namespace Api

open Lib Crypto

/-- `Address([u8; 32])`. -/
abbrev Address := ByteArr 32

/-- `From<&PublicKey>`. -/
def Address.ofKey (pk : PublicKey) : Address := pk.toBytes

/-! ## Data -/

structure SignedRequestV2 where
  body : List UInt8
  publicKey : PublicKey
  signature : Signature
  timestamp : UInt64
  nonce : UInt64
  chainId : UInt64
  endpoint : UInt32
  apiVersion : UInt16
  deriving DecidableEq

inductive AuthResultV2
  | valid
  | invalidSignature
  | expired
  | futureTimestamp
  | replay
  deriving DecidableEq

structure AuthConfigV2 where
  maxTimestampDrift : UInt64
  maxFutureDrift : UInt64
  nonceCacheSize : Nat
  chainId : UInt64

/-- `AuthConfigV2::default()`. -/
def AuthConfigV2.default : AuthConfigV2 :=
  { maxTimestampDrift := 300
    maxFutureDrift := 30
    nonceCacheSize := 5000
    chainId := 1 }

structure NonceCache where
  map : FinMap Address (List UInt64)
  maxSize : Nat

namespace NonceCache

def new (maxSize : Nat) : NonceCache :=
  { map := FinMap.empty
    maxSize := maxSize }

def contains (c : NonceCache) (addr : Address) (nonce : UInt64) : Bool :=
  match c.map.get? addr with
  | some q => q.contains nonce
  | none => false

def insert (c : NonceCache) (addr : Address) (nonce : UInt64) : NonceCache :=
  let queue := (c.map.get? addr).getD []
  -- `pop_front` on an empty queue does nothing, so a cache of size zero holds one nonce
  let queue := if queue.length ≥ c.maxSize then queue.tail else queue
  { c with map := c.map.insert addr (queue ++ [nonce]) }

/-- The nonces of a sender, the oldest first. -/
def queue (c : NonceCache) (addr : Address) : List UInt64 :=
  (c.map.get? addr).getD []

theorem contains_eq (c : NonceCache) (addr : Address) (nonce : UInt64) :
    c.contains addr nonce = (c.queue addr).contains nonce := by
  rw [contains, queue]
  cases c.map.get? addr with
  | none => rfl
  | some q => rfl

theorem contains_iff {c : NonceCache} {addr : Address} {nonce : UInt64} :
    c.contains addr nonce = true ↔ nonce ∈ c.queue addr := by
  rw [contains_eq, List.contains_iff_mem]

@[simp] theorem maxSize_insert (c : NonceCache) (addr : Address) (nonce : UInt64) :
    (c.insert addr nonce).maxSize = c.maxSize := rfl

theorem queue_insert (c : NonceCache) (addr addr' : Address) (nonce : UInt64) :
    (c.insert addr nonce).queue addr' =
      if addr' = addr then push c.maxSize (c.queue addr) nonce else c.queue addr' := by
  rw [queue, insert, FinMap.get?_insert]
  by_cases h : addr' = addr
  · rw [if_pos h, if_pos h]
    rfl
  · rw [if_neg h, if_neg h]
    rfl

end NonceCache

structure AuthServiceV2 where
  config : AuthConfigV2
  nonces : NonceCache
  currentTime : UInt64

namespace AuthServiceV2

def new (config : AuthConfigV2) : AuthServiceV2 :=
  { nonces := NonceCache.new config.nonceCacheSize
    config := config
    currentTime := 0 }

def tick (s : AuthServiceV2) (time : UInt64) : AuthServiceV2 :=
  { s with currentTime := time }

/-- The bytes `build_payload` feeds to the hasher. -/
def payloadInput (req : SignedRequestV2) : List UInt8 :=
  ascii "AEVUM_AUTH_V2" ++ req.body ++ (u64Bytes req.timestamp).bytes ++
    (u64Bytes req.nonce).bytes ++ (u64Bytes req.chainId).bytes ++ (u32Bytes req.endpoint).bytes ++
    (u16Bytes req.apiVersion).bytes

variable [Blake3]

def buildPayload (req : SignedRequestV2) : List UInt8 :=
  (Blake3.digest (payloadInput req)).bytes

variable [Signatures]

/-- `verify(&mut self, req)`. -/
def verify (s : AuthServiceV2) (req : SignedRequestV2) : AuthServiceV2 × AuthResultV2 :=
  let addr := Address.ofKey req.publicKey
  -- the chain id of the configuration is not read by any of the checks
  if req.timestamp > s.currentTime.satAdd s.config.maxFutureDrift then
    (s, .futureTimestamp)
  else if s.currentTime.satSub req.timestamp > s.config.maxTimestampDrift then
    (s, .expired)
  else if s.nonces.contains addr req.nonce then
    (s, .replay)
  else if ¬ Signatures.verify req.publicKey (buildPayload req) req.signature then
    (s, .invalidSignature)
  else
    ({ s with nonces := s.nonces.insert addr req.nonce }, .valid)

/-! ## What `verify` does -/

variable {s s' : AuthServiceV2} {req : SignedRequestV2}

/-- The request passes the four checks of `verify`. -/
structure Accepted (s : AuthServiceV2) (req : SignedRequestV2) : Prop where
  notFuture : req.timestamp ≤ s.currentTime.satAdd s.config.maxFutureDrift
  notExpired : s.currentTime.satSub req.timestamp ≤ s.config.maxTimestampDrift
  unseen : req.nonce ∉ s.nonces.queue (Address.ofKey req.publicKey)
  signed : Signatures.verify req.publicKey (buildPayload req) req.signature = true

/-- What a call returns, and the state it leaves. -/
theorem verify_cases (s : AuthServiceV2) (req : SignedRequestV2) :
    (Accepted s req ∧ s.verify req =
        ({ s with nonces := s.nonces.insert (Address.ofKey req.publicKey) req.nonce }, .valid)) ∨
      (¬ Accepted s req ∧ (s.verify req).1 = s ∧ (s.verify req).2 ≠ .valid) := by
  rw [verify]
  -- one case for each way to return; only the fourth gets to the end of the function
  split_ifs with hfuture hexpired hreplay hsigned
  · exact Or.inr ⟨fun h => UInt64.not_le.2 hfuture h.notFuture, rfl, nofun⟩
  · exact Or.inr ⟨fun h => UInt64.not_le.2 hexpired h.notExpired, rfl, nofun⟩
  · exact Or.inr ⟨fun h => h.unseen (NonceCache.contains_iff.1 hreplay), rfl, nofun⟩
  · refine Or.inl ⟨⟨UInt64.not_lt.1 hfuture, UInt64.not_lt.1 hexpired, ?_, hsigned⟩, rfl⟩
    exact fun h => hreplay (NonceCache.contains_iff.2 h)
  · exact Or.inr ⟨fun h => hsigned h.signed, rfl, nofun⟩

theorem verify_eq_valid : (s.verify req).2 = .valid ↔ Accepted s req := by
  rcases verify_cases s req with ⟨haccepted, heq⟩ | ⟨hrejected, -, hne⟩
  · rw [heq]
    exact iff_of_true rfl haccepted
  · exact iff_of_false hne hrejected

/-! ## The service as a machine -/

inductive Call
  | tick (time : UInt64)
  | verify (req : SignedRequestV2)
  deriving DecidableEq

/-- One call; a tick returns nothing. -/
def next (s : AuthServiceV2) : Call → AuthServiceV2 × Option AuthResultV2
  | .tick time => (s.tick time, none)
  | .verify req => ((s.verify req).1, some (s.verify req).2)

/-- No call changes the configuration and the size of the queues. -/
theorem config_next (s : AuthServiceV2) (c : Call) :
    (next s c).1.config = s.config ∧ (next s c).1.nonces.maxSize = s.nonces.maxSize := by
  cases c with
  | tick time => exact ⟨rfl, rfl⟩
  | verify req =>
      rw [next]
      rcases verify_cases s req with ⟨-, heq⟩ | ⟨-, heq, -⟩
      · rw [heq]
        exact ⟨rfl, rfl⟩
      · rw [heq]
        exact ⟨rfl, rfl⟩

theorem config_of_run {config : AuthConfigV2} {P : List (Call × Option AuthResultV2) →
    AuthServiceV2 → Call × Option AuthResultV2 → AuthServiceV2 → Prop}
    {tr : List (Call × Option AuthResultV2)} (h : RunWith (stepOf next) P (new config) tr s) :
    s.config = config ∧ s.nonces.maxSize = config.nonceCacheSize := by
  refine h.invariant_state
    (fun s => s.config = config ∧ s.nonces.maxSize = config.nonceCacheSize) ⟨rfl, rfl⟩ ?_
  intro tr s l s' _ hinv hstep _
  have hnext := config_next s l.1
  rw [stepOf] at hstep
  rw [hstep] at hnext
  exact ⟨hnext.1.trans hinv.1, hnext.2.trans hinv.2⟩

end AuthServiceV2
end Api
end Aevum
