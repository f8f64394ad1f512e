import Mathlib.Data.Finset.Option
import Aevum.Api.Replay

/-!
# Api.Stats — what the statistics of the authentication service count

`stats` reports the senders with a queue of nonces and the number of nonces in all queues.  A sender
gets a queue with its first accepted request and keeps it forever, so `stats_exact` gives both
numbers in terms of the accepted requests alone.
-/

namespace Aevum
namespace Api

open Lib Crypto

namespace NonceCache

def len (c : NonceCache) : ℕ := c.map.size

def totalNonces (c : NonceCache) : ℕ := c.map.sumOf List.length

theorem keySet_insert (c : NonceCache) (addr : Address) (nonce : UInt64) :
    (c.insert addr nonce).map.keySet = c.map.keySet ∪ {addr} := by
  ext addr'
  rw [Finset.mem_union, Finset.mem_singleton, FinMap.mem_keySet, FinMap.mem_keySet, insert,
    FinMap.get?_insert]
  by_cases h : addr' = addr <;> simp [h]

/-- The queues are the only thing that is counted. -/
theorem totalNonces_eq (c : NonceCache) :
    c.totalNonces = ∑ addr ∈ c.map.keySet, (c.queue addr).length := by
  rw [totalNonces, FinMap.sumOf_eq_sum_keySet]
  refine Finset.sum_congr rfl fun addr _ => ?_
  rw [queue]
  cases c.map.get? addr <;> rfl

end NonceCache

structure AuthStatsV2 where
  trackedSenders : ℕ
  totalNonces : ℕ
  deriving DecidableEq

namespace AuthServiceV2

def stats (s : AuthServiceV2) : AuthStatsV2 :=
  { trackedSenders := s.nonces.len
    totalNonces := s.nonces.totalNonces }

/-- The sender of an accepted request. -/
def acceptedSender : Call × Option AuthResultV2 → Option Address
  | (.verify req, some .valid) => some (Address.ofKey req.publicKey)
  | _ => none

/-- The senders with an accepted request. -/
def acceptedSenders (tr : List (Call × Option AuthResultV2)) : Finset Address :=
  (tr.filterMap acceptedSender).toFinset

section Counts

variable [Blake3] [Signatures] {s s' : AuthServiceV2} {config : AuthConfigV2}
  {tr : List (Call × Option AuthResultV2)}

omit [Blake3] [Signatures] in
theorem acceptedSenders_concat (l : Call × Option AuthResultV2) :
    acceptedSenders (tr ++ [l]) = acceptedSenders tr ∪ (acceptedSender l).toFinset := by
  rw [acceptedSenders, List.filterMap_append, List.toFinset_append, acceptedSenders]
  cases h : acceptedSender l <;> simp [h]

/-- A call adds at most the sender of its request. -/
theorem keySet_step {l : Call × Option AuthResultV2} (h : stepOf next s l s') :
    s'.nonces.map.keySet = s.nonces.map.keySet ∪ (acceptedSender l).toFinset := by
  rcases l with ⟨c, r⟩
  cases c with
  | tick time =>
      cases h
      exact (Finset.union_empty _).symm
  | verify req =>
      cases h
      rcases verify_cases s req with ⟨-, heq⟩ | ⟨-, heq, hne⟩
      · rw [heq, NonceCache.keySet_insert]
        rfl
      · have hnone : acceptedSender (.verify req, some (s.verify req).2) = none := by
          generalize (s.verify req).2 = r at hne ⊢
          cases r with
          | valid => exact (hne rfl).elim
          | _ => rfl
        change (s.verify req).1.nonces.map.keySet =
          s.nonces.map.keySet ∪ (acceptedSender (.verify req, some (s.verify req).2)).toFinset
        rw [heq, hnone]
        exact (Finset.union_empty _).symm

theorem keySet_of_run (h : Run (stepOf next) (new config) tr s) :
    s.nonces.map.keySet = acceptedSenders tr := by
  refine h.invariant (fun tr s => s.nonces.map.keySet = acceptedSenders tr) rfl ?_
  intro tr s l s' _ ih hstep _
  rw [keySet_step hstep, ih, acceptedSenders_concat]

/-- After every run the statistics count the senders with an accepted request, and for each of them
its accepted nonces as far as its queue holds them. -/
theorem stats_exact (h : Run (stepOf next) (new config) tr s) :
    s.stats =
      { trackedSenders := (acceptedSenders tr).card
        totalNonces := ∑ addr ∈ acceptedSenders tr,
          min (max 1 config.nonceCacheSize) (acceptedNonces addr tr).length } := by
  have hlen : s.nonces.len = (acceptedSenders tr).card := by
    rw [NonceCache.len, FinMap.size_eq_card_keySet, keySet_of_run h]
  have htotal : s.nonces.totalNonces = ∑ addr ∈ acceptedSenders tr,
      min (max 1 config.nonceCacheSize) (acceptedNonces addr tr).length := by
    rw [NonceCache.totalNonces_eq, keySet_of_run h]
    refine Finset.sum_congr rfl fun addr _ => ?_
    have hrecent : Recent addr tr s := queue_eq_recent h
    rw [hrecent.queue, length_rtake, (config_of_run h).2]
  rw [stats, hlen, htotal]

end Counts

section Sample

attribute [local instance] polyBlake3 anySignature

/-- One sender, three accepted requests, and a queue for one nonce. -/
theorem stats_exact_sample :
    ∃ s, s.stats = { trackedSenders := 1, totalNonces := 1 } ∧
      Run (stepOf next) (new sampleConfig) (trace next (new sampleConfig) sampleCalls) s := by
  have hrun : Run (stepOf next) (new sampleConfig) (trace next (new sampleConfig) sampleCalls) _ :=
    run_trace sampleCalls
  refine ⟨_, (stats_exact hrun).trans ?_, hrun⟩
  rw [sampleCalls_trace]
  decide +kernel

end Sample

end AuthServiceV2
end Api
end Aevum
