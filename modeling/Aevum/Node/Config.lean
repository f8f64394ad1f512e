import Aevum.Core.BlockSize
import Aevum.Node.Mempool
import Aevum.P2p.Address

/-!
# Node.Config — `config.rs`

The configuration of a node, as far as `validate` reads it.

* `validate_eq_ok` : what is accepted;
* `size_agrees_iff` : how many transactions the size of a block lets through, and that the limits
  on their number, of the default and of the mempool too, lie above it.
-/

namespace Aevum
namespace Node

open Lib Crypto Aevum.Core P2p

inductive ConfigError
  | invalidListenAddr
  | invalidHttpPort
  | invalidGenesisAmount
  | invalidTickConfig
  | invalidMempoolConfig
  | invalidSyncConfig
  | invalidNetworkConfig
  | constraintViolation (reason : String)
  deriving DecidableEq

structure NodeConfig where
  listenAddr : SocketAddr
  bootstrapPeers : List SocketAddr
  httpPort : UInt16
  minPeers : Nat
  ticksPerBlock : UInt64
  blockIntervalSecs : UInt64
  maxBlockTx : Nat
  maxBlockBytes : Nat
  mempoolMaxTx : Nat
  mempoolMaxBytes : Nat
  syncBatchSize : Nat
  maxReorgDepth : UInt64
  genesisAmount : UInt64

/-- `is_unspecified`. -/
def isUnspecified : IpAddr → Bool
  | .v4 octets => octets = ByteArr.fill 4 0
  | .v6 octets => octets = ByteArr.fill 16 0

namespace NodeConfig

/-- `default()`. -/
def default : NodeConfig :=
  { listenAddr := .v4 (ByteArr.fill 4 0) 9733
    bootstrapPeers := []
    httpPort := 19734
    minPeers := 3
    ticksPerBlock := 30
    blockIntervalSecs := 30
    maxBlockTx := 50000
    maxBlockBytes := 16 * 1024 * 1024
    mempoolMaxTx := 50000
    mempoolMaxBytes := 128 * 1024 * 1024
    syncBatchSize := 100
    maxReorgDepth := 64
    genesisAmount := 21000000 * 100000000 }

section Validate

-- how an address is written in a message
variable (display : SocketAddr → String)

/-- The body of the loop over the bootstrap peers. -/
def validatePeer (cfg : NodeConfig) (seen : Finset SocketAddr) (peer : SocketAddr) :
    Except ConfigError (Finset SocketAddr) := do
  failIf (isUnspecified peer.ip)
    (.constraintViolation ("bootstrap peer " ++ display peer ++ " has unspecified IP"))
  failIf (peer = cfg.listenAddr)
    (.constraintViolation "bootstrap peer cannot be our own listen address")
  -- `seen.insert` returns false
  failIf (peer ∈ seen) (.constraintViolation ("duplicate bootstrap peer " ++ display peer))
  .ok (insert peer seen)

def validate (cfg : NodeConfig) : Except ConfigError Unit := do
  failIf (cfg.httpPort = 0) .invalidHttpPort
  failIf (cfg.ticksPerBlock = 0 ∨ cfg.blockIntervalSecs = 0) .invalidTickConfig
  failIf (cfg.genesisAmount = 0) .invalidGenesisAmount
  failIf (cfg.syncBatchSize = 0 ∨ cfg.maxReorgDepth = 0) .invalidSyncConfig
  failIf (cfg.mempoolMaxTx = 0 ∨ cfg.mempoolMaxBytes = 0) .invalidMempoolConfig
  failIf (cfg.minPeers = 0) .invalidNetworkConfig
  failIf (cfg.maxBlockTx > cfg.mempoolMaxTx)
    (.constraintViolation "block tx limit exceeds mempool limit")
  failIf (cfg.maxBlockBytes > cfg.mempoolMaxBytes)
    (.constraintViolation "block size exceeds mempool limit")
  let _ ← cfg.bootstrapPeers.foldlM (cfg.validatePeer display) ∅
  .ok ()

/-! ## What is accepted -/

/-- The bootstrap peers can be dialled: each has an address, is someone else, and is listed once. -/
structure PeersOk (listenAddr : SocketAddr) (seen : Finset SocketAddr) (peers : List SocketAddr) :
    Prop where
  specified : ∀ peer ∈ peers, isUnspecified peer.ip = false
  foreign : ∀ peer ∈ peers, peer ≠ listenAddr
  fresh : ∀ peer ∈ peers, peer ∉ seen
  nodup : peers.Nodup

structure Accepted (cfg : NodeConfig) : Prop where
  httpPort : cfg.httpPort ≠ 0
  ticks : cfg.ticksPerBlock ≠ 0 ∧ cfg.blockIntervalSecs ≠ 0
  genesisAmount : cfg.genesisAmount ≠ 0
  sync : cfg.syncBatchSize ≠ 0 ∧ cfg.maxReorgDepth ≠ 0
  mempool : cfg.mempoolMaxTx ≠ 0 ∧ cfg.mempoolMaxBytes ≠ 0
  minPeers : cfg.minPeers ≠ 0
  maxBlockTx : cfg.maxBlockTx ≤ cfg.mempoolMaxTx
  maxBlockBytes : cfg.maxBlockBytes ≤ cfg.mempoolMaxBytes
  peers : PeersOk cfg.listenAddr ∅ cfg.bootstrapPeers

variable {display} {cfg : NodeConfig} {seen seen' : Finset SocketAddr} {peer : SocketAddr}
  {peers : List SocketAddr}

theorem validatePeer_eq_ok :
    cfg.validatePeer display seen peer = .ok seen' ↔
      isUnspecified peer.ip = false ∧ peer ≠ cfg.listenAddr ∧ peer ∉ seen ∧
        insert peer seen = seen' := by
  rw [validatePeer, failIf_bind_eq_ok, failIf_bind_eq_ok, failIf_bind_eq_ok, Bool.not_eq_true,
    Except.ok.injEq]

theorem peersOk_cons :
    PeersOk cfg.listenAddr seen (peer :: peers) ↔
      isUnspecified peer.ip = false ∧ peer ≠ cfg.listenAddr ∧ peer ∉ seen ∧
        PeersOk cfg.listenAddr (insert peer seen) peers := by
  constructor
  · intro h
    have hspecified := List.forall_mem_cons.1 h.specified
    have hforeign := List.forall_mem_cons.1 h.foreign
    have hfresh := List.forall_mem_cons.1 h.fresh
    have hnodup := List.nodup_cons.1 h.nodup
    refine ⟨hspecified.1, hforeign.1, hfresh.1, hspecified.2, hforeign.2, fun p hp => ?_,
      hnodup.2⟩
    rw [Finset.mem_insert, not_or]
    exact ⟨fun heq => hnodup.1 (heq ▸ hp), hfresh.2 p hp⟩
  · rintro ⟨hspecified, hforeign, hfresh, h⟩
    have hnew : ∀ p ∈ peers, p ≠ peer ∧ p ∉ seen := fun p hp =>
      not_or.1 (mt Finset.mem_insert.2 (h.fresh p hp))
    exact
      { specified := List.forall_mem_cons.2 ⟨hspecified, h.specified⟩
        foreign := List.forall_mem_cons.2 ⟨hforeign, h.foreign⟩
        fresh := List.forall_mem_cons.2 ⟨hfresh, fun p hp => (hnew p hp).2⟩
        nodup := List.nodup_cons.2 ⟨fun hp => (hnew peer hp).1 rfl, h.nodup⟩ }

/-- The loop over the bootstrap peers. -/
theorem validatePeers_eq_ok :
    (∃ seen', peers.foldlM (cfg.validatePeer display) seen = .ok seen') ↔
      PeersOk cfg.listenAddr seen peers := by
  induction peers generalizing seen with
  | nil =>
      refine iff_of_true ⟨seen, rfl⟩ ?_
      exact ⟨by simp, by simp, by simp, List.nodup_nil⟩
  | cons peer peers ih =>
      rw [peersOk_cons, ← ih]
      simp only [List.foldlM_cons, bind_eq_ok, validatePeer_eq_ok]
      constructor
      · rintro ⟨seen', -, ⟨hspecified, hforeign, hfresh, rfl⟩, hrest⟩
        exact ⟨hspecified, hforeign, hfresh, seen', hrest⟩
      · rintro ⟨hspecified, hforeign, hfresh, seen', hrest⟩
        exact ⟨seen', _, ⟨hspecified, hforeign, hfresh, rfl⟩, hrest⟩

theorem validate_eq_ok : cfg.validate display = .ok () ↔ cfg.Accepted := by
  simp only [validate, failIf_bind_eq_ok, not_or, Nat.not_lt, gt_iff_lt]
  constructor
  · rintro ⟨hport, hticks, hgenesis, hsync, hmempool, hmin, htx, hbytes, hpeers⟩
    rcases bind_eq_ok.1 hpeers with ⟨seen, hseen, -⟩
    exact ⟨hport, hticks, hgenesis, hsync, hmempool, hmin, htx, hbytes,
      validatePeers_eq_ok.1 ⟨seen, hseen⟩⟩
  · intro h
    rcases validatePeers_eq_ok.2 h.peers with ⟨seen, hseen⟩
    exact ⟨h.httpPort, h.ticks, h.genesisAmount, h.sync, h.mempool, h.minPeers, h.maxBlockTx,
      h.maxBlockBytes, bind_eq_ok.2 ⟨seen, hseen, rfl⟩⟩

end Validate

/-! ## Blocks of this size -/

theorem default_accepted : default.Accepted :=
  { httpPort := by decide
    ticks := by decide
    genesisAmount := by decide
    sync := by decide
    mempool := by decide
    minPeers := by decide
    maxBlockTx := by decide
    maxBlockBytes := by decide
    peers := ⟨by simp [default], by simp [default], by simp [default], List.nodup_nil⟩ }

theorem limits_above :
    ∀ limit ∈ [default.maxBlockTx, maxMempoolTx, Core.maxTransactions], 32767 < limit := by
  decide

section Blocks

variable [ForeignTypes] [Blake3]

/-- A block that is built is never too large exactly when it has at most 32767 transactions.  The
limit on their number never refuses it, unless it has none, and the limits of the default
configuration, which is accepted, of the mempool and of the block itself each admit blocks that are
refused for their size. -/
theorem size_agrees_iff (display : SocketAddr → String) {candidate : BlockCandidate}
    {preview : StatePreview} {b : Block} (h : Block.fromCandidate candidate preview = .ok b) :
    ((∀ size max, b.validateInternal ≠ .error (.tooLarge size max)) ↔
        candidate.transactions.length ≤ 32767) ∧
      (∀ count max, b.validateInternal = .error (.tooManyTransactions count max) →
        candidate.transactions = []) ∧
      default.validate display = .ok () ∧
      ∀ limit ∈ [default.maxBlockTx, maxMempoolTx, Core.maxTransactions],
        ¬ ∀ (candidate : BlockCandidate) (preview : StatePreview) (b : Block),
          candidate.transactions.length ≤ limit → Block.fromCandidate candidate preview = .ok b →
            ∀ size max, b.validateInternal ≠ .error (.tooLarge size max) := by
  refine ⟨Block.never_tooLarge_iff h, fun count max => Block.fromCandidate_tooMany h,
    validate_eq_ok.2 default_accepted, fun limit hlimit => ?_⟩
  rw [Block.limit_agrees_iff]
  exact Nat.not_le.2 (limits_above limit hlimit)

end Blocks

section Sample

attribute [local instance] polyBlake3 unitTypes

/-- One transaction more than the size lets through. -/
theorem size_agrees_iff_sample :
    ∃ b, Block.fromCandidate (Block.sampleFull 32766) Block.samplePreview = .ok b ∧
      (¬ ∀ size max, b.validateInternal ≠ .error (.tooLarge size max)) ∧
      ∀ count max, b.validateInternal ≠ .error (.tooManyTransactions count max) := by
  rcases Block.exists_fromCandidate (Block.sampleFull 32766) Block.samplePreview
    (by decide) (by decide) with ⟨b, hb⟩
  rcases size_agrees_iff (fun _ => "") hb with ⟨hsize, hcount, -, -⟩
  refine ⟨b, hb, fun hnever => ?_, fun count max hmany => ?_⟩
  · have hle := hsize.1 hnever
    rw [Block.length_sampleFull] at hle
    omega
  · exact List.cons_ne_nil _ _ (hcount count max hmany)

/-- A block with less than a third of the transactions that the count limit allows. -/
theorem not_size_agrees :
    ¬ ∀ (candidate : BlockCandidate) (preview : StatePreview) (b : Block),
      candidate.transactions.length ≤ Core.maxTransactions →
        Block.fromCandidate candidate preview = .ok b →
          ∀ size max, b.validateInternal ≠ .error (.tooLarge size max) := by
  intro hclaim
  rcases Block.exists_fromCandidate (Block.sampleFull 32766) Block.samplePreview
    (by decide) (by decide) with ⟨b, hb⟩
  have hcount : (Block.sampleFull 32766).transactions.length ≤ Core.maxTransactions := by
    rw [Block.length_sampleFull]
    decide
  rcases (Block.fromCandidate_tooLarge_iff hb).2 (by rw [Block.length_sampleFull]; decide) with
    ⟨size, max, hlarge⟩
  exact hclaim _ _ b hcount hb size max hlarge

end Sample

end NodeConfig
end Node
end Aevum
