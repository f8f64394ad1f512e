import Aevum.Core.Settlement

/-!
# Core.SettlementHistory — the tip fixes the history

`SettledTo genesis c tip` : the blocks `c` have been verified one on top of the other, from
genesis up to `tip`.

* `SettledTo.numbered` : epochs and heights count the blocks;
* `eraseSignatures_eq_of_blockHash_eq` : the hash of one verified block fixes all its fields but
  the signatures;
* `settlement_history_fixed` : so the hash of the tip fixes the history.
-/

namespace Aevum
namespace Core
namespace SettlementBlock

open Lib Crypto

/-! ## One block -/

theorem nodeBytes_inj {a b a' b' : Hash} (h : nodeBytes a b = nodeBytes a' b') :
    a = a' ∧ b = b' := by
  rw [nodeBytes, nodeBytes, List.append_assoc, List.append_assoc] at h
  rcases ByteArr.append_inj (List.append_cancel_left h) with ⟨ha, hb⟩
  exact ⟨ha, ByteArr.ext hb⟩

/-- A block without the signatures of the committee. -/
def eraseSignatures (b : SettlementBlock) : SettlementBlock :=
  { b with committeeSignatures := [] }

/-- The fields that the block hash is computed from. -/
structure SameHashed (b b' : SettlementBlock) : Prop where
  version : b.version = b'.version
  chainId : b.chainId = b'.chainId
  epochId : b.epochId = b'.epochId
  height : b.height = b'.height
  previousSettlementHash : b.previousSettlementHash = b'.previousSettlementHash
  timestamp : b.timestamp = b'.timestamp
  epochDurationSecs : b.epochDurationSecs = b'.epochDurationSecs
  epochStartTime : b.epochStartTime = b'.epochStartTime
  epochEndTime : b.epochEndTime = b'.epochEndTime
  epochCommitment : b.epochCommitment = b'.epochCommitment

theorem hashInput_inj {b b' : SettlementBlock} (h : b.hashInput = b'.hashInput) :
    SameHashed b b' := by
  simp only [hashInput, List.append_assoc] at h
  rcases ByteArr.append_inj (List.append_cancel_left h) with ⟨hversion, h⟩
  rcases ByteArr.append_inj h with ⟨hchain, h⟩
  rcases ByteArr.append_inj h with ⟨hepoch, h⟩
  rcases ByteArr.append_inj h with ⟨hheight, h⟩
  rcases ByteArr.append_inj h with ⟨hprevious, h⟩
  rcases ByteArr.append_inj h with ⟨htimestamp, h⟩
  rcases ByteArr.append_inj h with ⟨hduration, h⟩
  rcases ByteArr.append_inj h with ⟨hstart, h⟩
  rcases ByteArr.append_inj h with ⟨hend, h⟩
  exact
    { version := u32Bytes_inj hversion
      chainId := u32Bytes_inj hchain
      epochId := u64Bytes_inj hepoch
      height := u64Bytes_inj hheight
      previousSettlementHash := hprevious
      timestamp := u64Bytes_inj htimestamp
      epochDurationSecs := u64Bytes_inj hduration
      epochStartTime := u64Bytes_inj hstart
      epochEndTime := u64Bytes_inj hend
      epochCommitment := ByteArr.ext h }

/-- The fields that the commitment is computed from, the epoch apart. -/
structure SameCommitted (b b' : SettlementBlock) : Prop where
  epochRoot : b.epochRoot = b'.epochRoot
  presenceRecordCount : b.presenceRecordCount = b'.presenceRecordCount
  transactionCount : b.transactionCount = b'.transactionCount
  participantCount : b.participantCount = b'.participantCount
  totalFees : b.totalFees = b'.totalFees
  totalRewards : b.totalRewards = b'.totalRewards
  totalSupply : b.totalSupply = b'.totalSupply

theorem commitmentInput_inj {b b' : SettlementBlock} (h : b.commitmentInput = b'.commitmentInput) :
    SameCommitted b b' := by
  simp only [commitmentInput, List.append_assoc] at h
  rcases ByteArr.append_inj (List.append_cancel_left h) with ⟨-, h⟩
  rcases ByteArr.append_inj h with ⟨hepochRoot, h⟩
  rcases ByteArr.append_inj h with ⟨hrecords, h⟩
  rcases ByteArr.append_inj h with ⟨htransactions, h⟩
  rcases ByteArr.append_inj h with ⟨hparticipants, h⟩
  rcases ByteArr.append_inj h with ⟨hfees, h⟩
  rcases ByteArr.append_inj h with ⟨hrewards, h⟩
  exact
    { epochRoot := hepochRoot
      presenceRecordCount := u64Bytes_inj hrecords
      transactionCount := u64Bytes_inj htransactions
      participantCount := u64Bytes_inj hparticipants
      totalFees := u64Bytes_inj hfees
      totalRewards := u64Bytes_inj hrewards
      totalSupply := u64Bytes_inj (ByteArr.ext h) }

section Fed

variable [Blake3]

/-- Every byte string hashed for a block. -/
def fed (b : SettlementBlock) : List (List UInt8) :=
  b.hashInput :: b.commitmentInput ::
    (MerkleTree.climbPairs hashNode b.roots.length b.roots).map fun p => nodeBytes p.1 p.2

theorem verifyInternal_iff {b : SettlementBlock} :
    b.verifyInternal = true ↔ b.blockHash = b.computeHash ∧ b.epochRoot = b.computeEpochRoot ∧
      b.epochCommitment = b.computeCommitment :=
  decide_eq_true_iff

variable {F : Set (List UInt8)} {b b' : SettlementBlock}

/-- The epoch root determines the six roots: there are always six. -/
theorem roots_eq_of_epochRoot_eq (hF : Set.InjOn Blake3.digest F) (hfed : ∀ bs ∈ b.fed, bs ∈ F)
    (hfed' : ∀ bs ∈ b'.fed, bs ∈ F) (h : b.computeEpochRoot = b'.computeEpochRoot) :
    b.roots = b'.roots := by
  have hinj : Set.InjOn (fun p : Hash × Hash => hashNode p.1 p.2) {p | nodeBytes p.1 p.2 ∈ F} := by
    intro p hp q hq heq
    rcases nodeBytes_inj (hF hp hq heq) with ⟨hfst, hsnd⟩
    exact Prod.ext hfst hsnd
  have hpairs {c : SettlementBlock} (hc : ∀ bs ∈ c.fed, bs ∈ F) :
      ∀ p ∈ MerkleTree.climbPairs hashNode c.roots.length c.roots, nodeBytes p.1 p.2 ∈ F := by
    intro p hp
    exact hc _ (List.mem_cons_of_mem _ (List.mem_cons_of_mem _ (List.mem_map_of_mem hp)))
  have hne {c : SettlementBlock} : c.roots ≠ [] := List.cons_ne_nil _ _
  rw [computeEpochRoot, computeEpochRoot, computeMerkleRoot, computeMerkleRoot, dif_neg hne,
    dif_neg hne] at h
  exact MerkleTree.root_inj_of_length hinj hne hne rfl (hpairs hfed) (hpairs hfed') h

/-- Block hash, commitment and epoch root, from the outside in. -/
theorem eraseSignatures_eq_of_blockHash_eq (hF : Set.InjOn Blake3.digest F)
    (hfed : ∀ bs ∈ b.fed, bs ∈ F) (hfed' : ∀ bs ∈ b'.fed, bs ∈ F)
    (hb : b.verifyInternal = true) (hb' : b'.verifyInternal = true)
    (h : b.blockHash = b'.blockHash) : b.eraseSignatures = b'.eraseSignatures := by
  rcases verifyInternal_iff.1 hb with ⟨hhash, hroot, hcommitment⟩
  rcases verifyInternal_iff.1 hb' with ⟨hhash', hroot', hcommitment'⟩
  -- the header
  have hheader : SameHashed b b' := by
    have hdigest : b.computeHash = b'.computeHash := by rw [← hhash, ← hhash', h]
    exact hashInput_inj (hF (hfed _ List.mem_cons_self) (hfed' _ List.mem_cons_self) hdigest)
  -- the totals of the epoch
  have htotals : SameCommitted b b' := by
    have hdigest : b.computeCommitment = b'.computeCommitment := by
      rw [← hcommitment, ← hcommitment', hheader.epochCommitment]
    have hmem {c : SettlementBlock} : c.commitmentInput ∈ c.fed :=
      List.mem_cons_of_mem _ List.mem_cons_self
    exact commitmentInput_inj (hF (hfed _ hmem) (hfed' _ hmem) hdigest)
  -- the data roots
  have hroots : b.roots = b'.roots := by
    have hepochRoot := htotals.epochRoot
    rw [hroot, hroot'] at hepochRoot
    exact roots_eq_of_epochRoot_eq hF hfed hfed' hepochRoot
  simp only [roots, List.cons.injEq, and_true] at hroots
  rcases hroots with ⟨hpresence, htransaction, hstate, hreward, hparticipant, hsnapshot⟩
  rw [eraseSignatures, eraseSignatures, SettlementBlock.mk.injEq]
  exact ⟨htotals.totalFees, htotals.totalRewards, hheader.version, hheader.chainId,
    hheader.epochId, hheader.height, hheader.previousSettlementHash, hheader.timestamp,
    hheader.epochDurationSecs, hheader.epochStartTime, hheader.epochEndTime, hpresence,
    htransaction, hstate, hreward, hparticipant, hsnapshot, htotals.presenceRecordCount,
    htotals.transactionCount, htotals.participantCount, htotals.epochRoot,
    hheader.epochCommitment, htotals.totalSupply, h, rfl⟩

end Fed

/-! ## Histories -/

section Numbers

variable {genesis : GenesisBlock} {b prev : SettlementBlock} {i : Nat}

/-- The place of a block in its history. -/
structure Numbered (genesis : GenesisBlock) (i : Nat) (b : SettlementBlock) : Prop where
  epochId : b.epochId.toNat = i
  height : b.height.toNat = i + 1
  chainId : b.chainId = genesis.chainId

theorem numbered_first (h : b.verifyGenesisLink genesis = true) : Numbered genesis 0 b := by
  rcases decide_eq_true_iff.1 h with ⟨hepoch, hheight, -, hchain⟩
  exact ⟨congrArg UInt64.toNat hepoch, congrArg UInt64.toNat hheight, hchain⟩

theorem numbered_next (h : b.verifyChain prev = true) (hprev : Numbered genesis i prev) :
    Numbered genesis (i + 1) b := by
  rcases decide_eq_true_iff.1 h with ⟨-, hepoch, hheight, hchain, -⟩
  have hepoch' : prev.epochId.toNat + 1 = b.epochId.toNat := UInt64.checkedAdd_eq_some.1 hepoch
  have hheight' : prev.height.toNat + 1 = b.height.toNat := UInt64.checkedAdd_eq_some.1 hheight
  exact
    { epochId := by rw [← hepoch', hprev.epochId]
      height := by rw [← hheight', hprev.height]
      chainId := hchain.trans hprev.chainId }

end Numbers

section Histories

variable [Blake3] [PublicKeys] [Signatures]

/-- The blocks `hist`, the last of which is `tip`, are verified one on top of the other; committees
and thresholds may change. -/
inductive SettledTo (genesis : GenesisBlock) : List SettlementBlock → SettlementBlock → Prop
  | first {b : SettlementBlock} {committee : List (ByteArr 32)} {threshold : Nat} :
      b.verifyFull none (some genesis) committee threshold = true → SettledTo genesis [b] b
  | next {hist : List SettlementBlock} {prev b : SettlementBlock} {gen : Option GenesisBlock}
      {committee : List (ByteArr 32)} {threshold : Nat} :
      SettledTo genesis hist prev → b.verifyFull (some prev) gen committee threshold = true →
        SettledTo genesis (hist ++ [b]) b

variable {genesis : GenesisBlock} {hist hist' : List SettlementBlock}
  {b prev tip tip' : SettlementBlock} {gen : Option GenesisBlock} {committee : List (ByteArr 32)}
  {threshold i : Nat}

theorem verifyFull_first (h : b.verifyFull none (some genesis) committee threshold = true) :
    b.verifyInternal = true ∧ b.verifyGenesisLink genesis = true := by
  simp only [verifyFull] at h
  split_ifs at h with hinternal hlink
  rw [Bool.not_eq_true', Bool.not_eq_false] at hinternal hlink
  exact ⟨hinternal, hlink⟩

theorem verifyFull_next (h : b.verifyFull (some prev) gen committee threshold = true) :
    b.verifyInternal = true ∧ b.verifyChain prev = true := by
  simp only [verifyFull] at h
  split_ifs at h with hinternal hlink
  rw [Bool.not_eq_true', Bool.not_eq_false] at hinternal hlink
  exact ⟨hinternal, hlink⟩

namespace SettledTo

theorem getLast?_eq (h : SettledTo genesis hist tip) : hist.getLast? = some tip := by
  cases h with
  | first _ => rfl
  | next _ _ => exact List.getLast?_concat

theorem verifyInternal (h : SettledTo genesis hist tip) : tip.verifyInternal = true := by
  cases h with
  | first hfull => exact (verifyFull_first hfull).1
  | next _ hfull => exact (verifyFull_next hfull).1

/-- The tip stands at the last place of its history. -/
theorem numbered_tip (h : SettledTo genesis hist tip) :
    ∃ i, hist.length = i + 1 ∧ Numbered genesis i tip := by
  induction h with
  | first hfull => exact ⟨0, rfl, numbered_first (verifyFull_first hfull).2⟩
  | next _ hfull ih =>
      rcases ih with ⟨i, hlen, hprev⟩
      refine ⟨i + 1, ?_, numbered_next (verifyFull_next hfull).2 hprev⟩
      rw [List.length_append, hlen, List.length_singleton]

/-- Epochs and heights count the blocks of a history. -/
theorem numbered (h : SettledTo genesis hist tip) (hi : hist[i]? = some b) :
    Numbered genesis i b := by
  induction h generalizing i b with
  | @first a committee threshold hfull =>
      have hzero : i = 0 := by
        have hlt := (List.getElem?_eq_some_iff.1 hi).1
        rw [List.length_singleton] at hlt
        omega
      subst hzero
      cases hi
      exact numbered_first (verifyFull_first hfull).2
  | @next hist prev a gen committee threshold hprev hfull ih =>
      by_cases hlt : i < hist.length
      · rw [List.getElem?_append_left hlt] at hi
        exact ih hi
      · -- the new block
        rcases hprev.numbered_tip with ⟨k, hlen, hnum⟩
        have hbound := (List.getElem?_eq_some_iff.1 hi).1
        rw [List.length_append, List.length_singleton] at hbound
        have hik : i = hist.length := by omega
        rw [hik, List.getElem?_concat_length, Option.some_inj] at hi
        subst hi
        rw [hik, hlen]
        exact numbered_next (verifyFull_next hfull).2 hnum

/-- Tips of one epoch end histories of one length. -/
theorem length_eq (h : SettledTo genesis hist tip) (h' : SettledTo genesis hist' tip')
    (hepoch : tip.epochId = tip'.epochId) : hist.length = hist'.length := by
  rcases h.numbered_tip with ⟨i, hlen, hnum⟩
  rcases h'.numbered_tip with ⟨i', hlen', hnum'⟩
  have hi := hnum.epochId
  have hi' := hnum'.epochId
  rw [hepoch] at hi
  omega

/-- Equal hashes of the tips, without the histories behind them. -/
theorem eraseSignatures_tip (h : SettledTo genesis hist tip) (h' : SettledTo genesis hist' tip')
    {F : Set (List UInt8)} (hF : Set.InjOn Blake3.digest F)
    (hfed : ∀ b ∈ hist, ∀ bs ∈ b.fed, bs ∈ F) (hfed' : ∀ b ∈ hist', ∀ bs ∈ b.fed, bs ∈ F)
    (htip : tip.blockHash = tip'.blockHash) : tip.eraseSignatures = tip'.eraseSignatures :=
  eraseSignatures_eq_of_blockHash_eq hF (hfed tip (List.mem_of_getLast? h.getLast?_eq))
    (hfed' tip' (List.mem_of_getLast? h'.getLast?_eq)) h.verifyInternal h'.verifyInternal htip

/-- From the tips backwards: equal blocks name equal predecessors, and histories of one length
reach genesis together. -/
theorem eraseSignatures_history (h : SettledTo genesis hist tip) (h' : SettledTo genesis hist' tip')
    {F : Set (List UInt8)} (hF : Set.InjOn Blake3.digest F)
    (hfed : ∀ b ∈ hist, ∀ bs ∈ b.fed, bs ∈ F) (hfed' : ∀ b ∈ hist', ∀ bs ∈ b.fed, bs ∈ F)
    (hlen : hist.length = hist'.length) (htip : tip.blockHash = tip'.blockHash) :
    hist.map eraseSignatures = hist'.map eraseSignatures := by
  induction h generalizing hist' tip' with
  | @first b committee threshold hfull =>
      have heq := eraseSignatures_tip (.first hfull) h' hF hfed hfed' htip
      cases h' with
      | first _ => rw [List.map_singleton, List.map_singleton, heq]
      | next hprev' _ =>
          -- a longer history does not have the same length
          rcases hprev'.numbered_tip with ⟨i, hi, -⟩
          rw [List.length_append, hi, List.length_singleton, List.length_singleton] at hlen
          omega
  | @next hist prev b gen committee threshold hprev hfull ih =>
      have heq := eraseSignatures_tip (.next hprev hfull) h' hF hfed hfed' htip
      cases h' with
      | first _ =>
          rcases hprev.numbered_tip with ⟨i, hi, -⟩
          rw [List.length_append, hi, List.length_singleton, List.length_singleton] at hlen
          omega
      | @next hist' prev' _ gen' committee' threshold' hprev' hfull' =>
          have hback := (decide_eq_true_iff.1 (verifyFull_next hfull).2).1
          have hback' := (decide_eq_true_iff.1 (verifyFull_next hfull').2).1
          -- equal blocks name one predecessor hash
          have hlink := congrArg SettlementBlock.previousSettlementHash heq
          rw [List.forall_mem_append] at hfed hfed'
          have hlen : hist.length = hist'.length := by simpa using hlen
          have hpast : hist.map eraseSignatures = hist'.map eraseSignatures := by
            refine ih hprev' hfed.1 hfed'.1 hlen ?_
            calc
              prev.blockHash = b.previousSettlementHash := hback.symm
              _ = tip'.previousSettlementHash := hlink
              _ = prev'.blockHash := hback'
          rw [List.map_append, List.map_append, hpast, List.map_singleton, List.map_singleton, heq]

end SettledTo

/-- In every history epochs, heights and chain ids are what genesis and the place say, and the
hash of the tip fixes the history but for the signatures. -/
theorem settlement_history_fixed (h : SettledTo genesis hist tip)
    (h' : SettledTo genesis hist' tip') :
    (∀ i b, hist[i]? = some b → Numbered genesis i b) ∧
      (∀ i b, hist'[i]? = some b → Numbered genesis i b) ∧
        (Set.InjOn Blake3.digest {bs | ∃ b ∈ hist ++ hist', bs ∈ b.fed} →
          tip.blockHash = tip'.blockHash →
            hist.length = hist'.length ∧ hist.map eraseSignatures = hist'.map eraseSignatures) := by
  refine ⟨fun _ _ => h.numbered, fun _ _ => h'.numbered, fun hF htip => ?_⟩
  have hfed : ∀ b ∈ hist, ∀ bs ∈ b.fed, bs ∈ {bs | ∃ b ∈ hist ++ hist', bs ∈ b.fed} :=
    fun b hb bs hbs => ⟨b, List.mem_append_left _ hb, hbs⟩
  have hfed' : ∀ b ∈ hist', ∀ bs ∈ b.fed, bs ∈ {bs | ∃ b ∈ hist ++ hist', bs ∈ b.fed} :=
    fun b hb bs hbs => ⟨b, List.mem_append_right _ hb, hbs⟩
  have hepoch := congrArg SettlementBlock.epochId
    (SettledTo.eraseSignatures_tip h h' hF hfed hfed' htip)
  have hlen := h.length_eq h' hepoch
  exact ⟨hlen, h.eraseSignatures_history h' hF hfed hfed' hlen htip⟩

end Histories

/-! ## Histories to evaluate -/

section Sample

attribute [local instance] polyBlake3 anyKey anySignature

/-- An epoch on top of a given hash, signed by the given byte. -/
def sampleEpoch (epochId height : UInt64) (previous : Hash) (s : UInt8) : SettlementBlock :=
  finalize
    { totalFees := 1
      totalRewards := 2
      version := 2
      chainId := 2
      epochId := epochId
      height := height
      previousSettlementHash := previous
      timestamp := 3
      epochDurationSecs := 4
      epochStartTime := 5
      epochEndTime := 6
      presenceRoot := ByteArr.fill 32 1
      transactionRoot := ByteArr.fill 32 2
      stateRoot := ByteArr.fill 32 3
      rewardRoot := ByteArr.fill 32 4
      participantRoot := ByteArr.fill 32 5
      epochSnapshotRoot := ByteArr.fill 32 6
      presenceRecordCount := 7
      transactionCount := 8
      participantCount := 9
      epochRoot := Hash.zero
      epochCommitment := Hash.zero
      totalSupply := 10
      blockHash := Hash.zero
      committeeSignatures := [ByteArr.fill 64 s] }

def sampleGenesis : GenesisBlock := ⟨2, ByteArr.fill 32 9⟩

/-- The first two epochs. -/
def sampleHistory (s : UInt8) : List SettlementBlock :=
  let b := sampleEpoch 0 1 sampleGenesis.blockHash s
  [b, sampleEpoch 1 2 b.blockHash s]

theorem settledTo_sample (s : UInt8) (h : s = 1 ∨ s = 2) :
    SettledTo sampleGenesis (sampleHistory s)
      (sampleEpoch 1 2 (sampleEpoch 0 1 sampleGenesis.blockHash s).blockHash s) := by
  have hfirst : (sampleEpoch 0 1 sampleGenesis.blockHash s).verifyFull none (some sampleGenesis)
      [ByteArr.fill 32 1] 1 = true := by
    rcases h with rfl | rfl <;> decide +kernel
  have hnext : (sampleEpoch 1 2 (sampleEpoch 0 1 sampleGenesis.blockHash s).blockHash s).verifyFull
      (some (sampleEpoch 0 1 sampleGenesis.blockHash s)) none [ByteArr.fill 32 1] 1 = true := by
    rcases h with rfl | rfl <;> decide +kernel
  exact SettledTo.next (SettledTo.first hfirst) hnext

theorem settlement_history_fixed_sample :
    (sampleHistory 1).map eraseSignatures = (sampleHistory 2).map eraseSignatures := by
  have h := settlement_history_fixed (settledTo_sample 1 (by decide))
    (settledTo_sample 2 (by decide))
  refine (h.2.2 ?_ (by decide +kernel)).2
  have hF : Set.InjOn Blake3.digest
      {bs | bs ∈ (sampleHistory 1 ++ sampleHistory 2).flatMap fed} :=
    injOn_of_nodup (by decide +kernel)
  exact hF.mono fun bs hbs => List.mem_flatMap.2 hbs

end Sample

end SettlementBlock
end Core
end Aevum
