import Aevum.Core.Committee
import Aevum.Core.SettlementHistory
import Aevum.Lib.Lists
import Aevum.Lib.Quorum

/-!
# Core.SettlementAgreement — forks and who signed them

`SettledBy keys threshold genesis c tip` : the blocks `c` have been verified one on top of the
other, where every epoch has its committee and its threshold.

* `fork_accountable` : when two such histories part, as many committee members as two quorums have
  in common have signed both of the first blocks that differ;
* `settlement_extended` : what a quorum of a committee signs is accepted.
-/

namespace Aevum
namespace Core
namespace SettlementBlock

open Lib Crypto

/-! ## Signers -/

section Signers

/-- A block with the signatures of the given members. -/
def signedBy [Signatures] [Signers] (signing : List Keypair) (b : SettlementBlock) :
    SettlementBlock :=
  { b with
    committeeSignatures :=
      signing.map fun keypair => Signers.sign keypair.privateKey b.signingMessage }

variable [PublicKeys] [Signatures]

/-- The committee members whose signature a block carries. -/
def signers (committee : List (ByteArr 32)) (b : SettlementBlock) : Finset (ByteArr 32) :=
  committee.toFinset.filter fun pk =>
    b.committeeSignatures.any (accepts b.signingMessage pk)

/-- Those whose signatures two blocks carry. -/
def doubleSigners (committee : List (ByteArr 32)) (b b' : SettlementBlock) :
    Finset (ByteArr 32) :=
  signers committee b ∩ signers committee b'

variable {committee : List (ByteArr 32)} {threshold : ℕ} {b : SettlementBlock}

/-- What passes the check carries the signatures of a quorum. -/
theorem quorum_of_verify (h : b.verifyCommitteeSignatures committee threshold = true) :
    Quorum committee.toFinset threshold (signers committee b) := by
  refine ⟨Finset.filter_subset _ _, ?_⟩
  rcases verifyCommitteeSignatures_iff.1 h with ⟨-, -, hlen⟩
  have hnodup : ((matching (accepts b.signingMessage) committee threshold ∅ 0
      b.committeeSignatures).map Prod.snd).Nodup := matching_keys_nodup
  have hsub : ((matching (accepts b.signingMessage) committee threshold ∅ 0
      b.committeeSignatures).map Prod.snd).toFinset ⊆ signers committee b := by
    intro pk hpk
    rcases List.mem_map.1 (List.mem_toFinset.1 hpk) with ⟨p, hp, rfl⟩
    rcases matching_mem p hp with ⟨-, hkey, -, sig, hget, hok⟩
    refine Finset.mem_filter.2 ⟨List.mem_toFinset.2 hkey, ?_⟩
    exact List.any_eq_true.2 ⟨sig, List.mem_of_getElem? hget, hok⟩
  have hcard := Finset.card_le_card hsub
  rw [List.toFinset_card_of_nodup hnodup, List.length_map] at hcard
  exact hlen.trans hcard

end Signers

/-! ## Histories under given committees -/

section Histories

variable [Blake3] [PublicKeys] [Signatures]

/-- The blocks `hist`, the last of which is `tip`, are verified one on top of the other, each by
the committee and the threshold of its epoch. -/
inductive SettledBy (keys : UInt64 → List (ByteArr 32)) (threshold : UInt64 → ℕ)
    (genesis : GenesisBlock) : List SettlementBlock → SettlementBlock → Prop
  | first {b : SettlementBlock} :
      b.verifyFull none (some genesis) (keys b.epochId) (threshold b.epochId) = true →
        SettledBy keys threshold genesis [b] b
  | next {hist : List SettlementBlock} {prev b : SettlementBlock} {gen : Option GenesisBlock} :
      SettledBy keys threshold genesis hist prev →
        b.verifyFull (some prev) gen (keys b.epochId) (threshold b.epochId) = true →
          SettledBy keys threshold genesis (hist ++ [b]) b

variable {keys : UInt64 → List (ByteArr 32)} {threshold : UInt64 → ℕ} {genesis : GenesisBlock}
  {hist hist' pre rest : List SettlementBlock} {b prev tip tip' : SettlementBlock}
  {gen : Option GenesisBlock} {committee : List (ByteArr 32)} {t : ℕ}

theorem verifyFull_committee {prev? : Option SettlementBlock}
    (h : b.verifyFull prev? gen committee t = true) :
    b.verifyCommitteeSignatures committee t = true := by
  rw [verifyFull.eq_def] at h
  split at h
  · cases h
  · split at h
    · split at h
      · cases h
      · exact h
    · split at h
      · split at h
        · cases h
        · exact h
      · cases h

namespace SettledBy

theorem settledTo (h : SettledBy keys threshold genesis hist tip) :
    SettledTo genesis hist tip := by
  induction h with
  | first hfull => exact .first hfull
  | next _ hfull ih => exact .next ih hfull

/-- What a block of a history is linked to. -/
def parentHash (genesis : GenesisBlock) (pre : List SettlementBlock) : Hash :=
  ((pre.getLast?).map blockHash).getD genesis.blockHash

/-- Every block of a history has been checked against the ones before it. -/
theorem checked (h : SettledBy keys threshold genesis hist tip) (hb : hist = pre ++ b :: rest) :
    b.previousSettlementHash = parentHash genesis pre ∧
      b.verifyCommitteeSignatures (keys b.epochId) (threshold b.epochId) = true := by
  induction h generalizing pre b rest with
  | @first b' hfull =>
      -- nothing stands before or behind the only block
      cases pre with
      | cons c pre => simp at hb
      | nil =>
          cases hb
          have hlink := decide_eq_true_iff.1 (verifyFull_first hfull).2
          exact ⟨hlink.2.2.1, verifyFull_committee hfull⟩
  | @next hist prev b' gen hprev hfull ih =>
      rcases List.eq_nil_or_concat rest with rfl | ⟨rest, c, rfl⟩
      · -- the block on top
        rcases List.append_inj' hb rfl with ⟨rfl, htop⟩
        cases htop
        have hlink := decide_eq_true_iff.1 (verifyFull_next hfull).2
        rw [parentHash, hprev.settledTo.getLast?_eq]
        exact ⟨hlink.1, verifyFull_committee hfull⟩
      · rw [List.concat_eq_append, ← List.cons_append, ← List.append_assoc] at hb
        exact ih (List.append_inj' hb rfl).1

end SettledBy

/-- The hashes of two histories under the same committees agree up to a first difference, and
there the committee of the epoch is to blame. -/
theorem fork_accountable (h : SettledBy keys threshold genesis hist tip)
    (h' : SettledBy keys threshold genesis hist' tip')
    (hfork : ¬ hist.map blockHash <+: hist'.map blockHash)
    (hfork' : ¬ hist'.map blockHash <+: hist.map blockHash) :
    ∃ (i : ℕ) (b b' : SettlementBlock), hist[i]? = some b ∧ hist'[i]? = some b' ∧
      (hist.take i).map blockHash = (hist'.take i).map blockHash ∧
      b.previousSettlementHash = b'.previousSettlementHash ∧ b.epochId = b'.epochId ∧
      b.signingMessage ≠ b'.signingMessage ∧
      2 * threshold b.epochId ≤
        (doubleSigners (keys b.epochId) b b').card + (keys b.epochId).toFinset.card := by
  rcases exists_fork blockHash hfork hfork' with
    ⟨pre, b, rest, pre', b', rest', rfl, rfl, hpre, hne⟩
  have hlen : pre.length = pre'.length := by simpa using congrArg List.length hpre
  have hb : (pre ++ b :: rest)[pre.length]? = some b := getElem?_append_cons pre b rest
  have hb' : (pre' ++ b' :: rest')[pre.length]? = some b' :=
    hlen ▸ getElem?_append_cons pre' b' rest'
  rcases h.checked rfl with ⟨hlink, hverify⟩
  rcases h'.checked rfl with ⟨hlink', hverify'⟩
  have hepoch : b.epochId = b'.epochId :=
    UInt64.toNat_inj.1 ((h.settledTo.numbered hb).epochId.trans
      (h'.settledTo.numbered hb').epochId.symm)
  refine ⟨pre.length, b, b', hb, hb', ?_, ?_, hepoch, ?_, ?_⟩
  · rw [List.take_left, hlen, List.take_left, hpre]
  · -- the last block that they share
    have hlast : pre.getLast?.map blockHash = pre'.getLast?.map blockHash := by
      rw [← List.getLast?_map, ← List.getLast?_map, hpre]
    rw [hlink, hlink', SettledBy.parentHash, SettledBy.parentHash, hlast]
  · intro hmessage
    exact hne (ByteArr.ext (ByteArr.append_inj hmessage).2)
  · rw [← hepoch] at hverify'
    have hoverlap := (quorum_of_verify hverify).overlap (quorum_of_verify hverify')
    rw [two_mul]
    exact hoverlap

end Histories

section Sample

attribute [local instance] polyBlake3 anyKey stampSignature stampSigner

/-- A committee of three keys in every epoch. -/
def sampleKeys (_ : UInt64) : List (ByteArr 32) :=
  [ByteArr.fill 32 1, ByteArr.fill 32 2, ByteArr.fill 32 3]

def sampleKeypair (b : UInt8) : Keypair :=
  { publicKey := sampleKey b
    privateKey := ByteArr.fill 32 b
    verify_sign := fun _ => decide_eq_true rfl }

def sampleFirst : SettlementBlock :=
  signedBy [sampleKeypair 1, sampleKeypair 2] (sampleEpoch 0 1 sampleGenesis.blockHash 0)

def sampleSecond : SettlementBlock :=
  signedBy [sampleKeypair 1, sampleKeypair 2] (sampleEpoch 1 2 sampleFirst.blockHash 0)

/-- Another block for the second epoch, by another quorum. -/
def sampleOther : SettlementBlock :=
  signedBy [sampleKeypair 3, sampleKeypair 2] (finalize { sampleSecond with totalFees := 9 })

/-- Two of three keys have signed each of the blocks, so one has signed both. -/
theorem fork_accountable_sample :
    ∃ b b' : SettlementBlock, b.signingMessage ≠ b'.signingMessage ∧
      1 ≤ (doubleSigners (sampleKeys b.epochId) b b').card := by
  have hfirst : SettledBy sampleKeys (fun _ => 2) sampleGenesis [sampleFirst] sampleFirst :=
    .first (by decide +kernel)
  have hfull : sampleSecond.verifyFull (some sampleFirst) none (sampleKeys 1) 2 = true := by
    decide +kernel
  have hfull' : sampleOther.verifyFull (some sampleFirst) none (sampleKeys 1) 2 = true := by
    decide +kernel
  have hsecond : SettledBy sampleKeys (fun _ => 2) sampleGenesis ([sampleFirst] ++ [sampleSecond])
      sampleSecond := hfirst.next hfull
  have hother : SettledBy sampleKeys (fun _ => 2) sampleGenesis ([sampleFirst] ++ [sampleOther])
      sampleOther := hfirst.next hfull'
  rcases fork_accountable hsecond hother (by decide +kernel) (by decide +kernel) with
    ⟨_, b, b', -, -, -, -, -, hmessage, hcard⟩
  have hthree : (sampleKeys b.epochId).toFinset.card = 3 := rfl
  rw [hthree] at hcard
  exact ⟨b, b', hmessage, by omega⟩

end Sample

/-! ## What an honest committee signs is settled -/

section Honest

variable [Blake3] [PublicKeys] [Signatures] [Signers]

/-- The data of an epoch, linked to what is settled. -/
def linkTo (genesis : GenesisBlock) (data : SettlementBlock) :
    Option SettlementBlock → SettlementBlock
  | none =>
      { data with
        chainId := genesis.chainId
        epochId := 0
        height := 1
        previousSettlementHash := genesis.blockHash }
  | some prev =>
      { data with
        version := prev.version
        chainId := prev.chainId
        epochId := prev.epochId + 1
        height := prev.height + 1
        previousSettlementHash := prev.blockHash }

/-- The block for the next epoch, signed by members of its committee. -/
def propose (genesis : GenesisBlock) (signing : UInt64 → List Keypair)
    (prev? : Option SettlementBlock) (data : SettlementBlock) : SettlementBlock :=
  signedBy (signing (linkTo genesis data prev?).epochId) (linkTo genesis data prev?).finalize

/-- The blocks for the data of several epochs, one on top of the other. -/
def produce (genesis : GenesisBlock) (signing : UInt64 → List Keypair)
    (data : List SettlementBlock) : List SettlementBlock :=
  data.foldl (fun hist d => hist ++ [propose genesis signing hist.getLast? d]) []

/-- In every epoch enough members of the committee sign, with keys of their own. -/
structure Honest (keys : UInt64 → List (ByteArr 32)) (threshold : UInt64 → ℕ)
    (signing : UInt64 → List Keypair) : Prop where
  decodes : ∀ e, ∀ keypair ∈ signing e,
    PublicKeys.fromBytes keypair.publicKey.toBytes = some keypair.publicKey
  member : ∀ e, ∀ keypair ∈ signing e, keypair.publicKey.toBytes ∈ keys e
  distinct : ∀ e, ((signing e).map fun keypair => keypair.publicKey.toBytes).Nodup
  own : ∀ e, ∀ keypair ∈ signing e, ∀ pk ∈ keys e, ∀ msg,
    accepts msg pk (Signers.sign keypair.privateKey msg) = true → pk = keypair.publicKey.toBytes
  positive : ∀ e, 1 ≤ threshold e
  enough : ∀ e, threshold e ≤ (signing e).length

variable {keys : UInt64 → List (ByteArr 32)} {threshold : UInt64 → ℕ}
  {signing : UInt64 → List Keypair} {genesis : GenesisBlock} {hist : List SettlementBlock}
  {prev : SettlementBlock}

omit [PublicKeys] in
/-- Signatures are no part of what is checked inside a block. -/
theorem verifyInternal_signedBy (members : List Keypair) (b : SettlementBlock) :
    (signedBy members b.finalize).verifyInternal = true :=
  verifyInternal_iff.2 ⟨rfl, rfl, rfl⟩

omit [Blake3] in
/-- The signatures of an honest committee pass. -/
theorem Honest.verifies (h : Honest keys threshold signing) (e : UInt64) (b : SettlementBlock) :
    (signedBy (signing e) b).verifyCommitteeSignatures (keys e) (threshold e) = true := by
  have hmessage : (signedBy (signing e) b).signingMessage = b.signingMessage := rfl
  have hsubset : ((signing e).map fun keypair => keypair.publicKey.toBytes) ⊆ keys e := by
    intro pk hpk
    rcases List.mem_map.1 hpk with ⟨keypair, hkeypair, rfl⟩
    exact h.member e keypair hkeypair
  have hlen := (List.subperm_of_subset (h.distinct e) hsubset).length_le
  rw [List.length_map] at hlen
  refine verifyCommitteeSignatures_iff.2 ⟨⟨?_, (h.enough e).trans hlen⟩, ?_, ?_⟩
  · exact Nat.one_le_iff_ne_zero.1 (h.positive e)
  · rw [signedBy, List.length_map]
    exact hlen
  · rw [hmessage]
    refine le_length_matching ?_ (h.distinct e) ?_ ?_
    · -- a signature verifies under the key of its signer only
      intro sig hsig pk hpk pk' hpk' hok hok'
      rcases List.mem_map.1 hsig with ⟨keypair, hkeypair, rfl⟩
      rw [h.own e keypair hkeypair pk hpk _ hok, h.own e keypair hkeypair pk' hpk' _ hok']
    · rw [List.length_map]
      exact h.enough e
    · intro pk hpk
      rcases List.mem_map.1 hpk with ⟨keypair, hkeypair, rfl⟩
      refine ⟨h.member e keypair hkeypair, Finset.notMem_empty _, _,
        List.mem_map_of_mem hkeypair, ?_⟩
      rw [accepts, h.decodes e keypair hkeypair]
      exact keypair.verify_sign _

/-- The first block is accepted. -/
theorem Honest.first (h : Honest keys threshold signing) (genesis : GenesisBlock)
    (data : SettlementBlock) :
    SettledBy keys threshold genesis [propose genesis signing none data]
      (propose genesis signing none data) := by
  have hlink : (propose genesis signing none data).verifyGenesisLink genesis = true :=
    decide_eq_true ⟨rfl, rfl, rfl, rfl⟩
  have hinternal : (propose genesis signing none data).verifyInternal = true :=
    verifyInternal_signedBy _ _
  refine SettledBy.first ?_
  rw [verifyFull, hinternal, hlink]
  exact h.verifies 0 _

/-- The next block is accepted, as long as heights can be counted. -/
theorem Honest.next (h : Honest keys threshold signing)
    (hhist : SettledBy keys threshold genesis hist prev) (hroom : hist.length + 1 < 2 ^ 64)
    (data : SettlementBlock) :
    SettledBy keys threshold genesis (hist ++ [propose genesis signing (some prev) data])
      (propose genesis signing (some prev) data) := by
  rcases hhist.settledTo.numbered_tip with ⟨i, hlen, hnum⟩
  have hadd {x : UInt64} (hx : x.toNat + 1 < 2 ^ 64) : x.checkedAdd 1 = some (x + 1) := by
    rw [UInt64.checkedAdd_eq_some, UInt64.toNat_add, UInt64.toNat_one, Nat.mod_eq_of_lt hx]
  have hepoch : prev.epochId.checkedAdd 1 = some (prev.epochId + 1) := by
    refine hadd ?_
    rw [hnum.epochId]
    omega
  have hheight : prev.height.checkedAdd 1 = some (prev.height + 1) := by
    refine hadd ?_
    rw [hnum.height]
    omega
  have hlink : (propose genesis signing (some prev) data).verifyChain prev = true :=
    decide_eq_true ⟨rfl, hepoch, hheight, rfl, rfl⟩
  have hinternal : (propose genesis signing (some prev) data).verifyInternal = true :=
    verifyInternal_signedBy _ _
  have hfull : (propose genesis signing (some prev) data).verifyFull (some prev) none
      (keys (prev.epochId + 1)) (threshold (prev.epochId + 1)) = true := by
    rw [verifyFull, hinternal, hlink]
    exact h.verifies (prev.epochId + 1) _
  exact SettledBy.next hhist hfull

omit [PublicKeys] in
theorem produce_snoc (genesis : GenesisBlock) (signing : UInt64 → List Keypair)
    (data : List SettlementBlock) (d : SettlementBlock) :
    produce genesis signing (data ++ [d]) = produce genesis signing data ++
      [propose genesis signing (produce genesis signing data).getLast? d] := by
  rw [produce, List.foldl_append]
  rfl

omit [PublicKeys] in
theorem roots_propose (genesis : GenesisBlock) (signing : UInt64 → List Keypair)
    (prev? : Option SettlementBlock) (d : SettlementBlock) :
    (propose genesis signing prev? d).roots = d.roots := by
  cases prev? with
  | none => rfl
  | some prev => rfl

/-- Honest committees settle whatever data there is, epoch after epoch. -/
theorem settlement_extended (h : Honest keys threshold signing) (genesis : GenesisBlock)
    (data : List SettlementBlock) (hne : data ≠ []) (hroom : data.length < 2 ^ 64) :
    (produce genesis signing data).map roots = data.map roots ∧
      ∃ tip, SettledBy keys threshold genesis (produce genesis signing data) tip := by
  induction data using List.reverseRecOn with
  | nil => exact absurd rfl hne
  | append_singleton data d ih =>
      rw [List.length_append, List.length_singleton] at hroom
      rw [produce_snoc, List.map_append, List.map_append, List.map_singleton, List.map_singleton,
        roots_propose]
      by_cases hdata : data = []
      · subst hdata
        exact ⟨rfl, _, h.first genesis d⟩
      · rcases ih hdata (by omega) with ⟨hroots, prev, hprev⟩
        have hlen := congrArg List.length hroots
        rw [List.length_map, List.length_map] at hlen
        rw [hroots, hprev.settledTo.getLast?_eq]
        exact ⟨rfl, _, h.next hprev (by omega) d⟩

end Honest

section Sample

attribute [local instance] polyBlake3 anyKey stampSignature stampSigner

/-- The second member signs in every epoch, and the others take turns. -/
def sampleSigning (e : UInt64) : List Keypair :=
  [sampleKeypair (if e % 2 = 0 then 1 else 3), sampleKeypair 2]

theorem mem_sampleSigning {e : UInt64} {keypair : Keypair} (h : keypair ∈ sampleSigning e) :
    keypair = sampleKeypair 1 ∨ keypair = sampleKeypair 2 ∨ keypair = sampleKeypair 3 := by
  rcases List.mem_pair.1 h with rfl | rfl
  · by_cases he : e % 2 = 0
    · rw [if_pos he]
      exact Or.inl rfl
    · rw [if_neg he]
      exact Or.inr (Or.inr rfl)
  · exact Or.inr (Or.inl rfl)

theorem honest_sample : Honest sampleKeys (fun _ => 2) sampleSigning where
  decodes := fun _ _ _ => rfl
  member := by
    intro e keypair hkeypair
    rw [sampleKeys]
    rcases mem_sampleSigning hkeypair with rfl | rfl | rfl <;> decide
  distinct := by
    intro e
    by_cases he : e % 2 = 0
    · simp only [sampleSigning, if_pos he]
      decide
    · simp only [sampleSigning, if_neg he]
      decide
  own := by
    intro e keypair hkeypair pk _ msg hok
    -- a signature begins with the key that it verifies under
    have hbytes : (Signers.sign keypair.privateKey msg).bytes =
        pk.bytes ++ (polyDigest msg).bytes := of_decide_eq_true hok
    have hkey : keypair.privateKey = keypair.publicKey.toBytes := by
      rcases mem_sampleSigning hkeypair with rfl | rfl | rfl <;> rfl
    rw [← hkey]
    exact (ByteArr.append_inj hbytes).1.symm
  positive := fun _ => by decide
  enough := fun _ => le_rfl

theorem settlement_extended_sample :
    ∃ tip, SettledBy sampleKeys (fun _ => 2) sampleGenesis
      (produce sampleGenesis sampleSigning [sampleFirst, sampleSecond, sampleOther]) tip :=
  (settlement_extended honest_sample sampleGenesis [sampleFirst, sampleSecond, sampleOther]
    (List.cons_ne_nil _ _) (by decide)).2

end Sample

end SettlementBlock
end Core
end Aevum
