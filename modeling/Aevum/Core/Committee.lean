import Aevum.Core.Settlement
import Aevum.Lib.Matching

/-!
# Core.Committee — `verify_committee_signatures`

The two nested loops of `verify_committee_signatures` are a greedy matching of signatures to
committee keys; `Accepts` is when a key may be matched to a signature.

* `countValid_eq` : the loops count the pairs of `Lib.matching`;
* `committee_threshold` : the result is sound and, when no signature verifies under two keys,
  complete.
-/

namespace Aevum
namespace Core
namespace SettlementBlock

open Lib Crypto

section Rules

variable [PublicKeys] [Signatures]

/-- The bytes decode to a key under which the signature verifies. -/
def accepts (msg : List UInt8) (pkBytes : ByteArr 32) (sig : Signature) : Bool :=
  match PublicKeys.fromBytes pkBytes with
  | some pubkey => Signatures.verify pubkey msg sig
  | none => false

variable {msg : List UInt8} {used : Finset (ByteArr 32)} {committee : List (ByteArr 32)}

/-- The inner loop takes the first key that is free and accepts. -/
theorem findKey_eq (sig : Signature) :
    findKey msg sig used committee = pick (accepts msg) committee used sig := by
  induction committee with
  | nil => rfl
  | cons pk rest ih =>
      rw [findKey, pick, List.find?_cons, ih]
      by_cases hused : pk ∈ used
      · rw [if_pos hused]
        simp [hused, pick]
      · rw [if_neg hused]
        -- an undecodable key accepts nothing
        cases hkey : PublicKeys.fromBytes pk with
        | none => simp [accepts, hkey, pick]
        | some pubkey =>
            by_cases hverify : Signatures.verify pubkey msg sig = true
            · simp [accepts, hkey, hused, hverify]
            · simp [accepts, hkey, hverify, pick]

/-- The outer loop counts the pairs of a matching. -/
theorem countValid_eq (threshold valid i : Nat) (sigs : List Signature) :
    countValid msg committee threshold used valid sigs =
      valid + (matching (accepts msg) committee (threshold - valid) used i sigs).length := by
  induction sigs generalizing used valid i with
  | nil => rfl
  | cons sig rest ih =>
      rw [countValid, findKey_eq]
      by_cases hdone : valid ≥ threshold
      · have hlimit : threshold - valid = 0 := Nat.sub_eq_zero_of_le hdone
        rw [if_pos hdone, hlimit, matching_stop]
        rfl
      · -- one pair less to find after a match
        have hlimit : threshold - valid ≠ 0 := Nat.sub_ne_zero_of_lt (Nat.not_le.1 hdone)
        rw [if_neg hdone]
        cases hpick : pick (accepts msg) committee used sig with
        | none =>
            rw [matching_cons_none hlimit hpick]
            exact ih valid (i + 1)
        | some pk =>
            rw [matching_cons_some hlimit hpick, List.length_cons, Nat.sub_sub]
            calc
              countValid msg committee threshold (insert pk used) (valid + 1) rest
                  = valid + 1 + (matching (accepts msg) committee (threshold - (valid + 1))
                      (insert pk used) (i + 1) rest).length := ih (valid + 1) (i + 1)
              _ = _ := by omega

variable {b : SettlementBlock} {threshold : Nat}

theorem verifyCommitteeSignatures_iff :
    b.verifyCommitteeSignatures committee threshold = true ↔
      (threshold ≠ 0 ∧ threshold ≤ committee.length) ∧
        b.committeeSignatures.length ≤ committee.length ∧
          threshold ≤ (matching (accepts b.signingMessage) committee threshold ∅ 0
            b.committeeSignatures).length := by
  have hcount : countValid b.signingMessage committee threshold ∅ 0 b.committeeSignatures =
      (matching (accepts b.signingMessage) committee threshold ∅ 0
        b.committeeSignatures).length := by
    rw [countValid_eq threshold 0 0, Nat.zero_add, Nat.sub_zero]
  rw [verifyCommitteeSignatures, hcount]
  by_cases hthreshold : threshold = 0 ∨ threshold > committee.length
  · rw [if_pos hthreshold]
    constructor
    · intro h
      cases h
    · intro h
      omega
  · rw [if_neg hthreshold]
    by_cases hsigs : b.committeeSignatures.length > committee.length
    · rw [if_pos hsigs]
      constructor
      · intro h
        cases h
      · intro h
        omega
    · rw [if_neg hsigs, decide_eq_true_iff]
      constructor
      · intro h
        exact ⟨by omega, by omega, h⟩
      · intro h
        exact h.2.2

/-- At least `threshold` distinct committee keys with valid signatures at distinct positions. -/
def Endorsed (b : SettlementBlock) (committee : List (ByteArr 32)) (threshold : Nat) : Prop :=
  ∃ m : List (Nat × ByteArr 32), threshold ≤ m.length ∧ (m.map Prod.fst).Nodup ∧
    (m.map Prod.snd).Nodup ∧ ∀ p ∈ m, p.2 ∈ committee ∧
      ∃ sig, b.committeeSignatures[p.1]? = some sig ∧ accepts b.signingMessage p.2 sig = true

/-- What is accepted is endorsed; and what has enough distinct keys with valid signatures is
accepted, if no signature verifies under two committee keys. -/
theorem committee_threshold (b : SettlementBlock) (committee : List (ByteArr 32))
    (threshold : Nat) :
    (b.verifyCommitteeSignatures committee threshold = true → b.Endorsed committee threshold) ∧
      ((∀ sig ∈ b.committeeSignatures, ∀ pk ∈ committee, ∀ pk' ∈ committee,
          accepts b.signingMessage pk sig = true → accepts b.signingMessage pk' sig = true →
            pk = pk') →
        1 ≤ threshold → threshold ≤ committee.length →
        b.committeeSignatures.length ≤ committee.length →
        ∀ ks : List (ByteArr 32), ks.Nodup → threshold ≤ ks.length →
          (∀ pk ∈ ks, pk ∈ committee ∧
            ∃ sig ∈ b.committeeSignatures, accepts b.signingMessage pk sig = true) →
          b.verifyCommitteeSignatures committee threshold = true) := by
  constructor
  · intro h
    rcases verifyCommitteeSignatures_iff.1 h with ⟨-, -, hlen⟩
    refine ⟨_, hlen, matching_positions_nodup, matching_keys_nodup, fun p hp => ?_⟩
    rcases matching_mem p hp with ⟨-, hkey, -, sig, hget, hok⟩
    exact ⟨hkey, sig, hget, hok⟩
  · -- a greedy choice is as good as any when no signature has two keys
    intro huniq hpos hthreshold hsigs ks hnodup hlen hks
    refine verifyCommitteeSignatures_iff.2 ⟨⟨by omega, hthreshold⟩, hsigs, ?_⟩
    refine le_length_matching huniq hnodup hlen fun pk hpk => ?_
    exact ⟨(hks pk hpk).1, Finset.notMem_empty pk, (hks pk hpk).2⟩

end Rules

/-! ## A committee to evaluate -/

section Sample

attribute [local instance] anyKey

/-- A signature verifies under the key it starts with. -/
@[reducible] def prefixSignature : Signatures :=
  ⟨fun key _ sig => key.toBytes.bytes.isPrefixOf sig.bytes⟩

attribute [local instance] prefixSignature

/-- Keys 1, 2, 2 and 3 against signatures by 2, by nobody, by 2 again and by 1. -/
def sampleCommittee : List (ByteArr 32) :=
  [ByteArr.fill 32 1, ByteArr.fill 32 2, ByteArr.fill 32 2, ByteArr.fill 32 3]

def sampleSigned : SettlementBlock :=
  { totalFees := 0
    totalRewards := 0
    version := 2
    chainId := 2
    epochId := 0
    height := 1
    previousSettlementHash := Hash.zero
    timestamp := 0
    epochDurationSecs := 0
    epochStartTime := 0
    epochEndTime := 0
    presenceRoot := Hash.zero
    transactionRoot := Hash.zero
    stateRoot := Hash.zero
    rewardRoot := Hash.zero
    participantRoot := Hash.zero
    epochSnapshotRoot := Hash.zero
    presenceRecordCount := 0
    transactionCount := 0
    participantCount := 0
    epochRoot := Hash.zero
    epochCommitment := Hash.zero
    totalSupply := 0
    blockHash := Hash.zero
    committeeSignatures :=
      [ByteArr.fill 64 2, ByteArr.fill 64 9, ByteArr.fill 64 2, ByteArr.fill 64 1] }

theorem committee_threshold_sample :
    sampleSigned.verifyCommitteeSignatures sampleCommittee 2 = true ∧
      sampleSigned.Endorsed sampleCommittee 2 := by
  have h := committee_threshold sampleSigned sampleCommittee 2
  have haccepted : sampleSigned.verifyCommitteeSignatures sampleCommittee 2 = true :=
    h.2 (by decide +kernel) (by decide) (by decide) (by decide)
      [ByteArr.fill 32 1, ByteArr.fill 32 2] (by decide +kernel) (by decide) (by decide +kernel)
  exact ⟨haccepted, h.1 haccepted⟩

end Sample

end SettlementBlock
end Core
end Aevum
