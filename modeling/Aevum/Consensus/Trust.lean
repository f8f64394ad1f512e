import Aevum.Crypto
import Aevum.Lib.Machine
import Aevum.Lib.OrderedSet

/-!
# Consensus.Trust — `trust.rs`

The delegates of the network: who may add one, and the root that commits to all of them.

* `step_cases` : what a call can do to the model;
* `sound_of_run` : along every run the root is the one of the current epoch and delegates, and there
  are no more delegates than allowed;
* `enrolled_of_run` : every delegate but the bootstrap key was enrolled by the bootstrap key or by a
  quorum of the delegates of that moment, and has not been revoked since;
* `rootInput_eq_iff` : the bytes behind a root determine the version, the epoch and the delegates.
-/

namespace Aevum
namespace Consensus

open Lib Crypto

/-- `[u8; 32]`. -/
abbrev Key := ByteArr 32

def mainnetGenesisBootstrap : Key :=
  ⟨[0x9e, 0x3a, 0xe8, 0x84, 0x6e, 0x53, 0xf5, 0x1b,
    0x66, 0xed, 0xf3, 0xd9, 0xc6, 0x14, 0xfc, 0x76,
    0x65, 0x0f, 0xa9, 0x3b, 0xb9, 0x16, 0x20, 0xb4,
    0x7c, 0x44, 0xf9, 0x96, 0x79, 0x70, 0x0e, 0x30], rfl⟩

/-! ## Data -/

structure TrustModel where
  trustVersion : UInt16
  currentEpoch : UInt64
  genesisBootstrap : Key
  delegates : OrderedSet Key
  minQuorum : Nat
  maxQuorum : Nat
  maxDelegates : Nat
  trustRoot : Hash
  deriving DecidableEq

inductive TrustError
  | notAuthorized
  | alreadyDelegate
  | delegateLimitReached
  | voterNotDelegate
  | noQuorum (have_ need : Nat)
  deriving DecidableEq

namespace TrustModel

/-! ## Methods -/

def networkSize (m : TrustModel) : Nat := max m.delegates.card 1

def quorum (m : TrustModel) : Nat :=
  min (max (usizeSatMul m.networkSize 2 / 3) m.minQuorum) m.maxQuorum

/-- The bytes that `recompute_trust_root` and `verify_root` feed to the hasher. -/
def rootInput (m : TrustModel) : List UInt8 :=
  ascii "AEVUM_TRUST_ROOT_V6" ++ (u16Bytes m.trustVersion).bytes ++
    (u64Bytes m.currentEpoch).bytes ++ m.delegates.toList.flatMap ByteArr.bytes

def isGenesis (m : TrustModel) (pk : Key) : Bool := pk = m.genesisBootstrap

def isDelegate (m : TrustModel) (pk : Key) : Bool := pk ∈ m.delegates

def canEndorse (m : TrustModel) (pk : Key) : Bool := m.isGenesis pk || m.isDelegate pk

/-- The keys behind a call of `delegate`: `endorsements` and `from`, each one once. -/
def voters (from_ : Key) (endorsements : List Key) : OrderedSet Key :=
  (OrderedSet.ofList endorsements).insert from_

def canJoin (m : TrustModel) (candidate : Key) (endorsements : List Key) : Except TrustError Unit :=
  if m.isGenesis candidate then .ok ()
  else if m.isDelegate candidate then .error .alreadyDelegate
  else
    let voters := OrderedSet.ofList endorsements
    if voters.toList.any fun v => !m.canEndorse v then .error .voterNotDelegate
    else if voters.card < m.quorum then .error (.noQuorum voters.card m.quorum)
    else .ok ()

/-! ## Votes -/

/-- At least a quorum of the delegates stand behind a call of `delegate`. -/
def Backed (m : TrustModel) (from_ : Key) (endorsements : List Key) : Prop :=
  ∃ voters : Finset Key, m.quorum ≤ voters.card ∧
    ∀ v ∈ voters, v ∈ m.delegates ∧ (v = from_ ∨ v ∈ endorsements)

theorem isDelegate_iff {m : TrustModel} {pk : Key} : m.isDelegate pk = true ↔ pk ∈ m.delegates :=
  decide_eq_true_iff

theorem backed_of_voters {m : TrustModel} {from_ : Key} {endorsements : List Key}
    (hall : ¬ ((voters from_ endorsements).toList.any fun v => !m.isDelegate v) = true)
    (hquorum : ¬ (voters from_ endorsements).card < m.quorum) : m.Backed from_ endorsements := by
  refine ⟨(voters from_ endorsements).toFinset, ?_, ?_⟩
  · rw [OrderedSet.card_toFinset]
    exact Nat.not_lt.1 hquorum
  · intro v hv
    rw [OrderedSet.mem_toFinset] at hv
    have hdelegate : v ∈ m.delegates := by
      by_contra hnot
      refine hall (List.any_eq_true.2 ⟨v, hv, ?_⟩)
      rw [Bool.not_eq_true', Bool.eq_false_iff]
      exact fun h => hnot (isDelegate_iff.1 h)
    rw [voters, OrderedSet.mem_insert, OrderedSet.mem_ofList] at hv
    exact ⟨hdelegate, hv⟩

/-! ## Methods that hash -/

section Hashing

variable [Blake3]

def recomputeTrustRoot (m : TrustModel) : TrustModel :=
  { m with trustRoot := Blake3.digest m.rootInput }

def verifyRoot (m : TrustModel) : Bool := Blake3.digest m.rootInput = m.trustRoot

/-- `Default::default`. -/
def default_ : TrustModel :=
  recomputeTrustRoot
    { trustVersion := 1
      currentEpoch := 0
      genesisBootstrap := mainnetGenesisBootstrap
      delegates := OrderedSet.empty
      minQuorum := 3
      maxQuorum := 9
      maxDelegates := 10000
      trustRoot := ByteArr.fill 32 0 }

/-- `self.delegates.insert(*to); self.recompute_trust_root();`. -/
def enroll (m : TrustModel) (to_ : Key) : TrustModel :=
  recomputeTrustRoot { m with delegates := m.delegates.insert to_ }

def newGenesis : TrustModel := default_.enroll mainnetGenesisBootstrap

def delegate (m : TrustModel) (from_ to_ : Key) (endorsements : List Key) :
    TrustModel × Except TrustError Unit :=
  if m.isDelegate to_ then (m, .error .alreadyDelegate)
  else if m.delegates.card ≥ m.maxDelegates then (m, .error .delegateLimitReached)
  else if !m.canEndorse from_ then (m, .error .notAuthorized)
  else if m.isGenesis from_ then (m.enroll to_, .ok ())
  else
    let quorum := m.quorum
    let voters := voters from_ endorsements
    if voters.toList.any fun v => !m.isDelegate v then (m, .error .voterNotDelegate)
    else if voters.card < quorum then (m, .error (.noQuorum voters.card quorum))
    else (m.enroll to_, .ok ())

def revoke (m : TrustModel) (delegate : Key) : TrustModel × Bool :=
  if m.isDelegate delegate then
    (recomputeTrustRoot { m with delegates := m.delegates.erase delegate }, true)
  else
    (m, false)

def advanceEpoch (m : TrustModel) : TrustModel :=
  recomputeTrustRoot { m with currentEpoch := m.currentEpoch.satAdd 1 }

/-! ## Calls -/

inductive Call
  | delegate (from_ to_ : Key) (endorsements : List Key)
  | revoke (delegate : Key)
  | advanceEpoch
  deriving DecidableEq

inductive Response
  | delegated (result : Except TrustError Unit)
  | revoked (removed : Bool)
  | advanced

/-- The call did not do what it was asked for. -/
def Response.failed : Response → Bool
  | .delegated result => !result.isOk
  | .revoked removed => !removed
  | .advanced => false

def next (m : TrustModel) : Call → TrustModel × Response
  | .delegate from_ to_ endorsements =>
      ((m.delegate from_ to_ endorsements).1, .delegated (m.delegate from_ to_ endorsements).2)
  | .revoke delegate => ((m.revoke delegate).1, .revoked (m.revoke delegate).2)
  | .advanceEpoch => (m.advanceEpoch, .advanced)

/-! ## What a call can do -/

theorem delegate_cases (m : TrustModel) (from_ to_ : Key) (endorsements : List Key) :
    (∃ e, m.delegate from_ to_ endorsements = (m, .error e)) ∨
      (m.delegate from_ to_ endorsements = (m.enroll to_, .ok ()) ∧ to_ ∉ m.delegates ∧
        m.delegates.card < m.maxDelegates ∧
        (from_ = m.genesisBootstrap ∨ m.Backed from_ endorsements)) := by
  unfold delegate
  split
  · exact Or.inl ⟨_, rfl⟩
  rename_i hnew
  rw [isDelegate_iff] at hnew
  split
  · exact Or.inl ⟨_, rfl⟩
  rename_i hroom
  split
  · exact Or.inl ⟨_, rfl⟩
  split
  · rename_i hgenesis
    exact Or.inr ⟨rfl, hnew, Nat.not_le.1 hroom, Or.inl (decide_eq_true_iff.1 hgenesis)⟩
  -- the caller is a delegate like the others, and its own vote is counted once
  simp only
  split
  · exact Or.inl ⟨_, rfl⟩
  rename_i hall
  split
  · exact Or.inl ⟨_, rfl⟩
  rename_i hquorum
  exact Or.inr ⟨rfl, hnew, Nat.not_le.1 hroom, Or.inr (backed_of_voters hall hquorum)⟩

theorem revoke_cases (m : TrustModel) (pk : Key) :
    m.revoke pk = (m, false) ∨
      m.revoke pk = (recomputeTrustRoot { m with delegates := m.delegates.erase pk }, true) := by
  unfold revoke
  split
  · exact Or.inr rfl
  · exact Or.inl rfl

/-- A call fails without a trace, enrolls an authorised delegate, revokes one or advances the
epoch. -/
theorem step_cases {m m' : TrustModel} {l : Call × Response} (h : stepOf next m l m') :
    (m' = m ∧ l.2.failed = true) ∨
      (∃ from_ to_ endorsements,
        l = (.delegate from_ to_ endorsements, .delegated (.ok ())) ∧ m' = m.enroll to_ ∧
          to_ ∉ m.delegates ∧ m.delegates.card < m.maxDelegates ∧
          (from_ = m.genesisBootstrap ∨ m.Backed from_ endorsements)) ∨
      (∃ pk, l = (.revoke pk, .revoked true) ∧
        m' = recomputeTrustRoot { m with delegates := m.delegates.erase pk }) ∨
      (l = (.advanceEpoch, .advanced) ∧ m' = m.advanceEpoch) := by
  rcases l with ⟨call, response⟩
  cases call with
  | delegate from_ to_ endorsements =>
      rcases Prod.mk.inj h with ⟨rfl, rfl⟩
      rcases m.delegate_cases from_ to_ endorsements with ⟨e, heq⟩ | ⟨heq, hstep⟩
      · rw [heq]
        exact Or.inl ⟨rfl, rfl⟩
      · rw [heq]
        exact Or.inr (Or.inl ⟨from_, to_, endorsements, rfl, rfl, hstep⟩)
  | revoke pk =>
      rcases Prod.mk.inj h with ⟨rfl, rfl⟩
      rcases m.revoke_cases pk with heq | heq
      · rw [heq]
        exact Or.inl ⟨rfl, rfl⟩
      · rw [heq]
        exact Or.inr (Or.inr (Or.inl ⟨pk, rfl, rfl⟩))
  | advanceEpoch =>
      rcases Prod.mk.inj h with ⟨rfl, rfl⟩
      exact Or.inr (Or.inr (Or.inr ⟨rfl, rfl⟩))

/-! ## Runs -/

/-- What every reachable model is: the root is up to date and the bootstrap key is never changed. -/
structure Sound (m : TrustModel) : Prop where
  root : m.verifyRoot = true
  card_le : m.delegates.card ≤ m.maxDelegates
  genesisBootstrap : m.genesisBootstrap = mainnetGenesisBootstrap

theorem verifyRoot_recompute (m : TrustModel) : m.recomputeTrustRoot.verifyRoot = true :=
  decide_eq_true rfl

theorem sound_newGenesis : Sound newGenesis where
  root := verifyRoot_recompute _
  card_le := by
    have hcard : newGenesis.delegates.card = 1 :=
      OrderedSet.card_insert (OrderedSet.not_mem_empty _)
    rw [hcard]
    exact Nat.le_of_ble_eq_true rfl
  genesisBootstrap := rfl

variable {m m' : TrustModel} {l : Call × Response} {tr tr' : List (Call × Response)}

theorem Sound.step (hs : Sound m) (h : stepOf next m l m') : Sound m' := by
  rcases step_cases h with ⟨rfl, -⟩ | ⟨_, to_, _, -, rfl, hnew, hroom, -⟩ | ⟨pk, -, rfl⟩ | ⟨-, rfl⟩
  · exact hs
  · have hcard : (m.delegates.insert to_).card ≤ m.maxDelegates := by
      rw [OrderedSet.card_insert hnew]
      exact hroom
    exact ⟨verifyRoot_recompute _, hcard, hs.genesisBootstrap⟩
  · have hcard : (m.delegates.erase pk).card ≤ m.maxDelegates :=
      (OrderedSet.card_erase_le _ _).trans hs.card_le
    exact ⟨verifyRoot_recompute _, hcard, hs.genesisBootstrap⟩
  · exact ⟨verifyRoot_recompute _, hs.card_le, hs.genesisBootstrap⟩

theorem sound_of_run (h : Run (stepOf next) newGenesis tr m) : Sound m :=
  RunWith.invariant_state Sound sound_newGenesis (fun _ _ _ _ _ hs hstep _ => hs.step hstep) h

/-- A call that fails leaves the model as it is. -/
theorem eq_of_failed (h : stepOf next m l m') (hfailed : l.2.failed = true) : m' = m := by
  rcases step_cases h with ⟨heq, -⟩ | ⟨_, _, _, rfl, -⟩ | ⟨_, rfl, -⟩ | ⟨rfl, -⟩
  · exact heq
  · cases hfailed
  · cases hfailed
  · cases hfailed

/-! ## Where the delegates come from -/

/-- The trace holds a successful call of `delegate` for the key, made by the bootstrap key or backed
by a quorum of the delegates of that moment, and after it no successful call of `revoke` for it. -/
def Enrolled (tr : List (Call × Response)) (pk : Key) : Prop :=
  ∃ tr₁ tr₂ m₁ from_ endorsements,
    tr = tr₁ ++ (.delegate from_ pk endorsements, .delegated (.ok ())) :: tr₂ ∧
      Run (stepOf next) newGenesis tr₁ m₁ ∧
      (from_ = mainnetGenesisBootstrap ∨ m₁.Backed from_ endorsements) ∧
      (.revoke pk, .revoked true) ∉ tr₂

theorem Enrolled.snoc {pk : Key} (h : Enrolled tr pk) (hl : (.revoke pk, .revoked true) ≠ l) :
    Enrolled (tr ++ [l]) pk := by
  rcases h with ⟨tr₁, tr₂, m₁, from_, endorsements, rfl, hrun, hauthorised, hkept⟩
  refine ⟨tr₁, tr₂ ++ [l], m₁, from_, endorsements, by simp, hrun, hauthorised, ?_⟩
  rw [List.mem_append, List.mem_singleton, not_or]
  exact ⟨hkept, hl⟩

theorem enrolled_of_run (h : Run (stepOf next) newGenesis tr m) {pk : Key} (hpk : pk ∈ m.delegates)
    (hne : pk ≠ mainnetGenesisBootstrap) : Enrolled tr pk := by
  -- the trace is the record: only a successful `delegate` adds a key, and `revoke` drops it
  refine RunWith.invariant
    (fun tr m => ∀ pk ∈ m.delegates, pk ≠ mainnetGenesisBootstrap → Enrolled tr pk) ?_ ?_ h pk hpk
    hne
  · intro pk hpk hne
    rcases OrderedSet.mem_insert.1 hpk with heq | hempty
    · exact (hne heq).elim
    · exact (OrderedSet.not_mem_empty pk hempty).elim
  · intro tr m l m' hrun ih hstep _ pk hpk hne
    have hgenesis := (sound_of_run hrun).genesisBootstrap
    rcases step_cases hstep with ⟨rfl, hfailed⟩ |
      ⟨from_, to_, endorsements, rfl, rfl, -, -, hauth⟩ | ⟨pk', rfl, rfl⟩ | ⟨rfl, rfl⟩
    · refine (ih pk hpk hne).snoc ?_
      rintro rfl
      cases hfailed
    · rw [hgenesis] at hauth
      rcases OrderedSet.mem_insert.1 hpk with rfl | hold
      · exact ⟨tr, [], m, from_, endorsements, rfl, hrun, hauth, by simp⟩
      · exact (ih pk hold hne).snoc nofun
    · rcases OrderedSet.mem_erase.1 hpk with ⟨hne', hold⟩
      refine (ih pk hold hne).snoc ?_
      intro heq
      exact hne' (Call.revoke.inj (Prod.mk.inj heq).1)
    · exact (ih pk hpk hne).snoc nofun

/-! ## What a root commits to -/

omit [Blake3] in
/-- The bytes behind a root tell version, epoch and members apart, and nothing else. -/
theorem rootInput_eq_iff :
    m.rootInput = m'.rootInput ↔
      m.trustVersion = m'.trustVersion ∧ m.currentEpoch = m'.currentEpoch ∧
        ∀ pk, pk ∈ m.delegates ↔ pk ∈ m'.delegates := by
  constructor
  · intro h
    simp only [rootInput, List.append_assoc] at h
    -- the keys are fed without their number, but all before them has a fixed length
    rcases ByteArr.append_inj (List.append_cancel_left h) with ⟨hversion, hrest⟩
    rcases ByteArr.append_inj hrest with ⟨hepoch, hkeys⟩
    have hlist := ByteArr.flatMap_bytes_inj (by decide) hkeys
    refine ⟨u16Bytes_inj hversion, u64Bytes_inj hepoch, fun pk => ?_⟩
    rw [← OrderedSet.mem_toList, hlist, OrderedSet.mem_toList]
  · rintro ⟨hversion, hepoch, hmem⟩
    rw [rootInput, hversion, hepoch, OrderedSet.eq_of_mem_iff hmem, ← rootInput]

theorem root_eq_digest (hs : Sound m) : m.trustRoot = Blake3.digest m.rootInput :=
  (decide_eq_true_iff.1 hs.root).symm

/-- In every reachable model the root is the one of its epoch and delegates, the delegates are no
more than allowed and all of them authorised, and a call that fails changes nothing; and where
hashing keeps the inputs of two roots apart, reachable models with one root have the same epoch and
the same delegates. -/
theorem trust_of_runs (h : Run (stepOf next) newGenesis tr m)
    (h' : Run (stepOf next) newGenesis tr' m') :
    m.verifyRoot = true ∧ m.delegates.card ≤ m.maxDelegates ∧
      (∀ pk ∈ m.delegates, pk ≠ mainnetGenesisBootstrap → Enrolled tr pk) ∧
      (∀ call, (m.next call).2.failed = true → (m.next call).1 = m) ∧
      (Set.InjOn Blake3.digest {bs | bs = m.rootInput ∨ bs = m'.rootInput} →
        m.trustRoot = m'.trustRoot →
          m.currentEpoch = m'.currentEpoch ∧ m.delegates = m'.delegates) := by
  have hs := sound_of_run h
  refine ⟨hs.root, hs.card_le, fun pk => enrolled_of_run h, ?_, ?_⟩
  · intro call
    exact eq_of_failed (l := (call, (m.next call).2)) rfl
  · intro hinj hroot
    rw [root_eq_digest hs, root_eq_digest (sound_of_run h')] at hroot
    rcases rootInput_eq_iff.1 (hinj (Or.inl rfl) (Or.inr rfl) hroot) with ⟨-, hepoch, hmem⟩
    exact ⟨hepoch, OrderedSet.eq_of_mem_iff hmem⟩

end Hashing

/-! ## A sample run -/

section Sample

attribute [local instance] polyBlake3

/-- The bootstrap key adds two delegates, and the three of them a third one. -/
def sampleCalls (first second : UInt8) : List Call :=
  [.delegate mainnetGenesisBootstrap (.fill 32 first) [],
    .delegate mainnetGenesisBootstrap (.fill 32 second) [],
    .delegate (.fill 32 1) (.fill 32 3) [.fill 32 2, mainnetGenesisBootstrap, .fill 32 2],
    .delegate (.fill 32 1) (.fill 32 4) [.fill 32 2, .fill 32 5], .revoke (.fill 32 2),
    .advanceEpoch]

def sampleModel (first second : UInt8) : TrustModel :=
  final next newGenesis (sampleCalls first second)

theorem trust_of_runs_sample : (sampleModel 1 2).delegates = (sampleModel 2 1).delegates ∧
    Enrolled (trace next newGenesis (sampleCalls 1 2)) (.fill 32 3) := by
  have hinj : Set.InjOn Blake3.digest
      {bs | bs = (sampleModel 1 2).rootInput ∨ bs = (sampleModel 2 1).rootInput} := by
    have heq : (sampleModel 1 2).rootInput = (sampleModel 2 1).rootInput := by decide +kernel
    rintro _ (rfl | rfl) _ (rfl | rfl) -
    · rfl
    · exact heq
    · exact heq.symm
    · rfl
  rcases trust_of_runs (run_trace (sampleCalls 1 2)) (run_trace (sampleCalls 2 1)) with
    ⟨-, -, henrolled, -, hroot⟩
  have hmem : .fill 32 3 ∈ (sampleModel 1 2).delegates := by decide +kernel
  exact ⟨(hroot hinj (by decide +kernel)).2, henrolled _ hmem (by decide +kernel)⟩

end Sample

end TrustModel
end Consensus
end Aevum
