import Aevum.Consensus.Admission

/-!
# Consensus.Containment — what corrupted delegates can do

Some keys are corrupted, the bootstrap key is not.  In a guarded run the others neither call
`delegate` for a corrupted candidate nor endorse one.

* `corrupted_step` : fewer corrupted delegates than the quorum enroll nobody;
* `containment_iff` : since anybody can be revoked, three corrupted delegates are enough to enroll
  any number of others, in a network of any size; without revocations it takes a quorum.
-/

namespace Aevum
namespace Consensus

open Lib Crypto

namespace TrustModel

variable {m m' m₁ : TrustModel} {from_ to_ k : Key} {endorsements : List Key}
variable (corrupt : Key → Prop)

/-! ## Corrupted keys -/

/-- Nobody but corrupted keys stands behind the admission of a corrupted key. -/
def Guarded : Call → Prop
  | .delegate from_ to_ endorsements => corrupt to_ → corrupt from_ ∧ ∀ v ∈ endorsements, corrupt v
  | .revoke _ => True
  | .advanceEpoch => True

def Call.isRevoke : Call → Bool
  | .revoke _ => true
  | _ => false

section Corrupted

variable [DecidablePred corrupt]

/-- The corrupted delegates. -/
def corrupted (m : TrustModel) : Finset Key := m.delegates.toFinset.filter corrupt

variable {corrupt}

theorem mem_corrupted : k ∈ m.corrupted corrupt ↔ k ∈ m.delegates ∧ corrupt k := by
  rw [corrupted, Finset.mem_filter, OrderedSet.mem_toFinset]

end Corrupted

/-! ## The quorum -/

/-- The parameters that no call changes. -/
structure SameParams (m m' : TrustModel) : Prop where
  genesisBootstrap : m'.genesisBootstrap = m.genesisBootstrap
  minQuorum : m'.minQuorum = m.minQuorum
  maxQuorum : m'.maxQuorum = m.maxQuorum
  maxDelegates : m'.maxDelegates = m.maxDelegates

theorem SameParams.trans (h : SameParams m₁ m) (h' : SameParams m m') : SameParams m₁ m' :=
  ⟨h'.genesisBootstrap.trans h.genesisBootstrap, h'.minQuorum.trans h.minQuorum,
    h'.maxQuorum.trans h.maxQuorum, h'.maxDelegates.trans h.maxDelegates⟩

theorem quorum_mono (hmin : m'.minQuorum = m.minQuorum) (hmax : m'.maxQuorum = m.maxQuorum)
    (h : m.delegates.card ≤ m'.delegates.card) : m.quorum ≤ m'.quorum := by
  have hsize : m.networkSize ≤ m'.networkSize := max_le_max h (Nat.le_refl 1)
  have hdouble : usizeSatMul m.networkSize 2 ≤ usizeSatMul m'.networkSize 2 :=
    min_le_min (Nat.mul_le_mul_right 2 hsize) (Nat.le_refl _)
  rw [quorum, quorum, hmin, hmax]
  exact min_le_min (max_le_max (Nat.div_le_div_right hdouble) (Nat.le_refl _)) (Nat.le_refl _)

section Hashing

variable [Blake3] {l : Call × Response} {tr tr' : List (Call × Response)}

theorem sameParams_of_step (h : stepOf next m l m') : SameParams m m' := by
  rcases step_cases h with ⟨rfl, -⟩ | ⟨_, _, _, -, rfl, -⟩ | ⟨_, -, rfl⟩ | ⟨-, rfl⟩
  · exact ⟨rfl, rfl, rfl, rfl⟩
  · exact ⟨rfl, rfl, rfl, rfl⟩
  · exact ⟨rfl, rfl, rfl, rfl⟩
  · exact ⟨rfl, rfl, rfl, rfl⟩

theorem sameParams_of_run {P : List (Call × Response) → TrustModel → Call × Response →
    TrustModel → Prop} (h : RunWith (stepOf next) P m tr m') : SameParams m m' := by
  refine RunWith.invariant_state (SameParams m) ⟨rfl, rfl, rfl, rfl⟩ ?_ h
  intro tr m₁ l m₂ _ h₁ hstep _
  exact h₁.trans (sameParams_of_step hstep)

theorem three_le_quorum (h : SameParams newGenesis m) : 3 ≤ m.quorum := by
  have hmin : m.minQuorum = 3 := h.minQuorum
  have hmax : m.maxQuorum = 9 := h.maxQuorum
  rw [quorum, hmin, hmax]
  exact Nat.le_min.2 ⟨Nat.le_max_right _ 3, Nat.le_of_ble_eq_true rfl⟩

/-- Three delegates are a quorum of themselves. -/
theorem quorum_of_three (h : SameParams newGenesis m) (hthree : m.delegates.card = 3) :
    m.quorum = 3 := by
  have hmin : m.minQuorum = 3 := h.minQuorum
  have hmax : m.maxQuorum = 9 := h.maxQuorum
  rw [quorum, networkSize, hmin, hmax, hthree]
  rfl

theorem quorum_le_of_step (h : stepOf next m l m') (hkeep : l.1.isRevoke = false) :
    m.quorum ≤ m'.quorum := by
  have hparams := sameParams_of_step h
  refine quorum_mono hparams.minQuorum hparams.maxQuorum ?_
  rcases step_cases h with ⟨rfl, -⟩ | ⟨_, to_, _, -, rfl, hnew, -⟩ | ⟨_, rfl, -⟩ | ⟨-, rfl⟩
  · exact Nat.le_refl _
  · have hcard : (m.enroll to_).delegates.card = m.delegates.card + 1 :=
      OrderedSet.card_insert hnew
    rw [hcard]
    exact Nat.le_succ _
  · cases hkeep
  · exact Nat.le_refl _

/-! ## Containment -/

variable {corrupt : Key → Prop} [DecidablePred corrupt]

/-- Fewer corrupted delegates than the quorum enroll no corrupted key. -/
theorem corrupted_step (hboot : ¬ corrupt m.genesisBootstrap)
    (hfew : (m.corrupted corrupt).card < m.quorum) (hguard : Guarded corrupt l.1)
    (h : stepOf next m l m') : m'.corrupted corrupt ⊆ m.corrupted corrupt := by
  rcases step_cases h with ⟨rfl, -⟩ | ⟨from_, to_, endorsements, rfl, rfl, -, -, hauth⟩ |
    ⟨pk, -, rfl⟩ | ⟨-, rfl⟩
  · exact Finset.Subset.refl _
  · intro k hk
    rw [mem_corrupted] at hk ⊢
    refine ⟨(OrderedSet.mem_insert.1 hk.1).resolve_left ?_, hk.2⟩
    rintro rfl
    -- all voters for a corrupted candidate are corrupted delegates
    rcases hguard hk.2 with ⟨hfrom, hall⟩
    rcases hauth with rfl | ⟨voters, hquorum, hvoters⟩
    · exact hboot hfrom
    · have hsub : voters ⊆ m.corrupted corrupt := by
        intro v hv
        rw [mem_corrupted]
        refine ⟨(hvoters v hv).1, (hvoters v hv).2.elim ?_ (hall v)⟩
        rintro rfl
        exact hfrom
      exact absurd (Nat.lt_of_le_of_lt (Finset.card_le_card hsub) hfew) (Nat.not_lt.2 hquorum)
  · intro k hk
    rw [mem_corrupted] at hk ⊢
    exact ⟨(OrderedSet.mem_erase.1 hk.1).2, hk.2⟩
  · exact Finset.Subset.refl _

/-- No corrupted key is enrolled while the quorum is above the number of corrupted delegates. -/
theorem corrupted_run {P : List (Call × Response) → TrustModel → Call × Response → TrustModel →
    Prop} {q : ℕ} (hboot : ¬ corrupt m.genesisBootstrap) (hfew : (m.corrupted corrupt).card < q)
    (hguard : ∀ tr m l m', P tr m l m' → Guarded corrupt l.1)
    (hquorum : ∀ tr m₁, RunWith (stepOf next) P m tr m₁ → q ≤ m₁.quorum)
    (h : RunWith (stepOf next) P m tr m') : m'.corrupted corrupt ⊆ m.corrupted corrupt := by
  refine RunWith.invariant_state (fun m' => m'.corrupted corrupt ⊆ m.corrupted corrupt)
    (Finset.Subset.refl _) ?_ h
  intro tr m₁ l m₂ hrun hsub hstep hP
  refine (corrupted_step ?_ ?_ (hguard _ _ _ _ hP) hstep).trans hsub
  · rw [(sameParams_of_run hrun).genesisBootstrap]
    exact hboot
  · calc (m₁.corrupted corrupt).card
        ≤ (m.corrupted corrupt).card := Finset.card_le_card hsub
      _ < q := hfew
      _ ≤ m₁.quorum := hquorum _ _ hrun

/-! ## Takeover -/

/-- A quorum of corrupted delegates admits whom it wants. -/
theorem delegate_of_corrupted (hquorum : m.quorum ≤ (m.corrupted corrupt).card)
    (hpos : 0 < m.quorum) (hroom : m.delegates.card < m.maxDelegates) (hk : k ∉ m.delegates) :
    ∃ from_ endorsements, (corrupt from_ ∧ ∀ v ∈ endorsements, corrupt v) ∧
      (m.delegate from_ k endorsements).2 = .ok () := by
  rcases Finset.card_pos.1 (Nat.lt_of_lt_of_le hpos hquorum) with ⟨from_, hfrom⟩
  have hall : ∀ v ∈ (m.corrupted corrupt).toList, v ∈ m.delegates ∧ corrupt v :=
    fun v hv => mem_corrupted.1 (Finset.mem_toList.1 hv)
  refine ⟨from_, (m.corrupted corrupt).toList, ?_, delegate_eq_ok_iff.2 ⟨hk, hroom, Or.inr ?_⟩⟩
  · exact ⟨(mem_corrupted.1 hfrom).2, fun v hv => (hall v hv).2⟩
  refine ⟨(mem_corrupted.1 hfrom).1, fun v hv => (hall v hv).1, ?_⟩
  -- the caller is one of the endorsers, so its vote adds nothing
  rw [Finset.toList_toFinset, Finset.insert_eq_of_mem hfrom]
  exact hquorum

/-- So one guarded call is enough to enroll a corrupted key. -/
theorem exists_takeover {P : List (Call × Response) → TrustModel → Call × Response → TrustModel →
    Prop} {m₀ : TrustModel} (h : RunWith (stepOf next) P m₀ tr m)
    (hP : ∀ from_ endorsements m', corrupt from_ → (∀ v ∈ endorsements, corrupt v) →
      P tr m (.delegate from_ k endorsements, .delegated (.ok ())) m')
    (hquorum : m.quorum ≤ (m.corrupted corrupt).card) (hpos : 0 < m.quorum)
    (hroom : m.delegates.card < m.maxDelegates) (hcorrupt : corrupt k) (hk : k ∉ m.delegates) :
    ∃ tr' m', RunWith (stepOf next) P m₀ tr' m' ∧ k ∈ m'.corrupted corrupt := by
  rcases delegate_of_corrupted hquorum hpos hroom hk with ⟨from_, endorsements, hall, hok⟩
  have hstep : stepOf next m (.delegate from_ k endorsements, .delegated (.ok ()))
      (m.delegate from_ k endorsements).1 := by
    rw [stepOf, next, hok]
  refine ⟨_, _, RunWith.snoc h hstep (hP _ _ _ hall.1 hall.2), mem_corrupted.2 ⟨?_, hcorrupt⟩⟩
  rcases m.delegate_cases from_ k endorsements with ⟨e, heq⟩ | ⟨heq, -⟩
  · rw [heq] at hok
    cases hok
  · rw [heq]
    exact OrderedSet.mem_insert.2 (Or.inl rfl)

/-- Anybody can be revoked, one after the other. -/
theorem exists_revoked (corrupt : Key → Prop) (m : TrustModel) (ks : List Key) :
    ∃ tr m', RunWith (stepOf next) (fun _ _ l _ => Guarded corrupt l.1) m tr m' ∧
      ∀ k, k ∈ m'.delegates ↔ k ∈ m.delegates ∧ k ∉ ks := by
  induction ks using List.reverseRecOn with
  | nil => exact ⟨[], m, RunWith.nil, fun k => (and_iff_left List.not_mem_nil).symm⟩
  | append_singleton ks pk ih =>
      rcases ih with ⟨tr, m₁, hrun, hmem⟩
      have hstep : stepOf next m₁ (.revoke pk, .revoked (m₁.revoke pk).2) (m₁.revoke pk).1 := rfl
      refine ⟨_, _, RunWith.snoc hrun hstep trivial, fun k => ?_⟩
      have hone : k ∈ (m₁.revoke pk).1.delegates ↔ k ∈ m₁.delegates ∧ k ≠ pk := by
        unfold revoke
        split
        · exact OrderedSet.mem_erase.trans and_comm
        · next hnot =>
            refine (and_iff_left_of_imp ?_).symm
            rintro hk rfl
            exact hnot (isDelegate_iff.2 hk)
      rw [hone, hmem, List.mem_append, List.mem_singleton, not_or, and_assoc]

/-- Three corrupted delegates can be left alone with each other. -/
theorem exists_alone (hthree : 3 ≤ (m.corrupted corrupt).card) :
    ∃ tr m', RunWith (stepOf next) (fun _ _ l _ => Guarded corrupt l.1) m tr m' ∧
      m'.delegates.card = 3 ∧ (m'.corrupted corrupt).card = 3 ∧
        ∀ k, k ∈ m'.delegates → k ∈ m.delegates := by
  -- `left` stays, everybody else is revoked, the other corrupted delegates included
  rcases Finset.exists_subset_card_eq hthree with ⟨left, hsub, hcard⟩
  rcases exists_revoked corrupt m (m.delegates.toFinset \ left).toList with ⟨tr, m', hrun, hmem⟩
  have hdelegates : ∀ k, k ∈ m'.delegates ↔ k ∈ left := by
    intro k
    have hdelegate : k ∈ left → k ∈ m.delegates := fun hk => (mem_corrupted.1 (hsub hk)).1
    rw [hmem, Finset.mem_toList, Finset.mem_sdiff, OrderedSet.mem_toFinset]
    tauto
  have hall : m'.delegates.toFinset = left := by
    ext k
    rw [OrderedSet.mem_toFinset, hdelegates]
  have hcorrupted : m'.corrupted corrupt = left := by
    rw [corrupted, hall, Finset.filter_eq_self]
    exact fun k hk => (mem_corrupted.1 (hsub hk)).2
  refine ⟨tr, m', hrun, ?_, by rw [hcorrupted, hcard], fun k hk => ((hmem k).1 hk).1⟩
  rw [← OrderedSet.card_toFinset, hall, hcard]

/-- In guarded continuations no corrupted key is ever enrolled if and only if less than three
delegates are corrupted.  In those without revocations the quorum decides, as long as there is
room. -/
theorem containment_iff (hrun : Run (stepOf next) newGenesis tr m)
    (hboot : ¬ corrupt mainnetGenesisBootstrap) (hcorrupt : corrupt k) (hk : k ∉ m.delegates) :
    ((∀ tr' m', RunWith (stepOf next) (fun _ _ l _ => Guarded corrupt l.1) m tr' m' →
        m'.corrupted corrupt ⊆ m.corrupted corrupt) ↔ (m.corrupted corrupt).card < 3) ∧
      (m.delegates.card < m.maxDelegates →
        ((∀ tr' m', RunWith (stepOf next)
            (fun _ _ l _ => Guarded corrupt l.1 ∧ l.1.isRevoke = false) m tr' m' →
          m'.corrupted corrupt ⊆ m.corrupted corrupt) ↔
            (m.corrupted corrupt).card < m.quorum)) := by
  have hparams : SameParams newGenesis m := sameParams_of_run hrun
  have hboot' : ¬ corrupt m.genesisBootstrap := by
    rw [hparams.genesisBootstrap]
    exact hboot
  have hnew : k ∉ m.corrupted corrupt := fun hmem => hk (mem_corrupted.1 hmem).1
  refine ⟨⟨fun hcontained => ?_, fun hfew tr' m' hcont => ?_⟩, fun hroom =>
    ⟨fun hcontained => ?_, fun hfew tr' m' hcont => ?_⟩⟩
  · -- the corrupted delegates wait until three of them are alone
    by_contra hmany
    rcases exists_alone (Nat.not_lt.1 hmany) with ⟨tr₁, m₁, hcont, hcard, hthree, hsub⟩
    have hparams₁ := hparams.trans (sameParams_of_run hcont)
    have hquorum := quorum_of_three hparams₁ hcard
    have hmax : m₁.maxDelegates = 10000 := hparams₁.maxDelegates
    have hroom : m₁.delegates.card < m₁.maxDelegates := by
      rw [hcard, hmax]
      decide
    rcases exists_takeover hcont (fun _ _ _ hfrom hall _ => ⟨hfrom, hall⟩)
      (by rw [hquorum, hthree]) (by rw [hquorum]; decide) hroom hcorrupt (mt (hsub k) hk) with
      ⟨tr', m', hcont', hmem⟩
    exact hnew (hcontained tr' m' hcont' hmem)
  · exact corrupted_run hboot' hfew (fun _ _ _ _ hguard => hguard)
      (fun _ _ hcont => three_le_quorum (hparams.trans (sameParams_of_run hcont))) hcont
  · -- a quorum of corrupted delegates need not wait
    by_contra hmany
    have hnil : RunWith (stepOf next)
        (fun _ _ l _ => Guarded corrupt l.1 ∧ l.1.isRevoke = false) m [] m := RunWith.nil
    rcases exists_takeover hnil (fun _ _ _ hfrom hall => ⟨fun _ => ⟨hfrom, hall⟩, rfl⟩)
      (Nat.not_lt.1 hmany) (Nat.lt_of_lt_of_le (by decide) (three_le_quorum hparams)) hroom
      hcorrupt hk with ⟨tr', m', hcont, hmem⟩
    exact hnew (hcontained tr' m' hcont hmem)
  · refine corrupted_run hboot' hfew (fun _ _ _ _ hguard => hguard.1) ?_ hcont
    intro tr m₁ hcont
    exact RunWith.invariant_state (fun m₁ => m.quorum ≤ m₁.quorum) (Nat.le_refl _)
      (fun _ _ _ _ _ hle hstep hguard => hle.trans (quorum_le_of_step hstep hguard.2)) hcont

end Hashing

section Sample

attribute [local instance] polyBlake3

/-- Seven delegates, whose quorum is four. -/
def sampleDelegates : TrustModel :=
  final next newGenesis
    ([1, 2, 3, 4, 5, 6].map fun n => .delegate mainnetGenesisBootstrap (.fill 32 n) [])

/-- Three of them are corrupted, and one key that is none of them. -/
def SampleCorrupt (pk : Key) : Prop := pk ∈ ([1, 2, 3, 7].map fun n => ByteArr.fill 32 n)

instance : DecidablePred SampleCorrupt := fun pk =>
  inferInstanceAs (Decidable (pk ∈ ([1, 2, 3, 7].map fun n => ByteArr.fill 32 n)))

theorem containment_iff_sample :
    (¬ ∀ tr m, RunWith (stepOf next) (fun _ _ l _ => Guarded SampleCorrupt l.1)
        sampleDelegates tr m →
      m.corrupted SampleCorrupt ⊆ sampleDelegates.corrupted SampleCorrupt) ∧
    ∀ tr m, RunWith (stepOf next)
        (fun _ _ l _ => Guarded SampleCorrupt l.1 ∧ l.1.isRevoke = false) sampleDelegates tr m →
      m.corrupted SampleCorrupt ⊆ sampleDelegates.corrupted SampleCorrupt := by
  have hboot : ¬ SampleCorrupt mainnetGenesisBootstrap := by decide +kernel
  rcases containment_iff (k := .fill 32 7)
    (run_trace ([1, 2, 3, 4, 5, 6].map fun n => .delegate mainnetGenesisBootstrap (.fill 32 n) []))
    hboot (by decide +kernel) (by decide +kernel) with ⟨hany, hkeep⟩
  have hthree : (sampleDelegates.corrupted SampleCorrupt).card = 3 := by decide +kernel
  have hquorum : sampleDelegates.quorum = 4 := by decide +kernel
  refine ⟨fun hcontained => ?_, (hkeep (by decide +kernel)).2 ?_⟩
  · exact absurd (hany.1 hcontained) (by rw [Nat.not_lt]; exact hthree.ge)
  · exact hthree.trans_lt (hquorum ▸ Nat.lt_succ_self 3)

end Sample

end TrustModel
end Consensus
end Aevum
