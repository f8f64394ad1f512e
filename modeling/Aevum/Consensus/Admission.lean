import Aevum.Consensus.Trust
import Aevum.Lib.Checks

/-!
# Consensus.Admission — who may admit a delegate, and what `can_join` says about it

* `delegate_eq_ok_iff`, `canJoin_eq_ok_iff` : what the two functions accept;
* `revocation_effective` : a revoked key admits nobody before another key has admitted it again,
  the bootstrap key excepted, whose power does not rest on being a delegate;
* `joinAgrees_iff` : `can_join` counts the bootstrap key as a voter even where it has been revoked,
  `delegate` does not.
-/

namespace Aevum
namespace Consensus

open Lib Crypto

namespace TrustModel

variable {m : TrustModel} {from_ to_ candidate pk : Key} {endorsements : List Key}

/-! ## Voters -/

theorem isGenesis_iff : m.isGenesis pk = true ↔ pk = m.genesisBootstrap := decide_eq_true_iff

theorem canEndorse_iff :
    m.canEndorse pk = true ↔ pk = m.genesisBootstrap ∨ pk ∈ m.delegates := by
  rw [canEndorse, Bool.or_eq_true, isGenesis_iff, isDelegate_iff]

/-- Voters are counted once each. -/
theorem card_ofList (endorsements : List Key) :
    (OrderedSet.ofList endorsements).card = endorsements.toFinset.card := by
  have hset : (OrderedSet.ofList endorsements).toFinset = endorsements.toFinset := by
    ext v
    rw [OrderedSet.mem_toFinset, OrderedSet.mem_ofList, List.mem_toFinset]
  rw [← OrderedSet.card_toFinset, hset]

theorem card_voters (from_ : Key) (endorsements : List Key) :
    (voters from_ endorsements).card = (insert from_ endorsements.toFinset).card := by
  have hset : (voters from_ endorsements).toFinset = insert from_ endorsements.toFinset := by
    ext v
    rw [OrderedSet.mem_toFinset, voters, OrderedSet.mem_insert, OrderedSet.mem_ofList,
      Finset.mem_insert, List.mem_toFinset]
  rw [← OrderedSet.card_toFinset, hset]

/-- One loop over the voters. -/
theorem any_not_eq_false_iff {voters : OrderedSet Key} {p : Key → Bool} :
    ¬ (voters.toList.any fun v => !p v) = true ↔ ∀ v ∈ voters, p v = true := by
  simp [List.any_eq_true, OrderedSet.mem_toList]

/-! ## What is accepted -/

/-- What `can_join` accepts, the bootstrap key apart. -/
structure Qualified (m : TrustModel) (candidate : Key) (endorsements : List Key) : Prop where
  isNew : candidate ∉ m.delegates
  endorsers : ∀ v ∈ endorsements, v = m.genesisBootstrap ∨ v ∈ m.delegates
  quorum : m.quorum ≤ endorsements.toFinset.card

theorem canJoin_eq_ok_iff (hne : candidate ≠ m.genesisBootstrap) :
    m.canJoin candidate endorsements = .ok () ↔ m.Qualified candidate endorsements := by
  unfold canJoin
  simp only
  rw [if_neg (mt isGenesis_iff.1 hne), ite_error_eq_ok, ite_error_eq_ok, ite_error_eq_ok,
    any_not_eq_false_iff, card_ofList, isDelegate_iff]
  constructor
  · rintro ⟨hnew, hvoters, hquorum, -⟩
    refine ⟨hnew, fun v hv => ?_, Nat.not_lt.1 hquorum⟩
    exact canEndorse_iff.1 (hvoters v ((OrderedSet.mem_ofList _).2 hv))
  · intro h
    refine ⟨h.isNew, fun v hv => ?_, Nat.not_lt.2 h.quorum, rfl⟩
    exact canEndorse_iff.2 (h.endorsers v ((OrderedSet.mem_ofList _).1 hv))

section Hashing

variable [Blake3]

/-- The vote of `delegate`, where the caller is not the bootstrap key. -/
theorem vote_eq_ok_iff :
    (if (voters from_ endorsements).toList.any fun v => !m.isDelegate v then
        (m, Except.error TrustError.voterNotDelegate)
      else if (voters from_ endorsements).card < m.quorum then
        (m, .error (.noQuorum (voters from_ endorsements).card m.quorum))
      else (m.enroll to_, .ok ())).2 = .ok () ↔
      from_ ∈ m.delegates ∧ (∀ v ∈ endorsements, v ∈ m.delegates) ∧
        m.quorum ≤ (insert from_ endorsements.toFinset).card := by
  rw [ite_error_snd_eq_ok, ite_error_snd_eq_ok, any_not_eq_false_iff, card_voters, Nat.not_lt]
  have hmem : ∀ v, v ∈ voters from_ endorsements ↔ v = from_ ∨ v ∈ endorsements := by
    intro v
    rw [voters, OrderedSet.mem_insert, OrderedSet.mem_ofList]
  simp only [hmem, isDelegate_iff, forall_eq_or_imp, and_assoc, and_true]

/-- What `delegate` accepts. -/
theorem delegate_eq_ok_iff :
    (m.delegate from_ to_ endorsements).2 = .ok () ↔
      to_ ∉ m.delegates ∧ m.delegates.card < m.maxDelegates ∧
        (from_ = m.genesisBootstrap ∨ from_ ∈ m.delegates ∧
          (∀ v ∈ endorsements, v ∈ m.delegates) ∧
            m.quorum ≤ (insert from_ endorsements.toFinset).card) := by
  unfold delegate
  rw [ite_error_snd_eq_ok, ite_error_snd_eq_ok, ite_error_snd_eq_ok, isDelegate_iff, Nat.not_le,
    Bool.not_eq_true', Bool.not_eq_false, canEndorse_iff]
  by_cases hgenesis : from_ = m.genesisBootstrap
  · rw [if_pos (isGenesis_iff.2 hgenesis)]
    simp [hgenesis]
  · rw [if_neg (mt isGenesis_iff.1 hgenesis), vote_eq_ok_iff, or_iff_right hgenesis,
      or_iff_right hgenesis, and_self_left]

/-- Only the bootstrap key and the delegates admit anybody. -/
theorem authorised_of_delegate (h : (m.delegate from_ to_ endorsements).2 = .ok ()) :
    from_ = m.genesisBootstrap ∨ from_ ∈ m.delegates :=
  (delegate_eq_ok_iff.1 h).2.2.imp_right And.left

/-! ## Revocation -/

variable {k : Key} {tr tr₁ tr₂ : List (Call × Response)}

/-- Since its revocation the key is no delegate, or another key has admitted it again. -/
def Barred (k : Key) (tr : List (Call × Response)) (m : TrustModel) : Prop :=
  k ∉ m.delegates ∨ ∃ from_ endorsements, from_ ≠ k ∧
    (.delegate from_ k endorsements, .delegated (.ok ())) ∈ tr

theorem Barred.step {m' : TrustModel} {l : Call × Response} (h : Barred k tr m)
    (hk : k ≠ m.genesisBootstrap) (hstep : stepOf next m l m') : Barred k (tr ++ [l]) m' := by
  rcases h with hnot | ⟨from_, endorsements, hne, hmem⟩
  · rcases step_cases hstep with ⟨rfl, -⟩ | ⟨from_, to_, endorsements, rfl, rfl, -, -, -⟩ |
      ⟨pk, rfl, rfl⟩ | ⟨rfl, rfl⟩
    · exact Or.inl hnot
    · by_cases hto : to_ = k
      · -- the key is no delegate, so it is not the one that calls
        have hok : (m.delegate from_ to_ endorsements).2 = .ok () :=
          Response.delegated.inj (Prod.mk.inj hstep).2
        refine Or.inr ⟨from_, endorsements, ?_, by simp [hto]⟩
        rintro rfl
        exact (authorised_of_delegate hok).elim hk hnot
      · refine Or.inl fun hmem => ?_
        exact (OrderedSet.mem_insert.1 hmem).elim (Ne.symm hto) hnot
    · exact Or.inl fun hmem => hnot (OrderedSet.mem_erase.1 hmem).2
    · exact Or.inl hnot
  · exact Or.inr ⟨from_, endorsements, hne, List.mem_append_left _ hmem⟩

/-- A key that was revoked, and is not the bootstrap key, admits nobody until another key has
admitted it again. -/
theorem revocation_effective (hk : k ≠ mainnetGenesisBootstrap)
    (h : Run (stepOf next) newGenesis
      (tr₁ ++ (.revoke k, .revoked true) ::
        (tr₂ ++ [(.delegate k to_ endorsements, .delegated (.ok ()))])) m) :
    ∃ from_ endorsements', from_ ≠ k ∧
      (.delegate from_ k endorsements', .delegated (.ok ())) ∈ tr₂ := by
  rw [← List.cons_append, ← List.append_assoc] at h
  rcases h.exists_last with ⟨m₁, hrun, hlast, -⟩
  have hbarred : Barred k tr₂ m₁ := by
    refine RunWith.after (Barred k) ?_ ?_ hrun
    · intro m₀ m' _ hstep
      refine Or.inl fun hmem => ?_
      rcases m₀.revoke_cases k with heq | heq
      · have hfalse := Response.revoked.inj (Prod.mk.inj hstep).2
        rw [heq] at hfalse
        cases hfalse
      · have hnext : (m₀.revoke k).1 = m' := (Prod.mk.inj hstep).1
        rw [heq] at hnext
        rw [← hnext] at hmem
        exact (OrderedSet.mem_erase.1 hmem).1 rfl
    · intro tr m₀ l m' hrun₀ hbarred hstep
      exact hbarred.step ((sound_of_run hrun₀).genesisBootstrap.symm ▸ hk) hstep
  rcases hbarred with hnot | hagain
  · have hok : (m₁.delegate k to_ endorsements).2 = .ok () :=
      Response.delegated.inj (Prod.mk.inj hlast).2
    rcases authorised_of_delegate hok with heq | hmem
    · exact (hk (heq.trans (sound_of_run hrun).genesisBootstrap)).elim
    · exact (hnot hmem).elim
  · exact hagain

/-! ## The join check -/

/-- The join check and the call agree on a candidate: the call that goes by a positive check
succeeds, and a call that succeeds without the bootstrap key is one that the check allowed. -/
structure JoinAgrees (m : TrustModel) (from_ candidate : Key) (endorsements : List Key) : Prop where
  admitted : m.canJoin candidate endorsements = .ok () →
    (m.delegate from_ candidate endorsements).2 = .ok ()
  checked : from_ ≠ m.genesisBootstrap → (m.delegate from_ candidate endorsements).2 = .ok () →
    m.canJoin candidate (endorsements ++ [from_]) = .ok ()

/-- What `delegate` accepts from a delegate, `can_join` accepts. -/
theorem canJoin_of_delegate (hne : candidate ≠ m.genesisBootstrap)
    (hfrom : from_ ≠ m.genesisBootstrap)
    (h : (m.delegate from_ candidate endorsements).2 = .ok ()) :
    m.canJoin candidate (endorsements ++ [from_]) = .ok () := by
  rcases delegate_eq_ok_iff.1 h with ⟨hnew, -, hauth⟩
  rcases hauth.resolve_left hfrom with ⟨hdelegate, hall, hquorum⟩
  have hset : (endorsements ++ [from_]).toFinset = insert from_ endorsements.toFinset := by
    ext v
    simp
  refine (canJoin_eq_ok_iff hne).2 ⟨hnew, fun v hv => ?_, by rw [hset]; exact hquorum⟩
  rcases List.mem_append.1 hv with hv | hv
  · exact Or.inr (hall v hv)
  · exact Or.inr (List.mem_singleton.1 hv ▸ hdelegate)

/-- What `can_join` accepts, `delegate` accepts from one of the voters, unless the bootstrap key is
another one of them and no delegate. -/
theorem delegate_of_qualified (hfrom : from_ ∈ endorsements)
    (hroom : m.delegates.card < m.maxDelegates) (h : m.Qualified candidate endorsements)
    (hboot : m.genesisBootstrap ∈ m.delegates ∨ m.genesisBootstrap ∉ endorsements) :
    (m.delegate from_ candidate endorsements).2 = .ok () := by
  refine delegate_eq_ok_iff.2 ⟨h.isNew, hroom, ?_⟩
  have hall : ∀ v ∈ endorsements, v ∈ m.delegates := by
    intro v hv
    rcases h.endorsers v hv with rfl | hmem
    · exact hboot.resolve_right (not_not.2 hv)
    · exact hmem
  have hset : insert from_ endorsements.toFinset = endorsements.toFinset :=
    Finset.insert_eq_of_mem (List.mem_toFinset.2 hfrom)
  exact Or.inr ⟨hall from_ hfrom, hall, by rw [hset]; exact h.quorum⟩

/-- The two agree exactly when the bootstrap key is a delegate, or not among the voters, or the one
that calls, or when the check is negative anyway. -/
theorem joinAgrees_iff (h : Run (stepOf next) newGenesis tr m)
    (hne : candidate ≠ mainnetGenesisBootstrap) (hfrom : from_ ∈ endorsements)
    (hroom : m.delegates.card < m.maxDelegates) :
    m.JoinAgrees from_ candidate endorsements ↔
      mainnetGenesisBootstrap ∈ m.delegates ∨ mainnetGenesisBootstrap ∉ endorsements ∨
        from_ = mainnetGenesisBootstrap ∨ ¬ m.Qualified candidate endorsements := by
  rw [← (sound_of_run h).genesisBootstrap] at hne ⊢
  constructor
  · intro hagrees
    by_contra hnot
    simp only [not_or, not_not] at hnot
    rcases hnot with ⟨hrevoked, hvoter, hother, hqualified⟩
    have hok := hagrees.admitted ((canJoin_eq_ok_iff hne).2 hqualified)
    have hall := ((delegate_eq_ok_iff.1 hok).2.2.resolve_left hother).2.1
    exact hrevoked (hall _ hvoter)
  · intro hcondition
    refine ⟨fun hjoin => ?_, canJoin_of_delegate hne⟩
    have hqualified := (canJoin_eq_ok_iff hne).1 hjoin
    rcases hcondition with hboot | hboot | hself | hnot
    · exact delegate_of_qualified hfrom hroom hqualified (Or.inl hboot)
    · exact delegate_of_qualified hfrom hroom hqualified (Or.inr hboot)
    · exact delegate_eq_ok_iff.2 ⟨hqualified.isNew, hroom, Or.inl hself⟩
    · exact (hnot hqualified).elim

end Hashing

/-! ## Sample runs -/

deriving instance DecidableEq for Response

section Sample

attribute [local instance] polyBlake3

/-- A delegate is revoked and admitted again by the bootstrap key, and then admits somebody. -/
def sampleReadmission : List Call :=
  [.delegate mainnetGenesisBootstrap (.fill 32 1) [],
    .delegate mainnetGenesisBootstrap (.fill 32 2) [], .revoke (.fill 32 1),
    .delegate mainnetGenesisBootstrap (.fill 32 1) [],
    .delegate (.fill 32 1) (.fill 32 3) [.fill 32 2, mainnetGenesisBootstrap]]

/-- What happens between the revocation and the last call. -/
def sampleSince : List (Call × Response) :=
  [(.delegate mainnetGenesisBootstrap (.fill 32 1) [], .delegated (.ok ()))]

theorem revocation_effective_sample :
    ∃ from_ endorsements, from_ ≠ .fill 32 1 ∧
      (.delegate from_ (.fill 32 1) endorsements, .delegated (.ok ())) ∈ sampleSince := by
  have htrace : trace next newGenesis sampleReadmission =
      [(.delegate mainnetGenesisBootstrap (.fill 32 1) [], .delegated (.ok ())),
        (.delegate mainnetGenesisBootstrap (.fill 32 2) [], .delegated (.ok ()))] ++
      (.revoke (.fill 32 1), .revoked true) ::
        (sampleSince ++ [(.delegate (.fill 32 1) (.fill 32 3)
          [.fill 32 2, mainnetGenesisBootstrap], .delegated (.ok ()))]) := by decide +kernel
  have hrun : Run (stepOf next) newGenesis (trace next newGenesis sampleReadmission)
      (final next newGenesis sampleReadmission) := run_trace sampleReadmission
  rw [htrace] at hrun
  exact revocation_effective (by decide) hrun

def sampleSelfAdmission : List Call :=
  [.revoke mainnetGenesisBootstrap, .delegate mainnetGenesisBootstrap (.fill 32 1) []]

/-- The bootstrap key is revoked, and still admits whom it likes. -/
theorem not_revocation_effective :
    ¬ ∀ (k to_ : Key) (endorsements : List Key) (tr₁ tr₂ : List (Call × Response))
      (m : TrustModel),
      Run (stepOf next) newGenesis
        (tr₁ ++ (.revoke k, .revoked true) ::
          (tr₂ ++ [(.delegate k to_ endorsements, .delegated (.ok ()))])) m →
      ∃ from_ endorsements', from_ ≠ k ∧
        (.delegate from_ k endorsements', .delegated (.ok ())) ∈ tr₂ := by
  intro h
  have hrun : Run (stepOf next) newGenesis (trace next newGenesis sampleSelfAdmission)
      (final next newGenesis sampleSelfAdmission) := run_trace sampleSelfAdmission
  have htrace : trace next newGenesis sampleSelfAdmission =
      [] ++ (.revoke mainnetGenesisBootstrap, .revoked true) ::
        ([] ++ [(.delegate mainnetGenesisBootstrap (.fill 32 1) [], .delegated (.ok ()))]) := by
    decide +kernel
  rw [htrace] at hrun
  rcases h _ _ _ _ _ _ hrun with ⟨from_, endorsements, -, hmem⟩
  cases hmem

/-- The bootstrap key admits two delegates and is revoked. -/
def sampleRevoked : List Call :=
  [.delegate mainnetGenesisBootstrap (.fill 32 1) [],
    .delegate mainnetGenesisBootstrap (.fill 32 2) [], .revoke mainnetGenesisBootstrap]

theorem joinAgrees_iff_sample :
    (final next newGenesis sampleRevoked).JoinAgrees (.fill 32 1) (.fill 32 3)
      [.fill 32 1, .fill 32 2] :=
  (joinAgrees_iff (run_trace sampleRevoked) (by decide) (by decide) (by decide +kernel)).2
    (Or.inr (Or.inl (by decide)))

/-- With the vote of the bootstrap key the check is positive and the call fails. -/
theorem not_joinAgrees :
    ¬ ∀ (tr : List (Call × Response)) (m : TrustModel) (from_ candidate : Key)
      (endorsements : List Key), Run (stepOf next) newGenesis tr m →
      candidate ≠ mainnetGenesisBootstrap → from_ ∈ endorsements →
      m.delegates.card < m.maxDelegates → m.JoinAgrees from_ candidate endorsements := by
  intro h
  have hagrees := h _ _ (.fill 32 1) (.fill 32 3)
    [mainnetGenesisBootstrap, .fill 32 1, .fill 32 2] (run_trace sampleRevoked) (by decide)
    (by decide) (by decide +kernel)
  have hok := hagrees.admitted (by decide +kernel)
  have herror : ((final next newGenesis sampleRevoked).delegate (.fill 32 1) (.fill 32 3)
      [mainnetGenesisBootstrap, .fill 32 1, .fill 32 2]).2 = .error .voterNotDelegate := by
    decide +kernel
  rw [herror] at hok
  cases hok

end Sample

end TrustModel
end Consensus
end Aevum
