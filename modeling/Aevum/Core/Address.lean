import Aevum.Crypto
import Aevum.Lib.Codec
import Aevum.Lib.Lists

/-!
# Core.Address — `address.rs`

Addresses and the policies that say which outputs they accept.  An address holds the hash of its
policy, not the policy; whoever wants to know what it accepts shows the policy again.

The type `RestrictionLevel` comes from a module that is not part of the repository; the class
`RestrictionLevels` holds what this file asks it for.

* `serialize_canonical` : the bytes of a policy stand for its variant and its rules, in any order,
  so that the hash of a policy decides what an address accepts;
* `policyHash_withVersion` : the hash does not depend on the version of the address.
-/

namespace Aevum
namespace Core

open Lib Crypto

/-- `jt_utxo::RestrictionLevel`; `restrictedAllows level code` stands for the match of `level` with
`Restricted { allowed }` and `allowed.contains(code)`. -/
class RestrictionLevels where
  RestrictionLevel : Type
  decEq : DecidableEq RestrictionLevel
  toU64 : RestrictionLevel → UInt64
  serialize : RestrictionLevel → List UInt8
  restrictedAllows : RestrictionLevel → ByteArr 4 → Bool

attribute [reducible, instance] RestrictionLevels.decEq

section Model

open RestrictionLevels

variable [RestrictionLevels]

/-! ## Rules -/

inductive AcceptanceRule
  | level (level : RestrictionLevel)
  | jurisdiction (code : ByteArr 4)
  deriving DecidableEq

namespace AcceptanceRule

def serialize : AcceptanceRule → List UInt8
  | .level rl => 0x10 :: RestrictionLevels.serialize rl
  | .jurisdiction code => 0x20 :: code.bytes

/-- `matches`. -/
def isMatch (rule : AcceptanceRule) (level : RestrictionLevel)
    (specificJurisdiction : Option (ByteArr 4)) : Bool :=
  match rule with
  | .level allowedLevel => allowedLevel = level
  | .jurisdiction code =>
      match specificJurisdiction with
      | some j => j = code
      | none => restrictedAllows level code

end AcceptanceRule

/-! ## Policies -/

inductive AcceptancePolicy
  | whitelist (rules : List AcceptanceRule)
  | blacklist (rules : List AcceptanceRule)
  | acceptAll
  | rejectAll
  deriving DecidableEq

def acceptancePolicyFormatVersion : UInt8 := 0x01

namespace AcceptancePolicy

def acceptsLevel (policy : AcceptancePolicy) (level : UInt64) : Bool :=
  match policy with
  | .acceptAll => true
  | .rejectAll => false
  | .whitelist rules => rules.any fun
      | .level rl => toU64 rl = level
      | .jurisdiction _ => false
  | .blacklist rules => !rules.any fun
      | .level rl => toU64 rl = level
      | .jurisdiction _ => false

def acceptsJurisdiction (policy : AcceptancePolicy) (code : ByteArr 4) : Bool :=
  match policy with
  | .acceptAll => true
  | .rejectAll => false
  | .whitelist rules => rules.any fun rule => rule = .jurisdiction code
  | .blacklist rules => !rules.any fun rule => rule = .jurisdiction code

/-- The rules of a list in the order of their bytes, behind their number, `len() as u8`. -/
def serializeRules (rules : List AcceptanceRule) : List UInt8 :=
  UInt8.ofNat rules.length :: (sortBy AcceptanceRule.serialize rules).flatMap
    AcceptanceRule.serialize

def serialize : AcceptancePolicy → List UInt8
  | .acceptAll => [acceptancePolicyFormatVersion, 0x00]
  | .rejectAll => [acceptancePolicyFormatVersion, 0xFF]
  | .whitelist rules => acceptancePolicyFormatVersion :: 0x01 :: serializeRules rules
  | .blacklist rules => acceptancePolicyFormatVersion :: 0x02 :: serializeRules rules

def isOpen (policy : AcceptancePolicy) : Bool := policy = .acceptAll

def isClosed (policy : AcceptancePolicy) : Bool := policy = .rejectAll

end AcceptancePolicy

/-! ## Addresses -/

structure Address where
  publicKey : PublicKey
  policyHash : Hash
  version : UInt8
  deriving DecidableEq

namespace Address

def currentVersion : UInt8 := 0x02

/-- The bytes `compute_policy_hash` feeds to the hasher. -/
def policyHashInput (publicKey : PublicKey) (policy : AcceptancePolicy) : List UInt8 :=
  ascii "AEVUM_ADDRESS_POLICY_V3" ++ [currentVersion] ++ publicKey.toBytes.bytes ++
    policy.serialize

variable [Blake3]

def computePolicyHash (publicKey : PublicKey) (policy : AcceptancePolicy) : Hash :=
  Blake3.digest (policyHashInput publicKey policy)

def new (publicKey : PublicKey) (policy : AcceptancePolicy) : Address :=
  { publicKey := publicKey
    policyHash := computePolicyHash publicKey policy
    version := currentVersion }

def withVersion (publicKey : PublicKey) (policy : AcceptancePolicy) (version : UInt8) : Address :=
  { publicKey := publicKey
    policyHash := computePolicyHash publicKey policy
    version := version }

def verifyPolicyHash (addr : Address) (policy : AcceptancePolicy) : Bool :=
  addr.policyHash = computePolicyHash addr.publicKey policy

def accepts (addr : Address) (policy : AcceptancePolicy) (level : RestrictionLevel)
    (specificJurisdiction : Option (ByteArr 4)) : Except String Bool :=
  if ¬ addr.verifyPolicyHash policy then .error "policy hash mismatch"
  else
    .ok <|
      match policy with
      | .acceptAll => true
      | .rejectAll => false
      | .whitelist rules => rules.any fun r => r.isMatch level specificJurisdiction
      | .blacklist rules => !rules.any fun r => r.isMatch level specificJurisdiction

end Address

/-! ## What the bytes of a policy say -/

/-- The tag in front tells the kinds of rules apart, and a code has a fixed length. -/
theorem AcceptanceRule.delimited
    (h : Delimited Set.univ (RestrictionLevels.serialize : RestrictionLevel → List UInt8) Eq) :
    Delimited Set.univ AcceptanceRule.serialize Eq := by
  intro rule _ rule' _ xs ys heq
  cases rule with
  | level rl =>
      cases rule' with
      | level rl' =>
          rcases h rl trivial rl' trivial xs ys (List.cons.inj heq).2 with ⟨rfl, hrest⟩
          exact ⟨rfl, hrest⟩
      | jurisdiction code' => exact absurd (List.cons.inj heq).1 (by decide)
  | jurisdiction code =>
      cases rule' with
      | level rl' => exact absurd (List.cons.inj heq).1 (by decide)
      | jurisdiction code' =>
          rcases ByteArr.append_inj (List.cons.inj heq).2 with ⟨rfl, hrest⟩
          exact ⟨rfl, hrest⟩

theorem AcceptanceRule.serialize_ne_nil (rule : AcceptanceRule) : rule.serialize ≠ [] := by
  cases rule with
  | level rl => exact List.cons_ne_nil _ _
  | jurisdiction code => exact List.cons_ne_nil _ _

namespace AcceptancePolicy

/-- The same variant, with the same rules in any order. -/
inductive SameRules : AcceptancePolicy → AcceptancePolicy → Prop
  | whitelist {rules rules' : List AcceptanceRule} (h : rules.Perm rules') :
      SameRules (.whitelist rules) (.whitelist rules')
  | blacklist {rules rules' : List AcceptanceRule} (h : rules.Perm rules') :
      SameRules (.blacklist rules) (.blacklist rules')
  | acceptAll : SameRules .acceptAll .acceptAll
  | rejectAll : SameRules .rejectAll .rejectAll

/-- The byte for the number of rules, which wraps, is not needed to take the rules apart. -/
theorem serializeRules_eq_iff (h : Delimited Set.univ AcceptanceRule.serialize Eq)
    {rules rules' : List AcceptanceRule} :
    serializeRules rules = serializeRules rules' ↔ rules.Perm rules' := by
  constructor
  · intro heq
    have hsorted : List.Forall₂ Eq (sortBy AcceptanceRule.serialize rules)
        (sortBy AcceptanceRule.serialize rules') :=
      h.flatMap_whole (fun rule _ => rule.serialize_ne_nil) (fun _ _ => trivial)
        (fun _ _ => trivial) (List.cons.inj heq).2
    rw [List.forall₂_eq_eq_eq] at hsorted
    have hperm := sortBy_perm AcceptanceRule.serialize rules
    rw [hsorted] at hperm
    exact hperm.symm.trans (sortBy_perm AcceptanceRule.serialize rules')
  · intro hperm
    have hinj : ∀ a ∈ rules, ∀ b ∈ rules, a.serialize = b.serialize → a = b :=
      fun a _ b _ hab => (h a trivial b trivial [] [] (by rw [hab])).1
    rw [serializeRules, serializeRules, hperm.length_eq, sortBy_eq_of_perm_of_inj hinj hperm]

theorem serialize_eq_iff (h : Delimited Set.univ AcceptanceRule.serialize Eq)
    {p q : AcceptancePolicy} : p.serialize = q.serialize ↔ p.SameRules q := by
  constructor
  · intro heq
    -- the second byte is the variant
    cases p <;> cases q <;> simp [serialize] at heq
    · exact .whitelist ((serializeRules_eq_iff h).1 heq)
    · exact .blacklist ((serializeRules_eq_iff h).1 heq)
    · exact .acceptAll
    · exact .rejectAll
  · intro hsame
    cases hsame with
    | whitelist hperm => rw [serialize, serialize, (serializeRules_eq_iff h).2 hperm]
    | blacklist hperm => rw [serialize, serialize, (serializeRules_eq_iff h).2 hperm]
    | acceptAll => rfl
    | rejectAll => rfl

/-- The questions that are put to a policy without its address do not ask for the order either. -/
theorem SameRules.answers {p q : AcceptancePolicy} (hsame : p.SameRules q) :
    (∀ level, p.acceptsLevel level = q.acceptsLevel level) ∧
      (∀ code, p.acceptsJurisdiction code = q.acceptsJurisdiction code) ∧
      p.isOpen = q.isOpen ∧ p.isClosed = q.isClosed := by
  cases hsame with
  | whitelist hperm =>
      refine ⟨fun level => ?_, fun code => ?_, rfl, rfl⟩
      · exact hperm.any_eq
      · exact hperm.any_eq
  | blacklist hperm =>
      refine ⟨fun level => ?_, fun code => ?_, rfl, rfl⟩
      · exact congrArg not hperm.any_eq
      · exact congrArg not hperm.any_eq
  | acceptAll => exact ⟨fun _ => rfl, fun _ => rfl, rfl, rfl⟩
  | rejectAll => exact ⟨fun _ => rfl, fun _ => rfl, rfl, rfl⟩

end AcceptancePolicy

section Accepts

variable [Blake3]

/-- Policies of the same rules and hash are accepted alike: any match does not ask for the order. -/
theorem Address.accepts_congr {p q : AcceptancePolicy} (hsame : p.SameRules q) {addr : Address}
    (hhash : computePolicyHash addr.publicKey p = computePolicyHash addr.publicKey q)
    (level : RestrictionLevel) (specificJurisdiction : Option (ByteArr 4)) :
    addr.accepts p level specificJurisdiction = addr.accepts q level specificJurisdiction := by
  have hverify : addr.verifyPolicyHash p = addr.verifyPolicyHash q := by
    rw [verifyPolicyHash, verifyPolicyHash, hhash]
  unfold accepts
  rw [hverify]
  cases hsame with
  | whitelist hperm => simp only [hperm.any_eq]
  | blacklist hperm => simp only [hperm.any_eq]
  | acceptAll => rfl
  | rejectAll => rfl

/-- If no level's bytes are the beginning of another's, policies have the same bytes exactly when
they are of the same variant and their rules are permutations of each other; two policies with one
hash for a key are then accepted alike by the addresses of the key, and they give the same answers
without an address. -/
theorem Address.serialize_canonical
    (hinj : Function.Injective (RestrictionLevels.serialize : RestrictionLevel → List UInt8))
    (hfree : ∀ l l' : RestrictionLevel,
      RestrictionLevels.serialize l <+: RestrictionLevels.serialize l' →
        RestrictionLevels.serialize l = RestrictionLevels.serialize l')
    (p q : AcceptancePolicy) :
    (p.serialize = q.serialize ↔ p.SameRules q) ∧
      ∀ publicKey : PublicKey,
        Set.InjOn Blake3.digest
          {bs | bs = policyHashInput publicKey p ∨ bs = policyHashInput publicKey q} →
        computePolicyHash publicKey p = computePolicyHash publicKey q →
        (∀ addr : Address, addr.publicKey = publicKey → ∀ level specificJurisdiction,
          addr.accepts p level specificJurisdiction =
            addr.accepts q level specificJurisdiction) ∧
        (∀ level, p.acceptsLevel level = q.acceptsLevel level) ∧
        (∀ code, p.acceptsJurisdiction code = q.acceptsJurisdiction code) ∧
        p.isOpen = q.isOpen ∧ p.isClosed = q.isClosed := by
  have hiff : p.serialize = q.serialize ↔ p.SameRules q :=
    AcceptancePolicy.serialize_eq_iff
      (AcceptanceRule.delimited (delimited_of_prefixFree hinj hfree))
  refine ⟨hiff, fun publicKey hdigest hhash => ?_⟩
  have hinput : policyHashInput publicKey p = policyHashInput publicKey q :=
    hdigest (Or.inl rfl) (Or.inr rfl) hhash
  have hsame : p.SameRules q := hiff.1 (List.append_cancel_left hinput)
  refine ⟨?_, hsame.answers⟩
  rintro addr rfl
  exact accepts_congr hsame hhash

/-- The byte in the hashed domain is that of the current version: a policy has one hash for the
addresses of all versions, and an address verifies the same policies with any other version. -/
theorem Address.policyHash_withVersion (publicKey : PublicKey) (policy : AcceptancePolicy)
    (v w : UInt8) :
    (withVersion publicKey policy v).policyHash = (withVersion publicKey policy w).policyHash ∧
      ∀ addr : Address,
        { addr with version := w }.verifyPolicyHash policy = addr.verifyPolicyHash policy :=
  ⟨rfl, fun _ => rfl⟩

end Accepts

end Model

section Sample

/-- No restriction, or the restriction to one jurisdiction. -/
@[reducible] def sampleLevels : RestrictionLevels :=
  { RestrictionLevel := Option (ByteArr 4)
    decEq := inferInstance
    toU64 := fun level => if level = none then 0 else 0x1000
    serialize := fun level =>
      match level with
      | none => [0, 0, 0, 0, 0]
      | some allowed => 1 :: allowed.bytes
    restrictedAllows := fun level code => level = some code }

attribute [local instance] polyBlake3 sampleLevels

theorem sampleLevels_injective :
    Function.Injective (@RestrictionLevels.serialize sampleLevels) := by
  intro l l' heq
  cases l with
  | none =>
      cases l' with
      | none => rfl
      | some allowed' => exact absurd (List.cons.inj heq).1 (by decide)
  | some allowed =>
      cases l' with
      | none => exact absurd (List.cons.inj heq).1 (by decide)
      | some allowed' => exact congrArg some (ByteArr.ext (List.cons.inj heq).2)

theorem length_serialize_sampleLevels (l : Option (ByteArr 4)) :
    (@RestrictionLevels.serialize sampleLevels l).length = 5 := by
  cases l with
  | none => rfl
  | some allowed => exact congrArg Nat.succ allowed.length_eq

/-- 256 rules, so that the byte for their number is zero, and the same rules in another order. -/
def manyRules : List AcceptanceRule :=
  .jurisdiction (ByteArr.fill 4 7) :: List.replicate 255 (.level none)

theorem serialize_canonical_sample :
    ((AcceptancePolicy.whitelist manyRules).serialize =
        (AcceptancePolicy.whitelist manyRules.reverse).serialize ↔
      (AcceptancePolicy.whitelist manyRules).SameRules (.whitelist manyRules.reverse)) ∧
      (Address.new (sampleKey 1) (.whitelist manyRules)).accepts (.whitelist manyRules) none none =
        (Address.new (sampleKey 1) (.whitelist manyRules)).accepts
          (.whitelist manyRules.reverse) none none ∧
      ∀ level, (AcceptancePolicy.whitelist manyRules).acceptsLevel level =
        (AcceptancePolicy.whitelist manyRules.reverse).acceptsLevel level := by
  have h := Address.serialize_canonical sampleLevels_injective
    (fun l l' hprefix => hprefix.eq_of_length
      ((length_serialize_sampleLevels l).trans (length_serialize_sampleLevels l').symm))
    (.whitelist manyRules) (.whitelist manyRules.reverse)
  have hsame := h.1.2 (.whitelist (List.reverse_perm _).symm)
  have hinput : Address.policyHashInput (sampleKey 1) (.whitelist manyRules) =
      Address.policyHashInput (sampleKey 1) (.whitelist manyRules.reverse) :=
    congrArg (fun bs => ascii "AEVUM_ADDRESS_POLICY_V3" ++ [Address.currentVersion] ++
      (sampleKey 1).toBytes.bytes ++ bs) hsame
  have hdigest : Set.InjOn Blake3.digest
      {bs | bs = Address.policyHashInput (sampleKey 1) (.whitelist manyRules) ∨
        bs = Address.policyHashInput (sampleKey 1) (.whitelist manyRules.reverse)} := by
    rintro a (rfl | rfl) b (rfl | rfl) -
    · rfl
    · exact hinput
    · exact hinput.symm
    · rfl
  rcases h.2 (sampleKey 1) hdigest (congrArg Blake3.digest hinput) with ⟨haccepts, hlevel, -⟩
  exact ⟨h.1, haccepts _ rfl none none, hlevel⟩

/-- Nothing else is fed to the hasher: an address of version 1 and one of version 2 have the same
hash. -/
theorem policyHash_withVersion_same :
    ¬ ∀ (publicKey : PublicKey) (policy : AcceptancePolicy) (v w : UInt8), v ≠ w →
      Set.InjOn Blake3.digest {bs | bs = Address.policyHashInput publicKey policy} →
        (Address.withVersion publicKey policy v).policyHash ≠
          (Address.withVersion publicKey policy w).policyHash := by
  intro hclaim
  refine hclaim (sampleKey 1) .acceptAll 1 2 (by decide) ?_ rfl
  rintro a rfl b rfl -
  rfl

end Sample

end Core
end Aevum
