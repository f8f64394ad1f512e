import Mathlib.Data.List.Find
import Aevum.Crypto
import Aevum.Lib.Checks
import Aevum.Lib.Run
import Aevum.Lib.WriteOnce

/-!
# Core.ComputeNamespace — `compute_namespace.rs`

Categories of compute tasks, the policies that tasks are executed and verified under, and the
registry of namespaces that may bias both.

* `registry_log` : the registry is the log of the registrations it has accepted;
* `names_resolve` : under ids made from labels it is a map from labels and versions;
* `fingerprint_fixes_policy` : an execution fingerprint fixes both policies.
-/

namespace Aevum
namespace Core

open Lib Crypto

/-! ## Categories -/

inductive TaskCategory
  | generalCompute
  | scientificCompute
  | financialCompute
  | aiTraining
  | aiInference
  | engineeringCompute
  | creativeCompute
  | cryptoCompute
  | custom
  deriving DecidableEq

namespace TaskCategory

/-- `category as u8`. -/
def toU8 : TaskCategory → UInt8
  | generalCompute => 0
  | scientificCompute => 1
  | financialCompute => 2
  | aiTraining => 3
  | aiInference => 4
  | engineeringCompute => 5
  | creativeCompute => 6
  | cryptoCompute => 7
  | custom => 255

def fromU8 : UInt8 → Option TaskCategory
  | 0 => some generalCompute
  | 1 => some scientificCompute
  | 2 => some financialCompute
  | 3 => some aiTraining
  | 4 => some aiInference
  | 5 => some engineeringCompute
  | 6 => some creativeCompute
  | 7 => some cryptoCompute
  | 255 => some custom
  | _ => none

theorem fromU8_toU8 (c : TaskCategory) : fromU8 c.toU8 = some c := by
  cases c <;> rfl

theorem toU8_inj {c c' : TaskCategory} (h : c.toU8 = c'.toU8) : c = c' := by
  have hsome : some c = some c' := by
    rw [← fromU8_toU8 c, h, fromU8_toU8]
  exact Option.some.inj hsome

end TaskCategory

/-! ## Policies -/

structure HwRequirements where
  minGpuVramMb : UInt32 := 0
  minRamMb : UInt32 := 0
  requiresCuda : Bool := false
  requiresOpencl : Bool := false
  deriving DecidableEq

inductive VerificationPolicy
  | zkOnly
  | redundant (n : UInt8)
  | challenge
  | hybrid (zk challenge : Bool)
  deriving DecidableEq

def VerificationPolicy.defaultFor : TaskCategory → VerificationPolicy
  | .financialCompute | .cryptoCompute => .zkOnly
  | .aiTraining => .redundant 3
  | .scientificCompute | .engineeringCompute => .hybrid true true
  | .creativeCompute => .redundant 2
  | _ => .challenge

structure ExecutionPolicy where
  category : TaskCategory
  hw : HwRequirements
  deterministic : Bool
  maxRuntimeMs : UInt64
  priorityWeight : UInt8
  admissionWeight : UInt8
  deriving DecidableEq

structure NamespaceDescriptor where
  id : ByteArr 32
  label : String
  version : UInt16
  category : TaskCategory
  tags : List UInt8
  priorityBias : UInt8
  verificationBias : UInt8
  congestionBias : UInt8
  deriving DecidableEq

namespace ExecutionPolicy

def forCategory (category : TaskCategory) : ExecutionPolicy :=
  let hw : HwRequirements :=
    match category with
    | .aiTraining => { minGpuVramMb := 8192, minRamMb := 16384, requiresCuda := true }
    | .aiInference => { minGpuVramMb := 4096, minRamMb := 8192, requiresCuda := true }
    | .scientificCompute | .engineeringCompute => { minGpuVramMb := 4096, minRamMb := 8192 }
    | .creativeCompute => { minGpuVramMb := 2048, minRamMb := 4096 }
    | _ => {}
  { category := category
    hw := hw
    deterministic := category = .cryptoCompute ∨ category = .financialCompute
    maxRuntimeMs := 60000
    priorityWeight := 50
    admissionWeight := 50 }

def forCategoryWithNs (category : TaskCategory) (ns : Option NamespaceDescriptor) :
    ExecutionPolicy :=
  let policy := forCategory category
  match ns with
  | some ns =>
      { policy with priorityWeight := ns.priorityBias, admissionWeight := ns.congestionBias }
  | none => policy

end ExecutionPolicy

/-! ## Descriptors -/

namespace NamespaceDescriptor

/-- `label.as_bytes()`. -/
def labelBytes (label : String) : List UInt8 := label.toUTF8.data.toList

/-- The bytes `id_from_label` feeds to the hasher. -/
def idInput (label : String) (version : UInt16) : List UInt8 :=
  ascii "AEVUM_NAMESPACE_V2" ++ labelBytes label ++ (u16Bytes version).bytes

def idFromLabel [Blake3] (label : String) (version : UInt16) : ByteArr 32 :=
  Blake3.digest (idInput label version)

def new [Blake3] (label : String) (version : UInt16) (category : TaskCategory) :
    NamespaceDescriptor :=
  { id := idFromLabel label version
    label := label
    version := version
    category := category
    tags := []
    priorityBias := 50
    verificationBias := 0
    congestionBias := 50 }

def withPriority (ns : NamespaceDescriptor) (bias : UInt8) : NamespaceDescriptor :=
  { ns with priorityBias := min bias 100 }

def withVerification (ns : NamespaceDescriptor) (bias : UInt8) : NamespaceDescriptor :=
  { ns with verificationBias := min bias 100 }

def withCongestion (ns : NamespaceDescriptor) (bias : UInt8) : NamespaceDescriptor :=
  { ns with congestionBias := min bias 100 }

theorem labelBytes_inj {label label' : String} (h : labelBytes label = labelBytes label') :
    label = label' := by
  apply String.toByteArray_inj.1
  exact ByteArray.ext (Array.toList_inj.1 h)

/-- What `new` and the `with_` functions build. -/
inductive Built [Blake3] : NamespaceDescriptor → Prop where
  | new (label : String) (version : UInt16) (category : TaskCategory) :
      Built (new label version category)
  | withPriority {ns : NamespaceDescriptor} (bias : UInt8) : Built ns → Built (ns.withPriority bias)
  | withVerification {ns : NamespaceDescriptor} (bias : UInt8) :
      Built ns → Built (ns.withVerification bias)
  | withCongestion {ns : NamespaceDescriptor} (bias : UInt8) :
      Built ns → Built (ns.withCongestion bias)

theorem Built.id_eq [Blake3] {ns : NamespaceDescriptor} (h : Built ns) :
    ns.id = idFromLabel ns.label ns.version := by
  induction h with
  | new label version category => rfl
  | withPriority bias _ ih => exact ih
  | withVerification bias _ ih => exact ih
  | withCongestion bias _ ih => exact ih

/-- The `with_` functions keep what they set within the bound that `register` checks. -/
theorem Built.biases_le [Blake3] {ns : NamespaceDescriptor} (h : Built ns) :
    ns.priorityBias ≤ 100 ∧ ns.verificationBias ≤ 100 ∧ ns.congestionBias ≤ 100 := by
  induction h with
  | new label version category =>
      have hbounds : (50 : UInt8) ≤ 100 ∧ (0 : UInt8) ≤ 100 ∧ (50 : UInt8) ≤ 100 := by decide
      exact hbounds
  | withPriority bias _ ih => exact ⟨Std.min_le_right, ih.2⟩
  | withVerification bias _ ih => exact ⟨ih.1, Std.min_le_right, ih.2.2⟩
  | withCongestion bias _ ih => exact ⟨ih.1, ih.2.1, Std.min_le_right⟩

/-- The version has two bytes, so the label ends where it begins. -/
theorem idInput_inj {label label' : String} {version version' : UInt16}
    (h : idInput label version = idInput label' version') :
    label = label' ∧ version = version' := by
  rw [idInput, idInput, List.append_assoc, List.append_assoc] at h
  rcases List.append_inj' (List.append_cancel_left h)
    (by rw [ByteArr.length_eq, ByteArr.length_eq]) with ⟨hlabel, hversion⟩
  exact ⟨labelBytes_inj hlabel, u16Bytes_inj (ByteArr.ext hversion)⟩

end NamespaceDescriptor

/-! ## Registry -/

structure NamespaceRegistry where
  namespaces : FinMap (ByteArr 32) NamespaceDescriptor
  maxNamespaces : ℕ

namespace NamespaceRegistry

def new (maxNamespaces : ℕ) : NamespaceRegistry := ⟨FinMap.empty, maxNamespaces⟩

def register (r : NamespaceRegistry) (ns : NamespaceDescriptor) :
    Except String NamespaceRegistry := do
  failIf (r.namespaces.size ≥ r.maxNamespaces) "registry full"
  failIf ((r.namespaces.get? ns.id).isSome) "namespace already exists"
  failIf ((NamespaceDescriptor.labelBytes ns.label).length > 128) "label too long"
  failIf (ns.version = 0) "version >= 1 required"
  failIf (ns.priorityBias > 100 ∨ ns.verificationBias > 100 ∨ ns.congestionBias > 100) "bias > 100"
  return { r with namespaces := r.namespaces.insert ns.id ns }

def get (r : NamespaceRegistry) (id : ByteArr 32) : Option NamespaceDescriptor :=
  r.namespaces.get? id

def len (r : NamespaceRegistry) : ℕ := r.namespaces.size

def resolveExecution (r : NamespaceRegistry) (category : TaskCategory)
    (namespaceId : Option (ByteArr 32)) : ExecutionPolicy :=
  let ns := namespaceId.bind r.namespaces.get?
  ExecutionPolicy.forCategoryWithNs category ns

def resolveVerification (r : NamespaceRegistry) (category : TaskCategory)
    (namespaceId : Option (ByteArr 32)) : VerificationPolicy :=
  let base := VerificationPolicy.defaultFor category
  match namespaceId.bind r.namespaces.get? with
  | some ns =>
      if ns.verificationBias ≤ 30 then base
      else if ns.verificationBias ≤ 70 then .hybrid true true
      else .zkOnly
  | none => base

variable {r r' : NamespaceRegistry} {ns : NamespaceDescriptor} {max : ℕ}
  {log : List NamespaceDescriptor}

/-! ## Runs of registrations -/

/-- What `register` asks of the descriptor alone. -/
structure Valid (ns : NamespaceDescriptor) : Prop where
  label : (NamespaceDescriptor.labelBytes ns.label).length ≤ 128
  version : ns.version ≠ 0
  priorityBias : ns.priorityBias ≤ 100
  verificationBias : ns.verificationBias ≤ 100
  congestionBias : ns.congestionBias ≤ 100

/-- Of what is built only the label and the version can be refused. -/
theorem valid_iff_of_built [Blake3] (h : ns.Built) :
    Valid ns ↔ (NamespaceDescriptor.labelBytes ns.label).length ≤ 128 ∧ ns.version ≠ 0 :=
  ⟨fun hvalid => ⟨hvalid.label, hvalid.version⟩, fun hvalid =>
    ⟨hvalid.1, hvalid.2, h.biases_le.1, h.biases_le.2.1, h.biases_le.2.2⟩⟩

/-- The answer of a registry of at most `max` namespaces that has accepted those of `log`. -/
def verdict (max : ℕ) (log : List NamespaceDescriptor) (ns : NamespaceDescriptor) :
    Except String Unit := do
  failIf (log.length ≥ max) "registry full"
  failIf (ns.id ∈ log.map (·.id)) "namespace already exists"
  failIf ((NamespaceDescriptor.labelBytes ns.label).length > 128) "label too long"
  failIf (ns.version = 0) "version >= 1 required"
  failIf (ns.priorityBias > 100 ∨ ns.verificationBias > 100 ∨ ns.congestionBias > 100) "bias > 100"

theorem verdict_eq_ok : verdict max log ns = .ok () ↔
    log.length < max ∧ ns.id ∉ log.map (·.id) ∧ Valid ns := by
  simp only [verdict, failIf_bind_eq_ok, failIf_eq_ok]
  constructor
  · rintro ⟨hfull, hnew, hlabel, hversion, hbias⟩
    rcases not_or.1 hbias with ⟨hpriority, hbias⟩
    rcases not_or.1 hbias with ⟨hverification, hcongestion⟩
    refine ⟨Nat.lt_of_not_le hfull, hnew, ?_⟩
    exact
      { label := Nat.le_of_not_lt hlabel
        version := hversion
        priorityBias := UInt8.not_lt.1 hpriority
        verificationBias := UInt8.not_lt.1 hverification
        congestionBias := UInt8.not_lt.1 hcongestion }
  · rintro ⟨hfull, hnew, hvalid⟩
    refine ⟨Nat.not_le_of_lt hfull, hnew, Nat.not_lt_of_le hvalid.label, hvalid.version, ?_⟩
    rintro (h | h | h)
    · exact UInt8.not_lt.2 hvalid.priorityBias h
    · exact UInt8.not_lt.2 hvalid.verificationBias h
    · exact UInt8.not_lt.2 hvalid.congestionBias h

/-- `register` sees nothing but the log. -/
theorem register_eq (h : Logged (·.id) r.namespaces log) :
    r.register ns = do
      verdict r.maxNamespaces log ns
      return { r with namespaces := r.namespaces.insert ns.id ns } := by
  have hknown : (r.namespaces.get? ns.id).isSome = true ↔ ns.id ∈ log.map (·.id) := by
    rw [← not_iff_not, Option.not_isSome_iff_eq_none, h.get?_eq_none]
  simp only [register, verdict, bind_assoc, h.size, hknown]

/-- A call of `register` and what it returned. -/
structure Registration where
  ns : NamespaceDescriptor
  result : Except String Unit

inductive Step : NamespaceRegistry → Registration → NamespaceRegistry → Prop where
  | accept {r r' : NamespaceRegistry} {ns : NamespaceDescriptor} :
      r.register ns = .ok r' → Step r ⟨ns, .ok ()⟩ r'
  | refuse {r : NamespaceRegistry} {ns : NamespaceDescriptor} {e : String} :
      r.register ns = .error e → Step r ⟨ns, .error e⟩ r

/-- The descriptor, if it was accepted. -/
def Registration.entry (c : Registration) : Option NamespaceDescriptor :=
  match c.result with
  | .ok _ => some c.ns
  | .error _ => none

/-- The descriptors that were accepted, in the order of the calls. -/
def accepted (tr : List Registration) : List NamespaceDescriptor :=
  tr.filterMap Registration.entry

theorem accepted_append (tr tr' : List Registration) :
    accepted (tr ++ tr') = accepted tr ++ accepted tr' :=
  List.filterMap_append

/-- A registry is the log of the registrations that it accepted. -/
structure KeepsLog (max : ℕ) (tr : List Registration) (r : NamespaceRegistry) : Prop where
  maxNamespaces : r.maxNamespaces = max
  logged : Logged (·.id) r.namespaces (accepted tr)
  len : r.len ≤ max
  valid : ∀ ns ∈ accepted tr, Valid ns

namespace KeepsLog

variable {tr : List Registration} {c : Registration}

theorem new (max : ℕ) : KeepsLog max [] (new max) where
  maxNamespaces := rfl
  logged := Logged.empty _
  len := Nat.zero_le _
  valid := nofun

theorem result (h : KeepsLog max tr r) (hstep : Step r c r') :
    c.result = verdict max (accepted tr) c.ns := by
  rw [← h.maxNamespaces]
  cases hstep with
  | accept hok =>
      rw [register_eq h.logged, bind_eq_ok] at hok
      rcases hok with ⟨_, hverdict, -⟩
      exact hverdict.symm
  | refuse herr =>
      rw [register_eq h.logged, bind_eq_error] at herr
      rcases herr with herr | ⟨_, -, hreturn⟩
      · exact herr.symm
      · cases hreturn

theorem step (h : KeepsLog max tr r) (hstep : Step r c r') : KeepsLog max (tr ++ [c]) r' := by
  have hresult := h.result hstep
  cases hstep with
  | @accept _ ns hok =>
      have hverdict := verdict_eq_ok.1 hresult.symm
      rw [register_eq h.logged, bind_eq_ok] at hok
      rcases hok with ⟨_, -, hreturn⟩
      cases hreturn
      have hlog : accepted (tr ++ [⟨ns, .ok ()⟩]) = accepted tr ++ [ns] := accepted_append _ _
      have hlogged := h.logged.insert (h.logged.get?_eq_none.2 hverdict.2.1)
      rw [← hlog] at hlogged
      refine
        { maxNamespaces := h.maxNamespaces
          logged := hlogged
          len := ?_
          valid := ?_ }
      · calc (r.namespaces.insert ns.id ns).size
          _ = (accepted tr).length + 1 := by rw [hlogged.size, hlog, List.length_append]; rfl
          _ ≤ max := hverdict.1
      · rw [hlog, List.forall_mem_append, List.forall_mem_singleton]
        exact ⟨h.valid, hverdict.2.2⟩
  | @refuse ns e _ =>
      have hlog : accepted (tr ++ [⟨ns, .error e⟩]) = accepted tr := by
        rw [accepted_append]
        exact List.append_nil _
      refine
        { maxNamespaces := h.maxNamespaces
          logged := ?_
          len := h.len
          valid := ?_ }
      · rw [hlog]
        exact h.logged
      · rw [hlog]
        exact h.valid

/-- Every state of a run from a state that keeps a log keeps a longer one. -/
theorem run {tr' : List Registration} (h : KeepsLog max tr r) (hrun : Run Step r tr' r') :
    KeepsLog max (tr ++ tr') r' := by
  refine RunWith.invariant (fun tr' r' => KeepsLog max (tr ++ tr') r') ?_ ?_ hrun
  · rw [List.append_nil]
    exact h
  · intro tr' s c s' _ ih hstep _
    rw [← List.append_assoc]
    exact ih.step hstep

/-- No resolved weight is above 100. -/
theorem weights_le (h : KeepsLog max tr r) (category : TaskCategory) (id : Option (ByteArr 32)) :
    (r.resolveExecution category id).priorityWeight ≤ 100 ∧
      (r.resolveExecution category id).admissionWeight ≤ 100 := by
  rw [resolveExecution]
  cases hns : id.bind r.namespaces.get? with
  | none => exact ⟨by cases category <;> decide, by cases category <;> decide⟩
  | some ns =>
      rcases Option.bind_eq_some_iff.1 hns with ⟨_, -, hget⟩
      have hvalid := h.valid ns (h.logged.mem hget).1
      exact ⟨hvalid.priorityBias, hvalid.congestionBias⟩

end KeepsLog

/-- In every run a registry is the log of the registrations that it accepted: it answers each call
by the log so far, an accepted descriptor is found under its id ever after, and the weights of the
policies that it resolves stay below their bound. -/
theorem registry_log {tr : List Registration} (h : Run Step (new max) tr r) :
    KeepsLog max tr r ∧
      (∀ pre c post, tr = pre ++ c :: post → c.result = verdict max (accepted pre) c.ns) ∧
      (∀ ns ∈ accepted tr, ∀ tr' r', Run Step r tr' r' → r'.get ns.id = some ns) ∧
      ∀ category id, (r.resolveExecution category id).priorityWeight ≤ 100 ∧
        (r.resolveExecution category id).admissionWeight ≤ 100 := by
  have hlog : KeepsLog max tr r := (KeepsLog.new max).run h
  refine ⟨hlog, ?_, ?_, hlog.weights_le⟩
  · rintro pre c post rfl
    rcases RunWith.exists_step h with ⟨r₁, r₂, hpre, hstep, -⟩
    exact ((KeepsLog.new max).run hpre).result hstep
  · intro ns hns tr' r' hrun
    have hlater := (hlog.run hrun).logged
    rw [accepted_append] at hlater
    exact hlog.logged.persists hlater (hlog.logged.get?_of_mem hns)

/-! ## Names -/

theorem exists_of_mem_accepted {tr : List Registration} (h : ns ∈ accepted tr) :
    ∃ c ∈ tr, c.ns = ns := by
  rcases List.mem_filterMap.1 h with ⟨c, hc, hentry⟩
  refine ⟨c, hc, ?_⟩
  rw [Registration.entry] at hentry
  split at hentry <;> cases hentry
  rfl

/-- As long as descriptors are built by `new` and their ids do not collide, the registry is a map
from labels and versions: it finds the one descriptor accepted for them.  A call is refused only
when the registry is full, the label has this version already, or one of the two is not allowed. -/
theorem names_resolve [Blake3] {tr : List Registration} {F : Set (List UInt8)}
    (h : Run Step (new max) tr r) (hbuilt : ∀ c ∈ tr, c.ns.Built) (hF : Set.InjOn Blake3.digest F)
    (hfed : ∀ c ∈ tr, NamespaceDescriptor.idInput c.ns.label c.ns.version ∈ F) {label : String}
    {version : UInt16} (hlabel : NamespaceDescriptor.idInput label version ∈ F) :
    r.get (NamespaceDescriptor.idFromLabel label version) =
        (accepted tr).find? (fun ns => ns.label = label ∧ ns.version = version) ∧
      ((accepted tr).map fun ns => (ns.label, ns.version)).Nodup ∧
      ∀ pre c post, tr = pre ++ c :: post →
        (c.result = .ok () ↔ (accepted pre).length < max ∧
          (∀ ns ∈ accepted pre, ¬ (ns.label = c.ns.label ∧ ns.version = c.ns.version)) ∧
          (NamespaceDescriptor.labelBytes c.ns.label).length ≤ 128 ∧ c.ns.version ≠ 0) := by
  have hlogged := ((KeepsLog.new max).run h).logged
  -- an id is the same question as a label and a version
  have hid : ∀ ns ∈ accepted tr, ∀ label version, NamespaceDescriptor.idInput label version ∈ F →
      (ns.id = NamespaceDescriptor.idFromLabel label version ↔
        ns.label = label ∧ ns.version = version) := by
    intro ns hns label version hin
    rcases exists_of_mem_accepted hns with ⟨c, hc, rfl⟩
    rw [(hbuilt c hc).id_eq]
    constructor
    · intro heq
      exact NamespaceDescriptor.idInput_inj (hF (hfed c hc) hin heq)
    · rintro ⟨rfl, rfl⟩
      rfl
  refine ⟨?_, ?_, ?_⟩
  · refine (hlogged.get? _).trans (List.find?_congr fun ns hns => ?_)
    exact decide_eq_decide.2 (hid ns hns label version hlabel)
  · refine List.Nodup.of_map (fun name => NamespaceDescriptor.idFromLabel name.1 name.2) ?_
    rw [List.map_map]
    refine Eq.mp (congrArg List.Nodup (List.map_congr_left fun ns hns => ?_)) hlogged.nodup
    rcases exists_of_mem_accepted hns with ⟨c, hc, rfl⟩
    exact (hbuilt c hc).id_eq
  · rintro pre c post rfl
    have hc : c ∈ pre ++ c :: post := List.mem_append_right _ List.mem_cons_self
    have hnew : c.ns.id ∉ (accepted pre).map (·.id) ↔
        ∀ ns ∈ accepted pre, ¬ (ns.label = c.ns.label ∧ ns.version = c.ns.version) := by
      rw [List.mem_map, (hbuilt c hc).id_eq, not_exists]
      refine forall_congr' fun ns => ?_
      rw [not_and]
      refine forall_congr' fun hns => not_congr (hid ns ?_ _ _ (hfed c hc))
      rw [accepted_append]
      exact List.mem_append_left _ hns
    rcases RunWith.exists_step h with ⟨r₁, r₂, hpre, hstep, -⟩
    rw [((KeepsLog.new max).run hpre).result hstep, verdict_eq_ok, valid_iff_of_built (hbuilt c hc)]
    exact and_congr_right fun _ => and_congr_left fun _ => hnew

end NamespaceRegistry

/-- The bytes `execution_fingerprint` feeds to the hasher. -/
def fingerprintInput (category : TaskCategory) (ns : Option NamespaceDescriptor) : List UInt8 :=
  ascii "AEVUM_EXEC_FP_V2" ++ [category.toU8] ++
    match ns with
    | some ns => ns.id.bytes ++ [ns.priorityBias] ++ [ns.verificationBias] ++ [ns.congestionBias]
    | none => []

def executionFingerprint [Blake3] (category : TaskCategory) (ns : Option NamespaceDescriptor) :
    ByteArr 32 :=
  Blake3.digest (fingerprintInput category ns)

/-! ## Fingerprints -/

/-- What a fingerprint says about a namespace. -/
def NamespaceDescriptor.weights (ns : NamespaceDescriptor) : ByteArr 32 × UInt8 × UInt8 × UInt8 :=
  (ns.id, ns.priorityBias, ns.verificationBias, ns.congestionBias)

theorem fingerprintInput_inj {category category' : TaskCategory}
    {ns ns' : Option NamespaceDescriptor}
    (h : fingerprintInput category ns = fingerprintInput category' ns') :
    category = category' ∧ ns.map (·.weights) = ns'.map (·.weights) := by
  simp only [fingerprintInput, List.append_assoc] at h
  rcases List.cons.inj (List.append_cancel_left h) with ⟨hcategory, hns⟩
  refine ⟨TaskCategory.toU8_inj hcategory, ?_⟩
  -- without a namespace there are no further bytes
  cases ns with
  | none =>
      cases ns' with
      | none => rfl
      | some ns' =>
          have hlen := congrArg List.length hns
          simp at hlen
  | some ns =>
      cases ns' with
      | none =>
          have hlen := congrArg List.length hns
          simp at hlen
      | some ns' =>
          rcases ByteArr.append_inj hns with ⟨hid, hbiases⟩
          have hweights : ns.weights = ns'.weights := by
            simp only [List.singleton_append, List.cons.injEq] at hbiases
            simp only [NamespaceDescriptor.weights, hid, hbiases]
          exact congrArg some hweights

namespace NamespaceRegistry

/-- The policies depend on no more of a namespace than its fingerprint does. -/
theorem resolve_congr {r r' : NamespaceRegistry} {category : TaskCategory}
    {id id' : Option (ByteArr 32)}
    (h : (id.bind r.get).map (·.weights) = (id'.bind r'.get).map (·.weights)) :
    r.resolveExecution category id = r'.resolveExecution category id' ∧
      r.resolveVerification category id = r'.resolveVerification category id' := by
  change (id.bind r.namespaces.get?).map (·.weights) =
    (id'.bind r'.namespaces.get?).map (·.weights) at h
  simp only [resolveExecution, resolveVerification]
  generalize id.bind r.namespaces.get? = ns at h ⊢
  generalize id'.bind r'.namespaces.get? = ns' at h ⊢
  cases ns with
  | none =>
      cases ns' with
      | none => exact ⟨rfl, rfl⟩
      | some ns' => cases h
  | some ns =>
      cases ns' with
      | none => cases h
      | some ns' =>
          have hweights : ns.weights = ns'.weights := Option.some.inj h
          simp only [NamespaceDescriptor.weights, Prod.mk.injEq] at hweights
          rcases hweights with ⟨-, hpriority, hverification, hcongestion⟩
          simp only [ExecutionPolicy.forCategoryWithNs, hpriority, hverification, hcongestion]
          exact ⟨trivial, trivial⟩

/-- Two resolutions with one fingerprint, in whichever registries, are for one category and for
namespaces of one id, and they give the same policies. -/
theorem fingerprint_fixes_policy [Blake3] {F : Set (List UInt8)} (hF : Set.InjOn Blake3.digest F)
    (r r' : NamespaceRegistry) (category category' : TaskCategory) (id id' : Option (ByteArr 32))
    (hfed : fingerprintInput category (id.bind r.get) ∈ F)
    (hfed' : fingerprintInput category' (id'.bind r'.get) ∈ F)
    (heq : executionFingerprint category (id.bind r.get) =
      executionFingerprint category' (id'.bind r'.get)) :
    category = category' ∧ (id.bind r.get).map (·.id) = (id'.bind r'.get).map (·.id) ∧
      r.resolveExecution category id = r'.resolveExecution category' id' ∧
      r.resolveVerification category id = r'.resolveVerification category' id' := by
  rcases fingerprintInput_inj (hF hfed hfed' heq) with ⟨rfl, hweights⟩
  refine ⟨rfl, ?_, resolve_congr hweights⟩
  have hids := congrArg (Option.map Prod.fst) hweights
  rw [Option.map_map, Option.map_map] at hids
  exact hids

section Sample

attribute [local instance] polyBlake3

/-- A namespace for anything. -/
def sampleNs : NamespaceDescriptor := NamespaceDescriptor.new "a" 1 .custom

/-- A namespace with the highest priority. -/
def sampleOther : NamespaceDescriptor :=
  (NamespaceDescriptor.new "b" 2 .aiTraining).withPriority 200

/-- A registry with two places: one name is asked for twice, and the third comes too late. -/
def sampleCalls : List Registration :=
  [⟨sampleNs, .ok ()⟩, ⟨sampleNs, .error "namespace already exists"⟩, ⟨sampleOther, .ok ()⟩,
    ⟨NamespaceDescriptor.new "c" 1 .custom, .error "registry full"⟩]

def sampleHalf : NamespaceRegistry := ⟨FinMap.empty.insert sampleNs.id sampleNs, 2⟩

def sampleRegistry : NamespaceRegistry :=
  ⟨sampleHalf.namespaces.insert sampleOther.id sampleOther, 2⟩

theorem sampleCalls_run : Run Step (new 2) sampleCalls sampleRegistry := by
  have hempty : Logged (·.id) (new 2).namespaces [] := Logged.empty _
  have hhalf : Logged (·.id) sampleHalf.namespaces [sampleNs] :=
    hempty.insert (hempty.get?_eq_none.2 List.not_mem_nil)
  have hfirst : (new 2).register sampleNs = .ok sampleHalf :=
    (register_eq hempty).trans (bind_eq_ok.2 ⟨(), by decide +kernel, rfl⟩)
  have hagain : sampleHalf.register sampleNs = .error "namespace already exists" :=
    (register_eq hhalf).trans (bind_eq_error.2 (.inl (by decide +kernel)))
  have hother : sampleHalf.register sampleOther = .ok sampleRegistry :=
    (register_eq hhalf).trans (bind_eq_ok.2 ⟨(), by decide +kernel, rfl⟩)
  exact (((Run.single (.accept hfirst)).snoc (.refuse hagain)).snoc (.accept hother)).snoc
    (.refuse rfl)

theorem registry_log_sample :
    KeepsLog 2 sampleCalls sampleRegistry ∧ sampleRegistry.get sampleNs.id = some sampleNs := by
  rcases registry_log sampleCalls_run with ⟨hlog, -, hfound, -⟩
  exact ⟨hlog, hfound sampleNs (by decide +kernel) [] sampleRegistry RunWith.nil⟩

theorem names_resolve_sample :
    sampleRegistry.get (NamespaceDescriptor.idFromLabel "b" 2) = some sampleOther ∧
      ((accepted sampleCalls).map fun ns => (ns.label, ns.version)).Nodup := by
  let inputs := [NamespaceDescriptor.idInput "a" 1, NamespaceDescriptor.idInput "b" 2,
    NamespaceDescriptor.idInput "c" 1]
  have hinj : Set.InjOn Blake3.digest {bs | bs ∈ inputs} := injOn_of_nodup (by decide +kernel)
  have hbuilt : ∀ c ∈ sampleCalls, c.ns.Built := by
    simp only [sampleCalls, List.forall_mem_cons]
    exact ⟨.new _ _ _, .new _ _ _, .withPriority _ (.new _ _ _), .new _ _ _, nofun⟩
  have hfed : ∀ c ∈ sampleCalls, NamespaceDescriptor.idInput c.ns.label c.ns.version ∈ inputs := by
    decide +kernel
  have hname : NamespaceDescriptor.idInput "b" 2 ∈ inputs := by decide +kernel
  have hresolve := names_resolve sampleCalls_run hbuilt hinj hfed hname
  exact ⟨hresolve.1.trans (by decide +kernel), hresolve.2.1⟩

/-- An empty registry resolves the sample like one that does not know it. -/
theorem fingerprint_fixes_policy_sample :
    sampleRegistry.resolveExecution .custom none =
      (new 0).resolveExecution .custom (some sampleNs.id) := by
  have hinj : Set.InjOn Blake3.digest {bs | bs ∈ [fingerprintInput .custom none]} :=
    injOn_of_nodup (by decide +kernel)
  have hfixes := fingerprint_fixes_policy hinj sampleRegistry (new 0) .custom .custom none
    (some sampleNs.id) List.mem_cons_self List.mem_cons_self rfl
  exact hfixes.2.2.1

end Sample

end NamespaceRegistry

end Core
end Aevum
