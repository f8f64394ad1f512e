import Aevum.Core.ChainState

/-!
# Core.Finality — finality when presence records are applied too

`apply_presence_record` makes none of the checks on heights that `apply_block_checked` makes, and
it does not record the block in `applied_blocks`, on which the other path relies.  `Safe` is what
finality asks of one step and `Fits` what a block has to satisfy for it; `run_safe_iff` shows that
the runs in which finality holds are exactly those in which every block that gets through fits.
-/

namespace Aevum
namespace Core
namespace ChainState

open Lib Crypto

section Finality

variable {U : Type*} [ForeignTypes] [StateTransition U]

/-! ## One step -/

/-- A block is applied above what was finalized, and not next to another block. -/
structure SafeBlock (tr : List (ChainEvent U)) (b : Block) : Prop where
  final : ¬ b.isGenesis → ∀ f, .finalize f ∈ tr → f < b.height
  unique : ∀ b' ∈ appliedIn tr, b'.height = b.height → b' = b

/-- The height does not decrease, and a block that is applied is applied safely. -/
def Safe (tr : List (ChainEvent U)) (s : ChainState U) (e : ChainEvent U) (s' : ChainState U) :
    Prop :=
  s.height ≤ s'.height ∧ ∀ b, e.appliedBlock = some b → SafeBlock tr b

/-- The height of `b` is not finalized and not below the current one, and the current height is
taken by no other block. -/
structure Fits (tr : List (ChainEvent U)) (s : ChainState U) (b : Block) : Prop where
  final : b.height ≠ 0 → s.lastFinalizedHeight < b.height
  height_le : s.height ≤ b.height
  same : b.height = s.height → (appliedIn tr).getLast? = some b

/-- Where blocks stand once a run is safe so far. -/
structure HeightInv (tr : List (ChainEvent U)) (s : ChainState U) : Prop where
  before : s.genesisApplied = false → appliedIn tr = [] ∧ s.height = 0
  after : s.genesisApplied = true → ∃ b, (appliedIn tr).getLast? = some b ∧ b.height = s.height
  height_le : ∀ b ∈ appliedIn tr, b.height ≤ s.height
  unique : ∀ b ∈ appliedIn tr, ∀ b' ∈ appliedIn tr, b.height = b'.height → b = b'
  genesis : ∀ b ∈ appliedIn tr, b.height = 0 → b.isGenesis

theorem HeightInv.unique_iff {tr : List (ChainEvent U)} {s : ChainState U} {b : Block}
    (h : HeightInv tr s) (hstarted : s.genesisApplied = true) (hle : s.height ≤ b.height) :
    (∀ b' ∈ appliedIn tr, b'.height = b.height → b' = b) ↔
      (b.height = s.height → (appliedIn tr).getLast? = some b) := by
  constructor
  · intro hunique hsame
    rcases h.after hstarted with ⟨c, hc, hheight⟩
    have hmem := List.mem_of_getLast? hc
    rw [← hunique c hmem (by rw [hheight, hsame])]
    exact hc
  · intro hsame b' hb' heq
    -- an applied block lies no higher than the state, so `b` is at the current height
    have hb : b.height = s.height :=
      UInt64.le_antisymm (heq ▸ h.height_le b' hb') hle
    have hmem := List.mem_of_getLast? (hsame hb)
    exact h.unique b' hb' b hmem heq

/-- Once the genesis block is applied, a block fits exactly when applying it is safe. -/
theorem HeightInv.safe_iff_fits {tr : List (ChainEvent U)} {s : ChainState U} {b : Block}
    (h : HeightInv tr s) (hfinal : Finalized tr s.lastFinalizedHeight)
    (hstarted : s.genesisApplied = true) :
    (s.height ≤ b.height ∧ SafeBlock tr b) ↔ Fits tr s b := by
  constructor
  · rintro ⟨hle, hsafe⟩
    refine ⟨fun hne => ?_, hle, (h.unique_iff hstarted hle).1 hsafe.unique⟩
    refine (hfinal.lt_iff hne).2 (hsafe.final ?_)
    simp [Block.isGenesis, hne]
  · intro hfits
    have hunique := (h.unique_iff hstarted hfits.height_le).2 hfits.same
    refine ⟨hfits.height_le, fun hgenesis => ?_, hunique⟩
    by_cases hzero : b.height = 0
    · -- the block is the one applied last, which is the genesis block
      have hheight : s.height = 0 :=
        UInt64.le_antisymm (hzero ▸ hfits.height_le) UInt64.zero_le
      have hlast := hfits.same (hzero.trans hheight.symm)
      exact (hgenesis (h.genesis b (List.mem_of_getLast? hlast) hzero)).elim
    · exact (hfinal.lt_iff hzero).1 (hfits.final hzero)

theorem heightInv_new [Blake3] : HeightInv [] (new : ChainState U) where
  before _ := ⟨rfl, rfl⟩
  after h := by cases h
  height_le := nofun
  unique := nofun
  genesis := nofun

/-- A call that applies no block. -/
theorem HeightInv.keep {tr : List (ChainEvent U)} {s s' : ChainState U} {e : ChainEvent U}
    (h : HeightInv tr s) (he : appliedIn [e] = []) (hheight : s'.height = s.height)
    (hgenesis : s'.genesisApplied = s.genesisApplied) : HeightInv (tr ++ [e]) s' := by
  have happ : appliedIn (tr ++ [e]) = appliedIn tr := by
    rw [appliedIn_append, he, List.append_nil]
  constructor
  · rw [happ, hheight, hgenesis]
    exact h.before
  · rw [happ, hheight, hgenesis]
    exact h.after
  · rw [happ, hheight]
    exact h.height_le
  · rw [happ]
    exact h.unique
  · rw [happ]
    exact h.genesis

/-- A call that applies a block safely. -/
theorem HeightInv.add {tr : List (ChainEvent U)} {s s' : ChainState U} {e : ChainEvent U}
    {b : Block} (h : HeightInv tr s) (he : appliedIn [e] = [b]) (hheight : s'.height = b.height)
    (hstarted : s'.genesisApplied = true) (hle : s.height ≤ b.height) (hsafe : SafeBlock tr b)
    (hzero : b.height = 0 → b.isGenesis) : HeightInv (tr ++ [e]) s' := by
  have happ : appliedIn (tr ++ [e]) = appliedIn tr ++ [b] := by
    rw [appliedIn_append, he]
  constructor
  · intro hfirst
    rw [hstarted] at hfirst
    cases hfirst
  · intro _
    exact ⟨b, by rw [happ, List.getLast?_concat], hheight.symm⟩
  · rw [happ, hheight]
    intro c hc
    rcases List.mem_append.1 hc with hold | hnew
    · exact UInt64.le_trans (h.height_le c hold) hle
    · rw [List.mem_singleton.1 hnew]
      exact UInt64.le_refl b.height
  · rw [happ]
    intro c hc c' hc' heq
    -- two old blocks, an old and the new one in either order, or the new one twice
    rcases List.mem_append.1 hc with hold | hnew <;> rcases List.mem_append.1 hc' with hold' | hnew'
    · exact h.unique c hold c' hold' heq
    · rw [List.mem_singleton.1 hnew'] at heq ⊢
      exact hsafe.unique c hold heq
    · rw [List.mem_singleton.1 hnew] at heq ⊢
      exact (hsafe.unique c' hold' heq.symm).symm
    · rw [List.mem_singleton.1 hnew, List.mem_singleton.1 hnew']
  · rw [happ]
    intro c hc
    rcases List.mem_append.1 hc with hold | hnew
    · exact h.genesis c hold
    · rw [List.mem_singleton.1 hnew]
      exact hzero

/-- A block at height zero that is applied safely after the genesis block is that block again. -/
theorem HeightInv.isGenesis_of_safe {tr : List (ChainEvent U)} {s : ChainState U} {b : Block}
    (h : HeightInv tr s) (hstarted : s.genesisApplied = true) (hle : s.height ≤ b.height)
    (hsafe : SafeBlock tr b) (hzero : b.height = 0) : b.isGenesis := by
  rcases h.after hstarted with ⟨c, hc, hheight⟩
  have hmem := List.mem_of_getLast? hc
  have hczero : c.height = 0 :=
    UInt64.le_antisymm (hheight.trans_le (hzero ▸ hle)) UInt64.zero_le
  rw [← hsafe.unique c hmem (hczero.trans hzero.symm)]
  exact h.genesis c hmem hczero

theorem AcceptsGenesis.isGenesis [Blake3] {s : ChainState U} {b : Block} {r : StateRootData U}
    (h : s.AcceptsGenesis b r) : b.isGenesis := by
  simp [Block.isGenesis, h.height_eq, h.prev_eq]

/-- The genesis block is applied safely. -/
theorem HeightInv.safe_genesis [Blake3] {tr : List (ChainEvent U)} {s : ChainState U} {b : Block}
    {r : StateRootData U} (h : HeightInv tr s) (hacc : s.AcceptsGenesis b r) :
    s.height ≤ b.height ∧ SafeBlock tr b := by
  rcases h.before hacc.first with ⟨hnil, hheight⟩
  refine ⟨by rw [hheight]; exact UInt64.zero_le, fun hnot => (hnot hacc.isGenesis).elim, ?_⟩
  rw [hnil]
  exact nofun

theorem safe_iff {tr : List (ChainEvent U)} {s s' : ChainState U} {e : ChainEvent U} {b : Block}
    (he : e.appliedBlock = some b) (hheight : s'.height = b.height) :
    Safe tr s e s' ↔ s.height ≤ b.height ∧ SafeBlock tr b := by
  simp [Safe, he, hheight]

theorem safe_of_none {tr : List (ChainEvent U)} {s s' : ChainState U} {e : ChainEvent U}
    (he : e.appliedBlock = none) (hheight : s'.height = s.height) : Safe tr s e s' := by
  simp [Safe, he, hheight]

/-! ## Runs -/

variable [JtUtxo U] [Blake3]

/-- A block that is about to be applied on top of the genesis block fits. -/
def Guard (tr : List (ChainEvent U)) (s : ChainState U) : ChainEvent U → ChainState U → Prop
  | .apply b ns _, _ => ∀ r, s.AcceptsBlock b ns r → Fits tr s b
  | .presence b ns _, _ => ∀ r, s.AcceptsPresence b ns r → Fits tr s b
  | .finalize _, _ => True

theorem heightInv_run {tr : List (ChainEvent U)} {s : ChainState U}
    (hrun : RunWith step Safe new tr s) : HeightInv tr s := by
  refine RunWith.invariant HeightInv heightInv_new ?_ hrun
  rintro tr s e s' _ ih hstep ⟨hle, hsafe⟩
  cases step_kind hstep with
  | finalize f => exact ih.keep rfl rfl rfl
  | rejectApply b ns err => exact ih.keep rfl rfl rfl
  | rejectPresence b ns err => exact ih.keep rfl rfl rfl
  | genesis b ns r res hacc =>
      exact ih.add rfl hacc.height_eq.symm rfl (ih.safe_genesis hacc).1 (hsafe b rfl)
        fun _ => hacc.isGenesis
  | block b ns r res hacc =>
      exact ih.add rfl rfl hacc.passes.started hle (hsafe b rfl)
        fun hzero => (hacc.height_ne hzero).elim
  | presence b ns r res hacc =>
      exact ih.add rfl rfl hacc.started hle (hsafe b rfl)
        (ih.isGenesis_of_safe hacc.started hle (hsafe b rfl))

theorem safe_iff_guard {tr : List (ChainEvent U)} {s s' : ChainState U} {e : ChainEvent U}
    (hinv : HeightInv tr s) (hfinal : Finalized tr s.lastFinalizedHeight)
    (hstep : s.step e s') : Safe tr s e s' ↔ Guard tr s e s' := by
  cases step_kind hstep with
  | finalize f => exact iff_of_true (safe_of_none rfl rfl) trivial
  | rejectApply b ns err =>
      -- a block that passes every check is not rejected, so the guard asks for nothing
      refine iff_of_true (safe_of_none rfl rfl) fun r hacc => ?_
      have hcall := hacc.apply.symm.trans hstep.2
      exact absurd (congrArg Prod.snd hcall) nofun
  | rejectPresence b ns err =>
      refine iff_of_true (safe_of_none rfl rfl) fun r hacc => ?_
      have hcall := hacc.apply.symm.trans hstep.2
      exact absurd (congrArg Prod.snd hcall) nofun
  | genesis b ns r res hacc =>
      refine iff_of_true ?_ fun r' hacc' => (hacc'.height_ne hacc.height_eq).elim
      exact (safe_iff rfl hacc.height_eq.symm).2 (hinv.safe_genesis hacc)
  | block b ns r res hacc =>
      rw [safe_iff rfl rfl, hinv.safe_iff_fits hfinal hacc.passes.started]
      exact ⟨fun hfits _ _ => hfits, fun hguard => hguard r hacc⟩
  | presence b ns r res hacc =>
      rw [safe_iff rfl rfl, hinv.safe_iff_fits hfinal hacc.started]
      exact ⟨fun hfits _ _ => hfits, fun hguard => hguard r hacc⟩

/-- Finality holds in a run exactly when every block that gets through fits. -/
theorem run_safe_iff {tr : List (ChainEvent U)} {s : ChainState U} :
    RunWith step Safe new tr s ↔ RunWith step Guard new tr s :=
  RunWith.congr fun _ _ _ _ hsafe _ hstep =>
    safe_iff_guard (heightInv_run hsafe) (finalized_run hsafe) hstep

end Finality

section Sample

attribute [local instance] polyBlake3 unitTypes sampleTransition

/-- A presence record at height 1, on top of the block at height 3. -/
abbrev sampleRecord : Block := sampleBlock sampleBlock₂.blockHash 1

abbrev sampleFinalized : ChainState SampleUtxo := sampleState₂.finalizeUpTo 3

abbrev sampleRecordEvent : ChainEvent SampleUtxo :=
  .presence sampleRecord [ByteArr.fill 32 3]
    (sampleFinalized.applyPresenceRecord sampleRecord [ByteArr.fill 32 3]).2

/-- Finality does not hold in every run: after `finalize_up_to(3)` a presence record at height 1
is applied. -/
theorem not_run_safe :
    ¬ ∀ tr s, Run step (new : ChainState SampleUtxo) tr s → RunWith step Safe new tr s := by
  intro hall
  have hrun : Run step new (sampleTrace₂ ++ [.finalize 3] ++ [sampleRecordEvent])
      (sampleFinalized.applyPresenceRecord sampleRecord [ByteArr.fill 32 3]).1 :=
    Run.snoc (Run.snoc (Run.snoc (Run.single (step_apply (by decide +kernel)))
      (step_apply (by decide +kernel))) rfl) (step_presence (by decide +kernel))
  rcases (hall _ _ hrun).exists_step with ⟨s₁, s₂, -, -, -, hsafe⟩
  have hrecord := hsafe sampleRecord (appliedBlock_presence (by decide +kernel))
  have hlt : (3 : UInt64) < 1 := hrecord.final (by decide +kernel) 3 (by simp)
  exact absurd hlt (by decide)

end Sample

end ChainState
end Core
end Aevum
