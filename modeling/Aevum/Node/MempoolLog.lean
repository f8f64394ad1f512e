import Aevum.Node.MempoolBlocks

/-!
# Node.MempoolLog — what a log of mempool calls says

A mempool only passes on what it was given: over any run, as many transactions have entered under a
hash as have gone into blocks, are still pooled, or were removed or evicted (`inclusion_accounted`).
The statistics are sums over the log, modulo `2 ^ 64` (`stats_counted`).
-/

namespace Aevum
namespace Node
namespace MempoolInner

open Lib Crypto Aevum.Core

section Log

variable [ForeignTypes]

/-! ## The log -/

/-- The transactions that `insert` has accepted. -/
def acceptedIn (tr : List PoolEvent) : List Transaction :=
  tr.filterMap fun
    | .insert tx _ _ true => some tx
    | _ => none

/-- The transactions of all blocks that were built. -/
def includedIn (tr : List PoolEvent) : List Transaction :=
  tr.flatMap fun
    | .build _ _ out => out
    | _ => []

theorem acceptedIn_append (tr tr' : List PoolEvent) :
    acceptedIn (tr ++ tr') = acceptedIn tr ++ acceptedIn tr' :=
  List.filterMap_append

theorem includedIn_append (tr tr' : List PoolEvent) :
    includedIn (tr ++ tr') = includedIn tr ++ includedIn tr' :=
  List.flatMap_append

theorem insertedIn_of_acceptedIn {tr : List PoolEvent} {tx : Transaction}
    (h : tx ∈ acceptedIn tr) : tx ∈ insertedIn tr := by
  rcases List.mem_filterMap.1 h with ⟨e, he, hsome⟩
  refine List.mem_filterMap.2 ⟨e, he, ?_⟩
  cases e with
  | insert tx' pohTick now accepted =>
      cases accepted with
      | false => cases hsome
      | true => exact hsome
  | _ => cases hsome

variable {s s' : MempoolInner} {e : PoolEvent} {tr : List PoolEvent} {k : Hash} {tx : Transaction}

/-! ## What is pooled -/

theorem stored_of_removeOne {h : Hash} (htx : (s.removeOne h).txStore.get? k = some tx) :
    s.txStore.get? k = some tx := by
  rw [removeOne.eq_def] at htx
  split at htx
  · exact htx
  · dsimp only at htx
    split at htx
    · exact htx
    · exact (FinMap.get?_erase_eq_some.1 htx).2

/-- What is stored was stored before or has just been accepted. -/
theorem stored_of_step (hkeys : KeysAgree s) (hstep : step s e s')
    (htx : s'.txStore.get? k = some tx) :
    s.txStore.get? k = some tx ∨ tx ∈ acceptedIn [e] ∧ tx.txHash = k := by
  cases step_kind hstep with
  | reject tx' pohTick now st => exact Or.inl htx
  | accept tx' pohTick now haccepts =>
      rcases FinMap.get?_insert_eq_some.1 htx with ⟨hk, rfl⟩ | ⟨-, hold⟩
      · exact Or.inr ⟨List.mem_singleton_self _, hk.symm⟩
      · exact Or.inl hold
  | build maxTx maxBytes fuel s' out hbuild =>
      exact Or.inl ((built_of_buildBlock hkeys hbuild).left_iff.1 htx).2
  | remove hashes =>
      refine Or.inl ?_
      have hfold : (hashes.foldl removeOne s).txStore.get? k = some tx → _ :=
        List.foldlRecOn (motive := fun s' : MempoolInner =>
          s'.txStore.get? k = some tx → s.txStore.get? k = some tx) hashes removeOne id
          fun s' hs' h _ htx => hs' (stored_of_removeOne htx)
      exact hfold htx
  | evict now =>
      rw [evictStale_txStore, FinMap.get?_eraseAll_eq_some] at htx
      exact Or.inl htx.2
  | adjust congestion => exact Or.inl htx

/-- Whatever does not insert leaves at most as many transactions. -/
theorem size_of_step (hkeys : KeysAgree s) (hstep : step s e s') (hother : insertedIn [e] = []) :
    s'.index.size ≤ s.index.size := by
  cases step_kind hstep with
  | reject tx' pohTick now st => exact Nat.le_refl _
  | accept tx' pohTick now haccepts => cases hother
  | build maxTx maxBytes fuel s' out hbuild =>
      rw [(built_of_buildBlock hkeys hbuild).index]
      exact FinMap.size_eraseAll_le _ _
  | remove hashes =>
      rw [removeTransactions_index]
      exact FinMap.size_eraseAll_le _ _
  | evict now =>
      rw [evictStale_index]
      exact FinMap.size_eraseAll_le _ _
  | adjust congestion => exact Nat.le_refl _

/-- An insertion adds one transaction at most. -/
theorem size_insert_le (s : MempoolInner) (tx : Transaction) (pohTick : UInt64) (now : ℕ) :
    (s.insert tx pohTick now).1.index.size ≤ s.index.size + 1 := by
  rcases insert_cases s tx pohTick now with ⟨st, heq⟩ | ⟨haccepts, heq⟩
  · rw [heq]
    exact Nat.le_succ _
  · rw [heq, accept_index, FinMap.size_insert_of_get?_eq_none _ haccepts.fresh]

/-- All that is stored has been accepted. -/
theorem stored_run {tr : List PoolEvent} (hrun : Run MempoolInner.step new tr s) :
    ∀ k tx, s.txStore.get? k = some tx → tx ∈ acceptedIn tr ∧ tx.txHash = k := by
  refine RunWith.invariant
    (fun tr s => ∀ k tx, s.txStore.get? k = some tx → tx ∈ acceptedIn tr ∧ tx.txHash = k)
    (fun k tx htx => by cases htx) ?_ hrun
  intro tr s e s' hrun ih hstep _ k tx htx
  rw [acceptedIn_append, List.mem_append]
  rcases stored_of_step (keysAgree_run hrun) hstep htx with hold | ⟨hmem, hk⟩
  · exact ⟨Or.inl (ih k tx hold).1, (ih k tx hold).2⟩
  · exact ⟨Or.inr hmem, hk⟩

/-! ## Accounts -/

/-- How often a transaction with the hash was accepted. -/
def acceptedAs (tr : List PoolEvent) (k : Hash) : ℕ :=
  ((acceptedIn tr).map Transaction.txHash).count k

/-- How often a transaction with the hash went into a block. -/
def includedAs (tr : List PoolEvent) (k : Hash) : ℕ :=
  ((includedIn tr).map Transaction.txHash).count k

/-- One if the hash is pooled. -/
def pooledAs (s : MempoolInner) (k : Hash) : ℕ := (s.index.get? k).isSome.toNat

/-- A call that takes nothing with the hash out of the pool but into a block. -/
def Keeps (k : Hash) : PoolEvent → Prop
  | .remove hashes => k ∉ hashes
  | .evict _ evicted => evicted = 0
  | _ => True

theorem acceptedAs_append (tr tr' : List PoolEvent) (k : Hash) :
    acceptedAs (tr ++ tr') k = acceptedAs tr k + acceptedAs tr' k := by
  rw [acceptedAs, acceptedIn_append, List.map_append, List.count_append]
  rfl

theorem includedAs_append (tr tr' : List PoolEvent) (k : Hash) :
    includedAs (tr ++ tr') k = includedAs tr k + includedAs tr' k := by
  rw [includedAs, includedIn_append, List.map_append, List.count_append]
  rfl

theorem pooledAs_eraseAll {m : FinMap Hash TxRef} {ks : List Hash}
    (h : s'.index = FinMap.eraseAll ks m) :
    pooledAs s' k = if k ∈ ks then 0 else (m.get? k).isSome.toNat := by
  rw [pooledAs, h, FinMap.get?_eraseAll]
  split <;> rfl

theorem pooledAs_of_erase {ks : List Hash} (h : s'.index = FinMap.eraseAll ks s.index) :
    pooledAs s' k ≤ pooledAs s k ∧ (k ∉ ks → pooledAs s' k = pooledAs s k) := by
  rw [pooledAs_eraseAll h]
  split
  · next hmem => exact ⟨Nat.zero_le _, fun hnot => absurd hmem hnot⟩
  · exact ⟨Nat.le_refl _, fun _ => rfl⟩

/-- A block takes each of its transactions out of the pool once. -/
theorem pooledAs_build {fuel maxTx maxBytes : Nat} {out : List Transaction} (hkeys : KeysAgree s)
    (hstored : ∀ k tx, s.txStore.get? k = some tx → tx.txHash = k)
    (hbuild : s.buildBlock fuel maxTx maxBytes = some (s', out)) :
    (out.map Transaction.txHash).count k + pooledAs s' k = pooledAs s k := by
  have hbuilt := built_of_buildBlock hkeys hbuild
  have hnodup := hbuilt.nodup_hashes (nodup_toBuild s maxTx) hstored
  have htaken : k ∈ (s.toBuild maxTx).map TxRef.hash → ∃ tx ∈ out, s.txStore.get? k = some tx := by
    intro hk
    rcases List.mem_map.1 hk with ⟨r, hr, rfl⟩
    have hsome : s.txStore.get? r.hash ∈ out.map some := by
      rw [← hbuilt.taken]
      exact List.mem_map_of_mem hr
    rcases List.mem_map.1 hsome with ⟨tx, htx, heq⟩
    exact ⟨tx, htx, heq.symm⟩
  have hmem : k ∈ out.map Transaction.txHash ↔ k ∈ (s.toBuild maxTx).map TxRef.hash := by
    constructor
    · intro hk
      rcases List.mem_map.1 hk with ⟨tx, htx, rfl⟩
      exact (hbuilt.stored_of_mem hstored htx).2
    · intro hk
      rcases htaken hk with ⟨tx, htx, hget⟩
      exact List.mem_map.2 ⟨tx, htx, hstored k tx hget⟩
  rw [pooledAs_eraseAll hbuilt.index, List.Nodup.count hnodup]
  simp only [hmem]
  split
  · next hk =>
      rcases htaken hk with ⟨tx, -, hget⟩
      rw [pooledAs, hkeys k, hget]
      rfl
  · exact Nat.zero_add _

theorem staleHashes_eq_nil {now : Nat} (h : (s.evictStale now).2 = 0) : s.staleHashes now = [] :=
  List.length_eq_zero_iff.1 h

/-- One call: nothing enters a block or stays pooled that was not pooled or accepted, and nothing
else gets lost if the call keeps the hash. -/
theorem accounts_step (hkeys : KeysAgree s)
    (hstored : ∀ k tx, s.txStore.get? k = some tx → tx.txHash = k) (hstep : step s e s') :
    includedAs [e] k + pooledAs s' k ≤ acceptedAs [e] k + pooledAs s k ∧
      (Keeps k e → includedAs [e] k + pooledAs s' k = acceptedAs [e] k + pooledAs s k) := by
  cases step_kind hstep with
  | reject tx pohTick now st => exact ⟨Nat.le_refl _, fun _ => rfl⟩
  | adjust congestion => exact ⟨Nat.le_refl _, fun _ => rfl⟩
  | accept tx pohTick now haccepts =>
      have heq : pooledAs (s.accept tx pohTick now) k =
          [tx.txHash].count k + pooledAs s k := by
        rw [pooledAs, accept_index, FinMap.get?_insert, List.count_singleton, pooledAs]
        by_cases hk : k = tx.txHash
        · simp [hk, haccepts.fresh]
        · simp [hk, Ne.symm hk]
      have hin : includedAs [.insert tx pohTick now true] k = 0 := rfl
      rw [hin, Nat.zero_add]
      exact ⟨heq.le, fun _ => heq⟩
  | build maxTx maxBytes fuel s' out hbuild =>
      have hout : includedAs [.build maxTx maxBytes out] k =
          (out.map Transaction.txHash).count k := by
        rw [includedAs, includedIn, List.flatMap_singleton]
      have hacc : acceptedAs [.build maxTx maxBytes out] k = 0 := rfl
      rw [hout, hacc, Nat.zero_add, pooledAs_build hkeys hstored hbuild]
      exact ⟨Nat.le_refl _, fun _ => rfl⟩
  | remove hashes =>
      rcases pooledAs_of_erase (k := k) (removeTransactions_index s hashes) with ⟨hle, heq⟩
      exact ⟨Nat.add_le_add_left hle 0, fun hkeep => congrArg (0 + ·) (heq hkeep)⟩
  | evict now =>
      rcases pooledAs_of_erase (k := k) (evictStale_index s now) with ⟨hle, heq⟩
      refine ⟨Nat.add_le_add_left hle 0, fun hkeep => congrArg (0 + ·) (heq ?_)⟩
      rw [staleHashes_eq_nil hkeep]
      exact List.not_mem_nil

/-- Over every run the transactions that went into blocks were accepted before, and none of them
more often than it was accepted, counting the one that is still pooled.  Nothing is missing unless
it was removed or evicted. -/
theorem inclusion_accounted (hrun : Run MempoolInner.step new tr s) :
    (∀ tx ∈ includedIn tr, tx ∈ acceptedIn tr) ∧
      ∀ k, includedAs tr k + pooledAs s k ≤ acceptedAs tr k ∧
        ((∀ e ∈ tr, Keeps k e) → includedAs tr k + pooledAs s k = acceptedAs tr k) := by
  refine RunWith.invariant (fun tr s => (∀ tx ∈ includedIn tr, tx ∈ acceptedIn tr) ∧
    ∀ k, includedAs tr k + pooledAs s k ≤ acceptedAs tr k ∧
      ((∀ e ∈ tr, Keeps k e) → includedAs tr k + pooledAs s k = acceptedAs tr k)) ?_ ?_ hrun
  · exact ⟨nofun, fun k => ⟨Nat.le_refl _, fun _ => rfl⟩⟩
  · rintro tr s e s' hrun ⟨hmem, hcount⟩ hstep -
    have hkeys := keysAgree_run hrun
    have hstored := stored_run hrun
    refine ⟨fun tx htx => ?_, fun k => ?_⟩
    · rw [acceptedIn_append, List.mem_append]
      rw [includedIn_append, List.mem_append] at htx
      refine Or.inl (htx.elim (hmem tx) fun hlast => ?_)
      cases step_kind hstep with
      | build maxTx maxBytes fuel s' out hbuild =>
          rw [includedIn, List.flatMap_singleton] at hlast
          have htaken := (built_of_buildBlock hkeys hbuild).stored_of_mem
            (fun k tx htx => (hstored k tx htx).2) hlast
          exact (hstored _ _ htaken.1).1
      | _ => cases hlast
    · have hone := accounts_step (k := k) hkeys (fun k tx htx => (hstored k tx htx).2) hstep
      rw [includedAs_append, acceptedAs_append]
      refine ⟨by have := (hcount k).1; omega, fun hall => ?_⟩
      have hbefore := (hcount k).2 fun e he => hall e (List.mem_append_left _ he)
      have hlast := hone.2 (hall e (List.mem_append_right _ List.mem_cons_self))
      omega

/-! ## Statistics -/

/-- How many insertions were rejected. -/
def rejectedIn (tr : List PoolEvent) : ℕ :=
  tr.countP fun
    | .insert _ _ _ accepted => ! accepted
    | _ => false

/-- How many blocks were built. -/
def builtIn (tr : List PoolEvent) : ℕ :=
  tr.countP fun
    | .build _ _ _ => true
    | _ => false

/-- The sum of what `evict_stale` returned. -/
def evictedIn (tr : List PoolEvent) : ℕ :=
  (tr.map fun
    | .evict _ evicted => evicted
    | _ => 0).sum

/-- The calls of `adjust_fee_floor`. -/
def adjustedIn (tr : List PoolEvent) : List Bool :=
  tr.filterMap fun
    | .adjust congestion => some congestion
    | _ => none

/-- One move of the fee floor. -/
def moveFloor (floor : UInt64) (congestion : Bool) : UInt64 :=
  if congestion then floor.satAdd 1 else max (floor.satSub 1) minFee

/-- The statistics of a pool after so many rejections, evictions, blocks and included transactions
and after the given moves of the fee floor. -/
structure StatsAgree (rejected evicted built included : ℕ) (moves : List Bool)
    (s : MempoolInner) : Prop where
  totalTx : s.stats.totalTx = s.index.size
  totalBytes : s.stats.totalBytes = s.totalBytes
  floor : s.minFeeWatermark = moves.foldl moveFloor minFee
  -- the reported floor is zero as long as the floor has not been moved
  feeWatermark : s.stats.feeWatermark = if moves = [] then 0 else s.minFeeWatermark
  rejected : s.stats.rejectedLowFee + s.stats.rejectedDuplicate + s.stats.rejectedNullifier +
    s.stats.rejectedFull = UInt64.ofNat rejected
  evictedStale : s.stats.evictedStale = UInt64.ofNat evicted
  evictedLowFee : s.stats.evictedLowFee = 0
  blocksBuilt : s.stats.blocksBuilt = UInt64.ofNat built
  txsIncluded : s.stats.txsIncluded = UInt64.ofNat included

/-- Statistics that differ in one more rejection. -/
structure OneRejected (st st' : MempoolStats) : Prop where
  totalTx : st'.totalTx = st.totalTx
  totalBytes : st'.totalBytes = st.totalBytes
  feeWatermark : st'.feeWatermark = st.feeWatermark
  rejected : st'.rejectedLowFee + st'.rejectedDuplicate + st'.rejectedNullifier +
    st'.rejectedFull = st.rejectedLowFee + st.rejectedDuplicate + st.rejectedNullifier +
      st.rejectedFull + 1
  evictedStale : st'.evictedStale = st.evictedStale
  evictedLowFee : st'.evictedLowFee = st.evictedLowFee
  blocksBuilt : st'.blocksBuilt = st.blocksBuilt
  txsIncluded : st'.txsIncluded = st.txsIncluded

theorem oneRejected_of_insert {pohTick : UInt64} {now : Nat} {st : MempoolStats}
    (h : s.insert tx pohTick now = ({ s with stats := st }, false)) : OneRejected s.stats st := by
  unfold insert at h
  -- one case for each check, in the order in which they are made
  split at h
  · cases h
    exact ⟨rfl, rfl, rfl, by grind, rfl, rfl, rfl, rfl⟩
  split at h
  · cases h
    exact ⟨rfl, rfl, rfl, by grind, rfl, rfl, rfl, rfl⟩
  split at h
  · cases h
    exact ⟨rfl, rfl, rfl, by grind, rfl, rfl, rfl, rfl⟩
  split at h
  · cases h
    exact ⟨rfl, rfl, rfl, by grind, rfl, rfl, rfl, rfl⟩
  split at h
  · cases h
    exact ⟨rfl, rfl, rfl, by grind, rfl, rfl, rfl, rfl⟩
  exact Bool.noConfusion (congrArg Prod.snd h)

/-- What every pass keeps, both loops keep, together with what has been collected. -/
theorem buildLoop_keeps_state (I : BuildState → Prop) (hkeys : ∀ st, I st → KeysAgree st.pool)
    (hdead : ∀ st bucket rest, I st → I { st with pool := st.pool.popTo bucket rest })
    (htake : ∀ st bucket txref rest tx, I st → I (st.take bucket txref rest tx))
    {maxTx maxBytes fuel : Nat} {bs : List Bucket} {st st' : BuildState} (h : I st)
    (hloop : buildLoop maxTx maxBytes fuel bs st = some st') : I st' := by
  induction fuel generalizing bs st with
  | zero => cases hloop
  | succ fuel ih =>
      cases bs with
      | nil =>
          cases hloop
          exact h
      | cons bucket below =>
          rw [buildLoop] at hloop
          have hkind := pass_kind maxTx maxBytes bucket (hkeys _ h)
          generalize buildPass maxTx maxBytes bucket st = result at hkind hloop
          cases hkind with
          | exhausted hempty => exact ih h hloop
          | dead txref rest hfront hdead' => exact ih (hdead _ _ _ h) hloop
          | stuck txref r rest tx hfront hlive hstored hbig => exact ih h hloop
          | take txref r rest tx hfront hlive hstored hfits =>
              have hnext := htake _ bucket txref rest tx h
              by_cases hfull : maxTx ≤ st.out.length + 1
              · rw [if_pos hfull] at hloop
                cases hloop
                exact hnext
              · rw [if_neg hfull] at hloop
                exact ih hnext hloop

/-- Of the statistics the loops change one counter: by what they collect. -/
theorem stats_of_buildLoop {maxTx maxBytes fuel : Nat} {st : BuildState} (hkeys : KeysAgree s)
    (hloop : buildLoop maxTx maxBytes fuel bucketsDown (start s) = some st) :
    st.pool.stats = { s.stats with
      txsIncluded := s.stats.txsIncluded + UInt64.ofNat st.out.length } ∧
      st.pool.minFeeWatermark = s.minFeeWatermark := by
  have hkeep := buildLoop_keeps_state (fun st => KeysAgree st.pool ∧
    st.pool.stats = { s.stats with
      txsIncluded := s.stats.txsIncluded + UInt64.ofNat st.out.length } ∧
      st.pool.minFeeWatermark = s.minFeeWatermark)
    (fun st h => h.1) (fun st bucket rest h => h) ?_ ⟨hkeys, ?_, rfl⟩ hloop
  · exact hkeep.2
  · rintro st bucket txref rest tx ⟨hk, hstats, hfloor⟩
    refine ⟨hk.forget txref.hash txref.size.toNat tx, ?_, hfloor⟩
    have hout : (st.take bucket txref rest tx).out.length = st.out.length + 1 :=
      List.length_append
    have htake : (st.take bucket txref rest tx).pool.stats =
        { st.pool.stats with txsIncluded := st.pool.stats.txsIncluded + 1 } := rfl
    rw [hout, htake, hstats, UInt64.ofNat_add, ← UInt64.add_assoc]
    rfl
  · have hzero : s.stats.txsIncluded + UInt64.ofNat (start s).out.length = s.stats.txsIncluded :=
      UInt64.add_zero _
    rw [hzero]
    rfl

theorem removeOne_stats (s : MempoolInner) (h : Hash) : (s.removeOne h).stats = s.stats ∧
    (s.removeOne h).minFeeWatermark = s.minFeeWatermark := by
  rw [removeOne.eq_def]
  split
  · exact ⟨rfl, rfl⟩
  · dsimp only
    split <;> exact ⟨rfl, rfl⟩

theorem evictOne_stats (s : MempoolInner) (h : Hash) : (s.evictOne h).stats = s.stats ∧
    (s.evictOne h).minFeeWatermark = s.minFeeWatermark := by
  rw [evictOne.eq_def]
  dsimp only
  split <;> split <;> exact ⟨rfl, rfl⟩

theorem foldl_stats {f : MempoolInner → Hash → MempoolInner}
    (hf : ∀ s h, (f s h).stats = s.stats ∧ (f s h).minFeeWatermark = s.minFeeWatermark)
    (hashes : List Hash) (s : MempoolInner) : (hashes.foldl f s).stats = s.stats ∧
      (hashes.foldl f s).minFeeWatermark = s.minFeeWatermark :=
  List.foldlRecOn (motive := fun s' : MempoolInner =>
    s'.stats = s.stats ∧ s'.minFeeWatermark = s.minFeeWatermark) hashes f ⟨rfl, rfl⟩
    fun s' h k _ => ⟨(hf s' k).1.trans h.1, (hf s' k).2.trans h.2⟩

/-- The totals are written again; the rest of the statistics is what it was. -/
theorem StatsAgree.noteTotals {r v b i : ℕ} {moves : List Bool} (h : StatsAgree r v b i moves s)
    (hstats : s'.stats = s.stats) (hfloor : s'.minFeeWatermark = s.minFeeWatermark) :
    StatsAgree r v b i moves s'.noteTotals := by
  have hsame : s'.noteTotals.stats =
      { s.stats with totalTx := s'.index.size, totalBytes := s'.totalBytes } := by
    rw [← hstats]
    rfl
  exact
    { totalTx := rfl
      totalBytes := rfl
      floor := hfloor.trans h.floor
      feeWatermark := by
        rw [hsame]
        exact h.feeWatermark.trans (by rw [← hfloor]; rfl)
      rejected := by rw [hsame]; exact h.rejected
      evictedStale := by rw [hsame]; exact h.evictedStale
      evictedLowFee := by rw [hsame]; exact h.evictedLowFee
      blocksBuilt := by rw [hsame]; exact h.blocksBuilt
      txsIncluded := by rw [hsame]; exact h.txsIncluded }

theorem StatsAgree.step {r v b i : ℕ} {moves : List Bool} (h : StatsAgree r v b i moves s)
    (hkeys : KeysAgree s) (hstep : step s e s') :
    StatsAgree (r + rejectedIn [e]) (v + evictedIn [e]) (b + builtIn [e])
      (i + (includedIn [e]).length) (moves ++ adjustedIn [e]) s' := by
  have hstay : moves ++ [] = moves := List.append_nil moves
  cases step_kind hstep with
  | reject tx pohTick now st =>
      have hone := oneRejected_of_insert hstep
      change StatsAgree (r + 1) v b i (moves ++ []) { s with stats := st }
      rw [hstay]
      exact
        { totalTx := hone.totalTx.trans h.totalTx
          totalBytes := hone.totalBytes.trans h.totalBytes
          floor := h.floor
          feeWatermark := hone.feeWatermark.trans h.feeWatermark
          rejected := by rw [hone.rejected, h.rejected, UInt64.ofNat_add]; rfl
          evictedStale := hone.evictedStale.trans h.evictedStale
          evictedLowFee := hone.evictedLowFee.trans h.evictedLowFee
          blocksBuilt := hone.blocksBuilt.trans h.blocksBuilt
          txsIncluded := hone.txsIncluded.trans h.txsIncluded }
  | accept tx pohTick now haccepts =>
      change StatsAgree r v b i (moves ++ []) (s.accept tx pohTick now)
      rw [hstay]
      exact { h with totalTx := rfl, totalBytes := rfl }
  | build maxTx maxBytes fuel s' out hbuild =>
      rcases Option.map_eq_some_iff.1 hbuild with ⟨st, hloop, heq⟩
      cases heq
      rcases stats_of_buildLoop hkeys hloop with ⟨hstats, hfloor⟩
      have hout : (includedIn [.build maxTx maxBytes st.out]).length = st.out.length := by
        rw [includedIn, List.flatMap_singleton]
      rw [hout]
      change StatsAgree r v (b + 1) (i + st.out.length) (moves ++ []) st.pool.noteBuilt
      rw [hstay]
      have hcounted : StatsAgree r v (b + 1) (i + st.out.length) moves
          { s with
            stats :=
              { s.stats with
                blocksBuilt := s.stats.blocksBuilt + 1
                txsIncluded := s.stats.txsIncluded + UInt64.ofNat st.out.length } } :=
        { h with
          blocksBuilt := by rw [h.blocksBuilt, UInt64.ofNat_add]; rfl
          txsIncluded := by rw [h.txsIncluded, UInt64.ofNat_add] }
      let counted : MempoolInner :=
        { st.pool with
          stats := { st.pool.stats with blocksBuilt := st.pool.stats.blocksBuilt + 1 } }
      have hsame : counted.stats = { s.stats with
          blocksBuilt := s.stats.blocksBuilt + 1
          txsIncluded := s.stats.txsIncluded + UInt64.ofNat st.out.length } := by
        simp only [counted, hstats]
      exact hcounted.noteTotals hsame hfloor
  | remove hashes =>
      change StatsAgree r v b i (moves ++ []) (hashes.foldl removeOne s).noteTotals
      rw [hstay]
      rcases foldl_stats removeOne_stats hashes s with ⟨hstats, hfloor⟩
      exact h.noteTotals hstats hfloor
  | evict now =>
      have hstale : evictedIn [.evict now (s.evictStale now).2] = (s.staleHashes now).length :=
        Nat.add_zero _
      rw [hstale]
      change StatsAgree r (v + (s.staleHashes now).length) b i (moves ++ []) (s.evictStale now).1
      rw [hstay]
      have hcounted : StatsAgree r (v + (s.staleHashes now).length) b i moves
          { s with
            stats :=
              { s.stats with
                evictedStale :=
                  s.stats.evictedStale + UInt64.ofNat (s.staleHashes now).length } } :=
        { h with evictedStale := by rw [h.evictedStale, UInt64.ofNat_add] }
      rcases foldl_stats evictOne_stats (s.staleHashes now)
        { s with buckets := fun b => (s.buckets b).filter fun r => ! isStale now r } with
        ⟨hstats, hfloor⟩
      refine hcounted.noteTotals ?_ hfloor
      rw [hstats]
  | adjust congestion =>
      change StatsAgree r v b i (moves ++ [congestion]) (s.adjustFeeFloor congestion)
      exact
        { h with
          floor := by
            rw [List.foldl_append, ← h.floor]
            rfl
          feeWatermark := by
            rw [if_neg (List.append_ne_nil_of_right_ne_nil moves (List.cons_ne_nil congestion []))]
            rfl }

/-- Over every run the statistics say what the log says, modulo `2 ^ 64`, and the fee floor is where
the calls of `adjust_fee_floor` have moved it. -/
theorem stats_counted (hrun : Run MempoolInner.step new tr s) :
    StatsAgree (rejectedIn tr) (evictedIn tr) (builtIn tr) (includedIn tr).length (adjustedIn tr)
      s := by
  refine RunWith.invariant (fun tr s => StatsAgree (rejectedIn tr) (evictedIn tr) (builtIn tr)
    (includedIn tr).length (adjustedIn tr) s) ⟨rfl, rfl, rfl, rfl, rfl, rfl, rfl, rfl, rfl⟩ ?_ hrun
  intro tr s e s' hrun h hstep _
  have hrejected : rejectedIn (tr ++ [e]) = rejectedIn tr + rejectedIn [e] := List.countP_append
  have hevicted : evictedIn (tr ++ [e]) = evictedIn tr + evictedIn [e] := by
    simp only [evictedIn, List.map_append, List.sum_append]
  have hbuilt : builtIn (tr ++ [e]) = builtIn tr + builtIn [e] := List.countP_append
  have hadjusted : adjustedIn (tr ++ [e]) = adjustedIn tr ++ adjustedIn [e] :=
    List.filterMap_append
  rw [hrejected, hevicted, hbuilt, includedIn_append, List.length_append, hadjusted]
  exact h.step (keysAgree_run hrun) hstep

end Log

section Sample

attribute [local instance] polyBlake3 unitTypes

/-- Inserted twice, the sample transaction is accepted once, and built into a block. -/
theorem sampleRun_built : ∃ s out, Run MempoolInner.step new
    [.insert sampleSpend 0 0 true, .insert sampleSpend 0 1 false, .build 1 1000 out] s ∧
      out.length = 1 := by
  have htwice : Run MempoolInner.step new
      [.insert sampleSpend 0 0 true, .insert sampleSpend 0 1 false]
      (samplePool.insert sampleSpend 0 1).1 :=
    Run.snoc sampleRun (step_insert (by decide +kernel))
  have hone : ((samplePool.insert sampleSpend 0 1).1.buildBlock 100 1 1000).map
      (fun r => r.2.length) = some 1 := by decide +kernel
  rcases Option.map_eq_some_iff.1 hone with ⟨⟨s, out⟩, hbuild, hlength⟩
  exact ⟨s, out, Run.snoc htwice ⟨100, hbuild⟩, hlength⟩

theorem inclusion_accounted_sample : ∃ s out, Run MempoolInner.step new
    [.insert sampleSpend 0 0 true, .insert sampleSpend 0 1 false, .build 1 1000 out] s ∧
      out.length = 1 ∧ ∀ tx ∈ out, tx ∈ [sampleSpend] := by
  rcases sampleRun_built with ⟨s, out, hrun, hlength⟩
  refine ⟨s, out, hrun, hlength, fun tx htx => (inclusion_accounted hrun).1 tx ?_⟩
  rw [includedIn, List.flatMap_cons, List.flatMap_cons, List.flatMap_singleton]
  exact htx

theorem stats_counted_sample : ∃ s out, Run MempoolInner.step new
    [.insert sampleSpend 0 0 true, .insert sampleSpend 0 1 false, .build 1 1000 out] s ∧
      s.stats.rejectedLowFee + s.stats.rejectedDuplicate + s.stats.rejectedNullifier +
        s.stats.rejectedFull = 1 ∧ s.stats.blocksBuilt = 1 ∧ s.stats.evictedStale = 0 := by
  rcases sampleRun_built with ⟨s, out, hrun, -⟩
  have hstats := stats_counted hrun
  exact ⟨s, out, hrun, hstats.rejected, hstats.blocksBuilt, hstats.evictedStale⟩

end Sample
end MempoolInner
end Node
end Aevum
