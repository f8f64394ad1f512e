import Aevum.Node.Mempool

/-!
# Node.MempoolSteps — what the mempool operations do

Three operations remove pooled transactions, each with its own copy of the same updates.  As long
as the index and the store have the same keys, all of them come down to `forget`, and one pass of
the inner loop of `build_block` is one of the four cases of `PassKind`.  The last section defines
the runs of a mempool; `step_kind` says what one call does.
-/

namespace Aevum
namespace Node
namespace MempoolInner

open Lib Crypto Aevum.Core

section Pool

variable [ForeignTypes]

/-! ## Removal -/

/-- Remove a pooled transaction from everything but the buckets. -/
@[simps]
def forget (s : MempoolInner) (h : Hash) (size : Nat) (tx : Transaction) : MempoolInner :=
  { s with
    index := s.index.erase h
    txStore := s.txStore.erase h
    nullifiers := FinMap.eraseAll (inputNullifiers tx) s.nullifiers
    totalBytes := s.totalBytes - size }

/-- The pool without the first reference of a bucket. -/
@[simps]
def popTo (s : MempoolInner) (bucket : Bucket) (rest : List TxRef) : MempoolInner :=
  { s with buckets := Function.update s.buckets bucket rest }

/-- One more transaction included. -/
@[simps]
def noteIncluded (s : MempoolInner) : MempoolInner :=
  { s with stats := { s.stats with txsIncluded := s.stats.txsIncluded + 1 } }

/-- The index and the store have the same keys. -/
def KeysAgree (s : MempoolInner) : Prop :=
  ∀ h, (s.index.get? h).isSome = (s.txStore.get? h).isSome

theorem KeysAgree.cases {s : MempoolInner} (hkeys : KeysAgree s) (h : Hash) :
    (s.index.get? h = none ∧ s.txStore.get? h = none) ∨
      ∃ r tx, s.index.get? h = some r ∧ s.txStore.get? h = some tx := by
  have hsame := hkeys h
  cases hr : s.index.get? h with
  | none =>
      rw [hr] at hsame
      exact Or.inl ⟨rfl, Option.not_isSome_iff_eq_none.1 fun hsome => by simp [hsome] at hsame⟩
  | some r =>
      rw [hr, Option.isSome_some] at hsame
      rcases Option.isSome_iff_exists.1 hsame.symm with ⟨tx, htx⟩
      exact Or.inr ⟨r, tx, rfl, htx⟩

theorem KeysAgree.indexed {s : MempoolInner} (hkeys : KeysAgree s) {h : Hash} {tx : Transaction}
    (htx : s.txStore.get? h = some tx) : ∃ r, s.index.get? h = some r :=
  Option.isSome_iff_exists.1 ((hkeys h).trans (by rw [htx, Option.isSome_some]))

theorem KeysAgree.stored {s : MempoolInner} (hkeys : KeysAgree s) {h : Hash} {r : TxRef}
    (hr : s.index.get? h = some r) : ∃ tx, s.txStore.get? h = some tx :=
  Option.isSome_iff_exists.1 ((hkeys h).symm.trans (by rw [hr, Option.isSome_some]))

theorem KeysAgree.forget {s : MempoolInner} (hkeys : KeysAgree s) (h : Hash) (size : Nat)
    (tx : Transaction) : KeysAgree (s.forget h size tx) := by
  intro k
  rw [forget_index, forget_txStore, FinMap.get?_erase, FinMap.get?_erase]
  split
  · rfl
  · exact hkeys k

theorem removeOne_of_none {s : MempoolInner} {h : Hash} (hr : s.index.get? h = none) :
    s.removeOne h = s := by
  rw [removeOne, hr]

theorem removeOne_of_some {s : MempoolInner} {h : Hash} {r : TxRef} {tx : Transaction}
    (hr : s.index.get? h = some r) (htx : s.txStore.get? h = some tx) :
    s.removeOne h = s.forget h r.size.toNat tx := by
  simp only [removeOne, hr, htx]
  rfl

theorem evictOne_of_none {s : MempoolInner} {h : Hash} (hr : s.index.get? h = none)
    (htx : s.txStore.get? h = none) : s.evictOne h = s := by
  simp only [evictOne, hr, htx]

theorem evictOne_of_some {s : MempoolInner} {h : Hash} {r : TxRef} {tx : Transaction}
    (hr : s.index.get? h = some r) (htx : s.txStore.get? h = some tx) :
    s.evictOne h = s.forget h r.size.toNat tx := by
  simp only [evictOne, hr, htx]
  rfl

/-! ## Block building -/

/-- The build state after a reference has been taken. -/
def BuildState.take (st : BuildState) (bucket : Bucket) (txref : TxRef) (rest : List TxRef)
    (tx : Transaction) : BuildState :=
  { pool := ((st.pool.popTo bucket rest).forget txref.hash txref.size.toNat tx).noteIncluded
    out := st.out ++ [tx]
    bytes := st.bytes + txref.size.toNat }

/-- What one pass does, as long as the index and the store agree. -/
inductive PassKind (maxTx maxBytes : Nat) (bucket : Bucket) (st : BuildState) :
    PassResult → Prop where
  | exhausted (hempty : st.pool.buckets bucket = []) : PassKind maxTx maxBytes bucket st .exhausted
  | dead (txref : TxRef) (rest : List TxRef) (hfront : st.pool.buckets bucket = txref :: rest)
      (hdead : st.pool.index.get? txref.hash = none) :
      PassKind maxTx maxBytes bucket st (.again { st with pool := st.pool.popTo bucket rest })
  | stuck (txref r : TxRef) (rest : List TxRef) (tx : Transaction)
      (hfront : st.pool.buckets bucket = txref :: rest)
      (hlive : st.pool.index.get? txref.hash = some r)
      (hstored : st.pool.txStore.get? txref.hash = some tx)
      (hbig : maxBytes < st.bytes + txref.size.toNat) :
      PassKind maxTx maxBytes bucket st (.again st)
  | take (txref r : TxRef) (rest : List TxRef) (tx : Transaction)
      (hfront : st.pool.buckets bucket = txref :: rest)
      (hlive : st.pool.index.get? txref.hash = some r)
      (hstored : st.pool.txStore.get? txref.hash = some tx)
      (hfits : st.bytes + txref.size.toNat ≤ maxBytes) :
      PassKind maxTx maxBytes bucket st
        (if maxTx ≤ st.out.length + 1 then .full (st.take bucket txref rest tx)
          else .again (st.take bucket txref rest tx))

theorem pass_kind (maxTx maxBytes : Nat) (bucket : Bucket) {st : BuildState}
    (hkeys : KeysAgree st.pool) :
    PassKind maxTx maxBytes bucket st (buildPass maxTx maxBytes bucket st) := by
  cases hfront : st.pool.buckets bucket with
  | nil =>
      have hpass : buildPass maxTx maxBytes bucket st = .exhausted := by
        rw [buildPass, hfront]
      rw [hpass]
      exact PassKind.exhausted hfront
  | cons txref rest =>
      rcases hkeys.cases txref.hash with ⟨hdead, -⟩ | ⟨r, tx, hlive, hstored⟩
      · have hpass : buildPass maxTx maxBytes bucket st =
            .again { st with pool := st.pool.popTo bucket rest } := by
          simp only [buildPass, hfront, hdead]
          rfl
        rw [hpass]
        exact PassKind.dead txref rest hfront hdead
      · by_cases hbig : maxBytes < st.bytes + txref.size.toNat
        · have hpass : buildPass maxTx maxBytes bucket st = .again st := by
            -- popping and pushing the same reference leaves the bucket as it was
            have hbuckets : Function.update (Function.update st.pool.buckets bucket rest) bucket
                (txref :: rest) = st.pool.buckets := by
              rw [Function.update_idem, ← hfront, Function.update_eq_self]
            simp only [buildPass, hfront, hlive, Option.isNone_some, hbuckets, gt_iff_lt,
              if_pos hbig]
            rfl
          rw [hpass]
          exact PassKind.stuck txref r rest tx hfront hlive hstored hbig
        · have hpass : buildPass maxTx maxBytes bucket st =
              if maxTx ≤ st.out.length + 1 then .full (st.take bucket txref rest tx)
              else .again (st.take bucket txref rest tx) := by
            simp only [buildPass, hfront, hlive, hstored, Option.isNone_some, gt_iff_lt,
              if_neg hbig, List.length_append, List.length_singleton]
            rfl
          rw [hpass]
          exact PassKind.take txref r rest tx hfront hlive hstored (Nat.le_of_not_lt hbig)

/-- What every pass keeps, both loops keep. -/
theorem buildLoop_keeps (I : MempoolInner → Prop) (hkeys : ∀ s, I s → KeysAgree s)
    (hdead : ∀ s bucket txref rest, I s → s.buckets bucket = txref :: rest →
      s.index.get? txref.hash = none → I (s.popTo bucket rest))
    (htake : ∀ s bucket txref r rest tx, I s → s.buckets bucket = txref :: rest →
      s.index.get? txref.hash = some r → s.txStore.get? txref.hash = some tx →
      I (((s.popTo bucket rest).forget txref.hash txref.size.toNat tx).noteIncluded))
    {maxTx maxBytes fuel : Nat} {bs : List Bucket} {st st' : BuildState} (h : I st.pool)
    (hloop : buildLoop maxTx maxBytes fuel bs st = some st') : I st'.pool := by
  induction fuel generalizing bs st with
  | zero => cases hloop
  | succ fuel ih =>
      cases bs with
      | nil =>
          cases hloop
          exact h
      | cons bucket below =>
          rw [buildLoop] at hloop
          have hkind := pass_kind maxTx maxBytes bucket (hkeys _ h)
          generalize buildPass maxTx maxBytes bucket st = result at hkind hloop
          cases hkind with
          | exhausted hempty => exact ih h hloop
          | dead txref rest hfront hdead' => exact ih (hdead _ _ _ _ h hfront hdead') hloop
          -- the reference was pushed back, the pool is the old one
          | stuck txref r rest tx hfront hlive hstored hbig => exact ih h hloop
          | take txref r rest tx hfront hlive hstored hfits =>
              have hnext : I (st.take bucket txref rest tx).pool :=
                htake _ _ _ _ _ _ h hfront hlive hstored
              by_cases hfull : maxTx ≤ st.out.length + 1
              · rw [if_pos hfull] at hloop
                cases hloop
                exact hnext
              · rw [if_neg hfull] at hloop
                exact ih hnext hloop

/-! ## Insertion -/

section Accept

variable (s : MempoolInner) (tx : Transaction) (pohTick : UInt64) (now : Nat)

@[simp] theorem accept_index :
    (s.accept tx pohTick now).index = s.index.insert tx.txHash (refOf tx pohTick now) := rfl

@[simp] theorem accept_txStore :
    (s.accept tx pohTick now).txStore = s.txStore.insert tx.txHash tx := rfl

@[simp] theorem accept_nullifiers : (s.accept tx pohTick now).nullifiers =
    FinMap.insertAll (inputNullifiers tx) tx.txHash s.nullifiers := rfl

@[simp] theorem accept_totalBytes :
    (s.accept tx pohTick now).totalBytes = s.totalBytes + entrySize tx := rfl

@[simp] theorem accept_buckets : (s.accept tx pohTick now).buckets =
    Function.update s.buckets (bucketOf tx.fee)
      (s.buckets (bucketOf tx.fee) ++ [refOf tx pohTick now]) := rfl

/-- A queued reference is the new one or an old one. -/
theorem mem_accept_buckets {b : Bucket} {r : TxRef} :
    r ∈ (s.accept tx pohTick now).buckets b ↔
      r ∈ s.buckets b ∨ b = bucketOf tx.fee ∧ r = refOf tx pohTick now := by
  rw [accept_buckets]
  by_cases hb : b = bucketOf tx.fee
  · rw [hb, Function.update_self, List.mem_append, List.mem_singleton]
    simp
  · rw [Function.update_of_ne hb]
    simp [hb]

theorem KeysAgree.accept {s : MempoolInner} (hkeys : KeysAgree s) :
    KeysAgree (s.accept tx pohTick now) := by
  intro h
  rw [accept_index, accept_txStore, FinMap.get?_insert, FinMap.get?_insert]
  split
  · rfl
  · exact hkeys h

end Accept

/-- The checks of `insert`, all passed. -/
structure Accepts (s : MempoolInner) (tx : Transaction) : Prop where
  fee_le : s.minFeeWatermark ≤ tx.fee
  fresh : s.index.get? tx.txHash = none
  unspent : ∀ n ∈ inputNullifiers tx, s.nullifiers.get? n = none
  count : s.index.size < maxMempoolTx
  bytes : s.totalBytes + entrySize tx ≤ maxMempoolBytes

/-- A rejected transaction changes nothing but the statistics. -/
theorem insert_cases (s : MempoolInner) (tx : Transaction) (pohTick : UInt64) (now : Nat) :
    (∃ st, s.insert tx pohTick now = ({ s with stats := st }, false)) ∨
      (Accepts s tx ∧ s.insert tx pohTick now = (s.accept tx pohTick now, true)) := by
  unfold insert
  split
  · exact Or.inl ⟨_, rfl⟩
  rename_i hfee
  split
  · exact Or.inl ⟨_, rfl⟩
  rename_i hfresh
  split
  · exact Or.inl ⟨_, rfl⟩
  rename_i hunspent
  split
  · exact Or.inl ⟨_, rfl⟩
  rename_i hcount
  split
  · exact Or.inl ⟨_, rfl⟩
  rename_i hbytes
  refine Or.inr ⟨⟨UInt64.not_lt.1 hfee, Option.not_isSome_iff_eq_none.1 hfresh, ?_,
    Nat.lt_of_not_ge hcount, Nat.le_of_not_gt hbytes⟩, rfl⟩
  intro n hn
  rw [List.any_eq_true] at hunspent
  exact Option.not_isSome_iff_eq_none.1 fun hspent => hunspent ⟨n, hn, hspent⟩

theorem Accepts.insert_eq {s : MempoolInner} {tx : Transaction} (h : Accepts s tx)
    (pohTick : UInt64) (now : Nat) :
    s.insert tx pohTick now = (s.accept tx pohTick now, true) := by
  have hunspent : ¬ ((inputNullifiers tx).any fun n => (s.nullifiers.get? n).isSome) = true := by
    rw [List.any_eq_true]
    rintro ⟨n, hn, hspent⟩
    rw [h.unspent n hn] at hspent
    cases hspent
  have hfresh : ¬ (s.index.get? tx.txHash).isSome = true := by
    rw [h.fresh]
    exact Bool.false_ne_true
  rw [insert, if_neg (UInt64.not_lt.2 h.fee_le), if_neg hfresh, if_neg hunspent,
    if_neg (Nat.not_le_of_lt h.count), if_neg (Nat.not_lt_of_le h.bytes)]

/-! ## Runs -/

/-- One call with its arguments, the time it reads and what it returned. -/
inductive PoolEvent
  | insert (tx : Transaction) (pohTick : UInt64) (now : Nat) (accepted : Bool)
  | build (maxTx maxBytes : Nat) (out : List Transaction)
  | remove (hashes : List Hash)
  | evict (now evicted : Nat)
  | adjust (congestion : Bool)

/-- The calls a pool allows, and the pools they lead to; a call of `build_block` is one that
returns. -/
def step (s : MempoolInner) : PoolEvent → MempoolInner → Prop
  | .insert tx pohTick now accepted, s' => s.insert tx pohTick now = (s', accepted)
  | .build maxTx maxBytes out, s' => ∃ fuel, s.buildBlock fuel maxTx maxBytes = some (s', out)
  | .remove hashes, s' => s' = s.removeTransactions hashes
  | .evict now evicted, s' => s.evictStale now = (s', evicted)
  | .adjust congestion, s' => s' = s.adjustFeeFloor congestion

theorem step_insert {s : MempoolInner} {tx : Transaction} {pohTick : UInt64} {now : Nat}
    {accepted : Bool} (h : (s.insert tx pohTick now).2 = accepted) :
    step s (.insert tx pohTick now accepted) (s.insert tx pohTick now).1 :=
  Prod.ext rfl h

/-- What one call does. -/
inductive StepKind (s : MempoolInner) : PoolEvent → MempoolInner → Prop
  | reject (tx : Transaction) (pohTick : UInt64) (now : Nat) (st : MempoolStats) :
      StepKind s (.insert tx pohTick now false) { s with stats := st }
  | accept (tx : Transaction) (pohTick : UInt64) (now : Nat) (haccepts : Accepts s tx) :
      StepKind s (.insert tx pohTick now true) (s.accept tx pohTick now)
  | build (maxTx maxBytes fuel : Nat) (s' : MempoolInner) (out : List Transaction)
      (hbuild : s.buildBlock fuel maxTx maxBytes = some (s', out)) :
      StepKind s (.build maxTx maxBytes out) s'
  | remove (hashes : List Hash) : StepKind s (.remove hashes) (s.removeTransactions hashes)
  | evict (now : Nat) : StepKind s (.evict now (s.evictStale now).2) (s.evictStale now).1
  | adjust (congestion : Bool) : StepKind s (.adjust congestion) (s.adjustFeeFloor congestion)

theorem step_kind {s s' : MempoolInner} {e : PoolEvent} (h : step s e s') : StepKind s e s' := by
  cases e with
  | insert tx pohTick now accepted =>
      have heq : s.insert tx pohTick now = (s', accepted) := h
      rcases insert_cases s tx pohTick now with ⟨st, hins⟩ | ⟨haccepts, hins⟩
      · rw [hins] at heq
        cases heq
        exact StepKind.reject tx pohTick now st
      · rw [hins] at heq
        cases heq
        exact StepKind.accept tx pohTick now haccepts
  | build maxTx maxBytes out =>
      rcases h with ⟨fuel, hbuild⟩
      exact StepKind.build maxTx maxBytes fuel s' out hbuild
  | remove hashes =>
      cases h
      exact StepKind.remove hashes
  | evict now evicted =>
      cases h
      exact StepKind.evict now
  | adjust congestion =>
      cases h
      exact StepKind.adjust congestion

/-- The transactions handed to `insert`. -/
def insertedIn (tr : List PoolEvent) : List Transaction :=
  tr.filterMap fun
    | .insert tx _ _ _ => some tx
    | _ => none

theorem insertedIn_append (tr tr' : List PoolEvent) :
    insertedIn (tr ++ tr') = insertedIn tr ++ insertedIn tr' :=
  List.filterMap_append

theorem KeysAgree.removeOne {s : MempoolInner} (hkeys : KeysAgree s) (h : Hash) :
    KeysAgree (s.removeOne h) := by
  rcases hkeys.cases h with ⟨hr, -⟩ | ⟨r, tx, hr, htx⟩
  · rw [removeOne_of_none hr]
    exact hkeys
  · rw [removeOne_of_some hr htx]
    exact hkeys.forget h _ tx

theorem KeysAgree.evictOne {s : MempoolInner} (hkeys : KeysAgree s) (h : Hash) :
    KeysAgree (s.evictOne h) := by
  rcases hkeys.cases h with ⟨hr, htx⟩ | ⟨r, tx, hr, htx⟩
  · rw [evictOne_of_none hr htx]
    exact hkeys
  · rw [evictOne_of_some hr htx]
    exact hkeys.forget h _ tx

theorem KeysAgree.buildBlock {maxTx maxBytes fuel : Nat} {s s' : MempoolInner}
    {out : List Transaction} (hkeys : KeysAgree s)
    (hbuild : s.buildBlock fuel maxTx maxBytes = some (s', out)) : KeysAgree s' := by
  rcases Option.map_eq_some_iff.1 hbuild with ⟨st, hloop, heq⟩
  cases heq
  refine buildLoop_keeps KeysAgree (fun s h => h) (fun s bucket txref rest h _ _ => h) ?_ hkeys
    hloop
  intro s bucket txref r rest tx h _ _ _
  exact KeysAgree.forget (s := s) h txref.hash txref.size.toNat tx

theorem KeysAgree.step {s s' : MempoolInner} {e : PoolEvent} (hkeys : KeysAgree s)
    (hstep : step s e s') : KeysAgree s' := by
  cases step_kind hstep with
  | reject tx pohTick now st => exact hkeys
  | accept tx pohTick now haccepts => exact hkeys.accept tx pohTick now
  | build maxTx maxBytes fuel s' out hbuild => exact hkeys.buildBlock hbuild
  | remove hashes =>
      exact List.foldlRecOn hashes MempoolInner.removeOne hkeys fun s hs h _ => hs.removeOne h
  | evict now =>
      have hfiltered : KeysAgree
          { s with buckets := fun b => (s.buckets b).filter fun r => ! isStale now r } := hkeys
      exact List.foldlRecOn (s.staleHashes now) MempoolInner.evictOne hfiltered
        fun s hs h _ => hs.evictOne h
  | adjust congestion => exact hkeys

/-- Index and store have the same keys in every reachable pool, whatever the hashes are. -/
theorem keysAgree_run {tr : List PoolEvent} {s : MempoolInner}
    (hrun : Run MempoolInner.step new tr s) : KeysAgree s :=
  RunWith.invariant_state KeysAgree (fun _ => rfl)
    (fun _ _ _ _ _ hkeys hstep _ => hkeys.step hstep) hrun

end Pool

section Sample

attribute [local instance] polyBlake3 unitTypes

/-- A transaction with one input and no output. -/
abbrev sampleSpend : Transaction :=
  Transaction.new
    [{ txHash := Hash.zero
       outputIndex := 0
       nullifier := ByteArr.fill 32 7
       signature := []
       publicKey := sampleKey 1
       signedHash := Hash.zero
       nonce := 0 }] [] 10

abbrev samplePool : MempoolInner := (new.insert sampleSpend 0 0).1

theorem sampleRun : Run step new [.insert sampleSpend 0 0 true] samplePool :=
  Run.single (step_insert (by decide +kernel))

/-- The pool after its only transaction has been removed and inserted again. -/
abbrev sampleReinserted : MempoolInner :=
  ((samplePool.removeTransactions [sampleSpend.txHash]).insert sampleSpend 0 1).1

theorem sampleRun_reinserted : Run step new
    [.insert sampleSpend 0 0 true, .remove [sampleSpend.txHash], .insert sampleSpend 0 1 true]
    sampleReinserted := by
  have hremove : step samplePool (.remove [sampleSpend.txHash])
      (samplePool.removeTransactions [sampleSpend.txHash]) := rfl
  exact Run.snoc (Run.snoc sampleRun hremove) (step_insert (by decide +kernel))

end Sample

end MempoolInner
end Node
end Aevum
