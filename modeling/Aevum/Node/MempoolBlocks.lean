import Aevum.Core.BlockNullifiers
import Aevum.Node.MempoolBuild
import Aevum.Node.MempoolInvariant

/-!
# Node.MempoolBlocks — what `build_block` takes

A call that returns takes the references `toBuild`: `Built` says what this does to the pool, and
`built_of_buildBlock` that it is what both loops do, through every mix of live, dead and repeated
references.  The rest reads off what the block is like: whether it spends a nullifier twice, what
is left in the pool, in which order the fees come, and whether the limits are respected.
-/

namespace Aevum
namespace Node
namespace MempoolInner

open Lib Crypto Aevum.Core

section Blocks

variable [ForeignTypes] {s s' : MempoolInner} {rs : List TxRef} {out : List Transaction}
  {maxTx maxBytes : Nat}

/-! ## One call -/

/-- The references `rs` were taken and their transactions `out` returned. -/
structure Built (s : MempoolInner) (rs : List TxRef) (s' : MempoolInner)
    (out : List Transaction) : Prop where
  taken : rs.map (fun r => s.txStore.get? r.hash) = out.map some
  index : s'.index = FinMap.eraseAll (rs.map TxRef.hash) s.index
  txStore : s'.txStore = FinMap.eraseAll (rs.map TxRef.hash) s.txStore
  nullifiers : s'.nullifiers = FinMap.eraseAll (out.flatMap inputNullifiers) s.nullifiers

theorem Built.nil (s : MempoolInner) : Built s [] s [] := ⟨rfl, rfl, rfl, rfl⟩

/-- One reference is taken before the others. -/
theorem Built.cons {st : BuildState} {bucket : Bucket} {txref : TxRef} {rest : List TxRef}
    {tx : Transaction} (hstored : st.pool.txStore.get? txref.hash = some tx)
    (h : Built (st.take bucket txref rest tx).pool rs s' out) :
    Built st.pool (txref :: rs) s' (tx :: out) where
  taken := by
    have hsame : (rs.map fun r => st.pool.txStore.get? r.hash) = out.map some := by
      rw [← h.taken]
      refine List.map_congr_left fun r hr => ?_
      have herase : (st.take bucket txref rest tx).pool.txStore.get? r.hash =
          if r.hash = txref.hash then none else st.pool.txStore.get? r.hash :=
        FinMap.get?_erase st.pool.txStore txref.hash r.hash
      -- what is taken later is still stored, so it has another hash
      have hmem : (st.take bucket txref rest tx).pool.txStore.get? r.hash ∈ out.map some := by
        rw [← h.taken]
        exact List.mem_map_of_mem hr
      rw [herase] at hmem ⊢
      split at hmem
      · simp at hmem
      · next hne => rw [if_neg hne]
    rw [List.map_cons, List.map_cons, hstored, hsame]
  index := h.index
  txStore := h.txStore
  nullifiers := by
    rw [List.flatMap_cons, FinMap.eraseAll_append]
    exact h.nullifiers

theorem built_of_buildLoop {fuel : Nat} {bs : List Bucket} {st st' : BuildState}
    (hbs : bs.Nodup) (hkeys : KeysAgree st.pool) (hroom : st.out.length < max 1 maxTx)
    (hloop : buildLoop maxTx maxBytes fuel bs st = some st') :
    ∃ txs, st'.out = st.out ++ txs ∧ Built st.pool (chosen maxTx bs st) st'.pool txs := by
  induction fuel generalizing bs st with
  | zero => cases hloop
  | succ fuel ih =>
      cases bs with
      | nil =>
          cases hloop
          rw [chosen_nil]
          exact ⟨[], (List.append_nil _).symm, Built.nil _⟩
      | cons bucket below =>
          have hbelow : bucket ∉ below := (List.nodup_cons.1 hbs).1
          have hkind := pass_kind maxTx maxBytes bucket hkeys
          rw [buildLoop] at hloop
          generalize buildPass maxTx maxBytes bucket st = result at hkind hloop
          cases hkind with
          | exhausted hempty =>
              rw [chosen_of_exhausted hempty]
              exact ih (List.nodup_cons.1 hbs).2 hkeys hroom hloop
          | dead txref rest hfront hdead =>
              rw [chosen_of_dead hbelow hfront hdead]
              let st₁ : BuildState := { st with pool := st.pool.popTo bucket rest }
              have hkeys₁ : KeysAgree st₁.pool := hkeys
              rcases ih hbs hkeys₁ hroom hloop with ⟨txs, hout, hbuilt⟩
              exact ⟨txs, hout, hbuilt.taken, hbuilt.index, hbuilt.txStore, hbuilt.nullifiers⟩
          | stuck txref r rest tx hfront hlive hstored hbig => exact ih hbs hkeys hroom hloop
          | take txref r rest tx hfront hlive hstored hfits =>
              have hlength := length_out_take st bucket txref rest tx
              have hout : (st.take bucket txref rest tx).out = st.out ++ [tx] := rfl
              rw [chosen_take tx hbelow hroom hfront hlive]
              by_cases hfull : maxTx ≤ st.out.length + 1
              · -- that was the last one
                rw [if_pos hfull] at hloop
                cases hloop
                rw [chosen_take_of_full hfull]
                exact ⟨[tx], hout, (Built.nil _).cons hstored⟩
              · rw [if_neg hfull] at hloop
                rcases ih hbs (hkeys.forget _ txref.size.toNat tx) (by omega) hloop with
                  ⟨txs, htxs, hbuilt⟩
                refine ⟨tx :: txs, ?_, hbuilt.cons hstored⟩
                rw [htxs, hout, List.append_assoc, List.singleton_append]

/-- A call that returns has taken the references `toBuild`. -/
theorem built_of_buildBlock {fuel : Nat} (hkeys : KeysAgree s)
    (hbuild : s.buildBlock fuel maxTx maxBytes = some (s', out)) :
    Built s (s.toBuild maxTx) s' out := by
  rcases Option.map_eq_some_iff.1 hbuild with ⟨st, hloop, heq⟩
  cases heq
  have hnodup : bucketsDown.Nodup := List.nodup_reverse.2 (List.nodup_finRange feeBuckets)
  have hroom : 0 < max 1 maxTx := Nat.lt_of_lt_of_le Nat.zero_lt_one (Nat.le_max_left 1 maxTx)
  have hstart : KeysAgree (start s).pool := hkeys
  rcases built_of_buildLoop hnodup hstart hroom hloop with ⟨txs, hout, hbuilt⟩
  rw [hout]
  exact ⟨hbuilt.taken, hbuilt.index, hbuilt.txStore, hbuilt.nullifiers⟩

/-! ## What is taken -/

theorem Built.mem_iff (h : Built s rs s' out) {tx : Transaction} :
    tx ∈ out ↔ ∃ r ∈ rs, s.txStore.get? r.hash = some tx := by
  have hmem : some tx ∈ out.map some ↔ tx ∈ out :=
    List.mem_map_of_injective (Option.some_injective Transaction)
  rw [← hmem, ← h.taken, List.mem_map]

theorem Built.length_eq (h : Built s rs s' out) : out.length = rs.length := by
  have hlength := congrArg List.length h.taken
  rw [List.length_map, List.length_map] at hlength
  exact hlength.symm

/-- What holds between the transactions behind the references, holds between those returned. -/
theorem Built.pairwise (h : Built s rs s' out) {R : Transaction → Transaction → Prop}
    (hrs : rs.Pairwise fun r r' => ∀ tx tx', s.txStore.get? r.hash = some tx →
      s.txStore.get? r'.hash = some tx' → R tx tx') : out.Pairwise R := by
  have hmap : (rs.map fun r => s.txStore.get? r.hash).Pairwise fun o o' =>
      ∀ tx tx', o = some tx → o' = some tx' → R tx tx' := List.pairwise_map.2 hrs
  rw [h.taken, List.pairwise_map] at hmap
  exact hmap.imp fun hR => hR _ _ rfl rfl

/-- A sum over the transactions behind the references is one over those returned. -/
theorem Built.sum_eq (h : Built s rs s' out) (f : Transaction → ℕ) :
    (rs.map fun r => (s.txStore.get? r.hash).elim 0 f).sum = (out.map f).sum := by
  have hmap := congrArg (List.map fun o : Option Transaction => o.elim 0 f) h.taken
  rw [List.map_map, List.map_map] at hmap
  exact congrArg List.sum hmap

theorem nodup_toBuild (s : MempoolInner) (maxTx : Nat) :
    ((s.toBuild maxTx).map TxRef.hash).Nodup :=
  ((List.take_sublist _ _).map TxRef.hash).nodup (nodup_map_firsts TxRef.hash _ _)

theorem mem_refs {r : TxRef} : r ∈ refs bucketsDown s ↔ ∃ b, r ∈ s.buckets b := by
  simp [refs, bucketsDown]

/-- A transaction is in the block exactly when its hash is among those taken. -/
theorem Built.mem_iff_hash (h : Built s rs s' out) {k : Hash} {tx : Transaction}
    (htx : s.txStore.get? k = some tx)
    (hstored : ∀ k tx, s.txStore.get? k = some tx → tx.txHash = k) :
    tx ∈ out ↔ k ∈ rs.map TxRef.hash := by
  rw [h.mem_iff, List.mem_map]
  constructor
  · rintro ⟨r, hr, htx'⟩
    exact ⟨r, hr, (hstored _ _ htx').symm.trans (hstored _ _ htx)⟩
  · rintro ⟨r, hr, rfl⟩
    exact ⟨r, hr, htx⟩

/-- A transaction in the block was stored under its own hash, which is among those taken. -/
theorem Built.stored_of_mem (h : Built s rs s' out)
    (hstored : ∀ k tx, s.txStore.get? k = some tx → tx.txHash = k) {tx : Transaction}
    (hmem : tx ∈ out) :
    s.txStore.get? tx.txHash = some tx ∧ tx.txHash ∈ rs.map TxRef.hash := by
  rcases h.mem_iff.1 hmem with ⟨r, hr, htx⟩
  rw [hstored _ _ htx]
  exact ⟨htx, List.mem_map_of_mem hr⟩

theorem Built.nodup_hashes (h : Built s rs s' out) (hrs : (rs.map TxRef.hash).Nodup)
    (hstored : ∀ k tx, s.txStore.get? k = some tx → tx.txHash = k) :
    (out.map Transaction.txHash).Nodup := by
  refine List.pairwise_map.2 (h.pairwise ((List.pairwise_map.1 hrs).imp ?_))
  intro r r' hne tx tx' htx htx'
  rw [hstored _ _ htx, hstored _ _ htx']
  exact hne

/-- What is still stored was not taken. -/
theorem Built.left_iff (h : Built s rs s' out) {k : Hash} {tx : Transaction} :
    s'.txStore.get? k = some tx ↔ k ∉ rs.map TxRef.hash ∧ s.txStore.get? k = some tx := by
  rw [h.txStore, FinMap.get?_eraseAll_eq_some]

theorem Built.entry_kept (h : Built s rs s' out) (hkeys : KeysAgree s') {k : Hash}
    {tx : Transaction} (htx : s'.txStore.get? k = some tx) :
    ∃ r, s.index.get? k = some r ∧ s'.index.get? k = some r := by
  rcases hkeys.indexed htx with ⟨r, hr⟩
  have hentry := hr
  rw [h.index, FinMap.get?_eraseAll_eq_some] at hentry
  exact ⟨r, hentry.2, hr⟩

/-- The references to be chosen from: the first one to each pooled transaction. -/
abbrev liveRefs (s : MempoolInner) : List TxRef :=
  firsts TxRef.hash s.index.keySet (refs bucketsDown s)

theorem mem_liveRefs (hinv : Entries s) {k : Hash} :
    k ∈ s.liveRefs.map TxRef.hash ↔ ∃ r, s.index.get? k = some r := by
  rw [mem_map_firsts, FinMap.mem_keySet]
  constructor
  · exact And.left
  · rintro ⟨r, hr⟩
    rcases hinv.indexed k r hr with ⟨hhash, hmem⟩
    exact ⟨⟨r, hr⟩, List.mem_map.2 ⟨r, mem_refs.2 ⟨_, hmem⟩, hhash⟩⟩

/-- There are as many of them as there are pooled transactions. -/
theorem length_liveRefs (hinv : Entries s) : s.liveRefs.length = s.index.size := by
  rw [← List.length_map (f := TxRef.hash)]
  exact FinMap.length_eq_size (nodup_map_firsts _ _ _) fun _ => mem_liveRefs hinv

/-- Every pooled transaction is in some block. -/
theorem exists_buildBlock (hinv : Entries s) {k : Hash} {tx : Transaction}
    (htx : s.txStore.get? k = some tx) :
    ∃ fuel maxTx maxBytes s' out, s.buildBlock fuel maxTx maxBytes = some (s', out) ∧
      tx ∈ out := by
  -- as many transactions as there are, with room for all of them
  let maxTx := s.liveRefs.length
  rcases (buildBlock_isSome_iff hinv.keys maxTx _).2 (Nat.le_refl _) with ⟨fuel, hsome⟩
  rcases Option.isSome_iff_exists.1 hsome with ⟨⟨s', out⟩, hbuild⟩
  refine ⟨fuel, maxTx, _, s', out, hbuild, (built_of_buildBlock hinv.keys hbuild).mem_iff.2 ?_⟩
  have hall : s.toBuild maxTx = s.liveRefs := List.take_of_length_le (Nat.le_max_right 1 maxTx)
  rcases List.mem_map.1 ((mem_liveRefs hinv).2 (hinv.keys.indexed htx)) with ⟨r', hr', hhash⟩
  exact ⟨r', by rw [hall]; exact hr', by rw [hhash]; exact htx⟩

/-! ## Double spends -/

/-- Transactions in one block have no nullifier in common. -/
theorem Built.disjoint (h : Built s rs s' out) (howners : Owners s)
    (hrs : (rs.map TxRef.hash).Nodup) :
    out.Pairwise fun tx tx' => List.Disjoint (inputNullifiers tx) (inputNullifiers tx') := by
  refine h.pairwise ((List.pairwise_map.1 hrs).imp ?_)
  intro r r' hne tx tx' htx htx' n hn hn'
  exact hne (howners.eq htx htx' hn hn')

/-- No call builds a block that spends a nullifier twice exactly when no pooled transaction does so
in its own inputs. -/
theorem build_distinct_iff {tr : List PoolEvent} (hrun : Run MempoolInner.step new tr s) :
    (∀ fuel maxTx maxBytes s' out, s.buildBlock fuel maxTx maxBytes = some (s', out) →
      (allNullifiers out).Nodup) ↔
      ∀ h tx, s.txStore.get? h = some tx → (inputNullifiers tx).Nodup := by
  have hinv := entries_run hrun
  constructor
  · intro hall h tx htx
    rcases exists_buildBlock hinv htx with ⟨fuel, maxTx, maxBytes, s', out, hbuild, hmem⟩
    exact (List.nodup_flatMap.1 (hall _ _ _ _ _ hbuild)).1 tx hmem
  · intro hpool fuel maxTx maxBytes s' out hbuild
    have hbuilt := built_of_buildBlock hinv.keys hbuild
    refine List.nodup_flatMap.2 ⟨fun tx hmem => ?_, ?_⟩
    · rcases hbuilt.mem_iff.1 hmem with ⟨r, -, htx⟩
      exact hpool r.hash tx htx
    · exact hbuilt.disjoint hinv.owners (nodup_toBuild s maxTx)

end Blocks

section Sample

attribute [local instance] polyBlake3 unitTypes

/-- The sample transaction has one input. -/
theorem build_distinct_sample : ∃ s' out,
    samplePool.buildBlock 100 1 1000 = some (s', out) ∧ out.length = 1 ∧
      (allNullifiers out).Nodup := by
  have hone : (samplePool.buildBlock 100 1 1000).map (fun r => r.2.length) = some 1 := by
    decide +kernel
  rcases Option.map_eq_some_iff.1 hone with ⟨⟨s', out⟩, hbuild, hlength⟩
  refine ⟨s', out, hbuild, hlength, (build_distinct_iff sampleRun).2 ?_ 100 1 1000 s' out hbuild⟩
  intro h tx htx
  have hmem := ((poolInv_run sampleRun (determined_sampleSpend 1)).consistent.stored h tx htx).2
  rw [List.mem_singleton.1 hmem]
  decide +kernel

/-- A transaction that spends one nullifier twice. -/
abbrev sampleTwice : Transaction :=
  Transaction.new (sampleSpend.inputs ++ sampleSpend.inputs) [] 10

/-- It is pooled and built into a block like any other. -/
theorem not_build_distinct :
    ¬ ∀ tr s, Run MempoolInner.step new tr s → ∀ fuel maxTx maxBytes s' out,
      s.buildBlock fuel maxTx maxBytes = some (s', out) → (allNullifiers out).Nodup := by
  intro hall
  have hrun : Run MempoolInner.step new [.insert sampleTwice 0 0 true]
      (new.insert sampleTwice 0 0).1 := Run.single (step_insert (by decide +kernel))
  have hbad : ((new.insert sampleTwice 0 0).1.buildBlock 100 1 1000).map
      (fun r => decide (allNullifiers r.2).Nodup) = some false := by decide +kernel
  rcases Option.map_eq_some_iff.1 hbad with ⟨⟨s', out⟩, hbuild, hnot⟩
  exact of_decide_eq_false hnot (hall _ _ hrun 100 1 1000 s' out hbuild)

end Sample

section Blocks

variable [ForeignTypes] {s s' : MempoolInner} {rs : List TxRef} {out : List Transaction}
  {maxTx maxBytes fuel : Nat} {tr : List PoolEvent}

/-! ## Nothing lost, nothing twice -/

/-- The entries taken have the sizes of the transactions returned. -/
theorem Built.sum_entries (h : Built s rs s' out) {txs : List Transaction}
    (hdet : Determined txs) (hcons : Consistent txs s) :
    ((rs.map TxRef.hash).map fun k => (s.index.get? k).elim 0 fun r => r.size.toNat).sum =
      (out.map entrySize).sum := by
  rw [← h.sum_eq entrySize, List.map_map]
  refine congrArg List.sum (List.map_congr_left fun r _ => ?_)
  have hsize : (s.index.get? r.hash).elim 0 (fun r => r.size.toNat) =
      (s.txStore.get? r.hash).elim 0 entrySize := by
    rcases hcons.keys.cases r.hash with ⟨hnone, hnone'⟩ | ⟨r', tx, hr', htx⟩
    · rw [hnone, hnone']
      rfl
    · rcases hcons.entry_eq hdet hr' with ⟨tx', htx', -, -, heq⟩
      rw [hr', htx', Option.elim_some, Option.elim_some, heq]
  exact hsize

/-- A call that returns moves transactions from the pool into the block: what was stored is in the
block or still stored, never both; sizes and nullifiers go with the transactions; and the others
keep their entries. -/
theorem build_moves (hrun : Run MempoolInner.step new tr s) (hdet : Determined (insertedIn tr))
    (hbuild : s.buildBlock fuel maxTx maxBytes = some (s', out)) :
    (out.map Transaction.txHash).Nodup ∧
    (∀ h tx, s.txStore.get? h = some tx ↔
      tx ∈ out ∧ tx.txHash = h ∨ s'.txStore.get? h = some tx) ∧
    (∀ tx ∈ out, s'.txStore.get? tx.txHash = none) ∧
    s'.totalBytes + (out.map entrySize).sum = s.totalBytes ∧
    (∀ n, s'.nullifiers.get? n = if n ∈ allNullifiers out then none else s.nullifiers.get? n) ∧
    (∀ tx ∈ out, ∀ n ∈ inputNullifiers tx, s.nullifiers.get? n = some tx.txHash) ∧
    ∀ h tx, s'.txStore.get? h = some tx →
      ∃ r, s.index.get? h = some r ∧ s'.index.get? h = some r := by
  have hinv := poolInv_run hrun hdet
  have hcons := hinv.consistent
  have hcons' := (hinv.buildBlock hdet hbuild).consistent
  have hbuilt := built_of_buildBlock hcons.keys hbuild
  have hnodup := nodup_toBuild s maxTx
  have hhash : ∀ k tx, s.txStore.get? k = some tx → tx.txHash = k :=
    fun k tx htx => (hcons.stored k tx htx).1
  refine ⟨hbuilt.nodup_hashes hnodup hhash, fun k tx => ?_, fun tx hmem => ?_, ?_, fun n => ?_,
    fun tx hmem n hn => ?_, fun k tx htx => hbuilt.entry_kept hcons'.keys htx⟩
  · constructor
    · intro htx
      by_cases hmem : k ∈ (s.toBuild maxTx).map TxRef.hash
      · exact Or.inl ⟨(hbuilt.mem_iff_hash htx hhash).2 hmem, hhash k tx htx⟩
      · exact Or.inr (hbuilt.left_iff.2 ⟨hmem, htx⟩)
    · rintro (⟨hmem, rfl⟩ | htx)
      · exact (hbuilt.stored_of_mem hhash hmem).1
      · exact (hbuilt.left_iff.1 htx).2
  · exact Option.eq_none_iff_forall_ne_some.2 fun tx' htx' =>
      (hbuilt.left_iff.1 htx').1 (hbuilt.stored_of_mem hhash hmem).2
  · rw [hcons'.bytes, hcons.bytes, hbuilt.index, ← hbuilt.sum_entries hdet hcons]
    exact FinMap.sumOf_eraseAll _ hnodup s.index
  · rw [hbuilt.nullifiers, FinMap.get?_eraseAll]
    rfl
  · exact (hcons.nullifiers n tx.txHash).2 ⟨tx, (hbuilt.stored_of_mem hhash hmem).1, hn⟩

end Blocks

section Sample

attribute [local instance] polyBlake3 unitTypes

/-- The transaction that was inserted twice has two references and is built once. -/
theorem build_moves_sample : ∃ s' out,
    sampleReinserted.buildBlock 100 5 1000 = some (s', out) ∧ out.length = 1 ∧
      s'.totalBytes + (out.map entrySize).sum = sampleReinserted.totalBytes := by
  have hone : (sampleReinserted.buildBlock 100 5 1000).map (fun r => r.2.length) = some 1 := by
    decide +kernel
  rcases Option.map_eq_some_iff.1 hone with ⟨⟨s', out⟩, hbuild, hlength⟩
  have hmoves := build_moves sampleRun_reinserted (determined_sampleSpend 2) hbuild
  exact ⟨s', out, hbuild, hlength, hmoves.2.2.2.1⟩

end Sample

end MempoolInner
end Node
end Aevum
