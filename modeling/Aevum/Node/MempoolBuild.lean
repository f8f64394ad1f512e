import Aevum.Node.MempoolSteps

/-!
# Node.MempoolBuild — when `build_block` returns

A reference that does not fit is pushed back to the front of its bucket and the inner loop goes on
with the same bucket, so it pops the same reference for ever.  This file proves that this is the
only way not to return, and states exactly when it happens: `build_block` returns if and only if
the references it would choose without a byte limit fit into the limit.

Whether a call returns is `∃ fuel, ...`; what it returns does not depend on the fuel
(`buildLoop_mono`).
-/

namespace Aevum
namespace Node
namespace MempoolInner

open Lib Crypto Aevum.Core

/-- The bytes of a list of references. -/
def sizeSum (rs : List TxRef) : Nat := (rs.map (·.size.toNat)).sum

@[simp] theorem sizeSum_nil : sizeSum [] = 0 := rfl

@[simp] theorem sizeSum_cons (r : TxRef) (rs : List TxRef) :
    sizeSum (r :: rs) = r.size.toNat + sizeSum rs :=
  List.sum_cons

section Build

variable [ForeignTypes] {maxTx maxBytes : Nat}

/-! ## Fuel -/

theorem buildLoop_succ {fuel : Nat} {bs : List Bucket} {st st' : BuildState}
    (h : buildLoop maxTx maxBytes fuel bs st = some st') :
    buildLoop maxTx maxBytes (fuel + 1) bs st = some st' := by
  induction fuel generalizing bs st with
  | zero => cases h
  | succ fuel ih =>
      cases bs with
      | nil => exact h
      | cons bucket below =>
          rw [buildLoop] at h ⊢
          cases hpass : buildPass maxTx maxBytes bucket st with
          | exhausted =>
              rw [hpass] at h
              exact ih h
          | again next =>
              rw [hpass] at h
              exact ih h
          | full done =>
              rw [hpass] at h
              exact h

/-- More fuel does not change a result. -/
theorem buildLoop_mono {fuel fuel' : Nat} {bs : List Bucket} {st st' : BuildState}
    (h : buildLoop maxTx maxBytes fuel bs st = some st') (hle : fuel ≤ fuel') :
    buildLoop maxTx maxBytes fuel' bs st = some st' := by
  induction hle with
  | refl => exact h
  | step _ ih => exact buildLoop_succ ih

/-- Two calls of `build_block` that return, return the same. -/
theorem buildBlock_unique {s : MempoolInner} {fuel fuel' : Nat}
    {r r' : MempoolInner × List Transaction} (h : s.buildBlock fuel maxTx maxBytes = some r)
    (h' : s.buildBlock fuel' maxTx maxBytes = some r') : r = r' := by
  rcases Option.map_eq_some_iff.1 h with ⟨st, hloop, hst⟩
  rcases Option.map_eq_some_iff.1 h' with ⟨st', hloop', hst'⟩
  have hmax := buildLoop_mono hloop (Nat.le_max_left fuel fuel')
  have hmax' := buildLoop_mono hloop' (Nat.le_max_right fuel fuel')
  rw [hmax, Option.some_inj] at hmax'
  rw [← hst, ← hst', hmax']

/-! ## Returning -/

/-- The loops of `build_block` return. -/
def Returns (maxTx maxBytes : Nat) (bs : List Bucket) (st : BuildState) : Prop :=
  ∃ fuel, (buildLoop maxTx maxBytes fuel bs st).isSome

theorem returns_nil (st : BuildState) : Returns maxTx maxBytes [] st := ⟨1, rfl⟩

/-- One pass more or less makes no difference. -/
theorem returns_cons {bucket : Bucket} {below : List Bucket} {st : BuildState} :
    Returns maxTx maxBytes (bucket :: below) st ↔
      match buildPass maxTx maxBytes bucket st with
      | .exhausted => Returns maxTx maxBytes below st
      | .again next => Returns maxTx maxBytes (bucket :: below) next
      | .full _ => True := by
  constructor
  · rintro ⟨fuel, hfuel⟩
    cases fuel with
    | zero => cases hfuel
    | succ fuel =>
        rw [buildLoop] at hfuel
        cases hpass : buildPass maxTx maxBytes bucket st with
        | exhausted =>
            rw [hpass] at hfuel
            exact ⟨fuel, hfuel⟩
        | again next =>
            rw [hpass] at hfuel
            exact ⟨fuel, hfuel⟩
        | full done => exact trivial
  · cases hpass : buildPass maxTx maxBytes bucket st with
    | exhausted =>
        rintro ⟨fuel, hfuel⟩
        refine ⟨fuel + 1, ?_⟩
        rw [buildLoop, hpass]
        exact hfuel
    | again next =>
        rintro ⟨fuel, hfuel⟩
        refine ⟨fuel + 1, ?_⟩
        rw [buildLoop, hpass]
        exact hfuel
    | full done =>
        -- the block is full: one pass is enough fuel
        intro _
        refine ⟨1, ?_⟩
        rw [buildLoop, hpass]
        rfl

/-- A pass that changes nothing is repeated for ever. -/
theorem not_returns_of_again_self {bucket : Bucket} {below : List Bucket} {st : BuildState}
    (hpass : buildPass maxTx maxBytes bucket st = .again st) :
    ¬ Returns maxTx maxBytes (bucket :: below) st := by
  rintro ⟨fuel, hfuel⟩
  induction fuel with
  | zero => cases hfuel
  | succ fuel ih =>
      rw [buildLoop, hpass] at hfuel
      exact ih hfuel

/-! ## The references to be chosen -/

/-- The references in the order they are popped. -/
def refs (bs : List Bucket) (s : MempoolInner) : List TxRef :=
  bs.flatMap s.buckets

theorem refs_cons (bucket : Bucket) (below : List Bucket) (s : MempoolInner) :
    refs (bucket :: below) s = s.buckets bucket ++ refs below s :=
  List.flatMap_cons

theorem refs_popTo {bucket : Bucket} {below : List Bucket} (hbelow : bucket ∉ below)
    (s : MempoolInner) (rest : List TxRef) :
    refs (bucket :: below) (s.popTo bucket rest) = rest ++ refs below s := by
  have hsame : refs below (s.popTo bucket rest) = refs below s := by
    refine List.flatMap_congr fun b hb => ?_
    have hne : b ≠ bucket := fun heq => hbelow (heq ▸ hb)
    rw [popTo_buckets, Function.update_of_ne hne]
  rw [refs_cons, hsame, popTo_buckets, Function.update_self]

/-- What a pass uses up: the buckets and the references not yet popped. -/
def remaining (bs : List Bucket) (s : MempoolInner) : Nat :=
  bs.length + (refs bs s).length

theorem remaining_lt_of_exhausted {bucket : Bucket} (below : List Bucket) (s : MempoolInner) :
    remaining below s < remaining (bucket :: below) s := by
  rw [remaining, remaining, refs_cons, List.length_append, List.length_cons]
  omega

theorem remaining_popTo_lt {bucket : Bucket} {below : List Bucket} {s : MempoolInner}
    {txref : TxRef} {rest : List TxRef} (hbelow : bucket ∉ below)
    (hfront : s.buckets bucket = txref :: rest) :
    remaining (bucket :: below) (s.popTo bucket rest) < remaining (bucket :: below) s := by
  rw [remaining, remaining, refs_popTo hbelow, refs_cons, hfront]
  simp only [List.length_append, List.length_cons]
  omega

/-- The references `build_block` takes if all of them fit: the first one to each pooled
transaction, up to the number of transactions asked for, but at least one. -/
def chosen (maxTx : Nat) (bs : List Bucket) (st : BuildState) : List TxRef :=
  (firsts TxRef.hash st.pool.index.keySet (refs bs st.pool)).take (max 1 maxTx - st.out.length)

theorem chosen_of_exhausted {bucket : Bucket} {below : List Bucket} {st : BuildState}
    (hempty : st.pool.buckets bucket = []) :
    chosen maxTx (bucket :: below) st = chosen maxTx below st := by
  rw [chosen, refs_cons, hempty, List.nil_append]
  rfl

theorem chosen_of_dead {bucket : Bucket} {below : List Bucket} {st : BuildState} {txref : TxRef}
    {rest : List TxRef} (hbelow : bucket ∉ below)
    (hfront : st.pool.buckets bucket = txref :: rest)
    (hdead : st.pool.index.get? txref.hash = none) :
    chosen maxTx (bucket :: below) st =
      chosen maxTx (bucket :: below) { st with pool := st.pool.popTo bucket rest } := by
  have hnot : txref.hash ∉ st.pool.index.keySet := by
    intro hmem
    rcases FinMap.mem_keySet.1 hmem with ⟨r, hr⟩
    rw [hdead] at hr
    cases hr
  rw [chosen, chosen, refs_cons, hfront, List.cons_append, firsts_cons_of_notMem _ hnot,
    refs_popTo hbelow]
  rfl

theorem length_out_take (st : BuildState) (bucket : Bucket) (txref : TxRef) (rest : List TxRef)
    (tx : Transaction) : (st.take bucket txref rest tx).out.length = st.out.length + 1 :=
  List.length_append

/-- A live reference at the front is the first to be chosen. -/
theorem chosen_take {bucket : Bucket} {below : List Bucket} {st : BuildState} {txref r : TxRef}
    {rest : List TxRef} (tx : Transaction) (hbelow : bucket ∉ below)
    (hroom : st.out.length < max 1 maxTx)
    (hfront : st.pool.buckets bucket = txref :: rest)
    (hlive : st.pool.index.get? txref.hash = some r) :
    chosen maxTx (bucket :: below) st =
      txref :: chosen maxTx (bucket :: below) (st.take bucket txref rest tx) := by
  have hmem : txref.hash ∈ st.pool.index.keySet := FinMap.mem_keySet.2 ⟨r, hlive⟩
  have hrefs : refs (bucket :: below) (st.take bucket txref rest tx).pool =
      rest ++ refs below st.pool := refs_popTo hbelow st.pool rest
  have hkeys : (st.take bucket txref rest tx).pool.index.keySet =
      st.pool.index.keySet.erase txref.hash := FinMap.keySet_erase _ _
  -- one slot less, and the first reference is the one taken
  have hcount : max 1 maxTx - st.out.length =
      max 1 maxTx - (st.take bucket txref rest tx).out.length + 1 := by
    rw [length_out_take]
    omega
  rw [chosen, chosen, refs_cons, hfront, List.cons_append, firsts_cons_of_mem _ hmem, hcount,
    List.take_succ_cons, hrefs, hkeys]

theorem chosen_nil (st : BuildState) : chosen maxTx [] st = [] := by
  rw [chosen, refs, List.flatMap_nil, firsts_nil, List.take_nil]

/-- After the last transaction asked for nothing is chosen any more. -/
theorem chosen_take_of_full {st : BuildState} (hfull : maxTx ≤ st.out.length + 1)
    (bs : List Bucket) (bucket : Bucket) (txref : TxRef) (rest : List TxRef) (tx : Transaction) :
    chosen maxTx bs (st.take bucket txref rest tx) = [] := by
  rw [chosen, length_out_take, Nat.sub_eq_zero_of_le (by omega), List.take_zero]

/-- The loops return if and only if the chosen references fit. -/
theorem returns_iff {bs : List Bucket} {st : BuildState} (hbs : bs.Nodup)
    (hkeys : KeysAgree st.pool) (hfit : st.bytes ≤ maxBytes)
    (hroom : st.out.length < max 1 maxTx) :
    Returns maxTx maxBytes bs st ↔ st.bytes + sizeSum (chosen maxTx bs st) ≤ maxBytes := by
  -- every pass but a stuck one leaves less to be popped
  induction hn : remaining bs st.pool using Nat.strong_induction_on generalizing bs st with
  | _ n ih =>
    subst hn
    cases bs with
    | nil =>
        rw [chosen_nil, sizeSum_nil, Nat.add_zero]
        exact iff_of_true (returns_nil st) hfit
    | cons bucket below =>
        have hbelow : bucket ∉ below := (List.nodup_cons.1 hbs).1
        have hkind := pass_kind maxTx maxBytes bucket hkeys
        rw [returns_cons]
        generalize hpass : buildPass maxTx maxBytes bucket st = result at hkind
        cases hkind with
        | exhausted hempty =>
            rw [chosen_of_exhausted hempty]
            exact ih _ (remaining_lt_of_exhausted below st.pool) (List.nodup_cons.1 hbs).2 hkeys
              hfit hroom rfl
        | dead txref rest hfront hdead =>
            rw [chosen_of_dead hbelow hfront hdead]
            exact ih _ (remaining_popTo_lt hbelow hfront) hbs hkeys hfit hroom rfl
        | stuck txref r rest tx hfront hlive hstored hbig =>
            -- the first chosen reference alone exceeds the limit
            have hnever : ¬ Returns maxTx maxBytes (bucket :: below) st :=
              not_returns_of_again_self hpass
            rw [chosen_take tx hbelow hroom hfront hlive, sizeSum_cons]
            exact ⟨fun hreturns => (hnever hreturns).elim, fun hle => by omega⟩
        | take txref r rest tx hfront hlive hstored hfits =>
            have hlength := length_out_take st bucket txref rest tx
            have hbytes : (st.take bucket txref rest tx).bytes =
                st.bytes + txref.size.toNat := rfl
            rw [chosen_take tx hbelow hroom hfront hlive, sizeSum_cons, ← Nat.add_assoc, ← hbytes]
            by_cases hfull : maxTx ≤ st.out.length + 1
            · -- that was the last one
              rw [if_pos hfull, chosen_take_of_full hfull, sizeSum_nil]
              exact ⟨fun _ => hfits, fun _ => trivial⟩
            · rw [if_neg hfull]
              have hless := remaining_popTo_lt hbelow hfront
              exact ih _ hless hbs (hkeys.forget _ txref.size.toNat tx) hfits (by omega) rfl

/-! ## Runs -/

/-- The build state before the first pass. -/
def start (s : MempoolInner) : BuildState :=
  { pool := s
    out := []
    bytes := 0 }

/-- The references `build_block` takes if all of them fit. -/
def toBuild (s : MempoolInner) (maxTx : Nat) : List TxRef :=
  (firsts TxRef.hash s.index.keySet (refs bucketsDown s)).take (max 1 maxTx)

theorem buildBlock_isSome_iff {s : MempoolInner} (hkeys : KeysAgree s) (maxTx maxBytes : Nat) :
    (∃ fuel, (s.buildBlock fuel maxTx maxBytes).isSome) ↔
      sizeSum (s.toBuild maxTx) ≤ maxBytes := by
  have hnodup : bucketsDown.Nodup := List.nodup_reverse.2 (List.nodup_finRange feeBuckets)
  have hroom : 0 < max 1 maxTx := Nat.lt_of_lt_of_le Nat.zero_lt_one (Nat.le_max_left 1 maxTx)
  have hstart : Returns maxTx maxBytes bucketsDown (start s) ↔
      0 + sizeSum (s.toBuild maxTx) ≤ maxBytes :=
    returns_iff hnodup hkeys (Nat.zero_le maxBytes) hroom
  rw [Nat.zero_add] at hstart
  have hmap : (∃ fuel, (s.buildBlock fuel maxTx maxBytes).isSome) ↔
      Returns maxTx maxBytes bucketsDown (start s) := by
    simp only [Returns, buildBlock, start, Option.isSome_map]
  exact hmap.trans hstart

/-- Exactly when a call of `build_block` on a reachable pool returns, and that it returns one
result, however long it may run. -/
theorem build_returns_iff {tr : List PoolEvent} {s : MempoolInner}
    (hrun : Run MempoolInner.step new tr s) (maxTx maxBytes : Nat) :
    ((∃ fuel, (s.buildBlock fuel maxTx maxBytes).isSome) ↔
        sizeSum (s.toBuild maxTx) ≤ maxBytes) ∧
      ∀ fuel fuel' r r', s.buildBlock fuel maxTx maxBytes = some r →
        s.buildBlock fuel' maxTx maxBytes = some r' → r = r' :=
  ⟨buildBlock_isSome_iff (keysAgree_run hrun) maxTx maxBytes,
    fun _ _ _ _ h h' => buildBlock_unique h h'⟩

end Build

section Sample

attribute [local instance] polyBlake3 unitTypes

/-- The sample transaction has 267 bytes. -/
theorem build_returns_sample : ∃ fuel, (samplePool.buildBlock fuel 1 267).isSome :=
  (build_returns_iff sampleRun 1 267).1.2 (by decide +kernel)

/-- With one byte less the call never returns. -/
theorem not_build_returns : ¬ ∀ (tr : List PoolEvent) (s : MempoolInner) (maxTx maxBytes : Nat),
    Run MempoolInner.step new tr s → ∃ fuel, (s.buildBlock fuel maxTx maxBytes).isSome := by
  intro h
  have hreturns := h _ samplePool 1 266 sampleRun
  rw [buildBlock_isSome_iff (keysAgree_run sampleRun)] at hreturns
  have hbig : ¬ sizeSum (samplePool.toBuild 1) ≤ 266 := by decide +kernel
  exact hbig hreturns

end Sample

end MempoolInner
end Node
end Aevum
