import Aevum.Core.WireZeroCopy
import Mathlib.Data.List.Forall2

/-!
# Core.WireLazy — `wire_zero_copy.rs` (`BlockTxIter`, `FastValidator`)

Two ways to look at transactions on the wire without decoding the block they are in.  The iterator
parses one transaction at a time, where the one before ended; the validator walks up to the fee and
stops there.

* `BlockTxIter.nexts_framed` : the iterator yields the transactions that were put behind each
  other, and then nothing more;
* `FastValidator.checkMinFee_iff` : the validator agrees with the parser as far as it reads.
-/

namespace Aevum
namespace Core

open Lib Reader Crypto Cursor

/-! ## How far the parsers go -/

namespace Cursor

theorem advances_u32 : Advances 4 u32 := (advances_read 4).bind fun _ => (framed_pure _).advances

theorem advances_u64 : Advances 8 u64 := (advances_read 8).bind fun _ => (framed_pure _).advances

end Cursor

/-! ## The lazy iterator -/

structure BlockTxIter where
  cursor : Lib.Cursor
  remaining : UInt32

namespace BlockTxIter

def new (data : List UInt8) (offset : Nat) (txCount : UInt32) : Option BlockTxIter :=
  if offset > data.length then none
  else
    some
      { cursor := Lib.Cursor.new (data.drop offset)
        remaining := txCount }

/-- `next(&mut self)`. -/
def next (it : BlockTxIter) : Option TxView × BlockTxIter :=
  if it.remaining = 0 then (none, it)
  -- `self.cursor.data.get(start..)?`
  else if it.cursor.pos > it.cursor.data.length then (none, it)
  else
    match TxView.parse (it.cursor.data.drop it.cursor.pos) with
    | none => (none, it)
    | some tx =>
        match skip tx.parsedLen it.cursor with
        | (none, c) => (none, { it with cursor := c })
        | (some _, c) =>
            (some tx,
              { cursor := c
                remaining := it.remaining - 1 })

/-- What the next `n` calls of `next` return. -/
def nexts : Nat → BlockTxIter → List (Option TxView)
  | 0, _ => []
  | n + 1, it => it.next.1 :: nexts n it.next.2

end BlockTxIter

/-! ## Transactions behind each other -/

/-- `v` is the view of exactly the bytes `e`. -/
def IsViewOf (e : List UInt8) (v : TxView) : Prop :=
  TxView.parse e = some v ∧ v.parsedLen = e.length

theorem IsViewOf.run {e : List UInt8} {v : TxView} (h : IsViewOf e v) :
    ∃ c, TxView.reader (Lib.Cursor.new e) = (some v, c) ∧ c.pos = e.length ∧ v.raw = e := by
  rcases h with ⟨hparse, hlen⟩
  have hrun : TxView.reader (Lib.Cursor.new e) = (some v, (TxView.run e).2) := Prod.ext hparse rfl
  rcases TxView.yields_reader _ _ _ hrun with ⟨hpos, hraw⟩
  have hdata : (TxView.run e).2.data = e := TxView.framed_reader.data_eq (Lib.Cursor.new e)
  rw [hdata, ← hpos, hlen, List.take_length] at hraw
  exact ⟨(TxView.run e).2, hrun, hpos.symm.trans hlen, hraw⟩

/-- What follows does not change the view. -/
theorem IsViewOf.append {e : List UInt8} {v : TxView} (h : IsViewOf e v) (s : List UInt8) :
    TxView.parse (e ++ s) = some v := by
  rcases h.run with ⟨c, hrun, hpos, -⟩
  have happend := TxView.framed_reader.append_new hrun s
  rwa [hpos, List.take_length] at happend

namespace BlockTxIter

/-- The iterator stands in front of the bytes `rest`. -/
structure Before (it : BlockTxIter) (rest : List UInt8) : Prop where
  pos_le : it.cursor.pos ≤ it.cursor.data.length
  drop_eq : it.cursor.data.drop it.cursor.pos = rest

theorem next_of_view {it : BlockTxIter} {e rest : List UInt8} {v : TxView}
    (hbefore : it.Before (e ++ rest)) (hremaining : it.remaining ≠ 0) (hv : IsViewOf e v) :
    ∃ it', it.next = (some v, it') ∧ it'.Before rest ∧ it'.remaining = it.remaining - 1 := by
  have hpos : it.cursor.pos + v.parsedLen ≤ it.cursor.data.length := by
    have hlength := congrArg List.length hbefore.drop_eq
    have hle := hbefore.pos_le
    rw [List.length_drop, List.length_append] at hlength
    rw [hv.2]
    omega
  have hskip : skip v.parsedLen it.cursor =
      (some (), { it.cursor with pos := it.cursor.pos + v.parsedLen }) := by
    rw [skip, if_pos hpos]
  refine
    ⟨{ cursor := { it.cursor with pos := it.cursor.pos + v.parsedLen }
       remaining := it.remaining - 1 }, ?_, ⟨hpos, ?_⟩, rfl⟩
  · rw [next, if_neg hremaining, if_neg (Nat.not_lt.2 hbefore.pos_le), hbefore.drop_eq,
      hv.append rest]
    simp only [hskip]
  · change it.cursor.data.drop (it.cursor.pos + v.parsedLen) = rest
    rw [← List.drop_drop, hbefore.drop_eq, hv.2, List.drop_left]

theorem nexts_of_remaining_eq_zero {it : BlockTxIter} (h : it.remaining = 0) (k : Nat) :
    it.nexts k = List.replicate k none := by
  have hnext : it.next = (none, it) := by rw [next, if_pos h]
  induction k with
  | zero => rfl
  | succ k ih => rw [nexts, hnext, ih, List.replicate_succ]

/-- The run: one view a call, as long as there are transactions. -/
theorem nexts_of_views {es : List (List UInt8)} {vs : List TxView} (s : List UInt8) (k : Nat)
    (h : List.Forall₂ IsViewOf es vs) :
    ∀ it : BlockTxIter, it.Before (es.flatten ++ s) → it.remaining.toNat = es.length →
      it.nexts (es.length + k) = vs.map some ++ List.replicate k none := by
  induction h with
  | nil =>
      intro it _ hremaining
      rw [List.length_nil, Nat.zero_add]
      exact nexts_of_remaining_eq_zero (UInt32.toNat_inj.1 hremaining) k
  | @cons e v es vs hv _ ih =>
      intro it hbefore hremaining
      rw [List.flatten_cons, List.append_assoc] at hbefore
      rw [List.length_cons] at hremaining
      have hne : it.remaining ≠ 0 := by
        intro hzero
        rw [hzero] at hremaining
        exact absurd hremaining (Nat.succ_ne_zero _).symm
      rcases next_of_view hbefore hne hv with ⟨it', hnext, hbefore', hremaining'⟩
      have hcount : it'.remaining.toNat = es.length := by
        have hone : (1 : UInt32) ≤ it.remaining := by
          rw [UInt32.le_iff_toNat_le, hremaining]
          exact Nat.succ_le_succ (Nat.zero_le _)
        rw [hremaining', UInt32.toNat_sub_of_le _ _ hone, hremaining]
        rfl
      rw [List.length_cons, Nat.succ_add_eq_add_succ, Nat.add_succ, nexts, hnext,
        ih it' hbefore' hcount, List.map_cons, List.cons_append]

/-- Transactions behind each other, with anything in front and behind: the iterator that is set to
where they begin and to their number yields each of them, with its bytes, and then `None`. -/
theorem nexts_framed (p s : List UInt8) (es : List (List UInt8)) (vs : List TxView)
    (hcount : es.length < 2 ^ 32)
    (h : List.Forall₂ (fun e v => TxView.parse e = some v ∧ v.parsedLen = e.length) es vs) :
    vs.map TxView.raw = es ∧
      ∃ it, new (p ++ es.flatten ++ s) p.length (UInt32.ofNat es.length) = some it ∧
        ∀ k, it.nexts (es.length + k) = vs.map some ++ List.replicate k none := by
  constructor
  · induction h with
    | nil => rfl
    | cons hv _ ih =>
        rcases IsViewOf.run hv with ⟨c, -, -, hraw⟩
        rw [List.map_cons, hraw, ih ((Nat.lt_succ_self _).trans hcount)]
  · have hle : ¬ p.length > (p ++ es.flatten ++ s).length := by
      rw [List.append_assoc, List.length_append]
      omega
    refine ⟨_, by rw [new, if_neg hle], fun k => nexts_of_views s k h _ ⟨Nat.zero_le _, ?_⟩ ?_⟩
    · change ((p ++ es.flatten ++ s).drop p.length).drop 0 = es.flatten ++ s
      rw [List.drop_zero, List.append_assoc, List.drop_left]
    · exact UInt32.toNat_ofNat_of_lt' hcount

end BlockTxIter

/-- A transaction without inputs and outputs, up to its fee. -/
def sampleFront (fee : UInt64) : List UInt8 :=
  (u16Bytes 5).bytes ++ (u32Bytes 1).bytes ++ (u32Bytes 2).bytes ++ [0] ++ (u32Bytes 0).bytes ++
    (u32Bytes 0).bytes ++ (u64Bytes fee).bytes

def sampleTxWire (fee : UInt64) : List UInt8 := sampleFront fee ++ List.replicate 52 0

def sampleView (fee : UInt64) : TxView :=
  { txHash := Hash.zero
    fee := fee
    pohTick := 0
    locktime := 0
    txType := 0
    inputCount := 0
    outputCount := 0
    parsedLen := 79
    raw := sampleTxWire fee }

theorem nexts_framed_sample :
    [sampleView 7, sampleView 8].map TxView.raw = [sampleTxWire 7, sampleTxWire 8] ∧
      ∃ it, BlockTxIter.new ([9, 9] ++ [sampleTxWire 7, sampleTxWire 8].flatten ++ [1]) 2 2 =
          some it ∧
        ∀ k, it.nexts (2 + k) = [some (sampleView 7), some (sampleView 8)] ++
          List.replicate k none :=
  BlockTxIter.nexts_framed [9, 9] [1] [sampleTxWire 7, sampleTxWire 8] [sampleView 7, sampleView 8]
    (by decide) (.cons (by decide +kernel) (.cons (by decide +kernel) .nil))

/-! ## The fast checks -/

namespace FastValidator

/-- The closure in `check_min_fee`. -/
def feeReader : Reader UInt64 := do
  let v ← u16
  check (v = expectedWireVersion)
  let _ ← u32
  let _ ← u32
  skip 1
  let ic ← u32
  skipInputs ic
  let oc ← u32
  skipOutputs oc
  u64

def checkMinFee (data : List UInt8) (minFee : UInt64) : Bool :=
  match (feeReader (Lib.Cursor.new data)).1 with
  | some fee => fee ≥ minFee
  | none => false

end FastValidator

/-! ## Readers that go to the same place -/

namespace Cursor

theorem matches_u16 : Matches Eq u16 u16 := matches_read_map 2 _

theorem matches_u32 : Matches Eq u32 u32 := matches_read_map 4 _

theorem matches_u64 : Matches Eq u64 u64 := matches_read_map 8 _

/-- The type of a transaction is passed by the validator and read by the parser. -/
theorem matches_skip_u8 : Matches (fun _ _ => True) (skip 1) u8 := by
  have h : Matches (fun _ _ => True) (skip 1 >>= fun u => pure u) u8 :=
    (matches_skip_read 1).bind fun _ _ _ => matches_pure trivial
  rwa [bind_pure] at h

theorem matches_skipInputs (count : UInt32) :
    Matches Eq (skipInputs count) (skipInputs count) := by
  refine Matches.times ?_ _
  refine (matches_skip _).bind fun _ _ _ => ?_
  refine matches_u32.bind fun sigLen _ hlen => ?_
  rw [← hlen]
  exact (matches_skip _).bind fun _ _ _ => matches_skip _

theorem matches_skipOutputs (count : UInt32) :
    Matches Eq (skipOutputs count) (skipOutputs count) := by
  have hskips : ∀ l : List Nat, ∀ {r : Reader Unit}, Matches Eq r r →
      Matches Eq (l.foldr (fun n rest => skip n >>= fun _ => rest) r)
        (l.foldr (fun n rest => skip n >>= fun _ => rest) r) := by
    intro l r hr
    induction l with
    | nil => exact hr
    | cons n l ih => exact (matches_skip n).bind fun _ _ _ => ih
  refine Matches.times (hskips [8, 32, 32, 32, 32, 8] ?_) _
  refine matches_u32.bind fun zkLen _ hlen => ?_
  rw [← hlen]
  exact hskips [zkLen.toNat, 32, 32, 8, 8, 8] (matches_skip 4)

end Cursor

/-! ## What stands behind the fee -/

namespace TxView

/-- A hash, two words and a count. -/
theorem advances_backReader : Advances 52 backReader := by
  have hwitnesses : Advances 4 skipWitnesses := by
    refine advances_u32.bind fun count => (Framed.times ?_ _).advances
    exact framed_u32.bind fun len => framed_skip _
  refine Advances.bind (m := 32) (n := 20) (advances_read 32) fun txHash => ?_
  refine Advances.bind (m := 8) (n := 12) advances_u64 fun pohTick => ?_
  refine Advances.bind (m := 8) (n := 4) advances_u64 fun locktime => ?_
  exact hwitnesses.bind fun _ => (framed_pure _).advances

/-- Zeros are the least that can stand behind the fee. -/
theorem decodes_backReader :
    Decodes backReader (List.replicate 52 0) (Hash.zero, 0, 0) := by
  have hzeros : List.replicate 52 0 = Hash.zero.bytes ++ ((u64Bytes 0).bytes ++
      ((u64Bytes 0).bytes ++ ((lenBytes 0).bytes ++ []))) := by decide +kernel
  have hwitnesses : Decodes skipWitnesses (lenBytes 0).bytes () := by
    rw [← List.append_nil (lenBytes 0).bytes]
    exact (decodes_u32 (by decide)).bind (decodes_pure ())
  rw [hzeros]
  refine (decodes_hash Hash.zero).bind ?_
  refine (decodes_u64 0).bind ?_
  refine (decodes_u64 0).bind ?_
  exact hwitnesses.bind (decodes_pure _)

theorem matches_feeReader :
    Matches (fun fee front => TxFront.fee front = fee) FastValidator.feeReader frontReader := by
  refine matches_u16.bind fun version _ hversion => ?_
  rw [← hversion]
  refine (matches_check _).bind fun _ _ _ => ?_
  refine matches_u32.bind fun _ _ _ => ?_
  refine matches_u32.bind fun _ _ _ => ?_
  refine matches_skip_u8.bind fun _ txType _ => ?_
  refine matches_u32.bind fun inputCount _ hinputs => ?_
  rw [← hinputs]
  refine (matches_skipInputs _).bind fun _ _ _ => ?_
  refine matches_u32.bind fun outputCount _ houtputs => ?_
  rw [← houtputs]
  refine (matches_skipOutputs _).bind fun _ _ _ => ?_
  have hfee : Matches (fun fee front => TxFront.fee front = fee) (u64 >>= fun fee => pure fee)
      (u64 >>= fun fee => pure (TxFront.mk txType inputCount outputCount fee)) :=
    matches_u64.bind fun _ _ hfee => matches_pure hfee.symm
  rwa [bind_pure] at hfee

theorem parse_parts {d : List UInt8} {v : TxView} (h : parse d = some v) :
    ∃ front c₁ back c₂, frontReader (Lib.Cursor.new d) = (some front, c₁) ∧
      backReader c₁ = (some back, c₂) ∧ v.fee = front.fee ∧ v.parsedLen = c₂.pos := by
  have hrun : reader (Lib.Cursor.new d) = (some v, (run d).2) := Prod.ext h rfl
  rw [reader_eq] at hrun
  rcases bind_eq_some.1 hrun with ⟨front, c₁, hfront, hrun⟩
  rcases bind_eq_some.1 hrun with ⟨back, c₂, hback, hrun⟩
  cases hrun
  exact ⟨front, c₁, back, _, hfront, hback, rfl, rfl⟩

theorem parse_of_parts {d : List UInt8} {front : TxFront} {c₁ c₂ : Lib.Cursor}
    {back : Hash × UInt64 × UInt64} (hfront : frontReader (Lib.Cursor.new d) = (some front, c₁))
    (hback : backReader c₁ = (some back, c₂)) :
    ∃ v, parse d = some v ∧ v.fee = front.fee ∧ v.parsedLen = c₂.pos := by
  rw [parse, run, reader_eq, bind_of_some hfront, bind_of_some hback]
  exact ⟨_, rfl, rfl, rfl⟩

/-- The front of a transaction, with zeros for the rest, is a transaction. -/
theorem parse_front_zeros {d : List UInt8} {front : TxFront} {c : Lib.Cursor}
    (h : frontReader (Lib.Cursor.new d) = (some front, c)) :
    ∃ v, parse (d.take c.pos ++ List.replicate 52 0) = some v ∧ v.fee = front.fee ∧
      v.parsedLen = (d.take c.pos).length + 52 := by
  have hpos : c.pos ≤ d.length := by
    have hsound := (framed_frontReader.sound_new d).1
    rwa [h] at hsound
  have hlen : (d.take c.pos).length = c.pos := List.length_take_of_le hpos
  have hfront := framed_frontReader.extend (Lib.Cursor.sound_new d) h
    (d.take c.pos ++ List.replicate 52 0) (List.prefix_append _ _)
  have hdrop : (c.within (d.take c.pos ++ List.replicate 52 0)).data.drop
      (c.within (d.take c.pos ++ List.replicate 52 0)).pos = List.replicate 52 0 ++ [] := by
    rw [Lib.Cursor.within_data, Lib.Cursor.within_pos, List.drop_left' hlen, List.append_nil]
  rcases decodes_backReader _ _ hdrop with ⟨c₂, hback, hend⟩
  rcases parse_of_parts hfront hback with ⟨v, hv, hfee, hparsed⟩
  refine ⟨v, hv, hfee, ?_⟩
  -- the cursor ends behind the last zero
  have hdata : c₂.data = d.take c.pos ++ List.replicate 52 0 := by
    have heq := framed_backReader.data_eq (c.within (d.take c.pos ++ List.replicate 52 0))
    rwa [hback] at heq
  have hsound : c₂.Sound := by
    have hstart := framed_frontReader.sound _ (Lib.Cursor.sound_new
      (d.take c.pos ++ List.replicate 52 0))
    have hmid := framed_backReader.sound _ hstart
    rw [show frontReader (Lib.Cursor.new (d.take c.pos ++ List.replicate 52 0)) = _ from hfront,
      hback] at hmid
    exact hmid
  have hle := hsound.pos_le
  have hge := List.drop_eq_nil_iff.1 hend
  rw [hdata, List.length_append, List.length_replicate] at hle hge
  rw [hparsed]
  exact Nat.le_antisymm hle hge

end TxView

namespace FastValidator

theorem checkMinFee_eq_true {d : List UInt8} {minFee : UInt64} :
    checkMinFee d minFee = true ↔
      ∃ front c, TxView.frontReader (Lib.Cursor.new d) = (some front, c) ∧ minFee ≤ front.fee := by
  constructor
  · intro h
    cases hfee : feeReader (Lib.Cursor.new d) with
    | mk result c =>
        cases result with
        | none => simp [checkMinFee, hfee] at h
        | some fee =>
            rcases TxView.matches_feeReader.some_left (SamePlace.refl _) hfee with
              ⟨front, c₂, hfront, heq, -⟩
            refine ⟨front, c₂, hfront, ?_⟩
            simpa [checkMinFee, hfee, heq] using h
  · rintro ⟨front, c, hfront, hle⟩
    rcases TxView.matches_feeReader.some_right (SamePlace.refl _) hfront with
      ⟨fee, c₁, hfee, rfl, -⟩
    simpa [checkMinFee, hfee] using hle

/-- On a transaction the fast check and the parser agree.  In general the check succeeds if and only
if the data begins with the front of a transaction, down to a fee that is high enough; whatever
comes behind the fee is not looked at. -/
theorem checkMinFee_iff (d : List UInt8) (minFee : UInt64) :
    (∀ v, TxView.parse d = some v → (checkMinFee d minFee = true ↔ minFee ≤ v.fee)) ∧
      (checkMinFee d minFee = true ↔
        ∃ h v, h <+: d ∧ TxView.parse (h ++ List.replicate 52 0) = some v ∧
          v.parsedLen = h.length + 52 ∧ minFee ≤ v.fee) := by
  refine ⟨fun v hv => ?_, ?_, ?_⟩
  · rcases TxView.parse_parts hv with ⟨front, c₁, -, -, hfront, -, hfee, -⟩
    rw [checkMinFee_eq_true, hfee]
    constructor
    · rintro ⟨front', c, hfront', hle⟩
      rw [hfront] at hfront'
      cases hfront'
      exact hle
    · intro hle
      exact ⟨front, c₁, hfront, hle⟩
  · intro hcheck
    rcases checkMinFee_eq_true.1 hcheck with ⟨front, c, hfront, hle⟩
    rcases TxView.parse_front_zeros hfront with ⟨v, hv, hfee, hparsed⟩
    exact ⟨d.take c.pos, v, List.take_prefix _ _, hv, hparsed, hfee ▸ hle⟩
  · rintro ⟨h, v, hprefix, hv, hparsed, hle⟩
    rcases TxView.parse_parts hv with ⟨front, c₁, back, c₂, hfront, hback, hfee, hpos⟩
    -- what the back needs is as long as the zeros, so the front ends inside `h`
    have hinside : c₁.pos ≤ h.length := by
      have hadvance := TxView.advances_backReader _ _ _ hback
      omega
    have htake : (h ++ List.replicate 52 0).take c₁.pos <+: d := by
      rw [List.take_append_of_le_length hinside]
      exact (List.take_prefix _ _).trans hprefix
    have hd := TxView.framed_frontReader.extend (Lib.Cursor.sound_new _) hfront d htake
    exact checkMinFee_eq_true.2 ⟨front, _, hd, hfee ▸ hle⟩

/-- A transaction that is cut off behind its fee passes the check, and it does not parse. -/
theorem checkMinFee_truncated :
    ¬ ∀ (d : List UInt8) (minFee : UInt64), checkMinFee d minFee = true ↔
      ∃ v, TxView.parse d = some v ∧ v.fee ≥ minFee := by
  intro hclaim
  have hcheck : checkMinFee (sampleFront 7) 5 = true := by decide +kernel
  have hnone : TxView.parse (sampleFront 7) = none := by decide +kernel
  rcases (hclaim (sampleFront 7) 5).1 hcheck with ⟨v, hv, -⟩
  rw [hnone] at hv
  cases hv

end FastValidator

end Core
end Aevum
