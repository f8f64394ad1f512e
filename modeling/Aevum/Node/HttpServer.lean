import Aevum.Node.Config
import Aevum.Node.MempoolEviction
import Aevum.Node.MempoolLog

/-!
# Node.HttpServer — `submit_tx` of `http_server.rs`

The gateway through which clients submit transactions.  Handlers run side by side: between the
checks of one request, its insertion and its answer the others go on, and so does whatever takes
transactions out of the mempool.  A `Gateway` keeps the handlers that have not answered yet; each
step is one access to the shared state.

* `run_mempool` : the mempool of a gateway is a mempool;
* `submitted_checked` : what it holds has passed the checks;
* `submitted_bounded` : how far concurrent requests can exceed the configured limit.

The formats are parameters: `hex` and `bincode` are third-party packages.
-/

namespace Aevum
namespace Node

open Lib Crypto Aevum.Core

/-! ## Requests and responses -/

/-- `serde_json::Value`, as far as a field of an object is read. -/
inductive Json
  | str (s : String)
  | object (fields : List (String × Json))
  | other

namespace Json

/-- `Value::get`; the keys of an object are distinct. -/
def get (key : String) : Json → Option Json
  | .object fields => (fields.find? fun field => field.1 = key).map (·.2)
  | _ => none

def asStr : Json → Option String
  | .str s => some s
  | _ => none

end Json

/-- The HTTP statuses that the handler answers with. -/
inductive Status
  | ok
  | badRequest
  | tooManyRequests
  deriving DecidableEq

/-- A status and the fields of a JSON object. -/
structure Response where
  status : Status
  body : List (String × String)
  deriving DecidableEq

def Response.error (status : Status) (text : String) : Response := ⟨status, [("error", text)]⟩

section Gateway

variable [ForeignTypes]

/-- `hex::decode`, `hex::encode` and `bincode::deserialize::<Transaction>`. -/
class Formats where
  hexDecode : String → Option (List UInt8)
  hexEncode : List UInt8 → String
  deserialize : List UInt8 → Option Transaction

section Handler

variable [Blake3] [Formats]

/-- `ok_or`. -/
def okOr {α : Type} (x : Option α) (r : Response) : Except Response α :=
  match x with
  | some a => .ok a
  | none => .error r

/-- `submit_tx` up to the insertion; the pool is looked at once. -/
def submitChecks (config : NodeConfig) (pool : MempoolInner) (body : Json) :
    Except Response Transaction := do
  let txHex ← okOr ((body.get "tx").bind Json.asStr) (.error .badRequest "missing_tx")
  let txBytes ← okOr (Formats.hexDecode txHex) (.error .badRequest "invalid_hex")
  let tx ← okOr (Formats.deserialize txBytes) (.error .badRequest "invalid_tx")
  failIf (tx.recomputeHash ≠ tx.txHash) (.error .badRequest "hash_mismatch")
  failIf (!tx.isCoinbase && !tx.isHeartbeat && tx.inputs.isEmpty) (.error .badRequest "no_inputs")
  failIf (pool.index.size > config.mempoolMaxTx) (.error .tooManyRequests "mempool_full")
  return tx

/-- The answer after the insertion. -/
def submitAnswer (tx : Transaction) (accepted : Bool) : Response :=
  if accepted then
    ⟨.ok, [("status", "accepted"), ("tx_hash", Formats.hexEncode tx.txHash.bytes)]⟩
  else
    ⟨.badRequest, [("status", "rejected"), ("tx_hash", Formats.hexEncode tx.txHash.bytes)]⟩

/-! ## The gateway -/

/-- A handler that has not answered yet. -/
inductive Handler
  | checked (tx : Transaction)
  | inserted (tx : Transaction) (accepted : Bool)

/-- The state that handlers share, and the handlers; `mempoolSize` is the metric. -/
structure Gateway where
  mempool : MempoolInner
  mempoolSize : UInt64
  handlers : List Handler

namespace Gateway

def new : Gateway := ⟨MempoolInner.new, 0, []⟩

/-- One access to the shared state. -/
inductive Event
  | refuse (body : Json) (response : Response)
  | check (body : Json) (tx : Transaction)
  | insert (tx : Transaction) (now : UInt64) (instant : ℕ) (accepted : Bool)
  | answer (tx : Transaction) (response : Response)
  | pool (e : MempoolInner.PoolEvent)

/-- The steps of a gateway.  A handler looks at the mempool, later inserts with the seconds `now`
in the place of the PoH tick, and later still notes the size of the mempool and answers.  Nobody
else inserts. -/
inductive Step (config : NodeConfig) (g : Gateway) : Event → Gateway → Prop
  | refuse (body : Json) (response : Response)
      (h : submitChecks config g.mempool body = .error response) :
      Step config g (.refuse body response) g
  | check (body : Json) (tx : Transaction) (h : submitChecks config g.mempool body = .ok tx) :
      Step config g (.check body tx) { g with handlers := g.handlers ++ [.checked tx] }
  | insert (tx : Transaction) (now : UInt64) (instant : ℕ) (before after : List Handler)
      (h : g.handlers = before ++ .checked tx :: after) :
      Step config g (.insert tx now instant (g.mempool.insert tx now instant).2)
        { g with
          mempool := (g.mempool.insert tx now instant).1
          handlers :=
            before ++ .inserted tx (g.mempool.insert tx now instant).2 :: after }
  | answer (tx : Transaction) (accepted : Bool) (before after : List Handler)
      (h : g.handlers = before ++ .inserted tx accepted :: after) :
      Step config g (.answer tx (submitAnswer tx accepted))
        { g with
          mempoolSize := UInt64.ofNat g.mempool.index.size
          handlers := before ++ after }
  | pool (e : MempoolInner.PoolEvent) (s' : MempoolInner)
      (hother : MempoolInner.insertedIn [e] = []) (h : MempoolInner.step g.mempool e s') :
      Step config g (.pool e) { g with mempool := s' }

/-- What the mempool sees of a run. -/
def poolEvents (tr : List Event) : List MempoolInner.PoolEvent :=
  tr.filterMap fun
    | .insert tx now instant accepted => some (.insert tx now instant accepted)
    | .pool e => some e
    | _ => none

/-! ## What a run keeps -/

/-- The checks that do not depend on the mempool. -/
structure Checked (tx : Transaction) : Prop where
  hash : tx.recomputeHash = tx.txHash
  inputs : tx.isCoinbase = true ∨ tx.isHeartbeat = true ∨ tx.inputs ≠ []

omit [ForeignTypes] [Blake3] [Formats] in
theorem okOr_eq_ok {α : Type} {x : Option α} {r : Response} {a : α} :
    okOr x r = .ok a ↔ x = some a := by
  cases x with
  | none => exact iff_of_false nofun nofun
  | some b => exact ⟨fun h => congrArg some (Except.ok.inj h), fun h => congrArg Except.ok
      (Option.some.inj h)⟩

/-- Which requests are let in. -/
theorem submitChecks_eq_ok {config : NodeConfig} {pool : MempoolInner} {body : Json}
    {tx : Transaction} :
    submitChecks config pool body = .ok tx ↔
      (∃ txHex txBytes, (body.get "tx").bind Json.asStr = some txHex ∧
        Formats.hexDecode txHex = some txBytes ∧ Formats.deserialize txBytes = some tx) ∧
      Checked tx ∧ pool.index.size ≤ config.mempoolMaxTx := by
  have hinputs : ¬ (!tx.isCoinbase && !tx.isHeartbeat && tx.inputs.isEmpty) = true ↔
      tx.isCoinbase = true ∨ tx.isHeartbeat = true ∨ tx.inputs ≠ [] := by
    cases tx.isCoinbase <;> cases tx.isHeartbeat <;> simp
  simp only [submitChecks, bind_eq_ok, okOr_eq_ok]
  constructor
  · rintro ⟨txHex, hget, txBytes, hhex, tx', hdecode, ⟨⟩, hhash, ⟨⟩, hnot, ⟨⟩, hroom, hreturn⟩
    cases hreturn
    exact ⟨⟨txHex, txBytes, hget, hhex, hdecode⟩,
      ⟨not_not.1 (failIf_eq_ok.1 hhash), hinputs.1 (failIf_eq_ok.1 hnot)⟩,
      not_lt.1 (failIf_eq_ok.1 hroom)⟩
  · rintro ⟨⟨txHex, txBytes, hget, hhex, hdecode⟩, hchecked, hroom⟩
    exact ⟨txHex, hget, txBytes, hhex, tx, hdecode, (), failIf_eq_ok.2 (not_not.2 hchecked.hash),
      (), failIf_eq_ok.2 (hinputs.2 hchecked.inputs), (), failIf_eq_ok.2 (not_lt.2 hroom), rfl⟩

end Gateway
end Handler

namespace Gateway

section Runs

variable [Blake3] [Formats] {config : NodeConfig} {tr : List Event} {g g' : Gateway} {e : Event}

omit [Blake3] [Formats] in
theorem poolEvents_append (tr tr' : List Event) :
    poolEvents (tr ++ tr') = poolEvents tr ++ poolEvents tr' :=
  List.filterMap_append

/-- The mempool of a gateway is a mempool. -/
theorem run_mempool (hrun : Run (Step config) new tr g) :
    Run MempoolInner.step MempoolInner.new (poolEvents tr) g.mempool := by
  refine RunWith.invariant
    (fun tr g => Run MempoolInner.step MempoolInner.new (poolEvents tr) g.mempool)
    RunWith.nil ?_ hrun
  intro tr g e g' _ ih hstep _
  rw [poolEvents_append]
  cases hstep with
  | refuse body response h =>
      rw [show poolEvents [Event.refuse body response] = [] from rfl, List.append_nil]
      exact ih
  | check body tx h =>
      rw [show poolEvents [Event.check body tx] = [] from rfl, List.append_nil]
      exact ih
  | insert tx now instant before after h => exact ih.snoc (MempoolInner.step_insert rfl)
  | answer tx accepted before after h =>
      rw [show poolEvents [Event.answer tx (submitAnswer tx accepted)] = [] from rfl,
        List.append_nil]
      exact ih
  | pool e s' hother h => exact ih.snoc h

/-- Whoever is about to insert, and whatever has been inserted, has passed the checks. -/
structure AllChecked (tr : List Event) (g : Gateway) : Prop where
  handlers : ∀ tx, .checked tx ∈ g.handlers → Checked tx
  inserted : ∀ tx ∈ MempoolInner.insertedIn (poolEvents tr), Checked tx

theorem AllChecked.step (h : AllChecked tr g) (hstep : Step config g e g') :
    AllChecked (tr ++ [e]) g' := by
  have hsame : MempoolInner.insertedIn (poolEvents [e]) = [] →
      ∀ tx ∈ MempoolInner.insertedIn (poolEvents (tr ++ [e])), Checked tx := by
    intro hnone tx htx
    rw [poolEvents_append, MempoolInner.insertedIn_append, hnone, List.append_nil] at htx
    exact h.inserted tx htx
  cases hstep with
  | refuse body response hrefuse => exact ⟨h.handlers, hsame rfl⟩
  | check body tx hcheck =>
      refine ⟨fun tx' htx' => ?_, hsame rfl⟩
      rcases List.mem_append.1 htx' with hold | hnew
      · exact h.handlers tx' hold
      · cases List.mem_singleton.1 hnew
        exact (submitChecks_eq_ok.1 hcheck).2.1
  | insert tx now instant before after hsplit =>
      have hchecked : Checked tx := by
        refine h.handlers tx ?_
        rw [hsplit]
        exact List.mem_append_right _ List.mem_cons_self
      refine ⟨fun tx' htx' => h.handlers tx' ?_, fun tx' htx' => ?_⟩
      · rw [hsplit]
        rcases List.mem_append.1 htx' with hbefore | hafter
        · exact List.mem_append_left _ hbefore
        · rcases List.mem_cons.1 hafter with heq | hafter
          · cases heq
          · exact List.mem_append_right _ (List.mem_cons_of_mem _ hafter)
      · rw [poolEvents_append, MempoolInner.insertedIn_append] at htx'
        rcases List.mem_append.1 htx' with hold | hnew
        · exact h.inserted tx' hold
        · cases List.mem_singleton.1 hnew
          exact hchecked
  | answer tx accepted before after hsplit =>
      refine ⟨fun tx' htx' => h.handlers tx' ?_, hsame rfl⟩
      rw [hsplit]
      rcases List.mem_append.1 htx' with hbefore | hafter
      · exact List.mem_append_left _ hbefore
      · exact List.mem_append_right _ (List.mem_cons_of_mem _ hafter)
  | pool e s' hother hpool => exact ⟨h.handlers, hsame hother⟩

theorem allChecked_run (hrun : Run (Step config) new tr g) : AllChecked tr g :=
  RunWith.invariant AllChecked ⟨fun _ htx => absurd htx List.not_mem_nil, nofun⟩
    (fun _ _ _ _ _ h hstep _ => h.step hstep) hrun

/-- However requests interleave, the mempool holds checked transactions only. -/
theorem submitted_checked (hrun : Run (Step config) new tr g) {k : Hash} {tx : Transaction}
    (htx : g.mempool.txStore.get? k = some tx) : tx.txHash = k ∧ Checked tx := by
  rcases MempoolInner.stored_run (run_mempool hrun) k tx htx with ⟨hmem, hk⟩
  exact ⟨hk, (allChecked_run hrun).inserted tx (MempoolInner.insertedIn_of_acceptedIn hmem)⟩

/-! ## How many transactions -/

/-- Handlers that have looked at the mempool and not inserted yet. -/
def pending (g : Gateway) : ℕ :=
  g.handlers.countP fun
    | .checked _ => true
    | .inserted _ _ => false

/-- Above the limit nobody is let in, so only those that are pending can still insert. -/
structure Bounded (limit width : ℕ) (g : Gateway) : Prop where
  pending_le : g.pending ≤ width
  size_le : limit < g.mempool.index.size → g.mempool.index.size + g.pending ≤ limit + width

theorem Bounded.step {width : ℕ} (h : Bounded config.mempoolMaxTx width g)
    (hkeys : MempoolInner.KeysAgree g.mempool) (hstep : Step config g e g')
    (hwidth : g'.pending ≤ width) : Bounded config.mempoolMaxTx width g' := by
  refine ⟨hwidth, fun hover => ?_⟩
  cases hstep with
  | refuse body response hrefuse => exact h.size_le hover
  | check body tx hcheck => exact absurd (submitChecks_eq_ok.1 hcheck).2.2 (not_le.2 hover)
  | insert tx now instant before after hsplit =>
      -- one handler less is pending, and there is one transaction more at most
      have hsize := MempoolInner.size_insert_le g.mempool tx now instant
      have hpending : g.pending = pending
          { g with
            mempool := (g.mempool.insert tx now instant).1
            handlers :=
              before ++ .inserted tx (g.mempool.insert tx now instant).2 :: after } + 1 := by
        simp only [pending, hsplit, List.countP_append, List.countP_cons_of_pos,
          List.countP_cons_of_neg, not_false_eq_true, Bool.false_eq_true]
        exact (Nat.add_assoc _ _ _).symm
      have hle := h.pending_le
      rw [hpending] at hle
      dsimp only at hover ⊢
      by_cases hbefore : config.mempoolMaxTx < g.mempool.index.size
      · have hbound := h.size_le hbefore
        omega
      · omega
  | answer tx accepted before after hsplit =>
      have hpending : g.pending = pending
          { g with
            mempoolSize := UInt64.ofNat g.mempool.index.size
            handlers := before ++ after } := by
        simp only [pending, hsplit, List.countP_append, List.countP_cons_of_neg,
          not_false_eq_true, Bool.false_eq_true]
      rw [← hpending]
      exact h.size_le hover
  | pool e s' hother hpool =>
      have hsize := MempoolInner.size_of_step hkeys hpool hother
      have hbound := h.size_le (hover.trans_le hsize)
      exact (Nat.add_le_add_right hsize _).trans hbound

/-- While at most `width` requests are between their checks and their insertion, the mempool holds
at most so many transactions more than configured. -/
theorem submitted_bounded {width : ℕ}
    (hrun : RunWith (Step config) (fun _ _ _ g' => g'.pending ≤ width) new tr g) :
    g.mempool.index.size ≤ min maxMempoolTx (config.mempoolMaxTx + width) := by
  have hfree : Run (Step config) new tr g := hrun.imp fun _ _ _ _ _ _ _ _ => trivial
  have hbounded : Bounded config.mempoolMaxTx width g := by
    refine RunWith.invariant_state (Bounded config.mempoolMaxTx width) ?_ ?_ hrun
    · exact ⟨Nat.zero_le _, fun hover => absurd hover (Nat.not_lt_zero _)⟩
    · intro tr g e g' hrun h hstep hwidth
      have hfree : Run (Step config) new tr g := hrun.imp fun _ _ _ _ _ _ _ _ => trivial
      exact h.step (MempoolInner.keysAgree_run (run_mempool hfree)) hstep hwidth
  have hcount := (MempoolInner.entries_run (run_mempool hfree)).count_le
  refine Nat.le_min.2 ⟨hcount, ?_⟩
  by_cases hover : config.mempoolMaxTx < g.mempool.index.size
  · exact (Nat.le_add_right _ _).trans (hbounded.size_le hover)
  · exact (not_lt.1 hover).trans (Nat.le_add_right _ _)

end Runs

end Gateway
end Gateway

/-! ## A gateway to evaluate -/

namespace Gateway

section Sample

attribute [local instance] polyBlake3 unitTypes

def sampleHexDigit (c : Char) : Option UInt8 :=
  if '0' ≤ c ∧ c ≤ '9' then some (c.toNat - '0'.toNat).toUInt8
  else if 'a' ≤ c ∧ c ≤ 'f' then some (c.toNat - 'a'.toNat + 10).toUInt8
  else if 'A' ≤ c ∧ c ≤ 'F' then some (c.toNat - 'A'.toNat + 10).toUInt8
  else none

def sampleHexBytes : List Char → Option (List UInt8)
  | [] => some []
  | [_] => none
  | high :: low :: rest => do
      let h ← sampleHexDigit high
      let l ← sampleHexDigit low
      return (16 * h + l) :: (← sampleHexBytes rest)

def sampleHexChars (b : UInt8) : List Char :=
  [(b.toNat / 16).digitChar, (b.toNat % 16).digitChar]

/-- A transaction without inputs and outputs. -/
def sampleBare (pohTick : UInt64) : Transaction :=
  { Transaction.newCoinbase [] pohTick chainIdMainnet with fee := 5 }.computeHash

/-- How `bincode` writes such a transaction. -/
def sampleSerialize (tx : Transaction) : List UInt8 :=
  (u32Bytes tx.version).bytes ++ (u32Bytes tx.chainId).bytes ++ (u32Bytes 1).bytes ++
    (u64Bytes 0).bytes ++ (u64Bytes 0).bytes ++ (u64Bytes tx.fee).bytes ++ tx.txHash.bytes ++
    (u64Bytes tx.pohTick).bytes ++ (u64Bytes tx.locktime).bytes ++ (u64Bytes 0).bytes

@[reducible] def sampleFormats : Formats :=
  { hexDecode := fun s => sampleHexBytes s.toList
    hexEncode := fun bs => String.ofList (bs.flatMap sampleHexChars)
    deserialize := fun bs => [sampleBare 1, sampleBare 2].find? fun tx => sampleSerialize tx = bs }

attribute [local instance] sampleFormats

def sampleBody (tx : Transaction) : Json :=
  .object [("tx", .str (Formats.hexEncode (sampleSerialize tx)))]

theorem sampleBody_decodes (n : UInt64) (h : n = 1 ∨ n = 2) :
    ∃ txHex txBytes, ((sampleBody (sampleBare n)).get "tx").bind Json.asStr = some txHex ∧
      Formats.hexDecode txHex = some txBytes ∧
        Formats.deserialize txBytes = some (sampleBare n) := by
  refine ⟨_, sampleSerialize (sampleBare n), rfl, ?_, ?_⟩
  · change sampleHexBytes (String.ofList _).toList = _
    rw [String.toList_ofList]
    rcases h with rfl | rfl <;> decide +kernel
  · have hne : sampleSerialize (sampleBare 1) ≠ sampleSerialize (sampleBare 2) := by
      decide +kernel
    rcases h with rfl | rfl
    · exact List.find?_cons_of_pos (decide_eq_true rfl)
    · exact (List.find?_cons_of_neg (by rw [decide_eq_true_iff]; exact hne)).trans
        (List.find?_cons_of_pos (decide_eq_true rfl))

/-- One transaction is enough for the pool. -/
def sampleLimit : NodeConfig := { NodeConfig.default with mempoolMaxTx := 1 }

/-- The gateway after one request has been answered. -/
def sampleAnswered (g : Gateway) (tx : Transaction) : Gateway :=
  { mempool := (g.mempool.insert tx 100 0).1
    mempoolSize := UInt64.ofNat (g.mempool.insert tx 100 0).1.index.size
    handlers := [] }

/-- One request after the other. -/
theorem sampleRun_answered {tr : List Event} {g : Gateway} (n : UInt64)
    (hrun : RunWith (Step sampleLimit) (fun _ _ _ g' => g'.pending ≤ 1) new tr g)
    (hidle : g.handlers = []) (hn : n = 1 ∨ n = 2)
    (hchecked : Checked (sampleBare n)) (hroom : g.mempool.index.size ≤ 1) :
    ∃ tr', RunWith (Step sampleLimit) (fun _ _ _ g' => g'.pending ≤ 1) new tr'
      (sampleAnswered g (sampleBare n)) := by
  have hadmit : submitChecks sampleLimit g.mempool (sampleBody (sampleBare n)) =
      .ok (sampleBare n) := submitChecks_eq_ok.2 ⟨sampleBody_decodes n hn, hchecked, hroom⟩
  have hcheck := hrun.snoc (.check _ _ hadmit) (by rw [hidle]; exact Nat.le_refl 1)
  have hinsert := hcheck.snoc (.insert _ 100 0 [] [] (by rw [hidle])) (Nat.zero_le 1)
  exact ⟨_, hinsert.snoc (.answer _ _ [] [] rfl) (Nat.zero_le 1)⟩

/-- The check lets one transaction more in than the limit says. -/
theorem submitted_bounded_sample :
    (sampleAnswered (sampleAnswered new (sampleBare 1)) (sampleBare 2)).mempool.index.size = 2 ∧
      2 ≤ min maxMempoolTx (sampleLimit.mempoolMaxTx + 1) := by
  rcases sampleRun_answered 1 .nil rfl (Or.inl rfl) ⟨rfl, Or.inl rfl⟩ (by decide) with
    ⟨tr, hrun⟩
  rcases sampleRun_answered 2 hrun rfl (Or.inr rfl) ⟨rfl, Or.inl rfl⟩ (by decide +kernel) with
    ⟨tr', hrun'⟩
  have hsize : (sampleAnswered (sampleAnswered new (sampleBare 1))
      (sampleBare 2)).mempool.index.size = 2 := by decide +kernel
  have hbounded := submitted_bounded hrun'
  rw [hsize] at hbounded
  exact ⟨hsize, hbounded⟩

theorem submitted_checked_sample : Checked (sampleBare 1) := by
  rcases sampleRun_answered 1 .nil rfl (Or.inl rfl) ⟨rfl, Or.inl rfl⟩ (by decide) with
    ⟨tr, hrun⟩
  have hfree : Run (Step sampleLimit) new tr (sampleAnswered new (sampleBare 1)) :=
    hrun.imp fun _ _ _ _ _ _ _ _ => trivial
  have hstored : (sampleAnswered new (sampleBare 1)).mempool.txStore.get?
      (sampleBare 1).txHash = some (sampleBare 1) := by
    have haccepted : (MempoolInner.new.insert (sampleBare 1) 100 0).2 = true := by decide +kernel
    rcases MempoolInner.insert_cases MempoolInner.new (sampleBare 1) 100 0 with
      ⟨st, heq⟩ | ⟨-, heq⟩
    · rw [heq] at haccepted
      cases haccepted
    · change (MempoolInner.new.insert (sampleBare 1) 100 0).1.txStore.get? _ = _
      rw [heq, MempoolInner.accept_txStore, FinMap.get?_insert_self]
  exact (submitted_checked hfree hstored).2

end Sample

end Gateway
end Node
end Aevum
