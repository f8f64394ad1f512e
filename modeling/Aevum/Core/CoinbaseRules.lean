import Aevum.Core.BlockCommitment
import Aevum.Core.BlockNullifiers
import Aevum.Core.Economics

/-!
# Core.CoinbaseRules — coinbases in blocks and in the state

What `create_coinbase` makes meets the rules of two other modules: a block needs one coinbase among
its transactions, and the state root needs nullifiers that are pairwise distinct.

* `coinbase_rejected` : the transaction is built by `new_raw`, so it is a standard one, and a block
  with it has no coinbase; with the same outputs in `new_coinbase` the block is accepted;
* `coexist_iff` : the nullifier of an output is made of its owner and its serial, so the two outputs
  differ in it exactly when the keys do.
-/

namespace Aevum
namespace Core

open Lib Crypto

section Rules

variable [ForeignTypes]

/-! ## The transaction that is made -/

namespace Economics

variable [Blake3] {miner dev : PublicKey} {height fees supply epoch : UInt64} {cb : Transaction}

/-- The fields that the block rules look at. -/
theorem fields_createCoinbase (h : createCoinbase miner height fees dev supply epoch = .ok cb) :
    cb.txType = .standard ∧ cb.inputs = [] ∧ cb.pohTick = epoch ∧ cb.locktime = height := by
  rw [createCoinbase_ok h]
  exact ⟨rfl, rfl, rfl, rfl⟩

/-- There is always something to pay: the fee is at least one satoshi. -/
theorem totalOutputs_pos (h : createCoinbase miner height fees dev supply epoch = .ok cb) :
    0 < totalOutputs cb := by
  have hfee := fee_total fees
  rw [totalOutputs_createCoinbase h]
  omega

theorem totalOutputs_lt (h : createCoinbase miner height fees dev supply epoch = .ok cb) :
    totalOutputs cb < 2 ^ 64 := by
  have hroom := room_of_createCoinbase h
  have hmax : maxSupply.toNat < 2 ^ 64 := by decide
  rw [totalOutputs_createCoinbase h]
  omega

omit [Blake3] in
/-- Below `2 ^ 64` the sum of the outputs does not wrap. -/
theorem toNat_outSum {tx : Transaction} (h : totalOutputs tx < 2 ^ 64) :
    tx.outSum.toNat = totalOutputs tx := by
  have hsum := UInt64.toNat_foldl_add (fun o : TxOutput => o.amount) tx.outputs 0
    (by simpa [totalOutputs] using h)
  rw [UInt64.toNat_zero, Nat.zero_add] at hsum
  exact hsum

/-- As a standard transaction the coinbase breaks no rule, if its tick is one of the block. -/
theorem standardOk_createCoinbase
    (h : createCoinbase miner height fees dev supply epoch = .ok cb) {b : Block}
    (hheight : b.height = height) (hpoh : b.pohTickStart ≤ cb.pohTick ∧ cb.pohTick ≤ b.pohTickEnd) :
    b.StandardOk cb := by
  rcases fields_createCoinbase h with ⟨-, -, -, hlocktime⟩
  refine ⟨hpoh, ?_, ?_⟩
  · rintro ⟨hzero, -⟩
    have hpos := totalOutputs_pos h
    rw [← toNat_outSum (totalOutputs_lt h), hzero, UInt64.toNat_zero] at hpos
    exact Nat.lt_irrefl 0 hpos
  · rintro ⟨-, hlocked⟩
    rw [hlocktime, hheight] at hlocked
    exact UInt64.lt_irrefl _ hlocked

end Economics

/-! ## Blocks with a coinbase in second place -/

namespace Block

/-- The rules for a block of a heartbeat, the transaction `cb` and the standard transactions `txs`,
apart from those that count the heartbeats and the coinbases. -/
structure RulesMet (b : Block) (cb : Transaction) (txs : List Transaction) : Prop where
  blockSize : b.blockSize ≤ maxBlockBytes
  count : b.transactions.length ≤ maxTransactions
  inPoH : b.pohTickStart ≤ cb.pohTick ∧ cb.pohTick ≤ b.pohTickEnd
  standard : ∀ tx ∈ txs, b.StandardOk tx
  fresh : Fresh ∅ (standardNullifiers txs)

variable {b : Block} {heartbeat cb : Transaction} {txs : List Transaction}

theorem countP_standard (htxs : ∀ tx ∈ txs, tx.txType = .standard) :
    txs.countP Transaction.isHeartbeat = 0 ∧ txs.countP Transaction.isCoinbase = 0 := by
  rw [List.countP_eq_zero, List.countP_eq_zero]
  constructor
  · intro tx htx
    simp [Transaction.isHeartbeat, htxs tx htx]
  · intro tx htx
    simp [Transaction.isCoinbase, htxs tx htx]

/-- The loop goes over such a block without an error. -/
theorem scannable_of_rules (hheartbeat : heartbeat.txType = .heartbeat)
    (hcb : cb.txType ≠ .heartbeat) (hinputs : cb.inputs = [])
    (hcbOk : cb.txType = .standard → b.StandardOk cb) (htxs : ∀ tx ∈ txs, tx.txType = .standard)
    (hrules : b.RulesMet cb txs) : Scannable b .start 0 (heartbeat :: cb :: txs) := by
  have hfirst : standardNullifiers (heartbeat :: cb :: txs) = standardNullifiers txs := by
    simp [standardNullifiers, hheartbeat, hinputs]
  refine
    { heartbeatFirst := ?_
      coinbase := ?_
      standard := ?_
      fresh := hfirst ▸ hrules.fresh }
  · intro p hp htype
    rw [List.zipIdx_cons, List.mem_cons] at hp
    rcases hp with rfl | hp
    · rfl
    -- everything behind the first place is something else
    · rcases List.mem_cons.1 (List.fst_mem_of_mem_zipIdx hp) with heq | hmem
      · exact (hcb (heq ▸ htype)).elim
      · rw [htxs _ hmem] at htype
        cases htype
  · have hone : [cb].countP Transaction.isCoinbase ≤ 1 := List.countP_le_length
    have hsplit : heartbeat :: cb :: txs = [heartbeat] ++ ([cb] ++ txs) := rfl
    have hzero : [heartbeat].countP Transaction.isCoinbase = 0 := by
      simp [Transaction.isCoinbase, hheartbeat]
    rw [hsplit, List.countP_append, List.countP_append, hzero, (countP_standard htxs).2]
    simpa [TxScan.start] using hone
  · refine List.forall_mem_cons.2 ⟨fun htype => ?_, List.forall_mem_cons.2 ⟨hcbOk, ?_⟩⟩
    · rw [hheartbeat] at htype
      cases htype
    · exact fun tx htx _ => hrules.standard tx htx

variable [Blake3]

/-- Another transaction of the same tick in second place: the candidate is built as before, and the
block meets the same rules. -/
theorem RulesMet.replace {candidate : BlockCandidate} {preview : StatePreview} {cb' : Transaction}
    (hblock : fromCandidate candidate preview = .ok b)
    (hcandidate : candidate.transactions = heartbeat :: cb :: txs)
    (htick : cb'.pohTick = cb.pohTick) (hrules : b.RulesMet cb txs) :
    ∃ b', fromCandidate { candidate with transactions := heartbeat :: cb' :: txs } preview =
      .ok b' ∧ b'.RulesMet cb' txs := by
  unfold fromCandidate at hblock
  split at hblock
  · cases hblock
  next hroot =>
  split at hblock
  · cases hblock
  next hsupply =>
  cases hblock
  -- the estimate and the count look at the number of transactions only
  have hlength : (heartbeat :: cb' :: txs).length = candidate.transactions.length := by
    rw [hcandidate]
    rfl
  refine ⟨_, by rw [fromCandidate, if_neg hroot, if_neg hsupply], ?_⟩
  exact
    { blockSize := (congrArg estimatedBlockSize hlength).le.trans hrules.blockSize
      count := hlength.le.trans hrules.count
      inPoH := htick ▸ hrules.inPoH
      standard := fun tx htx =>
        ⟨(hrules.standard tx htx).inPoH, (hrules.standard tx htx).value,
          (hrules.standard tx htx).unlocked⟩
      fresh := hrules.fresh }

/-- Where the rules are met, only the two counters are left to look at. -/
theorem validateInternal_eq_failIf (hhash : b.blockHash = b.computeHash)
    (hsize : b.blockSize ≤ maxBlockBytes) (hne : b.transactions ≠ [])
    (hcount : b.transactions.length ≤ maxTransactions) (hticks : b.pohTickStart ≤ b.pohTickEnd)
    (hroot : b.transactionsRoot = computeTransactionsRoot b.transactions)
    (hscan : Scannable b .start 0 b.transactions) :
    b.validateInternal =
      failIf (b.transactions.countP Transaction.isHeartbeat ≠ b.expectedHeartbeats ∨
          b.transactions.countP Transaction.isCoinbase ≠ 1)
        (.consensus ("hb=" ++ toString (b.transactions.countP Transaction.isHeartbeat) ++ " cb=" ++
          toString (b.transactions.countP Transaction.isCoinbase))) := by
  have hscanned : scanned .start b.transactions =
      ⟨b.transactions.countP Transaction.isHeartbeat,
        b.transactions.countP Transaction.isCoinbase,
        (standardNullifiers b.transactions).toFinset⟩ := by
    simp [scanned, TxScan.start]
  have hloop : b.scanTxs .start 0 b.transactions = .ok (scanned .start b.transactions) :=
    (scanTxs_eq_ok (Nat.le_refl 0) (Nat.zero_le 1)).2 ⟨hscan, rfl⟩
  have hempty : ¬ (b.transactions.isEmpty = true ∨ b.transactions.length > maxTransactions) := by
    rintro (hempty | hmany)
    · exact hne (List.isEmpty_iff.1 hempty)
    · exact Nat.not_lt.2 hcount hmany
  unfold validateInternal
  rw [failIf_eq_ok.2 (not_not.2 hhash), failIf_eq_ok.2 (Nat.not_lt.2 hsize),
    failIf_eq_ok.2 hempty, failIf_eq_ok.2 (UInt64.not_lt.2 hticks),
    failIf_eq_ok.2 (not_not.2 hroot), hloop, hscanned]
  rfl

/-- In a block that is built from a heartbeat, one more transaction and standard transactions, the
only question that the rules leave open is what that one transaction is. -/
theorem validateInternal_of_rules {candidate : BlockCandidate} {preview : StatePreview}
    (hblock : fromCandidate candidate preview = .ok b) (hheight : 0 < candidate.height)
    (hcandidate : candidate.transactions = heartbeat :: cb :: txs)
    (hheartbeat : heartbeat.txType = .heartbeat) (hcb : cb.txType ≠ .heartbeat)
    (hinputs : cb.inputs = []) (hcbOk : cb.txType = .standard → b.StandardOk cb)
    (htxs : ∀ tx ∈ txs, tx.txType = .standard) (hrules : b.RulesMet cb txs) :
    b.validateInternal =
      if cb.txType = .coinbase then .ok () else .error (.consensus "hb=1 cb=0") := by
  rcases fromCandidate_ok hblock with ⟨hhash, hroot, htransactions, hat⟩
  rw [hcandidate] at htransactions
  have hne : b.transactions ≠ [] := by
    rw [htransactions]
    exact List.cons_ne_nil _ _
  have hticks : b.pohTickStart ≤ b.pohTickEnd := UInt64.le_trans hrules.inPoH.1 hrules.inPoH.2
  have hscan : Scannable b .start 0 b.transactions := by
    rw [htransactions]
    exact scannable_of_rules hheartbeat hcb hinputs hcbOk htxs hrules
  have hexpected : b.expectedHeartbeats = 1 := by
    rw [expectedHeartbeats, if_neg]
    rw [isGenesis, decide_eq_true_iff, hat]
    rintro ⟨hzero, -⟩
    rw [hzero] at hheight
    exact UInt64.lt_irrefl 0 hheight
  have hheartbeats : b.transactions.countP Transaction.isHeartbeat = 1 := by
    rw [htransactions, List.countP_cons, List.countP_cons, (countP_standard htxs).1]
    simp [Transaction.isHeartbeat, hheartbeat, hcb]
  have hcoinbases : b.transactions.countP Transaction.isCoinbase =
      if cb.txType = .coinbase then 1 else 0 := by
    rw [htransactions, List.countP_cons, List.countP_cons, (countP_standard htxs).2]
    simp [Transaction.isCoinbase, hheartbeat]
  rw [validateInternal_eq_failIf hhash hrules.blockSize hne hrules.count hticks hroot hscan,
    hexpected, hheartbeats, hcoinbases]
  by_cases htype : cb.txType = .coinbase
  · rw [if_pos htype, if_pos htype]
    rfl
  · rw [if_neg htype, if_neg htype]
    rfl

end Block

namespace Economics

open Block

variable [Blake3] {miner dev : PublicKey} {height fees supply epoch : UInt64} {b : Block}
  {candidate : BlockCandidate} {preview : StatePreview} {heartbeat cb : Transaction}
  {txs : List Transaction}

/-- The constructor for coinbases would do: its transaction is accepted. -/
theorem newCoinbase_accepted {outputs : List TxOutput} (hblock : fromCandidate candidate preview =
      .ok b) (hheight : 0 < candidate.height)
    (hcandidate : candidate.transactions =
      heartbeat :: Transaction.newCoinbase outputs epoch 2 :: txs)
    (hheartbeat : heartbeat.txType = .heartbeat) (htxs : ∀ tx ∈ txs, tx.txType = .standard)
    (hrules : b.RulesMet (Transaction.newCoinbase outputs epoch 2) txs) :
    b.validateInternal = .ok () := by
  have htype : (Transaction.newCoinbase outputs epoch 2).txType = .coinbase := rfl
  rw [validateInternal_of_rules hblock hheight hcandidate hheartbeat nofun rfl nofun htxs hrules,
    if_pos htype]

/-- No block with a coinbase of `create_coinbase` is accepted, whatever else is in it, and with the
same outputs put through `new_coinbase` each of these blocks is. -/
theorem coinbase_rejected (hcb : createCoinbase miner height fees dev supply epoch = .ok cb)
    (hheight : 0 < height) (hblock : fromCandidate candidate preview = .ok b)
    (hat : candidate.height = height)
    (hcandidate : candidate.transactions = heartbeat :: cb :: txs)
    (hheartbeat : heartbeat.txType = .heartbeat) (htxs : ∀ tx ∈ txs, tx.txType = .standard)
    (hrules : b.RulesMet cb txs) :
    b.validateInternal = .error (.consensus "hb=1 cb=0") ∧
      ∃ b', fromCandidate { candidate with transactions :=
          heartbeat :: Transaction.newCoinbase cb.outputs epoch 2 :: txs } preview = .ok b' ∧
        b'.validateInternal = .ok () := by
  rcases fields_createCoinbase hcb with ⟨htype, hinputs, htick, -⟩
  have hat' : b.height = height := (fromCandidate_ok hblock).2.2.2.trans hat
  have hheight' : 0 < candidate.height := hat ▸ hheight
  constructor
  · have hok : cb.txType = .standard → b.StandardOk cb :=
      fun _ => standardOk_createCoinbase hcb hat' hrules.inPoH
    rw [validateInternal_of_rules hblock hheight' hcandidate hheartbeat (by simp [htype])
      hinputs hok htxs hrules, if_neg (by simp [htype])]
  · have hsame : (Transaction.newCoinbase cb.outputs epoch 2).pohTick = cb.pohTick := htick.symm
    rcases hrules.replace hblock hcandidate hsame with ⟨b', hb', hrules'⟩
    exact ⟨b', hb', newCoinbase_accepted hb' hheight' rfl hheartbeat htxs hrules'⟩

end Economics

end Rules

namespace Economics

section Sample

attribute [local instance] polyBlake3 unitTypes

/-- The coinbase of height 100 with fees of a million satoshis, which has two outputs. -/
def sampleCoinbase : Transaction :=
  (createCoinbase (sampleKey 1) 100 1000000 (sampleKey 2) 0 100).toOption.get (by decide +kernel)

theorem sampleCoinbase_ok :
    createCoinbase (sampleKey 1) 100 1000000 (sampleKey 2) 0 100 = .ok sampleCoinbase :=
  eq_ok_get _

def sampleTransfer : Transaction :=
  (Transaction.newRaw 1 2 [Block.sampleInput 3] [] 5 100 0).computeHash

def sampleCandidate : BlockCandidate :=
  { prevHash := ByteArr.fill 32 7
    height := 100
    pohTickStart := 90
    pohTickEnd := 110
    transactions := [Transaction.newHeartbeat [] 2, sampleCoinbase, sampleTransfer]
    isPresenceBlock := true
    settlementCheckpoint := none }

def samplePreview : StatePreview :=
  { stateRoot := ⟨ByteArr.fill 32 8⟩
    newTotalSupply := 1000 }

def sampleRewarded : Block :=
  (Block.fromCandidate sampleCandidate samplePreview).toOption.get (by decide +kernel)

theorem sampleRewarded_ok :
    Block.fromCandidate sampleCandidate samplePreview = .ok sampleRewarded :=
  eq_ok_get _

theorem sampleRewarded_rules : sampleRewarded.RulesMet sampleCoinbase [sampleTransfer] where
  blockSize := by decide +kernel
  count := by decide +kernel
  inPoH := by decide +kernel
  standard := by
    intro tx htx
    rw [List.mem_singleton.1 htx]
    exact ⟨by decide +kernel, by decide +kernel, by decide +kernel⟩
  fresh := ⟨by decide +kernel, by decide +kernel, by decide +kernel⟩

theorem coinbase_rejected_sample :
    sampleRewarded.validateInternal = .error (.consensus "hb=1 cb=0") ∧
      ∃ b', Block.fromCandidate
          { sampleCandidate with
            transactions := [Transaction.newHeartbeat [] 2,
              Transaction.newCoinbase sampleCoinbase.outputs 100 2, sampleTransfer] }
          samplePreview = .ok b' ∧
        b'.validateInternal = .ok () :=
  coinbase_rejected sampleCoinbase_ok (by decide) sampleRewarded_ok rfl rfl rfl
    (by decide +kernel) sampleRewarded_rules

/-- The block is built as it should be, and is not accepted. -/
theorem not_coinbase_accepted :
    ¬ ∀ (miner dev : PublicKey) (height fees supply epoch : UInt64) (b : Block)
      (candidate : BlockCandidate) (preview : StatePreview) (heartbeat cb : Transaction)
      (txs : List Transaction),
      createCoinbase miner height fees dev supply epoch = .ok cb → 0 < height →
      Block.fromCandidate candidate preview = .ok b → candidate.height = height →
      candidate.transactions = heartbeat :: cb :: txs → heartbeat.txType = .heartbeat →
      (∀ tx ∈ txs, tx.txType = .standard) → b.RulesMet cb txs →
      b.validateInternal = .ok () := by
  intro h
  have hok := h _ _ _ _ _ _ _ _ _ _ _ _ sampleCoinbase_ok (by decide) sampleRewarded_ok rfl rfl
    rfl (by decide +kernel) sampleRewarded_rules
  exact absurd hok (by decide +kernel)

end Sample

/-! ## The outputs in the state -/

/-- The bytes that `new_coinbase` feeds to the hasher for the nullifier; the index of the output is
not among them. -/
def nullifierBytes (owner : PublicKey) (serial : UInt64) : List UInt8 :=
  ascii "AEVUM_COINBASE_NULLIFIER_V1" ++ owner.toBytes.bytes ++ (u64Bytes serial).bytes

section Nullifiers

variable [ForeignTypes] [Blake3] {U : Type*} [JtUtxo U] {miner dev : PublicKey}
  {height fees supply epoch : UInt64} {cb : Transaction} {utxos : List U}

omit [ForeignTypes] [Blake3] in
theorem nullifierBytes_inj {owner owner' : PublicKey} {serial : UInt64}
    (h : nullifierBytes owner serial = nullifierBytes owner' serial) : owner = owner' := by
  simp only [nullifierBytes, List.append_assoc] at h
  have hbytes := (ByteArr.append_inj (List.append_cancel_left h)).1
  cases owner
  cases owner'
  cases hbytes
  rfl

omit [ForeignTypes] [Blake3] in
/-- The developer is paid from fees of ten thousand satoshis on. -/
theorem devShare_pos_iff (fees : UInt64) : (fee fees).2 > 0 ↔ ¬ fees < 10000 := by
  have hlimit : fees < 10000 ↔ fees.toNat < 10000 := UInt64.lt_iff_toNat_lt
  have hpos : (fee fees).2 > 0 ↔ 0 < (fee fees).2.toNat := UInt64.lt_iff_toNat_lt
  rw [hpos, hlimit, toNat_devShare]
  omega

theorem nullifiers_createCoinbase
    (h : createCoinbase miner height fees dev supply epoch = .ok cb) :
    cb.outputs.map (·.nullifier) =
      Blake3.digest (nullifierBytes miner epoch) ::
        if fees < 10000 then [] else [Blake3.digest (nullifierBytes dev epoch)] := by
  rw [outputs_createCoinbase h, List.map_cons]
  by_cases hfees : fees < 10000
  · rw [if_pos hfees, if_neg (mt (devShare_pos_iff fees).1 (not_not.2 hfees))]
    rfl
  · rw [if_neg hfees, if_pos ((devShare_pos_iff fees).2 hfees)]
    rfl

/-- The outputs of a transaction, known to the state as `utxos`, can be in one state. -/
structure Coexist (cb : Transaction) (utxos : List U) : Prop where
  nodup : (cb.outputs.map (·.nullifier)).Nodup
  stateRoot : ∀ (height supply : UInt64) (spent : List Hash) (dna oracle n : Hash),
    computeStateRoot height supply utxos spent dna oracle ≠ .error (.duplicateUtxoNullifier n)

omit [ForeignTypes] in
/-- Only a repeated nullifier is reported as one. -/
theorem computeStateRoot_ne_duplicate (h : (utxos.map JtUtxo.nullifier).Nodup)
    (height supply : UInt64) (spent : List Hash) (dna oracle n : Hash) :
    computeStateRoot height supply utxos spent dna oracle ≠ .error (.duplicateUtxoNullifier n) := by
  have hcheck : checkState supply utxos spent ≠ .error (.duplicateUtxoNullifier n) := by
    unfold checkState
    split
    · nofun
    split
    · nofun
    rw [firstDup_empty_eq_none.2 h]
    simp only
    split
    · nofun
    · nofun
  intro heq
  unfold computeStateRoot at heq
  split at heq
  · next e he =>
      cases heq
      exact hcheck he
  · cases heq

/-- The outputs of a coinbase can coexist exactly when they belong to different keys or there is
only one. -/
theorem coexist_iff (h : createCoinbase miner height fees dev supply epoch = .ok cb)
    (hdigest : Set.InjOn Blake3.digest
      {bs | bs ∈ [nullifierBytes miner epoch, nullifierBytes dev epoch]})
    (hutxos : utxos.map JtUtxo.nullifier = cb.outputs.map (·.nullifier)) :
    Coexist cb utxos ↔ miner ≠ dev ∨ fees < 10000 := by
  have hnodup : (cb.outputs.map (·.nullifier)).Nodup ↔ miner ≠ dev ∨ fees < 10000 := by
    rw [nullifiers_createCoinbase h]
    by_cases hfees : fees < 10000
    · simp [hfees]
    · rw [if_neg hfees, List.nodup_cons, List.mem_singleton]
      constructor
      · rintro ⟨hne, -⟩
        exact Or.inl fun heq => hne (heq ▸ rfl)
      · intro hor
        refine ⟨fun heq => ?_, List.nodup_singleton _⟩
        have hkeys := nullifierBytes_inj (hdigest (by simp) (by simp) heq)
        exact (hor.resolve_right hfees) hkeys
  constructor
  · intro hcoexist
    exact hnodup.1 hcoexist.nodup
  · intro hor
    have hdistinct := hnodup.2 hor
    exact ⟨hdistinct, computeStateRoot_ne_duplicate (hutxos ▸ hdistinct)⟩

end Nullifiers

section Sample

attribute [local instance] polyBlake3 unitTypes

/-- An output as the state knows it. -/
@[reducible] def outputUtxo : JtUtxo TxOutput where
  amount o := o.amount
  nullifier o := o.nullifier
  consensusBytes o := o.hashInput

attribute [local instance] outputUtxo

theorem coexist_iff_sample : Coexist sampleCoinbase sampleCoinbase.outputs :=
  (coexist_iff sampleCoinbase_ok (injOn_of_nodup (by decide +kernel)) rfl).2
    (Or.inl (by decide +kernel))

/-- The coinbase of a miner who is the developer, with fees of ten thousand satoshis. -/
def sampleOwnCoinbase : Transaction :=
  (createCoinbase (sampleKey 1) 100 10000 (sampleKey 1) 0 100).toOption.get (by decide +kernel)

/-- The two outputs have one nullifier, and their state root is refused. -/
theorem not_coexist :
    ¬ (sampleOwnCoinbase.outputs.map (·.nullifier)).Nodup ∧
      createCoinbase (sampleKey 1) 100 10000 (sampleKey 1) 0 100 = .ok sampleOwnCoinbase ∧
      Set.InjOn Blake3.digest
        {bs | bs ∈ [nullifierBytes (sampleKey 1) 100, nullifierBytes (sampleKey 1) 100]} ∧
      computeStateRoot 100 1000000000010 sampleOwnCoinbase.outputs [] Hash.zero Hash.zero =
        .error (.duplicateUtxoNullifier (Blake3.digest (nullifierBytes (sampleKey 1) 100))) := by
  have hcheck : checkState 1000000000010 sampleOwnCoinbase.outputs [] =
      .error (.duplicateUtxoNullifier (Blake3.digest (nullifierBytes (sampleKey 1) 100))) := by
    decide +kernel
  refine ⟨by decide +kernel, eq_ok_get _, injOn_of_nodup (by decide +kernel), ?_⟩
  rw [computeStateRoot, hcheck]

end Sample

end Economics

end Core
end Aevum
