import Aevum.Core.Presence
import Aevum.Core.SettlementHistory

/-!
# Core.Ledger — `genesis.rs` and `ledger.rs`

The records of the ledger are the genesis block, presence records and settlement blocks.  Their
hashes are computed under three domains.

* `tip_fixes_genesis` : a settled tip fixes the genesis block that it was settled from;
* `hash_fixes_entry` : the hash of a checked record fixes its kind and what it says.
-/

namespace Aevum
namespace Core
namespace Ledger

open Lib Crypto

section Records

variable [ForeignTypes]

/-! ## Genesis -/

/-- `GenesisBlock` with all its fields. -/
structure GenesisBlock where
  version : UInt32
  chainId : UInt32
  height : UInt64
  timestamp : UInt64
  transactions : List Transaction
  stateRoot : Hash
  totalSupply : UInt64
  blockHash : Hash

namespace GenesisBlock

/-- What settlement blocks are linked to. -/
def link (g : GenesisBlock) : Core.GenesisBlock := ⟨g.chainId, g.blockHash⟩

/-- The bytes `compute_hash` feeds to the hasher. -/
def hashInput (g : GenesisBlock) : List UInt8 :=
  ascii "AEVUM_GENESIS_V1" ++ (u32Bytes g.version).bytes ++ (u32Bytes g.chainId).bytes ++
    (u64Bytes g.height).bytes ++ (u64Bytes g.timestamp).bytes ++
    g.transactions.flatMap (fun tx => tx.txHash.bytes) ++ g.stateRoot.bytes ++
    (u64Bytes g.totalSupply).bytes

def computeHash [Blake3] (g : GenesisBlock) : Hash := Blake3.digest g.hashInput

/-- `transactions.len() == 1 && transactions[0].is_coinbase()`. -/
def oneCoinbase (g : GenesisBlock) : Bool :=
  match g.transactions with
  | [tx] => tx.isCoinbase
  | _ => false

/-- `finalize(&mut self)`. -/
def finalize [Blake3] (g : GenesisBlock) (expectedChainId : UInt32) :
    Except String GenesisBlock := do
  failIf (g.height ≠ 0) "genesis height must be 0"
  failIf (g.chainId ≠ expectedChainId) "wrong chain_id"
  failIf (g.totalSupply = 0) "genesis supply is zero"
  failIf (!g.oneCoinbase) "genesis must have exactly one coinbase transaction"
  return { g with blockHash := g.computeHash }

def verifyInternal [Blake3] (g : GenesisBlock) (expectedChainId : UInt32) : Bool :=
  g.height = 0 ∧ g.chainId = expectedChainId ∧ g.totalSupply > 0 ∧ g.oneCoinbase ∧
    g.blockHash = g.computeHash

variable {g g' : GenesisBlock} {expectedChainId : UInt32}

/-- What is finalized verifies, and what verifies is left alone by `finalize`. -/
theorem finalize_eq_ok [Blake3] :
    g.finalize expectedChainId = .ok g' ↔
      g'.verifyInternal expectedChainId = true ∧ g' = { g with blockHash := g'.blockHash } := by
  simp only [finalize, failIf_bind_eq_ok, verifyInternal, decide_eq_true_iff]
  constructor
  · rintro ⟨hheight, hchain, hsupply, hcoinbase, h⟩
    cases h
    refine ⟨⟨not_not.1 hheight, not_not.1 hchain, ?_, ?_, rfl⟩, rfl⟩
    · exact UInt64.pos_iff_ne_zero.2 hsupply
    · rw [Bool.not_eq_true', Bool.not_eq_false] at hcoinbase
      exact hcoinbase
  · rintro ⟨⟨hheight, hchain, hsupply, hcoinbase, hhash⟩, heq⟩
    rcases (⟨_, heq⟩ : ∃ hash, g' = { g with blockHash := hash }) with ⟨hash, rfl⟩
    refine ⟨not_not.2 hheight, not_not.2 hchain, UInt64.pos_iff_ne_zero.1 hsupply, ?_, ?_⟩
    · rw [Bool.not_eq_true', Bool.not_eq_false]
      exact hcoinbase
    · exact congrArg (fun hash => Except.ok { g with blockHash := hash }) hhash.symm

/-- The hashes of the transactions. -/
def txHashes (g : GenesisBlock) : List Hash := g.transactions.map (·.txHash)

/-- Agreement in everything that is hashed. -/
structure SameContent (g g' : GenesisBlock) : Prop where
  version : g.version = g'.version
  chainId : g.chainId = g'.chainId
  height : g.height = g'.height
  timestamp : g.timestamp = g'.timestamp
  txHashes : g.txHashes = g'.txHashes
  stateRoot : g.stateRoot = g'.stateRoot
  totalSupply : g.totalSupply = g'.totalSupply

/-- The number of transactions is not hashed, but the length of the rest is fixed. -/
theorem hashInput_inj (h : g.hashInput = g'.hashInput) : SameContent g g' := by
  have hlists (g : GenesisBlock) : g.transactions.flatMap (fun tx => tx.txHash.bytes) ++
      g.stateRoot.bytes = (g.txHashes ++ [g.stateRoot]).flatMap ByteArr.bytes := by
    rw [txHashes, List.flatMap_append, List.flatMap_map, List.flatMap_singleton]
  simp only [hashInput, List.append_assoc] at h
  rcases ByteArr.append_inj (List.append_cancel_left h) with ⟨hversion, h⟩
  rcases ByteArr.append_inj h with ⟨hchain, h⟩
  rcases ByteArr.append_inj h with ⟨hheight, h⟩
  rcases ByteArr.append_inj h with ⟨htimestamp, h⟩
  rw [← List.append_assoc, ← List.append_assoc, hlists, hlists] at h
  rcases List.append_inj' h (by rw [ByteArr.length_eq, ByteArr.length_eq]) with ⟨h, hsupply⟩
  rcases List.append_inj' (ByteArr.flatMap_bytes_inj (by decide) h) rfl with ⟨htxs, hroot⟩
  exact
    { version := u32Bytes_inj hversion
      chainId := u32Bytes_inj hchain
      height := u64Bytes_inj hheight
      timestamp := u64Bytes_inj htimestamp
      txHashes := htxs
      stateRoot := List.singleton_inj.1 hroot
      totalSupply := u64Bytes_inj (ByteArr.ext hsupply) }

end GenesisBlock

/-! ## The genesis of a settled history -/

section Histories

variable [Blake3] [PublicKeys] [Signatures] {hist hist' : List SettlementBlock}
  {tip tip' : SettlementBlock} {F : Set (List UInt8)} {link link' : Core.GenesisBlock}

open SettlementBlock

omit [ForeignTypes] in
theorem eraseSignatures_tips (h : SettledTo link hist tip) (h' : SettledTo link' hist' tip')
    (hF : Set.InjOn Blake3.digest F) (hfed : ∀ b ∈ hist, ∀ bs ∈ b.fed, bs ∈ F)
    (hfed' : ∀ b ∈ hist', ∀ bs ∈ b.fed, bs ∈ F) (htip : tip.blockHash = tip'.blockHash) :
    tip.eraseSignatures = tip'.eraseSignatures :=
  eraseSignatures_eq_of_blockHash_eq hF (hfed tip (List.mem_of_getLast? h.getLast?_eq))
    (hfed' tip' (List.mem_of_getLast? h'.getLast?_eq)) h.verifyInternal h'.verifyInternal htip

omit [ForeignTypes] in
/-- From the tips backwards, as for one genesis block; histories of one length reach it
together. -/
theorem link_eq_of_settledTo (h : SettledTo link hist tip) (h' : SettledTo link' hist' tip')
    (hF : Set.InjOn Blake3.digest F) (hfed : ∀ b ∈ hist, ∀ bs ∈ b.fed, bs ∈ F)
    (hfed' : ∀ b ∈ hist', ∀ bs ∈ b.fed, bs ∈ F) (hlen : hist.length = hist'.length)
    (htip : tip.blockHash = tip'.blockHash) : link = link' := by
  induction h generalizing hist' tip' with
  | first hfull =>
      cases h' with
      | first hfull' =>
          have heq := eraseSignatures_tips (.first hfull) (.first hfull') hF hfed hfed' htip
          have hprevious := congrArg SettlementBlock.previousSettlementHash heq
          have hchains := congrArg SettlementBlock.chainId heq
          rcases decide_eq_true_iff.1 (verifyFull_first hfull).2 with ⟨-, -, hlink, hchain⟩
          rcases decide_eq_true_iff.1 (verifyFull_first hfull').2 with ⟨-, -, hlink', hchain'⟩
          exact congrArg₂ Core.GenesisBlock.mk (hchain.symm.trans (hchains.trans hchain'))
            (hlink.symm.trans (hprevious.trans hlink'))
      | next hprev' _ =>
          -- a longer history does not have the same length
          rcases hprev'.numbered_tip with ⟨i, hi, -⟩
          rw [List.length_append, hi, List.length_singleton, List.length_singleton] at hlen
          omega
  | next hprev hfull ih =>
      cases h' with
      | first _ =>
          rcases hprev.numbered_tip with ⟨i, hi, -⟩
          rw [List.length_append, hi, List.length_singleton, List.length_singleton] at hlen
          omega
      | next hprev' hfull' =>
          have heq := eraseSignatures_tips (.next hprev hfull) (.next hprev' hfull') hF hfed
            hfed' htip
          have hprevious := congrArg SettlementBlock.previousSettlementHash heq
          have hback := (decide_eq_true_iff.1 (verifyFull_next hfull).2).1
          have hback' := (decide_eq_true_iff.1 (verifyFull_next hfull').2).1
          rw [List.forall_mem_append] at hfed hfed'
          exact ih hprev' hfed.1 hfed'.1 (by simpa using hlen)
            (hback.symm.trans (hprevious.trans hback'))

variable {g g' : GenesisBlock} {c c' : UInt32}

/-- The hash of a settled tip fixes the whole ledger behind it, genesis included, but for the
signatures. -/
theorem tip_fixes_genesis (hg : g.verifyInternal c = true) (hg' : g'.verifyInternal c' = true)
    (h : SettledTo g.link hist tip) (h' : SettledTo g'.link hist' tip')
    (hF : Set.InjOn Blake3.digest
      ({g.hashInput, g'.hashInput} ∪ {bs | ∃ b ∈ hist ++ hist', bs ∈ b.fed}))
    (htip : tip.blockHash = tip'.blockHash) :
    GenesisBlock.SameContent g g' ∧ hist.map eraseSignatures = hist'.map eraseSignatures := by
  have hfed : ∀ b ∈ hist, ∀ bs ∈ b.fed, bs ∈ {g.hashInput, g'.hashInput} ∪
      {bs | ∃ b ∈ hist ++ hist', bs ∈ b.fed} :=
    fun b hb bs hbs => Or.inr ⟨b, List.mem_append_left _ hb, hbs⟩
  have hfed' : ∀ b ∈ hist', ∀ bs ∈ b.fed, bs ∈ {g.hashInput, g'.hashInput} ∪
      {bs | ∃ b ∈ hist ++ hist', bs ∈ b.fed} :=
    fun b hb bs hbs => Or.inr ⟨b, List.mem_append_right _ hb, hbs⟩
  have hlen : hist.length = hist'.length := by
    rcases h.numbered_tip with ⟨i, hi, hnum⟩
    rcases h'.numbered_tip with ⟨i', hi', hnum'⟩
    have hepoch := congrArg SettlementBlock.epochId (eraseSignatures_tips h h' hF hfed hfed' htip)
    have hnat : tip.epochId.toNat = tip'.epochId.toNat := congrArg UInt64.toNat hepoch
    rw [hnum.epochId, hnum'.epochId] at hnat
    rw [hi, hi', hnat]
  have hlink := link_eq_of_settledTo h h' hF hfed hfed' hlen htip
  refine ⟨GenesisBlock.hashInput_inj (hF (Or.inl (Or.inl rfl)) (Or.inl (Or.inr rfl)) ?_), ?_⟩
  · rcases decide_eq_true_iff.1 hg with ⟨-, -, -, -, hhash⟩
    rcases decide_eq_true_iff.1 hg' with ⟨-, -, -, -, hhash'⟩
    calc
      g.computeHash = g.blockHash := hhash.symm
      _ = g'.blockHash := congrArg Core.GenesisBlock.blockHash hlink
      _ = g'.computeHash := hhash'
  · rw [← hlink] at h'
    exact h.eraseSignatures_history h' hF hfed hfed' hlen htip

end Histories

/-! ## Records -/

inductive LedgerEntry
  | genesis (g : GenesisBlock)
  | presence (p : PresenceRecord)
  | settlement (s : SettlementBlock)

namespace LedgerEntry

def hash : LedgerEntry → Hash
  | .genesis g => g.blockHash
  | .presence p => p.recordHash
  | .settlement s => s.blockHash

section Hashes

variable [Blake3]

/-- Every byte string hashed for a record. -/
def fed : LedgerEntry → List (List UInt8)
  | .genesis g => [g.hashInput]
  | .presence p => [p.hashInput]
  | .settlement s => s.fed

/-- The record carries the hash that is computed from it. -/
def Checked : LedgerEntry → Prop
  | .genesis g => g.verifyInternal g.chainId = true
  | .presence p => p.verifyHashIntegrity = true
  | .settlement s => s.verifyInternal = true

/-- The bytes the hash of a record is computed from. -/
def preimage : LedgerEntry → List UInt8
  | .genesis g => g.hashInput
  | .presence p => p.hashInput
  | .settlement s => s.hashInput

/-- Records of one kind that say the same.  Of two presence records with one hash this is known if
they have equally many transactions. -/
def Agrees : LedgerEntry → LedgerEntry → Prop
  | .genesis g, .genesis g' => GenesisBlock.SameContent g g'
  | .presence p, .presence p' =>
      PresenceRecord.SameContent p p' ↔ p.transactions.length = p'.transactions.length
  | .settlement s, .settlement s' => s.eraseSignatures = s'.eraseSignatures
  | _, _ => False

variable {e e' : LedgerEntry}

theorem digest_preimage (h : e.Checked) : Blake3.digest e.preimage = e.hash := by
  cases e with
  | genesis g => exact (decide_eq_true_iff.1 h).2.2.2.2.symm
  | presence p => exact (beq_iff_eq.1 h).symm
  | settlement s => exact (SettlementBlock.verifyInternal_iff.1 h).1.symm

theorem preimage_mem_fed (e : LedgerEntry) : e.preimage ∈ e.fed := by
  cases e <;> exact List.mem_cons_self

/-- The tag that the preimage of a record starts with. -/
def domain : LedgerEntry → List UInt8
  | .genesis _ => ascii "AEVUM_GENESIS_V1"
  | .presence _ => ascii "AEVUM_PRESENCE_RECORD_V2"
  | .settlement _ => ascii "AEVUM_SETTLEMENT_V2"

omit [Blake3] in
theorem domain_isFront (e : LedgerEntry) : e.domain <+: e.preimage := by
  cases e with
  | genesis g =>
      simp only [preimage, GenesisBlock.hashInput, List.append_assoc]
      exact List.prefix_append _ _
  | presence p =>
      simp only [preimage, PresenceRecord.hashInput, List.append_assoc]
      exact List.prefix_append _ _
  | settlement s =>
      simp only [preimage, SettlementBlock.hashInput, List.append_assoc]
      exact List.prefix_append _ _

omit [Blake3] in
theorem not_separated (h : e.preimage = e'.preimage) : ¬ Separated e.domain e'.domain := by
  intro hsep
  have hfront : e'.domain <+: e.preimage := h ▸ domain_isFront e'
  rcases List.prefix_or_prefix_of_prefix (domain_isFront e) hfront with hle | hle
  · exact hsep.1 hle
  · exact hsep.2 hle

/-- The hash of a checked record says of which kind it is and what it says. -/
theorem hash_fixes_entry (h : e.Checked) (h' : e'.Checked)
    (hF : Set.InjOn Blake3.digest {bs | bs ∈ e.fed ∨ bs ∈ e'.fed}) (hhash : e.hash = e'.hash) :
    Agrees e e' := by
  have hinput : e.preimage = e'.preimage := by
    refine hF (Or.inl (preimage_mem_fed e)) (Or.inr (preimage_mem_fed e')) ?_
    rw [digest_preimage h, digest_preimage h', hhash]
  have hdomain := not_separated hinput
  have hgp : Separated (ascii "AEVUM_GENESIS_V1") (ascii "AEVUM_PRESENCE_RECORD_V2") := by decide
  have hgs : Separated (ascii "AEVUM_GENESIS_V1") (ascii "AEVUM_SETTLEMENT_V2") := by decide
  have hps : Separated (ascii "AEVUM_PRESENCE_RECORD_V2") (ascii "AEVUM_SETTLEMENT_V2") := by
    decide
  cases e with
  | genesis g =>
      cases e' with
      | genesis g' => exact GenesisBlock.hashInput_inj hinput
      | presence p' => exact absurd hgp hdomain
      | settlement s' => exact absurd hgs hdomain
  | presence p =>
      cases e' with
      | genesis g' => exact absurd (And.symm hgp) hdomain
      | presence p' => exact PresenceRecord.sameContent_iff_of_hashInput_eq hinput
      | settlement s' => exact absurd hps hdomain
  | settlement s =>
      cases e' with
      | genesis g' => exact absurd (And.symm hgs) hdomain
      | presence p' => exact absurd (And.symm hps) hdomain
      | settlement s' =>
          exact SettlementBlock.eraseSignatures_eq_of_blockHash_eq hF (fun _ => Or.inl)
            (fun _ => Or.inr) h h' hhash

end Hashes

end LedgerEntry

end Records

/-! ## Records to evaluate -/

section Sample

attribute [local instance] polyBlake3 anyKey anySignature unitTypes

/-- A genesis block with one coinbase transaction. -/
def sampleDraft : GenesisBlock :=
  { version := 1
    chainId := chainIdMainnet
    height := 0
    timestamp := 5
    transactions := [Transaction.newCoinbase [] 0 chainIdMainnet]
    stateRoot := ByteArr.fill 32 4
    totalSupply := 1000
    blockHash := Hash.zero }

def sampleGenesis : GenesisBlock :=
  (sampleDraft.finalize chainIdMainnet).toOption.get (by decide +kernel)

/-- Other transactions with the same hash are another genesis block with the same hash. -/
def sampleGenesis' : GenesisBlock :=
  { sampleGenesis with
    transactions := sampleGenesis.transactions.map fun tx => { tx with fee := 1 } }

theorem sampleGenesis_verifies : sampleGenesis.verifyInternal chainIdMainnet = true :=
  (GenesisBlock.finalize_eq_ok.1 (eq_ok_get _)).1

theorem sampleGenesis'_verifies : sampleGenesis'.verifyInternal chainIdMainnet = true := by
  decide +kernel

theorem hash_fixes_entry_sample :
    LedgerEntry.Agrees (.genesis sampleGenesis) (.genesis sampleGenesis') := by
  have h : (LedgerEntry.genesis sampleGenesis).Checked := sampleGenesis_verifies
  have h' : (LedgerEntry.genesis sampleGenesis').Checked := sampleGenesis'_verifies
  exact LedgerEntry.hash_fixes_entry h h' (injOn_or_of_nodup (by decide +kernel)) rfl

/-- The first epoch on top of the sample genesis block, and the second. -/
def sampleEpochs (s : UInt8) : SettlementBlock × SettlementBlock :=
  let b := SettlementBlock.sampleEpoch 0 1 sampleGenesis.blockHash s
  (b, SettlementBlock.sampleEpoch 1 2 b.blockHash s)

theorem settledTo_sample (s : UInt8) (h : s = 1 ∨ s = 2) :
    SettlementBlock.SettledTo sampleGenesis.link ([(sampleEpochs s).1] ++ [(sampleEpochs s).2])
      (sampleEpochs s).2 := by
  have hfirst : (sampleEpochs s).1.verifyFull none (some sampleGenesis.link)
      [ByteArr.fill 32 1] 1 = true := by
    rcases h with rfl | rfl <;> decide +kernel
  have hnext : (sampleEpochs s).2.verifyFull (some (sampleEpochs s).1) none
      [ByteArr.fill 32 1] 1 = true := by
    rcases h with rfl | rfl <;> decide +kernel
  exact (SettlementBlock.SettledTo.first hfirst).next hnext

theorem tip_fixes_genesis_sample :
    GenesisBlock.SameContent sampleGenesis sampleGenesis' ∧
      ([(sampleEpochs 1).1] ++ [(sampleEpochs 1).2]).map SettlementBlock.eraseSignatures =
        ([(sampleEpochs 2).1] ++ [(sampleEpochs 2).2]).map SettlementBlock.eraseSignatures := by
  have h := settledTo_sample 1 (Or.inl rfl)
  -- the two genesis blocks are linked to alike
  have h' : SettlementBlock.SettledTo sampleGenesis'.link
      ([(sampleEpochs 2).1] ++ [(sampleEpochs 2).2]) (sampleEpochs 2).2 :=
    settledTo_sample 2 (Or.inr rfl)
  have hF : Set.InjOn Blake3.digest
      {bs | bs ∈ sampleGenesis.hashInput :: sampleGenesis'.hashInput ::
        ([(sampleEpochs 1).1] ++ [(sampleEpochs 1).2] ++
          ([(sampleEpochs 2).1] ++ [(sampleEpochs 2).2])).flatMap SettlementBlock.fed} :=
    injOn_of_nodup (by decide +kernel)
  refine tip_fixes_genesis sampleGenesis_verifies sampleGenesis'_verifies h h' (hF.mono ?_)
    (by decide +kernel)
  rintro bs ((rfl | rfl) | ⟨b, hb, hbs⟩)
  · exact List.mem_cons_self
  · exact List.mem_cons_of_mem _ List.mem_cons_self
  · exact List.mem_cons_of_mem _ (List.mem_cons_of_mem _ (List.mem_flatMap.2 ⟨b, hb, hbs⟩))

end Sample

end Ledger
end Core
end Aevum
