import Aevum.Core.BlockRules

/-!
# Core.BlockNullifiers — double spends inside one block

`validate_internal` collects the nullifiers of standard transactions and leaves the loop body early
for heartbeats and coinbases.  So a block that it accepts can still spend a nullifier twice, but
only through an input of one of the latter:

* `NoDoubleSpend` : all nullifiers of the block are distinct and not zero;
* `noDoubleSpend_iff` : a valid block has this property exactly when the nullifiers of its
  heartbeats and coinbases are fresh beside those of its standard transactions.
-/

namespace Aevum
namespace Core

open Lib Crypto

/-! ## All nullifiers of a block -/

section Nullifiers

variable [ForeignTypes]

/-- The nullifiers of the inputs of all transactions. -/
def allNullifiers (txs : List Transaction) : List Hash :=
  txs.flatMap fun tx => tx.inputs.map (·.nullifier)

/-- Those that the loop passes over: the inputs of heartbeats and coinbases. -/
def exemptNullifiers (txs : List Transaction) : List Hash :=
  txs.flatMap fun tx =>
    if tx.txType = .standard then [] else tx.inputs.map (·.nullifier)

theorem allNullifiers_perm (txs : List Transaction) :
    (allNullifiers txs).Perm (standardNullifiers txs ++ exemptNullifiers txs) := by
  induction txs with
  | nil => exact List.Perm.refl []
  | cons tx rest ih =>
      rw [allNullifiers, standardNullifiers, exemptNullifiers, List.flatMap_cons,
        List.flatMap_cons, List.flatMap_cons]
      by_cases htype : tx.txType = .standard
      · rw [if_pos htype, if_pos htype, List.nil_append, List.append_assoc]
        exact ih.append_left _
      · -- the nullifiers of this transaction move behind the standard ones
        rw [if_neg htype, if_neg htype, List.nil_append]
        calc
          (tx.inputs.map (·.nullifier) ++ allNullifiers rest).Perm
              (tx.inputs.map (·.nullifier) ++
                (standardNullifiers rest ++ exemptNullifiers rest)) := ih.append_left _
          List.Perm _
              (standardNullifiers rest ++
                (tx.inputs.map (·.nullifier) ++ exemptNullifiers rest)) := by
            rw [← List.append_assoc, ← List.append_assoc]
            exact List.perm_append_comm.append_right _

end Nullifiers

namespace Block

section Rules

variable [ForeignTypes] [Blake3] {b : Block}

/-- No nullifier of the block is zero, and none occurs twice. -/
structure NoDoubleSpend (b : Block) : Prop where
  nodup : (allNullifiers b.transactions).Nodup
  ne_zero : ∀ n ∈ allNullifiers b.transactions, n ≠ Hash.zero

/-- A valid block spends no nullifier twice exactly when its heartbeats and coinbases do not. -/
theorem noDoubleSpend_iff (h : b.validateInternal = .ok ()) :
    b.NoDoubleSpend ↔
      Fresh (standardNullifiers b.transactions).toFinset (exemptNullifiers b.transactions) := by
  have hperm := allNullifiers_perm b.transactions
  have hvalid := validateInternal_eq_ok.1 h
  -- what the loop has checked; only the exempt nullifiers are left
  have hstandard : Fresh ∅ (standardNullifiers b.transactions) :=
    ⟨hvalid.nullifiers_nodup, hvalid.nullifiers_ne_zero, by simp⟩
  have hsplit : Fresh ∅ (standardNullifiers b.transactions ++ exemptNullifiers b.transactions) ↔
      Fresh (standardNullifiers b.transactions).toFinset (exemptNullifiers b.transactions) := by
    rw [fresh_append, Finset.empty_union]
    exact and_iff_right hstandard
  rw [← hsplit]
  constructor
  · intro hspend
    exact
      { nodup := hperm.nodup_iff.1 hspend.nodup
        ne_zero := fun n hn => hspend.ne_zero n (hperm.mem_iff.2 hn)
        notMem := by simp }
  · intro hfresh
    exact
      { nodup := hperm.nodup_iff.2 hfresh.nodup
        ne_zero := fun n hn => hfresh.ne_zero n (hperm.mem_iff.1 hn) }

end Rules

/-! ## Blocks to evaluate -/

section Sample

attribute [local instance] polyBlake3 unitTypes

/-- An input that spends the nullifier of one repeated byte. -/
def sampleInput (n : UInt8) : TxInput :=
  { txHash := ByteArr.fill 32 1
    outputIndex := 0
    nullifier := ByteArr.fill 32 n
    signature := []
    publicKey := sampleKey 1
    signedHash := Hash.zero
    nonce := 0 }

/-- A heartbeat, a coinbase with the given inputs and a standard transaction with two inputs. -/
def sampleBlock (coinbaseInputs : List TxInput) : Block :=
  Block.new (ByteArr.fill 32 7) 1 10 20
    [Transaction.newHeartbeat [] 2,
      { Transaction.newCoinbase [] 10 2 with inputs := coinbaseInputs }.computeHash,
      (Transaction.newRaw 1 2 [sampleInput 3, sampleInput 4] [] 5 15 0).computeHash]
    (ByteArr.fill 32 8) 100

theorem noDoubleSpend_sample : (sampleBlock [sampleInput 5]).NoDoubleSpend :=
  (noDoubleSpend_iff (by decide +kernel)).2
    ⟨by decide +kernel, by decide +kernel, by decide +kernel⟩

/-- The coinbase spends a nullifier of the standard transaction, and the block is accepted. -/
theorem not_noDoubleSpend :
    ¬ ∀ b : Block, b.validateInternal = .ok () → b.NoDoubleSpend := by
  intro h
  have hspend := h (sampleBlock [sampleInput 3]) (by decide +kernel)
  exact absurd hspend.nodup (by decide +kernel)

end Sample

end Block

end Core
end Aevum
