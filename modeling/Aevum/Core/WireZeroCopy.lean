import Aevum.Crypto
import Aevum.Lib.Reader

/-!
# Core.WireZeroCopy — `wire_zero_copy.rs`

Views of blocks and transactions that are read from a byte string with a cursor.  Positions are
natural numbers: on a 64-bit target a position and a length of four bytes add up without overflow.
What a view says about the buffer it was made from, `raw`, is a byte string here.

* `TxView.parse_framed` : the boundaries of a transaction are in its own bytes: `parse` finds the
  same transaction whatever comes behind it, finds none in a part of it, and reads inside the
  buffer, whatever the buffer claims.
-/

namespace Aevum
namespace Core

open Lib Reader Crypto

def expectedWireVersion : UInt16 := 5

/-! ## The cursor -/

namespace Cursor

def u8 : Reader UInt8 := do
  let b ← read 1
  pure (b.bytes.head (List.ne_nil_of_length_pos (by rw [b.length_eq]; decide)))

def u16 : Reader UInt16 := do
  let b ← read 2
  pure (UInt16.ofNat (leNat b.bytes))

def u32 : Reader UInt32 := do
  let b ← read 4
  pure (UInt32.ofNat (leNat b.bytes))

def u64 : Reader UInt64 := do
  let b ← read 8
  pure (UInt64.ofNat (leNat b.bytes))

def hash : Reader Hash := read 32

def skipInputs (count : UInt32) : Reader Unit :=
  times count.toNat do
    skip (32 + 4 + 32)
    let sigLen ← u32
    skip sigLen.toNat
    skip (32 + 32 + 8)

def skipOutputs (count : UInt32) : Reader Unit :=
  times count.toNat do
    skip 8   -- amount
    skip 32  -- owner
    skip 32  -- amount_commitment
    skip 32  -- tag_commitment
    skip 32  -- nullifier
    skip 8   -- serial
    let zkLen ← u32
    skip zkLen.toNat
    skip 32  -- tx_hash
    skip 32  -- view_key_public
    skip 8   -- encrypted_amount
    skip 8   -- auth_tag
    skip 8   -- restriction_level
    skip 4   -- output_index

def skipWitnesses : Reader Unit := do
  let count ← u32
  times count.toNat do
    let len ← u32
    skip len.toNat

end Cursor

open Cursor

/-! ## Views -/

structure BlockView where
  height : UInt64
  pohStart : UInt64
  pohEnd : UInt64
  prevHash : Hash
  blockHash : Hash
  txCount : UInt32
  raw : List UInt8
  deriving DecidableEq

namespace BlockView

def reader (data : List UInt8) : Reader BlockView := do
  let version ← u16
  check (version = expectedWireVersion)
  let blockHash ← hash
  let prevHash ← hash
  let height ← u64
  let pohStart ← u64
  let pohEnd ← u64
  let _txRoot ← hash
  let txCount ← u32
  pure
    { height := height
      pohStart := pohStart
      pohEnd := pohEnd
      prevHash := prevHash
      blockHash := blockHash
      txCount := txCount
      raw := data }

def parse (data : List UInt8) : Option BlockView := (reader data (Lib.Cursor.new data)).1

end BlockView

structure TxView where
  txHash : Hash
  fee : UInt64
  pohTick : UInt64
  locktime : UInt64
  txType : UInt8
  inputCount : UInt32
  outputCount : UInt32
  parsedLen : Nat
  raw : List UInt8
  deriving DecidableEq

namespace TxView

def reader : Reader TxView := do
  let version ← u16
  check (version = expectedWireVersion)
  let _txVersion ← u32
  let _chainId ← u32
  let txType ← u8
  let inputCount ← u32
  skipInputs inputCount
  let outputCount ← u32
  skipOutputs outputCount
  let fee ← u64
  let txHash ← hash
  let pohTick ← u64
  let locktime ← u64
  skipWitnesses
  let parsedLen ← position
  -- `&data[..parsed_len]`
  let raw ← consumed
  pure
    { txHash := txHash
      fee := fee
      pohTick := pohTick
      locktime := locktime
      txType := txType
      inputCount := inputCount
      outputCount := outputCount
      parsedLen := parsedLen
      raw := raw }

/-- A run of `parse`, with the cursor in which it ends. -/
def run (data : List UInt8) : Option TxView × Lib.Cursor := reader (Lib.Cursor.new data)

def parse (data : List UInt8) : Option TxView := (run data).1

end TxView

/-! ## Framing -/

namespace Cursor

theorem framed_u8 : Framed u8 := (framed_read (by decide)).bind fun _ => framed_pure _

theorem framed_u16 : Framed u16 := (framed_read (by decide)).bind fun _ => framed_pure _

theorem framed_u32 : Framed u32 := (framed_read (by decide)).bind fun _ => framed_pure _

theorem framed_u64 : Framed u64 := (framed_read (by decide)).bind fun _ => framed_pure _

theorem framed_hash : Framed hash := framed_read (by decide)

theorem framed_skipInputs (count : UInt32) : Framed (skipInputs count) := by
  refine Framed.times ?_ _
  refine (framed_skip _).bind fun _ => ?_
  refine framed_u32.bind fun sigLen => ?_
  exact (framed_skip _).bind fun _ => framed_skip _

theorem framed_skipOutputs (count : UInt32) : Framed (skipOutputs count) := by
  have hskips : ∀ l : List Nat, ∀ {r : Reader Unit}, Framed r →
      Framed (l.foldr (fun n rest => skip n >>= fun _ => rest) r) := by
    intro l r hr
    induction l with
    | nil => exact hr
    | cons n l ih => exact (framed_skip n).bind fun _ => ih
  refine Framed.times (hskips [8, 32, 32, 32, 32, 8] ?_) _
  refine framed_u32.bind fun zkLen => ?_
  exact hskips [zkLen.toNat, 32, 32, 8, 8, 8] (framed_skip 4)

theorem framed_skipWitnesses : Framed skipWitnesses := by
  refine framed_u32.bind fun count => Framed.times ?_ _
  exact framed_u32.bind fun len => framed_skip _

end Cursor

/-! ## Decoding -/

namespace Cursor

theorem decodes_u16 (x : UInt16) : Decodes u16 (u16Bytes x).bytes x := by
  have hx : UInt16.ofNat (leNat (u16Bytes x).bytes) = x := by
    rw [u16Bytes, leNat_leBytes x.toNat_lt, UInt16.ofNat_toNat]
  have h := decodes_read_map (by decide) (fun b => UInt16.ofNat (leNat b.bytes)) (u16Bytes x)
  rwa [hx] at h

theorem decodes_u64 (x : UInt64) : Decodes u64 (u64Bytes x).bytes x := by
  have hx : UInt64.ofNat (leNat (u64Bytes x).bytes) = x := by
    rw [u64Bytes, leNat_leBytes x.toNat_lt, UInt64.ofNat_toNat]
  have h := decodes_read_map (by decide) (fun b => UInt64.ofNat (leNat b.bytes)) (u64Bytes x)
  rwa [hx] at h

theorem decodes_hash (x : Hash) : Decodes hash x.bytes x := decodes_read (by decide) x

/-- The low half of a length of eight bytes. -/
theorem decodes_u32 {n : Nat} (hn : n < 2 ^ 32) :
    Decodes u32 (lenBytes n).bytes (UInt32.ofNat n) := by
  have hx : UInt32.ofNat (leNat (lenBytes n).bytes) = UInt32.ofNat n := by
    rw [lenBytes, leNat_leBytes hn]
  have h := decodes_read_map (by decide) (fun b => UInt32.ofNat (leNat b.bytes)) (lenBytes n)
  rwa [hx] at h

end Cursor

namespace BlockView

/-- The bytes of a header with `n` transactions. -/
def headerBytes (v : BlockView) (txRoot : Hash) (n : Nat) : List UInt8 :=
  (u16Bytes expectedWireVersion).bytes ++ (v.blockHash.bytes ++ (v.prevHash.bytes ++
    ((u64Bytes v.height).bytes ++ ((u64Bytes v.pohStart).bytes ++ ((u64Bytes v.pohEnd).bytes ++
      (txRoot.bytes ++ (lenBytes n).bytes))))))

theorem decodes_reader (data : List UInt8) {v : BlockView} (txRoot : Hash) {n : Nat}
    (hn : n < 2 ^ 32) (hcount : v.txCount = UInt32.ofNat n) (hraw : v.raw = data) :
    Decodes (reader data) (v.headerBytes txRoot n) v := by
  refine (decodes_u16 expectedWireVersion).bind ?_
  refine (decodes_pure ()).bind ?_
  refine (decodes_hash v.blockHash).bind ?_
  refine (decodes_hash v.prevHash).bind ?_
  refine (decodes_u64 v.height).bind ?_
  refine (decodes_u64 v.pohStart).bind ?_
  refine (decodes_u64 v.pohEnd).bind ?_
  refine (decodes_hash txRoot).bind ?_
  rw [← List.append_nil (lenBytes n).bytes]
  refine (decodes_u32 hn).bind ?_
  rw [← hcount, ← hraw]
  exact decodes_pure v

theorem parse_eq_none {version : UInt16} (h : version ≠ expectedWireVersion) (rest : List UInt8) :
    parse ((u16Bytes version).bytes ++ rest) = none := by
  rcases (decodes_u16 version).new rest with ⟨c', hversion⟩
  rw [parse, reader, bind_of_some hversion]
  refine bind_of_none ?_
  rw [check, if_neg h]
  rfl

end BlockView

/-! ## The parser in two parts -/

/-- What the parser keeps of the part in front of the hash. -/
structure TxFront where
  txType : UInt8
  inputCount : UInt32
  outputCount : UInt32
  fee : UInt64

namespace TxView

/-- `parse` up to the fee. -/
def frontReader : Reader TxFront := do
  let version ← u16
  check (version = expectedWireVersion)
  let _ ← u32
  let _ ← u32
  let txType ← u8
  let inputCount ← u32
  skipInputs inputCount
  let outputCount ← u32
  skipOutputs outputCount
  let fee ← u64
  pure
    { txType := txType
      inputCount := inputCount
      outputCount := outputCount
      fee := fee }

/-- `parse` behind the fee. -/
def backReader : Reader (Hash × UInt64 × UInt64) := do
  let txHash ← hash
  let pohTick ← u64
  let locktime ← u64
  skipWitnesses
  pure (txHash, pohTick, locktime)

/-- The view that `parse` returns in the end. -/
def assemble (front : TxFront) (back : Hash × UInt64 × UInt64) : Reader TxView := do
  let parsedLen ← position
  let raw ← consumed
  pure
    { txHash := back.1
      fee := front.fee
      pohTick := back.2.1
      locktime := back.2.2
      txType := front.txType
      inputCount := front.inputCount
      outputCount := front.outputCount
      parsedLen := parsedLen
      raw := raw }

theorem reader_eq :
    reader = frontReader >>= fun front => backReader >>= fun back => assemble front back := by
  simp only [reader, frontReader, backReader, assemble, Reader.bind_assoc, Reader.pure_bind]

theorem framed_frontReader : Framed frontReader := by
  refine framed_u16.bind fun version => ?_
  refine (framed_check _).bind fun _ => ?_
  refine framed_u32.bind fun _ => ?_
  refine framed_u32.bind fun _ => ?_
  refine framed_u8.bind fun txType => ?_
  refine framed_u32.bind fun inputCount => ?_
  refine (framed_skipInputs _).bind fun _ => ?_
  refine framed_u32.bind fun outputCount => ?_
  refine (framed_skipOutputs _).bind fun _ => ?_
  exact framed_u64.bind fun fee => framed_pure _

theorem framed_backReader : Framed backReader := by
  refine framed_hash.bind fun txHash => ?_
  refine framed_u64.bind fun pohTick => ?_
  refine framed_u64.bind fun locktime => ?_
  exact framed_skipWitnesses.bind fun _ => framed_pure _

theorem framed_assemble (front : TxFront) (back : Hash × UInt64 × UInt64) :
    Framed (assemble front back) :=
  framed_position.bind fun _ => framed_consumed.bind fun _ => framed_pure _

theorem framed_reader : Framed reader := by
  rw [reader_eq]
  refine framed_frontReader.bind fun front => ?_
  exact framed_backReader.bind fun back => framed_assemble front back

/-- The last two steps note where the cursor is and what it has passed. -/
theorem yields_reader :
    Yields reader fun v c => v.parsedLen = c.pos ∧ v.raw = c.data.take c.pos := by
  rw [reader_eq]
  refine Yields.bind fun front => Yields.bind fun back => ?_
  intro c v c' h
  cases h
  exact ⟨rfl, rfl⟩

/-- Transactions delimit themselves: what `parse` reads lies in front of it and has the length that
it says, the same bytes with anything behind them give the same view, and a part of them gives none.
Whatever `d` claims, every access is inside `d`, and there are no more accesses than bytes. -/
theorem parse_framed (d : List UInt8) :
    (∀ v, parse d = some v →
      v.parsedLen ≤ d.length ∧ v.raw = d.take v.parsedLen ∧
        (∀ s, parse (v.raw ++ s) = some v) ∧
          ∀ p, p <+: v.raw → p ≠ v.raw → parse p = none) ∧
      (∀ access ∈ (run d).2.reads, access.1 < access.2 ∧ access.2 ≤ d.length) ∧
        (run d).2.reads.length ≤ d.length := by
  rcases framed_reader.sound_new d with ⟨hpos, hreads, hcount⟩
  refine ⟨fun v hv => ?_, hreads, hcount⟩
  have hrun : reader (Lib.Cursor.new d) = (some v, (run d).2) := Prod.ext hv rfl
  have hdata : (run d).2.data = d := framed_reader.data_eq (Lib.Cursor.new d)
  rcases yields_reader _ _ _ hrun with ⟨hlen, hraw⟩
  rw [hdata] at hraw
  refine ⟨hlen ▸ hpos, hlen ▸ hraw, fun s => ?_, fun p hp hne => ?_⟩
  · rw [hraw]
    exact framed_reader.append_new hrun s
  · rw [hraw] at hp hne
    exact framed_reader.short_new hrun hp hne

end TxView

end Core
end Aevum
