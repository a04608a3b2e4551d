/-
  Rindle.Storage.Codec — operator state in bytes (`rindle-sqlite/src/storage.rs`).

  A value is a version, a tag and its fields: words little-endian, lists and texts after a
  four-byte length, a row cell by cell. The decoder is the encoder's inverse: it accepts exactly
  what is written, so no strict prefix of it. What it does not do is fail on everything else: a
  row is built by `owned_row`, which panics when its layout outgrows 32 bits, though its bytes
  here are fewer (`Oversized`).
-/

import Rindle.Lib.Codec
import Rindle.Row.Buffer

set_option linter.dupNamespace false

namespace Rindle.Storage

open Codec (Reader Inverse NoPanic putLen putList)
open Framing (cat concat cat_eq_some)
open OwnedRow (BadText layoutSize fromOwnedCells)

structure ReduceAcc where
  intSum : BitVec 128
  floatSum : F64
  nonNull : Int64
  floatCount : Int64

inductive StorageValue where
  | take (size : UInt32) (bound : Option OwnedRow)
  | bound (row : OwnedRow)
  | cap (size : UInt32) (pks : List String)
  | reduce (count : Int64) (accs : List ReduceAcc)

def storageFormatVersion : UInt8 := 3

/-! ## Writing: the bytes appended, `none` a panic -/

def putU32 (n : UInt32) : Option (List UInt8) := some (leBytes 4 n.toBitVec.toNat)

def putI64 (n : Int64) : Option (List UInt8) := some (leBytes 8 n.toBitVec.toNat)

def putI128 (n : BitVec 128) : Option (List UInt8) := some (leBytes 16 n.toNat)

def putF64 (f : F64) : Option (List UInt8) := some (leBytes 8 f.toBits)

def putBytes (bytes : List UInt8) : Option (List UInt8) := cat (putLen bytes.length) (some bytes)

def putValue : Value → Option (List UInt8)
  | .absent => some [6]
  | .null => some [0]
  | .bool b => some [1, if b then 1 else 0]
  | .int i => cat (some [2]) (putI64 i)
  | .float f => cat (some [3]) (putF64 f)
  | .str s => cat (some [4]) (putBytes s)
  | .json s => cat (some [5]) (putBytes s)

def putRow (row : OwnedRow) : Option (List UInt8) := do
  let cells ← row.cells
  cat (putLen (← row.len)) (concat putValue cells)

def putAcc (acc : ReduceAcc) : Option (List UInt8) :=
  cat (putI128 acc.intSum) (cat (putF64 acc.floatSum) (cat (putI64 acc.nonNull) (putI64 acc.floatCount)))

def encodeStorageValue (value : StorageValue) : Option (List UInt8) :=
  cat (some [storageFormatVersion]) <|
    match value with
    | .take size bound => cat (some [1]) (cat (putU32 size) (match bound with
      | none => some [0]
      | some row => cat (some [1]) (putRow row)))
    | .bound row => cat (some [2]) (putRow row)
    | .cap size pks => cat (some [3]) (cat (putU32 size) (putList (fun pk => putBytes (Utf8.encode pk)) pks))
    | .reduce count accs => cat (some [4]) (cat (putI64 count) (putList putAcc accs))

/-! ## Reading -/

/-- The bytes not taken yet; an error is its message. -/
abbrev Decoder (α : Type) := Reader UInt8 String α

namespace Decoder

def take (len : Nat) : Decoder (List UInt8) := Codec.take "truncated storage codec value" len

def word (k : Nat) : Decoder (BitVec (8 * k)) := Codec.word "truncated storage codec value" k

def len : Decoder Nat := Codec.len "truncated storage codec value"

def finish : Decoder Unit := fun l => if l = [] then .ok ((), l) else .error "trailing storage codec bytes"

def u8 : Decoder UInt8 := do
  let w ← word 1
  pure (UInt8.ofBitVec w)

def u32 : Decoder UInt32 := do
  let w ← word 4
  pure (UInt32.ofBitVec w)

def i64 : Decoder Int64 := do
  let w ← word 8
  pure (Int64.ofBitVec w)

def i128 : Decoder (BitVec 128) := word 16

def f64 : Decoder F64 := do
  let w ← word 8
  pure (F64.ofBits w.toNat)

def bytes : Decoder (List UInt8) := do
  let n ← len
  take n

/-- `string`. -/
def string : Decoder String := do
  let b ← bytes
  Codec.okOr "storage codec string is not UTF-8" (Utf8.decode b)

def value : Decoder Value := do
  match ← u8 with
  | 0 => pure .null
  | 1 => do
    match ← u8 with
    | 0 => pure (.bool false)
    | 1 => pure (.bool true)
    | _ => Codec.fail "invalid bool tag"
  | 2 => do
    let i ← i64
    pure (.int i)
  | 3 => do
    let f ← f64
    pure (.float f)
  | 4 => do
    let s ← string
    pure (.str (Utf8.encode s))
  | 5 => do
    let s ← string
    pure (.json (Utf8.encode s))
  | 6 => pure .absent
  | _ => Codec.fail "invalid row value tag"

/-- The cells of a row; `owned_row` may panic on them. -/
def row : Decoder OwnedRow := do
  let values ← Codec.list "truncated storage codec value" value
  Codec.orPanic (fromOwnedCells values)

def acc : Decoder ReduceAcc := do
  let intSum ← i128
  let floatSum ← f64
  let nonNull ← i64
  let floatCount ← i64
  pure ⟨intSum, floatSum, nonNull, floatCount⟩

def bound : Decoder (Option OwnedRow) := do
  match ← u8 with
  | 0 => pure none
  | 1 => do
    let row ← row
    pure (some row)
  | _ => Codec.fail "invalid Take bound tag"

def storageValue : Decoder StorageValue := do
  match ← u8 with
  | 1 => do
    let size ← u32
    let bound ← bound
    pure (.take size bound)
  | 2 => do
    let row ← row
    pure (.bound row)
  | 3 => do
    let size ← u32
    let pks ← Codec.list "truncated storage codec value" string
    pure (.cap size pks)
  | 4 => do
    let count ← i64
    let accs ← Codec.list "truncated storage codec value" acc
    pure (.reduce count accs)
  | _ => Codec.fail "invalid storage value tag"

end Decoder

def unsupportedVersion (version : UInt8) : String :=
  "operator state format v" ++ toString version ++ " unsupported (engine expects v" ++ toString storageFormatVersion ++
    "); rebuild from source"

/-- The whole input: the version, the value, and nothing more. -/
def Decoder.versioned : Decoder StorageValue := do
  let version ← u8
  if version ≠ storageFormatVersion then Codec.fail (unsupportedVersion version)
  else
    let value ← storageValue
    finish
    pure value

def decodeStorageValue (bytes : List UInt8) : Outcome String StorageValue := do
  let (value, _) ← Decoder.versioned bytes
  pure value

end Rindle.Storage
