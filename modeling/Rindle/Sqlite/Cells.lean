/-
  Rindle.Sqlite.Cells — the value boundary of the SQLite leaf (`rindle-sqlite/src/query_builder.rs`,
  `sqlite.rs`, `table_source.rs`).

  A cell crosses it twice: bound as a parameter (`toSqliteParam`) and read from a row
  (`SqliteRow.col`). A column holds what its type allows (`Stored`): the leaf checks that a
  `number` column's integers survive the widening to f64 and that an `int` column holds
  integers only. SQLite keeps no NaN (it is bound as NULL) and no negative zero (a real without a
  fraction is stored as the integer).

  `Pictures k v x` says that the engine's cell `v` and SQLite's value `x` stand for one thing, and
  `cmp_eq_cmp` that two such pairs are ordered alike on both sides.

  A blob in a column, and text that is not UTF-8, are refused before a row is built and are left
  out. `f64::to_string` is a parameter.
-/

import Rindle.Row
import Rindle.Lib.Sql
import Rindle.Lib.Rounding
import Rindle.Lib.Decimal

set_option linter.dupNamespace false

namespace Rindle.Sqlite

open Sql

inductive ValueType where
  | string
  | number
  | boolean
  | null
  | json
  | int
  deriving DecidableEq

/-- A column; its name is its index. -/
structure ColumnDef where
  ty : ValueType
  optional : Bool

/-! ## Binding -/

def hexDigit (n : UInt8) : UInt8 := if n < 10 then 48 + n else 87 + n

/-- One byte of a JSON string. -/
def jsonEscape (b : UInt8) : List UInt8 :=
  if b = 34 then [92, 34]
  else if b = 92 then [92, 92]
  else if b = 10 then [92, 110]
  else if b = 13 then [92, 114]
  else if b = 9 then [92, 116]
  else if b < 32 then [92, 117, 48, 48, hexDigit (b / 16), hexDigit (b % 16)]
  else [b]

/-- `json_quote`. -/
def jsonQuote (s : List UInt8) : List UInt8 := 34 :: (s.flatMap jsonEscape ++ [34])

def jsonNull : List UInt8 := [110, 117, 108, 108]
def jsonTrue : List UInt8 := [116, 114, 117, 101]
def jsonFalse : List UInt8 := [102, 97, 108, 115, 101]

/-- `json_serialize`. -/
def jsonSerialize (display : F64 → List UInt8) : Value → List UInt8
  | .absent => jsonNull
  | .null => jsonNull
  | .bool b => if b then jsonTrue else jsonFalse
  | .int i => decimalInt i.toInt
  | .float f => display f
  | .json b => b
  | .str s => jsonQuote s

/-- `to_sqlite_param`. -/
@[grind] def toSqliteParam (display : F64 → List UInt8) (value : Value) : ValueType → SqlValue
  | .boolean =>
    match value with
    | .absent => .null
    | .null => .null
    | .bool b => .int (if b then 1 else 0)
    | .int i => .int (if i != 0 then 1 else 0)
    | .float f => .int (if !F64.feq f .zero then 1 else 0)
    | .str s => .int (if s.isEmpty then 0 else 1)
    | .json _ => .int 1
  | .json => .text (jsonSerialize display value)
  | _ =>
    match value with
    | .absent => .null
    | .null => .null
    | .bool b => .int (if b then 1 else 0)
    | .int i => .int i
    | .float f => .real f
    | .str b => .text b
    | .json b => .text b

/-! ## Reading -/

inductive ColType where
  | int
  | float
  | bool
  | text
  | json

/-- `col_type_of`. -/
def colTypeOf : ValueType → ColType
  | .boolean => .bool
  | .number => .float
  | .int => .int
  | .string => .text
  | .json => .json
  | .null => .text

/-- `SqliteRow::col`. -/
def readCell : ColType → SqlValue → Value
  | _, .null => .null
  | .bool, .int i => .bool (i != 0)
  | .int, .int i => .int i
  | .float, .real f => .float f
  | .float, .int i => .float (F64.ofInt i.toInt)
  | .text, .text b => .str b
  | .json, .text b => .json b
  | _, .text b => .str b
  | _, .int i => .int i
  | _, .real f => .float f

/-- `is_exact_f64_integer`; `i64::MAX as f64` is 2^63. -/
def isExactF64Integer (i : Int64) : Bool :=
  let widened := F64.ofInt i.toInt
  F64.lt widened .twoPow63 && widened.asI64 == i

/-- A value a column of this type holds. -/
@[grind] def Stored : ValueType → SqlValue → Bool
  | _, .null => true
  | .boolean, .int i => i == 0 || i == 1
  | .number, .int i => isExactF64Integer i
  | .int, .int _ => true
  | .number, .real f => !f.isNan && f != .negZero
  | .string, .text _ => true
  | .null, .text _ => true
  | .json, .text _ => true
  | _, _ => false

/-- A row a table with these columns holds: typed, and without NULL where it is not allowed. -/
def StoredRow (columns : List ColumnDef) (row : List SqlValue) : Prop :=
  List.Forall₂ (fun col x => Stored col.ty x = true ∧ (col.optional = false → x ≠ .null)) columns row

instance (columns : List ColumnDef) (row : List SqlValue) : Decidable (StoredRow columns row) :=
  inferInstanceAs (Decidable (List.Forall₂ _ _ _))

/-- The row as the leaf reads it. -/
def readRow (columns : List ColumnDef) (row : List SqlValue) : Row :=
  List.zipWith (fun col x => readCell (colTypeOf col.ty) x) columns row

/-- The value of a column of a stored row. -/
def storedCell (row : List SqlValue) (c : Nat) : SqlValue := row[c]?.getD .null

/-! ## One thing on both sides -/

def ValueType.kind : ValueType → Kind
  | .string => .str
  | .number => .number
  | .boolean => .bool
  | .null => .str
  | .json => .json
  | .int => .number

/-- The engine's cell `v` and SQLite's value `x` stand for one thing of kind `k`, not for null. -/
def Pictures : Kind → Value → SqlValue → Prop
  | .bool, v, x => ∃ b, v = .bool b ∧ x = .int (if b then 1 else 0)
  | .number, v, x => v.kind = some .number ∧ x.storageClass = 1 ∧ v.num = 2 * x.number
  | .str, v, x => ∃ b, v = .str b ∧ x = .text b
  | .json, v, x => ∃ b, v = .json b ∧ x = .text b

theorem Pictures.kind {k : Kind} {v : Value} {x : SqlValue} (h : Pictures k v x) : v.kind = some k := by
  cases k with
  | bool => obtain ⟨b, rfl, -⟩ := h; rfl
  | number => exact h.1
  | str => obtain ⟨b, rfl, -⟩ := h; rfl
  | json => obtain ⟨b, rfl, -⟩ := h; rfl

theorem Pictures.ne_null {k : Kind} {v : Value} {x : SqlValue} (h : Pictures k v x) : x ≠ .null := by
  cases k with
  | bool => obtain ⟨b, -, rfl⟩ := h; simp
  | number =>
    intro hx
    rw [hx] at h
    exact absurd h.2.1 (by decide)
  | str => obtain ⟨b, -, rfl⟩ := h; simp
  | json => obtain ⟨b, -, rfl⟩ := h; simp

theorem number_bytes {x : SqlValue} (h : x.storageClass = 1) : x.bytes = [] := by
  cases x <;> first | rfl | simp [SqlValue.storageClass] at h

theorem number_text {v : Value} (h : v.kind = some .number) : v.tag = 2 ∧ v.text = [] := by
  cases v <;> first | exact ⟨rfl, rfl⟩ | simp [Value.kind] at h

/-- Things of one kind are ordered alike on both sides. -/
theorem cmp_eq_cmp {k : Kind} {v w : Value} {x y : SqlValue} (hv : Pictures k v x) (hw : Pictures k w y) :
    SqlValue.cmp x y = Value.cmp v w := by
  cases k with
  | bool =>
    obtain ⟨a, rfl, rfl⟩ := hv
    obtain ⟨b, rfl, rfl⟩ := hw
    cases a <;> cases b <;> decide +kernel
  | number =>
    obtain ⟨hvk, hx, hvx⟩ := hv
    obtain ⟨hwk, hy, hwy⟩ := hw
    obtain ⟨hvt, hvb⟩ := number_text hvk
    obtain ⟨hwt, hwb⟩ := number_text hwk
    have hnum : compare x.number y.number = compare v.num w.num := F64.compare_congr (by omega) (by omega)
    simp only [SqlValue.cmp, Value.cmp, compareLex, compareOn, hx, hy, hvt, hwt, hvb, hwb, number_bytes hx, number_bytes hy, hnum,
      Std.ReflOrd.compare_self, Ordering.eq_then]
  | str =>
    obtain ⟨a, rfl, rfl⟩ := hv
    obtain ⟨b, rfl, rfl⟩ := hw
    rfl
  | json =>
    obtain ⟨a, rfl, rfl⟩ := hv
    obtain ⟨b, rfl, rfl⟩ := hw
    rfl

/-! ## The two crossings -/

theorem isExactF64Integer_scaled {i : Int64} (h : isExactF64Integer i = true) : (F64.ofInt i.toInt).scaled = i.toInt * F64.unit := by
  simp only [isExactF64Integer, Bool.and_eq_true, beq_iff_eq] at h
  exact F64.ofInt_exact h.1 h.2

/-- A stored value is read as what it stands for. -/
theorem readCell_pictures {ty : ValueType} {x : SqlValue} (hs : Stored ty x = true) (hx : x ≠ .null) :
    Pictures ty.kind (readCell (colTypeOf ty) x) x := by
  cases ty <;> cases x <;> first
    | exact absurd rfl hx
    | (simp only [Stored, Bool.false_eq_true] at hs; done)
    | skip
  case string.text b => exact ⟨b, rfl, rfl⟩
  case number.int i =>
    refine ⟨rfl, rfl, ?_⟩
    simp only [Stored] at hs
    show (F64.ofInt i.toInt).rank = 2 * (i.toInt * F64.unit)
    rw [F64.rank_eq (F64.ofInt_ne_negZero _), isExactF64Integer_scaled hs]
  case number.real f =>
    simp only [Stored, Bool.and_eq_true, bne_iff_ne] at hs
    exact ⟨rfl, rfl, F64.rank_eq hs.2⟩
  case boolean.int i =>
    simp only [Stored, Bool.or_eq_true, beq_iff_eq] at hs
    rcases hs with rfl | rfl
    · exact ⟨false, rfl, rfl⟩
    · exact ⟨true, rfl, rfl⟩
  case null.text b => exact ⟨b, rfl, rfl⟩
  case json.text b => exact ⟨b, rfl, rfl⟩
  case int.int i => exact ⟨rfl, rfl, rfl⟩

/-- A number SQLite can hold: no NaN, no negative zero. -/
@[grind] def Plain : Value → Bool
  | .float f => !f.isNan && f != .negZero
  | _ => true

/-- A cell of a column's kind is bound as what it stands for. -/
theorem toSqliteParam_pictures (display : F64 → List UInt8) {ty : ValueType} {v : Value} (hk : v.kind = some ty.kind)
    (hp : Plain v = true) : Pictures ty.kind v (toSqliteParam display v ty).bound := by
  have hreal : ∀ f, Plain (.float f) = true → SqlValue.bound (.real f) = .real f ∧ f ≠ .negZero := by
    intro f h
    simp only [Plain, Bool.and_eq_true, Bool.not_eq_true', bne_iff_ne] at h
    exact ⟨by simp [SqlValue.bound, h.1], h.2⟩
  cases ty <;> cases v <;> first
    | (cases hk; done)
    | skip
  case string.str b => exact ⟨b, rfl, rfl⟩
  case number.int i => exact ⟨rfl, rfl, rfl⟩
  case number.float f =>
    obtain ⟨hb, hz⟩ := hreal f hp
    show Pictures .number (.float f) (SqlValue.bound (.real f))
    rw [hb]
    exact ⟨rfl, rfl, F64.rank_eq hz⟩
  case boolean.bool b => exact ⟨b, rfl, rfl⟩
  case null.str b => exact ⟨b, rfl, rfl⟩
  case json.json b => exact ⟨b, rfl, rfl⟩
  case int.int i => exact ⟨rfl, rfl, rfl⟩
  case int.float f =>
    obtain ⟨hb, hz⟩ := hreal f hp
    show Pictures .number (.float f) (SqlValue.bound (.real f))
    rw [hb]
    exact ⟨rfl, rfl, F64.rank_eq hz⟩

/-! ## Stored rows -/

namespace StoredRow

variable {columns : List ColumnDef} {row : List SqlValue}

theorem cell (h : StoredRow columns row) {c : Nat} {col : ColumnDef} (hc : columns[c]? = some col) :
    Stored col.ty (storedCell row c) = true ∧ (col.optional = false → storedCell row c ≠ .null) ∧
      (readRow columns row).cell c = readCell (colTypeOf col.ty) (storedCell row c) := by
  induction h generalizing c with
  | nil => simp at hc
  | cons hx _ ih =>
    cases c with
    | zero =>
      simp only [List.getElem?_cons_zero, Option.some.injEq] at hc
      subst hc
      exact ⟨hx.1, hx.2, rfl⟩
    | succ c => exact ih (c := c) (by simpa using hc)

end StoredRow

end Rindle.Sqlite
