/-
  Rindle.Client.Compare — the client's comparator (`packages/client/src/compare.ts`).

  The client holds rows as JavaScript values: an integer and a float are one number, a text is
  its UTF-16 units, a missing cell is undefined. It compares numbers by a key made of their
  sixty-four bits and texts by the bytes of their UTF-8. What JavaScript makes of a cell of
  another type (`Coercions`) is left open.

  `client_orders_as_engine`: on the images of rows whose integers are safe, whose floats are no
  NaN and whose texts are Unicode, the client's order is the engine's, and a total preorder.
-/

import Mathlib.Data.Nat.Bitwise
import Rindle.Lib.Utf16
import Rindle.Lib.Rounding
import Rindle.Row.Buffer

set_option linter.dupNamespace false

namespace Rindle.Client

/-! ## The values of the client -/

/-- `WireValue`, and what a cell of a parsed row can be besides: undefined, or a parsed JSON
    object with the text that `JSON.stringify` gives. -/
inductive WireValue where
  | undefined
  | null
  | boolean (b : Bool)
  | number (f : F64)
  | string (units : List Nat)
  | object (json : List Nat)
  deriving DecidableEq

/-- What JavaScript makes of a value of another type, and Rust of bytes that are no text. -/
structure Coercions where
  toNumber : WireValue → F64
  toText : WireValue → List Nat
  stringify : WireValue → List Nat
  lossy : List UInt8 → String

namespace Coercions

variable (k : Coercions)

/-- `as number`. -/
def asNumber : WireValue → F64
  | .number f => f
  | v => k.toNumber v

/-- `as string`. -/
def asString : WireValue → List Nat
  | .string units => units
  | v => k.toText v

/-- `JSON.stringify`. -/
def json : WireValue → List Nat
  | .object text => text
  | v => k.stringify v

end Coercions

/-- `value_to_js`. -/
@[grind] def valueToJs (k : Coercions) : Value → WireValue
  | .absent => .undefined
  | .null => .null
  | .bool b => .boolean b
  | .int i => .number (F64.ofInt i.toInt)
  | .float f => .number f
  | .str b => .string (Collation.utf16 ((Utf8.decode b).getD (k.lossy b)))
  | .json b => .string (Collation.utf16 ((Utf8.decode b).getD (k.lossy b)))

def rowToJs (k : Coercions) (r : Row) : List WireValue := r.map (valueToJs k)

/-! ## The comparator -/

def SIGN : Nat := 0x8000000000000000
def ALL : Nat := 0xffffffffffffffff

/-- `orderedKey`. -/
def orderedKey (x : F64) : Nat :=
  let bits := x.toBits
  if bits &&& SIGN ≠ 0 then bits ^^^ ALL else bits ||| SIGN

def compareNumber (a b : F64) : Ordering :=
  let ka := orderedKey a
  let kb := orderedKey b
  if ka < kb then .lt else if ka > kb then .gt else .eq

/-- The loop of `compareString` over the bytes both have. -/
def compareBytes : List (UInt8 × UInt8) → Option Ordering
  | [] => none
  | (x, y) :: rest => if x ≠ y then some (if x < y then .lt else .gt) else compareBytes rest

def compareString (a b : List Nat) : Ordering :=
  let ba := Utf16.textEncode a
  let bb := Utf16.textEncode b
  match compareBytes (ba.zip bb) with
  | some o => o
  | none => if ba.length = bb.length then .eq else if ba.length < bb.length then .lt else .gt

def isNil : WireValue → Bool
  | .undefined => true
  | .null => true
  | _ => false

def compareValue (k : Coercions) (a b : WireValue) : Ordering :=
  let an := isNil a
  let bn := isNil b
  if an && bn then .eq
  else if an then .lt
  else if bn then .gt
  else
    match a with
    | .number x => compareNumber x (k.asNumber b)
    | .boolean x => if a = b then .eq else if x then .gt else .lt
    | .string x => compareString x (k.asString b)
    | _ => compareString (k.json a) (k.json b)

/-- A cell of a row; past its end, undefined. -/
def cellOf (r : List WireValue) (c : Nat) : WireValue := r[c]?.getD .undefined

def compareRows (k : Coercions) (a b : List WireValue) : SortSpec → Ordering
  | [] => .eq
  | (col, asc) :: sort =>
    let c := compareValue k (cellOf a col) (cellOf b col)
    if c ≠ .eq then if asc then c else c.swap else compareRows k a b sort

/-! ## Numbers -/

theorem mag_lt (f : F64) : f.mag < 2 ^ 63 := by
  have he := f.expo.isLt
  have hf := f.frac.isLt
  unfold F64.mag
  omega

theorem toBits_mag (f : F64) : f.toBits = (if f.sign then 2 ^ 63 else 0) + f.mag := Nat.add_assoc _ _ _

theorem and_sign (f : F64) : f.toBits &&& SIGN ≠ 0 ↔ f.sign = true := by
  have hmag := mag_lt f
  have hand : f.toBits &&& 2 ^ 63 = (f.toBits.testBit 63).toNat * 2 ^ 63 := Nat.and_two_pow _ _
  have hbit : f.toBits.testBit 63 = f.sign := by
    rw [Nat.testBit_eq_decide_div_mod_eq, toBits_mag]
    cases f.sign <;> simp <;> omega
  rw [show SIGN = 2 ^ 63 from rfl, hand, hbit]
  cases f.sign <;> simp

theorem xor_all {w : Nat} (h : w < 2 ^ 64) : w ^^^ ALL = 2 ^ 64 - 1 - w := by
  have hword : (BitVec.ofNat 64 w ^^^ BitVec.allOnes 64).toNat = (~~~ BitVec.ofNat 64 w).toNat := by
    rw [BitVec.xor_allOnes]
  rw [BitVec.toNat_xor, BitVec.toNat_not, BitVec.toNat_allOnes, BitVec.toNat_ofNat, Nat.mod_eq_of_lt h] at hword
  exact hword

/-- The key is the engine's, moved to the naturals. -/
theorem orderedKey_eq (f : F64) : (orderedKey f : Int) = f.totalKey + 2 ^ 63 := by
  have hmag := mag_lt f
  have hlt := f.toBits_lt
  unfold orderedKey F64.totalKey
  dsimp only
  by_cases hs : f.sign = true
  · rw [if_pos ((and_sign f).mpr hs), if_pos hs, xor_all hlt, toBits_mag, if_pos hs]
    omega
  · rw [if_neg (fun h => hs ((and_sign f).mp h)), if_neg hs, toBits_mag, if_neg hs, Nat.zero_add]
    have hor : 2 ^ 63 * 1 + f.mag = 2 ^ 63 * 1 ||| f.mag := Nat.two_pow_add_eq_or_of_lt hmag 1
    rw [Nat.mul_one] at hor
    rw [Nat.or_comm, show SIGN = 2 ^ 63 from rfl, ← hor]
    push_cast
    omega

theorem compareNumber_eq (a b : F64) : compareNumber a b = F64.totalCmp a b := by
  have ha := orderedKey_eq a
  have hb := orderedKey_eq b
  unfold compareNumber F64.totalCmp
  dsimp only
  by_cases hlt : orderedKey a < orderedKey b
  · rw [if_pos hlt]
    exact (Int.compare_eq_lt.mpr (by omega)).symm
  · rw [if_neg hlt]
    by_cases hgt : orderedKey a > orderedKey b
    · rw [if_pos hgt]
      exact (Int.compare_eq_gt.mpr (by omega)).symm
    · rw [if_neg hgt]
      exact (Int.compare_eq_eq.mpr (by omega)).symm

/-- A safe integer keeps its place among the doubles. -/
theorem rank_safe {i : Int64} (h : i.toInt.natAbs < 2 ^ 53) : (F64.ofInt i.toInt).rank = F64.intRank i := by
  rw [F64.rank_eq (F64.ofInt_ne_negZero _), F64.ofInt_safe h, F64.intRank]

/-! ## Texts -/

theorem compareBytes_eq (a : List UInt8) : ∀ b : List UInt8, (match compareBytes (a.zip b) with
    | some o => o
    | none => if a.length = b.length then .eq else if a.length < b.length then .lt else .gt) = compare a b := by
  induction a with
  | nil =>
    intro b
    cases b with
    | nil => rfl
    | cons y b => exact rfl
  | cons x a ih =>
    intro b
    cases b with
    | nil => exact rfl
    | cons y b =>
      rw [List.zip_cons_cons, compareBytes, Collation.compare_cons]
      by_cases hxy : x = y
      · subst hxy
        rw [if_neg (not_not_intro rfl), Std.ReflOrd.compare_self, Ordering.eq_then, ← ih b]
        simp only [List.length_cons, Nat.add_right_cancel_iff, Nat.add_lt_add_iff_right]
      · rw [if_pos hxy]
        dsimp only
        have hbyte := Collation.byte_compare x y
        have hne : x.toNat ≠ y.toNat := fun h => hxy (UInt8.toNat_inj.mp h)
        by_cases hlt : x < y
        · rw [if_pos hlt, hbyte, Nat.compare_eq_lt.mpr (UInt8.lt_iff_toNat_lt.mp hlt)]
          rfl
        · have hge : ¬ x.toNat < y.toNat := fun h => hlt (UInt8.lt_iff_toNat_lt.mpr h)
          rw [if_neg hlt, hbyte, Nat.compare_eq_gt.mpr (by omega)]
          rfl

/-- Unicode texts are compared by the bytes the engine has. -/
theorem compareString_text {a b : List UInt8} {s t : String} (ha : Utf8.decode a = some s) (hb : Utf8.decode b = some t) :
    compareString (Collation.utf16 s) (Collation.utf16 t) = compare a b := by
  unfold compareString
  dsimp only
  rw [compareBytes_eq, Utf16.textEncode_utf16, Utf16.textEncode_utf16, Utf8.encode_of_decode ha, Utf8.encode_of_decode hb]

/-! ## Cells -/

/-- A cell the client can hold exactly: null, a boolean, a safe integer, a float that is no NaN, a
    Unicode text. -/
@[grind] def Exact : Value → Bool
  | .null => true
  | .bool _ => true
  | .int i => decide (i.toInt.natAbs ≤ 2 ^ 53 - 1)
  | .float f => !f.isNan
  | .str b => Utf8.valid b
  | _ => false

/-- A number is one double on the client, at its place in the engine's order. -/
theorem number_image (k : Coercions) {v : Value} (hv : v.kind = some .number) (he : Exact v = true) :
    ∃ f : F64, valueToJs k v = .number f ∧ f.rank = v.num ∧ v.tag = 2 ∧ v.text = [] := by
  cases v <;> simp only [Value.kind, reduceCtorEq, Option.some.injEq] at hv
  case int i =>
    simp only [Exact, decide_eq_true_eq] at he
    exact ⟨_, rfl, rank_safe (by omega), rfl, rfl⟩
  case float f => exact ⟨f, rfl, rfl, rfl, rfl⟩

theorem text_image (k : Coercions) {v : Value} (hv : v.kind = some .str) (he : Exact v = true) :
    ∃ (b : List UInt8) (s : String), v = .str b ∧ Utf8.decode b = some s ∧ valueToJs k v = .string (Collation.utf16 s) := by
  cases v <;> simp only [Value.kind, reduceCtorEq, Option.some.injEq] at hv
  case str b =>
    obtain ⟨s, hs⟩ := Option.isSome_iff_exists.mp he
    exact ⟨b, s, rfl, hs, by rw [valueToJs, hs]; rfl⟩

theorem eq_null {v : Value} (hv : v.kind = none) (he : Exact v = true) : v = .null := by
  cases v <;> simp [Value.kind, Exact] at hv he ⊢

theorem present_image (k : Coercions) {v : Value} (hv : v.kind ≠ none) : isNil (valueToJs k v) = false ∧ v.tag = 2 := by
  cases v <;> simp [Value.kind, valueToJs, isNil, Value.tag] at hv ⊢

/-- Cells of one column are compared on the client as in the engine. -/
theorem compareValue_eq (k : Coercions) {kind : Kind} {a b : Value} (ha : a.fits kind = true) (hb : b.fits kind = true)
    (hea : Exact a = true) (heb : Exact b = true) : compareValue k (valueToJs k a) (valueToJs k b) = Value.cmp a b := by
  by_cases hna : a.kind = none
  · obtain rfl := eq_null hna hea
    by_cases hnb : b.kind = none
    · obtain rfl := eq_null hnb heb
      rfl
    · obtain ⟨hnil, htag⟩ := present_image k hnb
      have hnull : isNil (valueToJs k .null) = true := rfl
      simp only [compareValue, hnil, hnull, Value.cmp, compareLex, compareOn, htag]
      rfl
  obtain ⟨hnila, htaga⟩ := present_image k hna
  by_cases hnb : b.kind = none
  · obtain rfl := eq_null hnb heb
    have hnull : isNil (valueToJs k .null) = true := rfl
    simp only [compareValue, hnila, hnull, Value.cmp, compareLex, compareOn, htaga]
    rfl
  obtain ⟨hnilb, -⟩ := present_image k hnb
  -- two cells of the column's kind
  have hka : a.kind = some kind := by simpa [Value.fits, hna] using ha
  have hkb : b.kind = some kind := by simpa [Value.fits, hnb] using hb
  unfold compareValue
  simp only [hnila, hnilb, Bool.and_self, Bool.false_eq_true, if_false]
  cases kind with
  | bool =>
    cases a <;> simp only [Value.kind, reduceCtorEq, Option.some.injEq] at hka
    cases b <;> simp only [Value.kind, reduceCtorEq, Option.some.injEq] at hkb
    rename_i x y
    cases x <;> cases y <;> rfl
  | number =>
    obtain ⟨x, hx, hrx, hta, hxa⟩ := number_image k hka hea
    obtain ⟨y, hy, hry, htb, hxb⟩ := number_image k hkb heb
    rw [hx, hy]
    show compareNumber x y = _
    simp only [Value.cmp, compareLex, compareOn]
    rw [compareNumber_eq, F64.totalCmp_eq, hrx, hry, hta, htb, hxa, hxb]
    simp only [Std.ReflOrd.compare_self, Ordering.eq_then, Ordering.then_eq]
  | str =>
    obtain ⟨x, s, rfl, hs, hx⟩ := text_image k hka hea
    obtain ⟨y, t, rfl, ht, hy⟩ := text_image k hkb heb
    rw [hx, hy]
    show compareString (Collation.utf16 s) (Collation.utf16 t) = _
    rw [compareString_text hs ht]
    simp only [Value.cmp, compareLex, compareOn, Value.tag, Value.num, Value.text, Std.ReflOrd.compare_self, Ordering.eq_then]
  | json =>
    cases a <;> simp only [Value.kind, reduceCtorEq, Option.some.injEq] at hka
    simp only [Exact, Bool.false_eq_true] at hea

/-! ## Rows -/

theorem cellOf_image (k : Coercions) {r : Row} {c : Nat} (hc : c < r.length) : cellOf (rowToJs k r) c = valueToJs k (r.cell c) := by
  simp [cellOf, rowToJs, Row.cell, List.getElem?_eq_getElem hc]

/-- A row of these columns that the client can hold exactly. -/
structure ExactRow (kinds : List Kind) where
  row : Row
  fits : row.Fits kinds
  exact : ∀ v ∈ row, Exact v = true

namespace ExactRow

variable {kinds : List Kind}

theorem compareCell_eq (k : Coercions) (a b : ExactRow kinds) {c : Nat} (hc : c < kinds.length) :
    compareValue k (cellOf (rowToJs k a.row) c) (cellOf (rowToJs k b.row) c) = Value.cmp (a.row.cell c) (b.row.cell c) := by
  obtain ⟨hcella, hfita⟩ := a.fits.cell (List.getElem?_eq_getElem hc)
  obtain ⟨hcellb, hfitb⟩ := b.fits.cell (List.getElem?_eq_getElem hc)
  rw [cellOf_image k (List.getElem?_eq_some_iff.mp hcella).1, cellOf_image k (List.getElem?_eq_some_iff.mp hcellb).1]
  exact compareValue_eq k hfita hfitb (a.exact _ (List.mem_of_getElem? hcella)) (b.exact _ (List.mem_of_getElem? hcellb))

/-- The client's order of two rows is the total order that the engine's comparator is. -/
theorem compareRows_eq (k : Coercions) (a b : ExactRow kinds) {sort : SortSpec} (hs : sort.Within kinds) :
    compareRows k (rowToJs k a.row) (rowToJs k b.row) sort = rowCmp sort a.row b.row := by
  induction sort with
  | nil => rfl
  | cons p sort ih =>
    obtain ⟨c, asc⟩ := p
    have hdir := applyDir_cmp c asc a.row b.row
    rw [compareRows, a.compareCell_eq k b (hs (c, asc) List.mem_cons_self), rowCmp_cons, ← hdir,
      ih fun q hq => hs q (List.mem_cons_of_mem _ hq)]
    cases Value.cmp (a.row.cell c) (b.row.cell c) <;> cases asc <;> rfl

end ExactRow

/-- For every sort of a table: on the images of its rows the client's comparator gives the order that
    `compare_rows` gives, on the rows' cells and on the rows as they are stored, and it is a total
    preorder on them. -/
theorem client_orders_as_engine (k : Coercions) {kinds : List Kind} {sort : SortSpec} (hs : sort.Within kinds) :
    (∀ a b : ExactRow kinds,
      Rindle.compareRows sort a.row b.row = some (compareRows k (rowToJs k a.row) (rowToJs k b.row) sort) ∧
      ∀ x y : OwnedRow, OwnedRow.fromOwnedCells a.row = some x → OwnedRow.fromOwnedCells b.row = some y →
        OwnedRow.compareRows sort x y = some (compareRows k (rowToJs k a.row) (rowToJs k b.row) sort)) ∧
    (∀ a : ExactRow kinds, compareRows k (rowToJs k a.row) (rowToJs k a.row) sort = .eq) ∧
    (∀ a b : ExactRow kinds, compareRows k (rowToJs k b.row) (rowToJs k a.row) sort =
      (compareRows k (rowToJs k a.row) (rowToJs k b.row) sort).swap) ∧
    ∀ a b c : ExactRow kinds, compareRows k (rowToJs k a.row) (rowToJs k b.row) sort ≠ .gt →
      compareRows k (rowToJs k b.row) (rowToJs k c.row) sort ≠ .gt →
      compareRows k (rowToJs k a.row) (rowToJs k c.row) sort ≠ .gt := by
  refine ⟨?_, ?_, ?_, ?_⟩
  · intro a b
    have hrows : Rindle.compareRows sort a.row b.row = some (compareRows k (rowToJs k a.row) (rowToJs k b.row) sort) := by
      rw [a.compareRows_eq k b hs]
      exact Rindle.compareRows_eq hs a.fits b.fits
    refine ⟨hrows, ?_⟩
    intro x y hx hy
    rw [OwnedRow.compareRows_built hx hy, hrows]
  · intro a
    rw [a.compareRows_eq k a hs]
    exact Std.ReflCmp.compare_self
  · intro a b
    rw [a.compareRows_eq k b hs, b.compareRows_eq k a hs]
    exact Std.OrientedCmp.eq_swap
  · intro a b c hab hbc
    rw [a.compareRows_eq k b hs] at hab
    rw [b.compareRows_eq k c hs] at hbc
    rw [a.compareRows_eq k c hs]
    have hle : (rowCmp sort a.row c.row).isLE :=
      Std.TransCmp.isLE_trans (Ordering.isLE_iff_ne_gt.mpr hab) (Ordering.isLE_iff_ne_gt.mpr hbc)
    exact Ordering.isLE_iff_ne_gt.mp hle

/-- An integer beside a float, and U+1F600 beside U+FF5E, which UTF-16 orders the other way. -/
theorem client_orders_as_engine_mixed :
    Rindle.compareRows [(1, true), (0, false)] [.int 1, .str [0xF0, 0x9F, 0x98, 0x80]] [.float .negZero, .str [0xEF, 0xBD, 0x9E]] =
      some (compareRows ⟨fun _ => .nan, fun _ => [], fun _ => [], fun _ => ""⟩
        (rowToJs ⟨fun _ => .nan, fun _ => [], fun _ => [], fun _ => ""⟩ [.int 1, .str [0xF0, 0x9F, 0x98, 0x80]])
        (rowToJs ⟨fun _ => .nan, fun _ => [], fun _ => [], fun _ => ""⟩ [.float .negZero, .str [0xEF, 0xBD, 0x9E]])
        [(1, true), (0, false)]) ∧
    Rindle.compareRows [(1, true), (0, false)] [.int 1, .str [0xF0, 0x9F, 0x98, 0x80]] [.float .negZero, .str [0xEF, 0xBD, 0x9E]] =
      some .gt := by
  refine ⟨?_, by decide⟩
  have hsmile : Utf8.valid [0xF0, 0x9F, 0x98, 0x80] = true := Utf8.valid_iff.mpr ⟨"😀", by decide +kernel⟩
  have htilde : Utf8.valid [0xEF, 0xBD, 0x9E] = true := Utf8.valid_iff.mpr ⟨"～", by decide +kernel⟩
  have hall := @client_orders_as_engine ⟨fun _ => .nan, fun _ => [], fun _ => [], fun _ => ""⟩ [.number, .str]
    [(1, true), (0, false)] (by decide)
  refine (hall.1 ⟨_, by decide, ?_⟩ ⟨_, by decide, ?_⟩).1
  · simpa [Exact] using hsmile
  · simpa [Exact] using ⟨by decide, htilde⟩

end Rindle.Client
