/-
  Rindle.Optimistic.AggFilter — the client's filter of an aggregate
  (`packages/optimistic/src/agg-overlay.ts`) against the engine's row predicate.

  The client evaluates a condition on a row of wire cells, the engine on the row that crosses to it
  (`rust/src/wasm/marshal.rs`, `js_to_owned_value`). A condition is the one on the wire: an integer
  token is an i64 to the engine and the nearest double to JavaScript. A text is a sequence of
  characters, ordered by UTF-16 units in JavaScript and by UTF-8 bytes in the engine.

  `apart` says of a leaf when the two disagree (`leaf_exact`): on a null bound by `<=` or `>=`, on
  texts the two encodings order differently, and on numbers JavaScript takes for equal or for no
  number at all.
-/

import Rindle.Lib.Collation
import Rindle.Sqlite.FiltersExact

set_option linter.dupNamespace false

namespace Rindle.Optimistic

open Predicate

/-! ## Wire cells -/

/-- `WireValue`. -/
inductive WireValue where
  | null
  | bool (b : Bool)
  | number (f : F64)
  | string (s : String)

def WireValue.isNull : WireValue → Bool
  | .null => true
  | _ => false

/-- What a value position holds: a wire value, or what the cast to one lets through. -/
inductive Held where
  | wire (w : WireValue)
  | array (elems : List Lit)
  | undefined

/-- A literal, as JavaScript reads it from the wire. -/
@[grind] def held : Lit → Held
  | .null => .wire .null
  | .bool b => .wire (.bool b)
  | .int i => .wire (.number (F64.ofInt i.toInt))
  | .number f => .wire (.number f)
  | .str b => .wire (.string ((Utf8.decode b).getD ""))
  | .array elems => .array elems

/-- `js_to_owned_value`. -/
def jsToOwnedValue : WireValue → Value
  | .null => .null
  | .bool b => .bool b
  | .number f => .float f
  | .string s => .str (Utf8.encode s)

/-! ## The gate -/

/-- `SCALAR_OPS`. -/
def scalarOp : CondOp → Bool
  | .eq => true
  | .ne => true
  | .lt => true
  | .le => true
  | .gt => true
  | .ge => true
  | .is => true
  | .isNot => true
  | _ => false

def pos (childColumns : List String) : ValuePosition → Bool
  | .literal _ => true
  | .column name => childColumns.contains name

mutual

def isEvaluable (childColumns : List String) : Condition → Bool
  | .simple sc => scalarOp sc.op && pos childColumns sc.left && pos childColumns sc.right
  | .and conditions => allEvaluable childColumns conditions
  | .or conditions => allEvaluable childColumns conditions
  | .correlatedSubquery _ _ => false

def allEvaluable (childColumns : List String) : List Condition → Bool
  | [] => true
  | c :: conditions => isEvaluable childColumns c && allEvaluable childColumns conditions

end

/-! ## The evaluator -/

/-- `l === r`, on the scalars. -/
@[grind] def identical : WireValue → WireValue → Bool
  | .null, .null => true
  | .bool a, .bool b => a == b
  | .number a, .number b => F64.feq a b
  | .string s, .string t => s == t
  | _, _ => false

/-- `nullSafeEq`; no two literals are one array. -/
@[grind] def nullSafeEq : Held → Held → Bool
  | .wire l, .wire r => identical l r
  | .undefined, .undefined => true
  | _, _ => false

def Held.isNull : Held → Bool
  | .wire w => w.isNull
  | _ => false

/-- `x == null`. -/
@[grind] def Held.isNullish : Held → Bool
  | .wire .null => true
  | .undefined => true
  | _ => false

/-- `less`. -/
@[grind] def less : Held → Held → Bool
  | .wire (.number a), .wire (.number b) => F64.lt a b
  | .wire (.string s), .wire (.string t) => compare (Collation.utf16 s) (Collation.utf16 t) == .lt
  | .wire (.bool a), .wire (.bool b) => !a && b
  | _, _ => false

variable (op : CondOp)

@[grind] def evalSimple (l r : Held) : Bool :=
  match op with
  | .is => nullSafeEq l r
  | .isNot => !nullSafeEq l r
  | .eq => if l.isNullish || r.isNullish then false else nullSafeEq l r
  | .ne => if l.isNullish || r.isNullish then false else !nullSafeEq l r
  | .lt => less l r
  | .le => less l r || nullSafeEq l r
  | .gt => less r l
  | .ge => less r l || nullSafeEq l r
  | _ => false

section
variable (childColumns : List String) (row : List WireValue)

/-- `value`. -/
def valueOf : ValuePosition → Held
  | .literal value => held value
  | .column name =>
    match (childColumns.idxOf? name).bind (row[·]?) with
    | some w => .wire w
    | none => .undefined

mutual

def evalCondition : Condition → Bool
  | .simple sc => evalSimple sc.op (valueOf childColumns row sc.left) (valueOf childColumns row sc.right)
  | .and conditions => everyCondition conditions
  | .or conditions => someCondition conditions
  | .correlatedSubquery _ _ => false

def everyCondition : List Condition → Bool
  | [] => true
  | c :: conditions => evalCondition c && everyCondition conditions

def someCondition : List Condition → Bool
  | [] => false
  | c :: conditions => evalCondition c || someCondition conditions

end

end

/-! ## Types -/

/-- `ColType`; no exact integer crosses the wire. -/
inductive ColType where
  | string
  | number
  | boolean
  | json

def ColType.kind : ColType → Kind
  | .string => .str
  | .number => .number
  | .boolean => .bool
  | .json => .json

/-- A cell of a column; a json column's is its text. -/
def ColType.holds : ColType → WireValue → Bool
  | _, .null => true
  | .boolean, .bool _ => true
  | .number, .number _ => true
  | .string, .string _ => true
  | .json, .string _ => true
  | _, _ => false

/-- A literal that is a text is one, and one that is a number is a number. -/
def Lit.wellFormed : Lit → Bool
  | .str b => Utf8.valid b
  | .number f => !f.isNan
  | _ => true

def literalsWellFormed : ValuePosition → Bool
  | .literal value => Lit.wellFormed value
  | .column _ => true

/-- The literals of a leaf are well formed, and one compared with a column is of its type. -/
def WellTyped (childColumns : List String) (types : List ColType) (sc : SimpleCondition) : Prop :=
  literalsWellFormed sc.left = true ∧ literalsWellFormed sc.right = true ∧
    ∀ name right c ty, sc.left = .column name → sc.right = .literal right → childColumns.idxOf? name = some c →
      types[c]? = some ty → Sqlite.LitOf ty.kind right = true

/-- A row of the child table. -/
def ChildRow (types : List ColType) (row : List WireValue) : Prop := List.Forall₂ (fun ty w => ty.holds w = true) types row

instance (types : List ColType) (row : List WireValue) : Decidable (ChildRow types row) :=
  inferInstanceAs (Decidable (List.Forall₂ _ _ _))

/-! ## Where they disagree -/

/-- The operators that order. -/
def ordering : CondOp → Bool
  | .lt => true
  | .le => true
  | .gt => true
  | .ge => true
  | _ => false

/-- An operator, of the order of its sides. -/
@[grind] def test : CondOp → Ordering → Bool
  | .lt, o => o == .lt
  | .le, o => o != .gt
  | .gt, o => o == .gt
  | .ge, o => o != .lt
  | .ne, o => o != .eq
  | .isNot, o => o != .eq
  | _, o => o == .eq

/-- The place of a literal among the engine's numbers. -/
def litRank : Lit → Int
  | .int i => F64.intRank i
  | .number f => 2 * f.scaled
  | _ => 0

/-- The place of what stands on the left. -/
def leftRank (left : ValuePosition) (l : WireValue) : Int :=
  match left, l with
  | .literal value, _ => litRank value
  | .column _, .number f => f.rank
  | .column _, _ => 0

/-- Two numbers, and their places in the engine. A NaN is before or past every number there, by its
    sign; numbers JavaScript takes for equal need not be. -/
def numbersApart (a : F64) (ra : Int) (b : F64) (rb : Int) : Bool :=
  if a.isNan then ordering op && test op (if a.sign then .lt else .gt)
  else F64.feq a b && (test op .eq != test op (compare ra rb))

def cellsApart (l : WireValue) (ra : Int) (r : WireValue) (rb : Int) : Bool :=
  match l, r with
  | .null, .null => op == .le || op == .ge
  | .string s, .string t => ordering op && Collation.splits s.toList t.toList
  | .number a, .number b => numbersApart op a ra b rb
  | _, _ => false

def sidesApart (left : ValuePosition) (right : Lit) : Held → Held → Bool
  | .wire l, .wire r => cellsApart op l (leftRank left l) r (litRank right)
  | _, _ => false

/-- A leaf the two sides disagree on. -/
def apart (childColumns : List String) (row : List WireValue) (sc : SimpleCondition) : Bool :=
  match sc.right with
  | .column _ => false
  | .literal right => sidesApart sc.op sc.left right (valueOf childColumns row sc.left) (held right)

/-! ## A cell on both sides -/

/-- A wire cell and the engine's value for it, a number's apart from which. -/
inductive Stands : WireValue → Value → Prop
  | null : Stands .null .null
  | bool (b : Bool) : Stands (.bool b) (.bool b)
  | number {f : F64} {v : Value} (h : v.kind = some .number) : Stands (.number f) v
  | string (s : String) : Stands (.string s) (.str (Utf8.encode s))

/-- Two numbers, in JavaScript and as places in the engine. -/
structure Numeric (a : F64) (ra : Int) (b : F64) (rb : Int) : Prop where
  right : b.isNan = false
  nan : a.isNan = true → compare ra rb = if a.sign then .lt else .gt
  less : a.isNan = false → a.scaled < b.scaled → ra < rb
  greater : a.isNan = false → b.scaled < a.scaled → rb < ra

/-- The comparison of an operator. -/
@[grind] def cmpOpOf : CondOp → CmpOp
  | .ne => .ne
  | .lt => .lt
  | .le => .le
  | .gt => .gt
  | .ge => .ge
  | _ => .eq

/-- An operator on two values of the engine. -/
@[grind] def engineTest (v w : Value) : Bool :=
  match op with
  | .is => valuesIdentical v w
  | .isNot => !valuesIdentical v w
  | op => !v.isNull && !w.isNull && (cmpOpOf op).eval v w

section
variable {op : CondOp} {v w : Value}

theorem fits_number (h : v.kind = some .number) : v.fits .number = true := by
  simp [Value.fits, h]

theorem cmp_numbers (hv : v.kind = some .number) (hw : w.kind = some .number) : Value.cmp v w = compare v.num w.num := by
  obtain ⟨hvt, hvb⟩ := Sqlite.number_text hv
  obtain ⟨hwt, hwb⟩ := Sqlite.number_text hw
  simp only [Value.cmp, compareLex, compareOn, hvt, hwt, hvb, hwb, Std.ReflOrd.compare_self, Ordering.eq_then, Ordering.then_eq]

theorem engineTest_numbers (hop : scalarOp op = true) (hv : v.kind = some .number) (hw : w.kind = some .number) :
    engineTest op v w = test op (compare v.num w.num) := by
  have hident := Sqlite.valuesIdentical_eq (fits_number hv) (fits_number hw)
  have hcmp := comparePredicateValues_eq (fits_number hv) (fits_number hw)
  rw [cmp_numbers hv hw] at hident hcmp
  have hvn : v.isNull = false := by cases v <;> first | rfl | cases hv
  have hwn : w.isNull = false := by cases w <;> first | rfl | cases hw
  cases op <;> first
    | (cases hop; done)
    | simp [engineTest, cmpOpOf, CmpOp.eval, test, hident, hcmp, hvn, hwn, bne]

/-- JavaScript's own test of two numbers. -/
theorem evalSimple_numbers (hop : scalarOp op = true) {a b : F64} :
    evalSimple op (.wire (.number a)) (.wire (.number b)) =
      if F64.lt a b then test op .lt else if F64.lt b a then test op .gt
      else if F64.feq a b then test op .eq else op == .ne || op == .isNot := by
  have hlt : F64.lt a b = true → F64.lt b a = false ∧ F64.feq a b = false := by
    simp only [F64.lt, F64.feq, Bool.and_eq_true, decide_eq_true_eq]
    intro h
    simp [h.1.1, h.1.2]
    omega
  have hgt : F64.lt b a = true → F64.feq a b = false := by
    simp only [F64.lt, F64.feq, Bool.and_eq_true, decide_eq_true_eq]
    intro h
    simp [h.1.1, h.1.2]
    omega
  cases h₁ : F64.lt a b with
  | true =>
    obtain ⟨h₂, h₃⟩ := hlt h₁
    cases op <;> first | (cases hop; done) | simp [evalSimple, less, nullSafeEq, identical, Held.isNullish, test, h₁, h₂, h₃]
  | false =>
    cases h₂ : F64.lt b a with
    | true =>
      have h₃ := hgt h₂
      cases op <;> first | (cases hop; done) | simp [evalSimple, less, nullSafeEq, identical, Held.isNullish, test, h₁, h₂, h₃]
    | false =>
      cases h₃ : F64.feq a b <;> cases op <;> first
        | (cases hop; done)
        | simp [evalSimple, less, nullSafeEq, identical, Held.isNullish, test, h₁, h₂, h₃]

/-- Numbers are told apart alike, where they are not apart. -/
theorem numbers_exact (hop : scalarOp op = true) {a b : F64} (hv : v.kind = some .number) (hw : w.kind = some .number)
    (h : Numeric a v.num b w.num) : evalSimple op (.wire (.number a)) (.wire (.number b)) =
      (engineTest op v w ^^ numbersApart op a v.num b w.num) := by
  rw [evalSimple_numbers hop, engineTest_numbers hop hv hw, numbersApart]
  cases hnan : a.isNan with
  | true =>
    have hnot : F64.lt a b = false ∧ F64.lt b a = false ∧ F64.feq a b = false := by simp [F64.lt, F64.feq, hnan]
    rw [h.nan hnan, hnot.1, hnot.2.1, hnot.2.2]
    cases a.sign <;> cases op <;> first | (cases hop; done) | rfl
  | false =>
    have hlt : F64.lt a b = decide (a.scaled < b.scaled) := by simp [F64.lt, hnan, h.right]
    have hgt : F64.lt b a = decide (b.scaled < a.scaled) := by simp [F64.lt, hnan, h.right]
    have heq : F64.feq a b = decide (a.scaled = b.scaled) := by simp [F64.feq, hnan, h.right]
    rw [hlt, hgt, heq]
    rcases Int.lt_trichotomy a.scaled b.scaled with hc | hc | hc
    · rw [Int.compare_eq_lt.mpr (h.less hnan hc)]
      simp [hc, hc.ne]
    · simp only [hc, Int.lt_irrefl, decide_false, decide_true, Bool.false_eq_true, if_false, if_true, Bool.true_and]
      cases test op .eq <;> cases test op (compare v.num w.num) <;> rfl
    · rw [Int.compare_eq_gt.mpr (h.greater hnan hc)]
      simp [hc, hc.ne', hc.le]

theorem encode_inj {s t : String} : Utf8.encode s = Utf8.encode t ↔ s = t := by
  constructor
  · intro h
    exact Option.some.inj (by rw [← Utf8.decode_encode s, h, Utf8.decode_encode])
  · intro h
    rw [h]

theorem splits_ne {s t : String} (h : Collation.splits s.toList t.toList = true) : s ≠ t := by
  intro heq
  rw [heq] at h
  generalize t.toList = x at h
  induction x with
  | nil => cases h
  | cons c x ih =>
    rw [Collation.splits, if_pos rfl] at h
    exact ih h

theorem engineTest_texts (hop : scalarOp op = true) (x y : List UInt8) : engineTest op (.str x) (.str y) = test op (compare x y) := by
  have hident : (x == y) = (compare x y == .eq) := by
    rw [Bool.eq_iff_iff, beq_iff_eq, beq_iff_eq, Std.LawfulEqOrd.compare_eq_iff_eq]
  cases op <;> first
    | (cases hop; done)
    | simp [engineTest, cmpOpOf, CmpOp.eval, valuesIdentical, comparePredicateValues, Value.isNull, test, hident, bne]

theorem compare_utf16_eq (s t : String) : compare (Collation.utf16 s) (Collation.utf16 t) = .eq ↔ s = t := by
  rw [Collation.utf16_utf8, ← encode_inj, ← Std.LawfulEqOrd.compare_eq_iff_eq (α := List UInt8)]
  split
  · exact Ordering.swap_eq_eq
  · exact Iff.rfl

theorem evalSimple_texts (hop : scalarOp op = true) (s t : String) :
    evalSimple op (.wire (.string s)) (.wire (.string t)) = test op (compare (Collation.utf16 s) (Collation.utf16 t)) := by
  have hident : (s == t) = (compare (Collation.utf16 s) (Collation.utf16 t) == .eq) := by
    rw [Bool.eq_iff_iff, beq_iff_eq, beq_iff_eq, compare_utf16_eq]
  have hswap : compare (Collation.utf16 t) (Collation.utf16 s) = (compare (Collation.utf16 s) (Collation.utf16 t)).swap :=
    Std.OrientedOrd.eq_swap
  cases hc : compare (Collation.utf16 s) (Collation.utf16 t) <;> rw [hc] at hident hswap <;> cases op <;> first
    | (cases hop; done)
    | simp [evalSimple, less, nullSafeEq, identical, Held.isNullish, test, hident, hswap, hc]

/-- Texts are told apart alike, and ordered alike where they do not split. -/
theorem texts_exact (hop : scalarOp op = true) (s t : String) :
    evalSimple op (.wire (.string s)) (.wire (.string t)) =
      (engineTest op (.str (Utf8.encode s)) (.str (Utf8.encode t)) ^^ (ordering op && Collation.splits s.toList t.toList)) := by
  rw [evalSimple_texts hop, engineTest_texts hop, Collation.utf16_utf8]
  cases hs : Collation.splits s.toList t.toList with
  | false => simp
  | true =>
    have hne : compare (Utf8.encode s) (Utf8.encode t) ≠ .eq := by
      rw [Ne, Std.LawfulEqOrd.compare_eq_iff_eq, encode_inj]
      exact splits_ne hs
    rw [if_pos rfl]
    generalize compare (Utf8.encode s) (Utf8.encode t) = o at hne
    cases o with
    | eq => exact absurd rfl hne
    | lt => cases op <;> first | (cases hop; done) | rfl
    | gt => cases op <;> first | (cases hop; done) | rfl

/-- Values of different kinds are not identical, and have no order here. -/
theorem strangers_exact (hop : scalarOp op = true) {l r : WireValue} (hl : l.isNull = false) (hr : r.isNull = false)
    (hv : v.isNull = false) (hw : w.isNull = false) (hid : identical l r = false) (hval : valuesIdentical v w = false)
    (hord : ordering op = false) : evalSimple op (.wire l) (.wire r) = engineTest op v w := by
  have hnull : ∀ x : WireValue, x.isNull = false → (Held.wire x).isNullish = false := by
    intro x hx
    cases x <;> first | rfl | cases hx
  cases op <;> first
    | (cases hop; done)
    | (cases hord; done)
    | simp [evalSimple, nullSafeEq, engineTest, cmpOpOf, CmpOp.eval, hnull l hl, hnull r hr, hid, hval, hv, hw]

/-- A null is only ever identical to a null. -/
theorem null_exact (hop : scalarOp op = true) {l r : WireValue} (hl : Stands l v) (hr : Stands r w)
    (h : v.isNull = true ∨ w.isNull = true) :
    evalSimple op (.wire l) (.wire r) = (engineTest op v w ^^ cellsApart op l v.num r w.num) := by
  cases hl with
  | null =>
    cases hr with
    | number hk => cases w <;> first | (cases hk; done) | (cases op <;> first | (cases hop; done) | rfl)
    | _ => cases op <;> first | (cases hop; done) | rfl
  | number hk =>
    have hv : v.isNull = false := by cases v <;> first | rfl | cases hk
    cases hr with
    | null => cases v <;> first | (cases hk; done) | (cases op <;> first | (cases hop; done) | rfl)
    | number hk' =>
      have hw : w.isNull = false := by cases w <;> first | rfl | cases hk'
      rw [hv, hw] at h
      simp at h
    | _ => rw [hv] at h; simp [Value.isNull] at h
  | _ =>
    cases hr with
    | null => cases op <;> first | (cases hop; done) | rfl
    | number hk => cases w <;> first | (cases hk; done) | (simp [Value.isNull] at h)
    | _ => simp [Value.isNull] at h

/-- Both sides of a leaf: alike, but where they are apart. -/
theorem cells_exact (hop : scalarOp op = true) {l r : WireValue} (hl : Stands l v) (hr : Stands r w)
    (hkinds : ordering op = true → v.isNull = true ∨ w.isNull = true ∨ v.kind = w.kind)
    (hnum : ∀ a b, l = .number a → r = .number b → Numeric a v.num b w.num) :
    evalSimple op (.wire l) (.wire r) = (engineTest op v w ^^ cellsApart op l v.num r w.num) := by
  by_cases hnull : v.isNull = true ∨ w.isNull = true
  · exact null_exact hop hl hr hnull
  rw [not_or, Bool.not_eq_true, Bool.not_eq_true] at hnull
  have hstrange : v.kind ≠ w.kind → ordering op = false := by
    intro hne
    rw [← Bool.not_eq_true]
    intro hord
    rcases hkinds hord with h | h | h
    · rw [hnull.1] at h
      cases h
    · rw [hnull.2] at h
      cases h
    · exact hne h
  cases hl with
  | null => cases hnull.1
  | bool b =>
    cases hr with
    | null => cases hnull.2
    | bool b' => cases b <;> cases b' <;> cases op <;> first | (cases hop; done) | rfl
    | number hk =>
      have hval : valuesIdentical (.bool b) w = false := by cases w <;> first | rfl | cases hk
      simpa [cellsApart] using strangers_exact hop rfl rfl rfl hnull.2 rfl hval (hstrange (by rw [hk]; simp [Value.kind]))
    | string s => simpa [cellsApart] using strangers_exact hop rfl rfl rfl rfl rfl rfl (hstrange (by simp [Value.kind]))
  | number hk =>
    cases hr with
    | null => cases hnull.2
    | bool b =>
      have hval : valuesIdentical v (.bool b) = false := by cases v <;> first | rfl | cases hk
      simpa [cellsApart] using strangers_exact hop rfl rfl hnull.1 rfl rfl hval (hstrange (by rw [hk]; simp [Value.kind]))
    | number hk' => exact numbers_exact hop hk hk' (hnum _ _ rfl rfl)
    | string s =>
      have hval : valuesIdentical v (.str (Utf8.encode s)) = false := by cases v <;> first | rfl | cases hk
      simpa [cellsApart] using strangers_exact hop rfl rfl hnull.1 rfl rfl hval (hstrange (by rw [hk]; simp [Value.kind]))
  | string s =>
    cases hr with
    | null => cases hnull.2
    | bool b => simpa [cellsApart] using strangers_exact hop rfl rfl rfl rfl rfl rfl (hstrange (by simp [Value.kind]))
    | number hk =>
      have hval : valuesIdentical (.str (Utf8.encode s)) w = false := by cases w <;> first | rfl | cases hk
      simpa [cellsApart] using strangers_exact hop rfl rfl rfl hnull.2 rfl hval (hstrange (by rw [hk]; simp [Value.kind]))
    | string t => exact texts_exact hop s t

end

/-! ## Numbers from the wire -/

/-- A double JavaScript reads, and the value it was read from, in units of 2^-1074. -/
inductive Rounds : F64 → Int → Prop
  | int (i : Int64) : Rounds (F64.ofInt i.toInt) (i.toInt * F64.unit)
  | double {f : F64} (h : f.isNan = false) : Rounds f f.scaled

section
variable {a b : F64} {e e' : Int}

theorem Rounds.not_nan (h : Rounds a e) : a.isNan = false := by
  cases h with
  | int i => exact F64.ofInt_not_nan _
  | double h => exact h

theorem natAbs_int64 (i : Int64) : i.toInt.natAbs ≤ 2 ^ 63 := by
  have := i.toInt_lt
  have := i.le_toInt
  omega

/-- Reading keeps the order. -/
theorem Rounds.lt (ha : Rounds a e) (hb : Rounds b e') (h : a.scaled < b.scaled) : e < e' := by
  by_contra hle
  rw [Int.not_lt] at hle
  cases ha with
  | int i =>
    cases hb with
    | int j =>
      have hu : (0 : Int) < F64.unit := by exact_mod_cast F64.unit_pos
      have hij : j.toInt ≤ i.toInt := le_of_mul_le_mul_right hle hu
      have := F64.ofInt_mono hij (natAbs_int64 j) (natAbs_int64 i)
      omega
    | double hn =>
      have := F64.le_ofInt (natAbs_int64 i) hle
      omega
  | double hn =>
    cases hb with
    | int j =>
      have := F64.ofInt_le (natAbs_int64 j) hle
      omega
    | double hn' => omega

/-- A double's place is twice its value, or just below for the negative zero. -/
theorem rank_bounds (f : F64) : 2 * f.scaled - 1 ≤ f.rank ∧ f.rank ≤ 2 * f.scaled := by
  unfold F64.rank
  split <;> omega

theorem numeric_cell {w : Value} (f : F64) (hw : Sqlite.IsNumber w) (hb : Rounds b e) (hnum : w.num = 2 * e) :
    Numeric f (Value.float f).num b w.num := by
  have hrank : (Value.float f).num = f.rank := rfl
  have hbounds := rank_bounds f
  have hkind : w.kind = some .number := by
    rcases hw with ⟨i, rfl⟩ | ⟨g, rfl, -⟩ <;> rfl
  refine ⟨hb.not_nan, fun hn => ?_, fun hn hlt => ?_, fun hn hlt => ?_⟩
  · have hcmp := Sqlite.cmp_nan hw hn
    rw [cmp_numbers hkind rfl] at hcmp
    rw [Std.OrientedOrd.eq_swap (a := (Value.float f).num), hcmp]
    cases hs : f.sign <;> simp [F64.isSignNegative, hs]
  · have := Rounds.lt (.double hn) hb hlt
    omega
  · have := Rounds.lt hb (.double hn) hlt
    omega

theorem numeric_literal {v w : Value} (ha : Rounds a e) (hb : Rounds b e') (hv : v.num = 2 * e) (hw : w.num = 2 * e') :
    Numeric a v.num b w.num := by
  refine ⟨hb.not_nan, fun hn => ?_, fun _ hlt => ?_, fun _ hlt => ?_⟩
  · rw [ha.not_nan] at hn
    cases hn
  · have := ha.lt hb hlt
    omega
  · have := hb.lt ha hlt
    omega

end

section
variable {lit : Lit} {v : Value}

/-- A literal stands for what it is lowered to. -/
theorem literal_stands (hwf : Lit.wellFormed lit = true) (h : litToScalar lit = .ok v) :
    ∃ l, held lit = .wire l ∧ Stands l v ∧
      ∀ a, l = .number a → Sqlite.IsNumber v ∧ ∃ e, Rounds a e ∧ v.num = 2 * e ∧ v.num = litRank lit := by
  cases lit with
  | null => cases h; exact ⟨_, rfl, .null, fun a ha => by cases ha⟩
  | bool b => cases h; exact ⟨_, rfl, .bool b, fun a ha => by cases ha⟩
  | int i =>
    cases h
    refine ⟨_, rfl, .number rfl, fun a ha => ?_⟩
    obtain rfl : F64.ofInt i.toInt = a := WireValue.number.inj ha
    have hnum : (Value.int i).num = 2 * (i.toInt * F64.unit) := by
      simp only [Value.num, F64.intRank]
    exact ⟨Or.inl ⟨i, rfl⟩, i.toInt * F64.unit, .int i, hnum, by simp only [Value.num, litRank]⟩
  | number f =>
    cases h
    have hn : f.isNan = false := by simpa [Lit.wellFormed] using hwf
    obtain ⟨hk, hnum⟩ := numberToOwned_num hn
    refine ⟨_, rfl, .number hk, fun a ha => ?_⟩
    cases ha
    refine ⟨?_, _, .double hn, hnum, hnum⟩
    unfold numberToOwned
    split
    · exact Or.inl ⟨_, rfl⟩
    · exact Or.inr ⟨f, rfl, hn⟩
  | str b =>
    cases h
    obtain ⟨s, rfl⟩ := Utf8.valid_iff.mp hwf
    refine ⟨.string s, by simp [held], .string s, fun a ha => by cases ha⟩
  | array elems => cases h

theorem cell_stands (w : WireValue) : Stands w (jsToOwnedValue w) := by
  cases w with
  | null => exact .null
  | bool b => exact .bool b
  | number f => exact .number rfl
  | string s => exact .string s

end

/-! ## A leaf -/

section
variable {schema : Schema} {childColumns : List String} {types : List ColType} {row : List WireValue} {sc : SimpleCondition}
  {p : CompiledPredicate} {right : Lit} {v w : Value}

theorem lowerOp_scalar (hop : scalarOp sc.op = true) (his : ¬ (sc.op = .is ∨ sc.op = .isNot)) {c : Nat} {r : Row}
    (h : lowerOp sc.op c right = .ok p) : ∃ w, litToScalar right = .ok w ∧ p.eval r = (!(r.cell c).isNull && (cmpOpOf sc.op).eval (r.cell c) w) := by
  have hcmp : (do pure (CompiledPredicate.cmp c (cmpOpOf sc.op) (← litToScalar right)) : Except BuildError _) = .ok p := by
    cases hsc : sc.op <;> rw [hsc] at hop h his <;> first
      | (cases hop; done)
      | exact absurd (Or.inl rfl) his
      | exact absurd (Or.inr rfl) his
      | exact h
  obtain ⟨w, hw, h⟩ := bind_ok.mp hcmp
  refine ⟨w, hw, ?_⟩
  rw [← Except.ok.inj h, CompiledPredicate.eval]
  cases (r.cell c).isNull <;> rfl

theorem guarded_kinds (hord : ordering sc.op = true) (h : guardOrderingConst sc.op v right = .ok ()) (hw : litToScalar right = .ok w) :
    v.kind = w.kind := by
  have hops : sc.op = .lt ∨ sc.op = .le ∨ sc.op = .gt ∨ sc.op = .ge := by
    cases hsc : sc.op <;> rw [hsc] at hord <;> first | (cases hord; done) | simp
  rw [guardOrderingConst, if_pos hops] at h
  obtain ⟨rhs, hrhs, h⟩ := bind_ok.mp h
  obtain rfl : w = rhs := Except.ok.inj (hw.symm.trans hrhs)
  cases hs : sameClass v w with
  | true => cases v <;> cases w <;> first | rfl | cases hs
  | false => rw [hs] at h; cases h

/-- The predicate of a leaf of the gate's operators. -/
theorem createPredicate_scalar (hop : scalarOp sc.op = true) (h : createPredicate sc schema = .ok p) (r : Row) :
    ∃ right, sc.right = .literal right ∧
      ((∃ v w, Sqlite.leftValue schema r sc.left = .ok v ∧ litToScalar right = .ok w ∧ p.eval r = engineTest sc.op v w ∧
          ∀ value, sc.left = .literal value → ordering sc.op = true → v.isNull = true ∨ w.isNull = true ∨ v.kind = w.kind) ∨
        ((sc.op ≠ .is ∧ sc.op ≠ .isNot) ∧ p.eval r = false ∧ (right = .null ∨ sc.left = .literal .null))) := by
  rw [createPredicate] at h
  cases hright : sc.right with
  | column name => rw [hright] at h; cases h
  | literal right =>
    rw [hright] at h
    refine ⟨right, rfl, ?_⟩
    simp only at h
    by_cases his : sc.op = .is ∨ sc.op = .isNot
    · rw [if_pos his] at h
      obtain ⟨w, hw, h⟩ := bind_ok.mp h
      have hord : ordering sc.op = false := by rcases his with his | his <;> simp [his, ordering]
      have htest : ∀ v, engineTest sc.op v w = (valuesIdentical v w ^^ (sc.op == .isNot)) := by
        intro v
        rcases his with his | his <;> rw [his, engineTest] <;> cases valuesIdentical v w <;> rfl
      refine Or.inl ?_
      cases hleft : sc.left with
      | column name =>
        rw [hleft] at h
        obtain ⟨c, hc, h⟩ := bind_ok.mp h
        refine ⟨r.cell c, w, by rw [Sqlite.leftValue, hc]; rfl, hw, ?_, fun _ hl => by cases hl⟩
        rw [htest, ← Except.ok.inj h]
        cases right with
        | null =>
          cases hw
          simp only [Lit.isNull, if_true, CompiledPredicate.eval, Sqlite.valuesIdentical_null]
        | _ => rfl
      | literal value =>
        rw [hleft] at h
        obtain ⟨v, hv, h⟩ := bind_ok.mp h
        refine ⟨v, w, hv, hw, ?_, fun _ _ ho => by rw [hord] at ho; cases ho⟩
        rw [htest, ← Except.ok.inj h]
        rfl
    · rw [if_neg his] at h
      have htest : ∀ v w, engineTest sc.op v w = (!v.isNull && !w.isNull && (cmpOpOf sc.op).eval v w) := by
        intro v w
        cases hsc : sc.op <;> rw [hsc] at his <;> first | rfl | exact absurd (Or.inl rfl) his | exact absurd (Or.inr rfl) his
      have hnot : sc.op ≠ .is ∧ sc.op ≠ .isNot := not_or.mp his
      by_cases hnull : right.isNull = true
      · rw [if_pos hnull] at h
        have hlit : right = .null := by cases right <;> first | rfl | cases hnull
        exact Or.inr ⟨hnot, by rw [← Except.ok.inj h]; rfl, Or.inl hlit⟩
      rw [if_neg hnull] at h
      have hsome : right.isNull = false := by simpa using hnull
      have hwn : ∀ w, litToScalar right = .ok w → w.isNull = false := by
        intro w hw
        rw [← Bool.not_eq_true, Sqlite.isNull_iff]
        exact Sqlite.litToScalar_ne_null hsome hw
      cases hleft : sc.left with
      | column name =>
        rw [hleft] at h
        obtain ⟨c, hc, h⟩ := bind_ok.mp h
        obtain ⟨w, hw, heval⟩ := lowerOp_scalar hop his h
        refine Or.inl ⟨r.cell c, w, by rw [Sqlite.leftValue, hc]; rfl, hw, ?_, fun _ hl => by cases hl⟩
        rw [heval, htest, hwn w hw]
        simp
      | literal value =>
        rw [hleft] at h
        simp only at h
        by_cases hvalue : value.isNull = true
        · rw [if_pos hvalue] at h
          have hlit : value = .null := by cases value <;> first | rfl | cases hvalue
          exact Or.inr ⟨hnot, by rw [← Except.ok.inj h]; rfl, Or.inr (by rw [hlit])⟩
        · rw [if_neg hvalue] at h
          obtain ⟨v, hv, h⟩ := bind_ok.mp h
          obtain ⟨_, hguard, h⟩ := bind_ok.mp h
          obtain ⟨probe, hprobe, h⟩ := bind_ok.mp h
          obtain ⟨w, hw, heval⟩ := lowerOp_scalar hop his hprobe
          refine Or.inl ⟨v, w, hv, hw, ?_, fun _ _ hord => Or.inr (Or.inr (guarded_kinds hord hguard hw))⟩
          rw [htest, hwn w hw, ← Except.ok.inj h]
          show probe.eval [v] = _
          rw [heval]
          simp [Row.cell]

/-- Where one side is null nothing holds but `<=` and `>=` of two nulls, on the client. -/
theorem folded_exact (hop : scalarOp sc.op = true) (hnot : sc.op ≠ .is ∧ sc.op ≠ .isNot) {l r : Held} (h : l = .wire .null ∨ r = .wire .null) :
    evalSimple sc.op l r = (l.isNull && r.isNull && (sc.op == .le || sc.op == .ge)) := by
  rcases h with rfl | rfl
  · cases hsc : sc.op <;> rw [hsc] at hop hnot <;> first
      | (cases hop; done)
      | exact absurd rfl hnot.1
      | exact absurd rfl hnot.2
      | (rcases r with w | _ | _ <;> first | rfl | (cases w <;> rfl))
  · cases hsc : sc.op <;> rw [hsc] at hop hnot <;> first
      | (cases hop; done)
      | exact absurd rfl hnot.1
      | exact absurd rfl hnot.2
      | (rcases l with w | _ | _ <;> first | rfl | (cases w <;> rfl))

theorem childRow_cell (h : ChildRow types row) {c : Nat} (hc : c < types.length) :
    ∃ w ty, row[c]? = some w ∧ types[c]? = some ty ∧ ty.holds w = true := by
  obtain ⟨hlen, hget⟩ := List.forall₂_iff_get.mp h
  exact ⟨row.get ⟨c, hlen ▸ hc⟩, types.get ⟨c, hc⟩, List.getElem?_eq_getElem _, List.getElem?_eq_getElem _, hget c hc (hlen ▸ hc)⟩

theorem crossed_cell {c : Nat} {w : WireValue} (h : row[c]? = some w) : Row.cell (row.map jsToOwnedValue) c = jsToOwnedValue w := by
  simp [Row.cell, h]

/-- The kinds of a typed cell and a literal of its column. -/
theorem typed_kinds {ty : ColType} {x : WireValue} (hx : ty.holds x = true) (hl : Sqlite.LitOf ty.kind right = true)
    (hw : litToScalar right = .ok w) :
    (jsToOwnedValue x).isNull = true ∨ w.isNull = true ∨ (jsToOwnedValue x).kind = w.kind := by
  have hjson : ty = .json → w = .null := by
    rintro rfl
    cases right with
    | null => cases hw; rfl
    | _ => cases hl
  rcases Sqlite.litToScalar_kind hl hw with rfl | ⟨hk, -, -⟩
  · exact Or.inr (Or.inl rfl)
  · cases ty with
    | json => rw [hjson rfl]; exact Or.inr (Or.inl rfl)
    | string => cases x <;> first | (cases hx; done) | exact Or.inl rfl | exact Or.inr (Or.inr hk.symm)
    | number => cases x <;> first | (cases hx; done) | exact Or.inl rfl | exact Or.inr (Or.inr hk.symm)
    | boolean => cases x <;> first | (cases hx; done) | exact Or.inl rfl | exact Or.inr (Or.inr hk.symm)

theorem cellsApart_congr {op : CondOp} {l r : WireValue} {ra ra' rb rb' : Int}
    (h : ∀ a b, l = .number a → r = .number b → ra = ra' ∧ rb = rb') : cellsApart op l ra r rb = cellsApart op l ra' r rb' := by
  cases l <;> cases r <;> first
    | rfl
    | (obtain ⟨rfl, rfl⟩ := h _ _ rfl rfl; rfl)

/-- The client and the engine agree on a leaf exactly where it is not apart. -/
theorem leaf_exact (hcols : schema.columns = childColumns) (hlen : childColumns.length = types.length) (hrow : ChildRow types row)
    (hop : scalarOp sc.op = true) (htyped : WellTyped childColumns types sc) (h : createPredicate sc schema = .ok p) :
    evalSimple sc.op (valueOf childColumns row sc.left) (valueOf childColumns row sc.right) =
      (p.eval (row.map jsToOwnedValue) ^^ apart childColumns row sc) := by
  obtain ⟨hleftwf, hrightwf, hfits⟩ := htyped
  obtain ⟨right, hright, hcase⟩ := createPredicate_scalar hop h (row.map jsToOwnedValue)
  have hvalueRight : valueOf childColumns row (.literal right) = held right := rfl
  have hapart : apart childColumns row sc = sidesApart sc.op sc.left right (valueOf childColumns row sc.left) (held right) := by
    rw [apart, hright]
  rw [hapart, hright, hvalueRight]
  rw [hright] at hrightwf
  rcases hcase with ⟨v, w, hv, hw, heval, hguard⟩ | ⟨hnot, heval, hnull⟩
  · obtain ⟨r, hheld, hr, hrnum⟩ := literal_stands hrightwf hw
    rw [heval, hheld]
    cases hleft : sc.left with
    | column name =>
      rw [hleft] at hv
      obtain ⟨c, hc, hv⟩ := bind_ok.mp hv
      have hidx : childColumns.idxOf? name = some c := by
        rw [← hcols]
        unfold colId at hc
        cases hid : schema.colId name with
        | none => rw [hid] at hc; cases hc
        | some d => rw [hid] at hc; cases hc; exact hid
      have hlt : c < types.length := by
        obtain ⟨hlt, -⟩ := List.idxOf?_eq_some_iff.mp hidx
        omega
      obtain ⟨x, ty, hx, hty, hholds⟩ := childRow_cell hrow hlt
      have hvx : v = jsToOwnedValue x := by
        rw [← Except.ok.inj hv]
        exact crossed_cell hx
      have hvalue : valueOf childColumns row (.column name) = .wire x := by simp [valueOf, hidx, hx]
      have hkinds := typed_kinds hholds (hfits name right c ty hleft hright hidx hty) hw
      rw [← hvx] at hkinds
      rw [hvalue]
      refine (cells_exact hop (hvx ▸ cell_stands x) hr (fun _ => hkinds) fun a b ha hb => ?_).trans ?_
      · subst ha hvx
        obtain ⟨hnumber, e, hrounds, hnum, -⟩ := hrnum b hb
        exact numeric_cell a hnumber hrounds hnum
      · congr 1
        refine cellsApart_congr fun a b ha hb => ?_
        subst ha hvx
        obtain ⟨-, e, -, -, hrank⟩ := hrnum b hb
        exact ⟨rfl, hrank⟩
    | literal value =>
      rw [hleft] at hv hleftwf
      obtain ⟨l, hheld', hl, hlnum⟩ := literal_stands hleftwf hv
      have hvalue : valueOf childColumns row (.literal value) = .wire l := hheld'
      rw [hvalue]
      refine (cells_exact hop hl hr (hguard value hleft) fun a b ha hb => ?_).trans ?_
      · obtain ⟨-, e, hrounds, hnum, -⟩ := hlnum a ha
        obtain ⟨-, e', hrounds', hnum', -⟩ := hrnum b hb
        exact numeric_literal hrounds hrounds' hnum hnum'
      · congr 1
        refine cellsApart_congr fun a b ha hb => ?_
        obtain ⟨-, _, -, -, hrank⟩ := hlnum a ha
        obtain ⟨-, _, -, -, hrank'⟩ := hrnum b hb
        exact ⟨hrank, hrank'⟩
  · have hsides : valueOf childColumns row sc.left = .wire .null ∨ held right = .wire .null := by
      rcases hnull with rfl | hl
      · exact Or.inr rfl
      · rw [hl]
        exact Or.inl rfl
    rw [heval, folded_exact hop hnot hsides, Bool.false_xor]
    generalize valueOf childColumns row sc.left = l at hsides ⊢
    generalize held right = r at hsides ⊢
    rcases hsides with rfl | rfl
    · cases r with
      | wire r => cases r <;> rfl
      | _ => rfl
    · cases l with
      | wire l => cases l <;> rfl
      | _ => rfl

end

/-! ## A tree -/

mutual

/-- The truth of a tree, of its leaves'. -/
def truthOf (leaf : SimpleCondition → Bool) : Condition → Bool
  | .simple sc => leaf sc
  | .and conditions => allTrue leaf conditions
  | .or conditions => anyTrue leaf conditions
  | .correlatedSubquery _ _ => false

def allTrue (leaf : SimpleCondition → Bool) : List Condition → Bool
  | [] => true
  | c :: conditions => truthOf leaf c && allTrue leaf conditions

def anyTrue (leaf : SimpleCondition → Bool) : List Condition → Bool
  | [] => false
  | c :: conditions => truthOf leaf c || anyTrue leaf conditions

end

/-- The engine's truth of a leaf. -/
def engineLeaf (schema : Schema) (row : List WireValue) (sc : SimpleCondition) : Bool :=
  match createPredicate sc schema with
  | .ok p => p.eval (row.map jsToOwnedValue)
  | .error _ => false

section
variable {leaf leaf' : SimpleCondition → Bool}

mutual

theorem truth_congr : ∀ {c : Condition}, c.Leaves (fun sc => leaf sc = leaf' sc) → truthOf leaf c = truthOf leaf' c
  | .simple _, h => h
  | .and _, h => (truths_congr h).1
  | .or _, h => (truths_congr h).2
  | .correlatedSubquery _ _, h => h.elim

theorem truths_congr : ∀ {cs : List Condition}, Condition.LeavesOf (fun sc => leaf sc = leaf' sc) cs →
    allTrue leaf cs = allTrue leaf' cs ∧ anyTrue leaf cs = anyTrue leaf' cs
  | [], _ => ⟨rfl, rfl⟩
  | c :: cs, h => by
    obtain ⟨hall, hany⟩ := truths_congr h.2
    rw [allTrue, allTrue, anyTrue, anyTrue, truth_congr h.1, hall, hany]
    exact ⟨rfl, rfl⟩

end

end

section
variable {schema : Schema} {childColumns : List String} {types : List ColType} {row : List WireValue}

/-- The client's truth of a leaf. -/
def clientLeaf (childColumns : List String) (row : List WireValue) (sc : SimpleCondition) : Bool :=
  evalSimple sc.op (valueOf childColumns row sc.left) (valueOf childColumns row sc.right)

mutual

theorem evalCondition_truth : ∀ c : Condition,
    evalCondition childColumns row c = truthOf (clientLeaf childColumns row) c
  | .simple _ => rfl
  | .and cs => (evalConditions_truth cs).1
  | .or cs => (evalConditions_truth cs).2
  | .correlatedSubquery _ _ => rfl

theorem evalConditions_truth : ∀ cs : List Condition,
    everyCondition childColumns row cs = allTrue (clientLeaf childColumns row) cs ∧
      someCondition childColumns row cs = anyTrue (clientLeaf childColumns row) cs
  | [] => ⟨rfl, rfl⟩
  | c :: cs => by
    obtain ⟨hall, hany⟩ := evalConditions_truth cs
    rw [everyCondition, someCondition, allTrue, anyTrue, evalCondition_truth c, hall, hany]
    exact ⟨rfl, rfl⟩

end

mutual

/-- The row predicate is the truth of its leaves, and each of them is lowered. -/
theorem createRowPredicate_truth : ∀ {c : Condition} {f : Row → Bool}, createRowPredicate schema c = .ok f →
    f (row.map jsToOwnedValue) = truthOf (engineLeaf schema row) c ∧ c.Leaves fun sc => ∃ p, createPredicate sc schema = .ok p
  | .simple sc, f, h => by
    rw [createRowPredicate] at h
    obtain ⟨p, hp, h⟩ := bind_ok.mp h
    refine ⟨?_, p, hp⟩
    rw [← Except.ok.inj h, truthOf, engineLeaf, hp]
  | .and cs, f, h => by
    rw [createRowPredicate] at h
    obtain ⟨preds, hpreds, h⟩ := bind_ok.mp h
    obtain ⟨hall, -, hleaves⟩ := createRowPredicates_truth hpreds
    refine ⟨?_, hleaves⟩
    rw [← Except.ok.inj h]
    exact hall
  | .or cs, f, h => by
    rw [createRowPredicate] at h
    obtain ⟨preds, hpreds, h⟩ := bind_ok.mp h
    obtain ⟨-, hany, hleaves⟩ := createRowPredicates_truth hpreds
    refine ⟨?_, hleaves⟩
    rw [← Except.ok.inj h]
    exact hany
  | .correlatedSubquery _ _, f, h => by
    rw [createRowPredicate] at h
    cases h

theorem createRowPredicates_truth : ∀ {cs : List Condition} {fs : List (Row → Bool)}, createRowPredicates schema cs = .ok fs →
    (fs.all fun f => f (row.map jsToOwnedValue)) = allTrue (engineLeaf schema row) cs ∧
      (fs.any fun f => f (row.map jsToOwnedValue)) = anyTrue (engineLeaf schema row) cs ∧
      Condition.LeavesOf (fun sc => ∃ p, createPredicate sc schema = .ok p) cs
  | [], fs, h => by
    rw [createRowPredicates] at h
    cases h
    exact ⟨rfl, rfl, trivial⟩
  | c :: cs, fs, h => by
    rw [createRowPredicates] at h
    obtain ⟨f, hf, h⟩ := bind_ok.mp h
    obtain ⟨rest, hrest, h⟩ := bind_ok.mp h
    obtain ⟨hone, hleaf⟩ := createRowPredicate_truth hf
    obtain ⟨hall, hany, hleaves⟩ := createRowPredicates_truth hrest
    rw [← Except.ok.inj h, List.all_cons, List.any_cons, allTrue, anyTrue, hone, hall, hany]
    exact ⟨rfl, rfl, hleaf, hleaves⟩

end

mutual

theorem evaluable_leaves : ∀ {c : Condition}, isEvaluable childColumns c = true → c.Leaves fun sc => scalarOp sc.op = true
  | .simple sc, h => by
    simp only [isEvaluable, Bool.and_eq_true] at h
    exact h.1.1
  | .and _, h => evaluables_leaves h
  | .or _, h => evaluables_leaves h
  | .correlatedSubquery _ _, h => by cases h

theorem evaluables_leaves : ∀ {cs : List Condition}, allEvaluable childColumns cs = true →
    Condition.LeavesOf (fun sc => scalarOp sc.op = true) cs
  | [], _ => trivial
  | c :: cs, h => by
    simp only [allEvaluable, Bool.and_eq_true] at h
    exact ⟨evaluable_leaves h.1, evaluables_leaves h.2⟩

end

/-- The client's truth of a tree is the engine's exactly where the leaves that are apart do not change
    it; so wherever none is. -/
theorem agg_filter_exact (hcols : schema.columns = childColumns) (hlen : childColumns.length = types.length)
    (hrow : ChildRow types row) {cond : Condition} (heval : isEvaluable childColumns cond = true)
    (htyped : cond.Leaves (WellTyped childColumns types)) {f : Row → Bool} (h : createRowPredicate schema cond = .ok f) :
    (evalCondition childColumns row cond = f (row.map jsToOwnedValue) ↔
      truthOf (fun sc => engineLeaf schema row sc ^^ apart childColumns row sc) cond = truthOf (engineLeaf schema row) cond) ∧
    ((cond.Leaves fun sc => apart childColumns row sc = false) → evalCondition childColumns row cond = f (row.map jsToOwnedValue)) := by
  obtain ⟨hengine, hlowered⟩ := @createRowPredicate_truth schema row cond f h
  have hleaves : cond.Leaves fun sc => clientLeaf childColumns row sc = (engineLeaf schema row sc ^^ apart childColumns row sc) := by
    refine Condition.Leaves.mono ?_ (((evaluable_leaves heval).and htyped).and hlowered)
    rintro sc ⟨⟨hop, hwt⟩, p, hp⟩
    rw [engineLeaf, hp]
    exact leaf_exact hcols hlen hrow hop hwt hp
  have hclient := (@evalCondition_truth childColumns row cond).trans (truth_congr hleaves)
  rw [hclient, hengine]
  refine ⟨Iff.rfl, fun hnone => truth_congr (Condition.Leaves.mono ?_ hnone)⟩
  intro sc hsc
  rw [hsc, Bool.xor_false]

end

section

/-- A comment table `(id, body)`. -/
def commentColumns : List String := ["id", "body"]

def commentTypes : List ColType := [.number, .string]

def commentSchema : Schema := Schema.new commentColumns [0] [(0, true)]

/-- `body <op> <text>`. -/
def bodyIs (op : CondOp) (text : String) : Condition := .simple ⟨op, .column "body", .literal (.str (Utf8.encode text))⟩

theorem bodyIs_typed (op : CondOp) (text : String) : (bodyIs op text).Leaves (WellTyped commentColumns commentTypes) := by
  refine ⟨rfl, Utf8.valid_encode text, ?_⟩
  intro name right c ty hl hr hc hty
  cases hl
  cases hr
  obtain rfl : 1 = c := Option.some.inj hc
  obtain rfl : ColType.string = ty := Option.some.inj hty
  rfl

def commentRow (body : WireValue) : List WireValue := [.number .zero, body]

/-- U+E000 is below U+FFFF on both sides: no leaf is apart. -/
theorem agg_filter_exact_basic : ∃ f, createRowPredicate commentSchema (bodyIs .lt (String.singleton (Char.ofNat 65533))) = .ok f ∧
    evalCondition commentColumns (commentRow (.string (String.singleton (Char.ofNat 57344))))
        (bodyIs .lt (String.singleton (Char.ofNat 65533))) =
      f ((commentRow (.string (String.singleton (Char.ofNat 57344)))).map jsToOwnedValue) := by
  have hf : createRowPredicate commentSchema (bodyIs .lt (String.singleton (Char.ofNat 65533))) =
      .ok ((CompiledPredicate.cmp 1 .lt (.str (Utf8.encode (String.singleton (Char.ofNat 65533))))).eval ·) := rfl
  have hrow : ChildRow commentTypes (commentRow (.string (String.singleton (Char.ofNat 57344)))) := .cons rfl (.cons rfl .nil)
  refine ⟨_, hf, (agg_filter_exact rfl rfl hrow rfl (bodyIs_typed _ _) hf).2 ?_⟩
  show apart commentColumns _ ⟨.lt, .column "body", .literal _⟩ = false
  simp only [apart, held, Utf8.decode_encode]
  decide

/-- JavaScript has U+E000 past U+10000, the engine below it; and it has null up to null. -/
theorem text_filter_disagrees :
    (∃ f, createRowPredicate commentSchema (bodyIs .lt (String.singleton (Char.ofNat 65536))) = .ok f ∧
      isEvaluable commentColumns (bodyIs .lt (String.singleton (Char.ofNat 65536))) = true ∧
      (bodyIs .lt (String.singleton (Char.ofNat 65536))).Leaves (WellTyped commentColumns commentTypes) ∧
      ChildRow commentTypes (commentRow (.string (String.singleton (Char.ofNat 57344)))) ∧
      evalCondition commentColumns (commentRow (.string (String.singleton (Char.ofNat 57344))))
          (bodyIs .lt (String.singleton (Char.ofNat 65536))) = false ∧
      f ((commentRow (.string (String.singleton (Char.ofNat 57344)))).map jsToOwnedValue) = true) ∧
    ∃ f, createRowPredicate commentSchema (.simple ⟨.le, .column "body", .literal .null⟩) = .ok f ∧
      evalCondition commentColumns (commentRow .null) (.simple ⟨.le, .column "body", .literal .null⟩) = true ∧
      f ((commentRow .null).map jsToOwnedValue) = false := by
  refine ⟨⟨_, rfl, rfl, bodyIs_typed _ _, .cons rfl (.cons rfl .nil), ?_, ?_⟩, _, rfl, rfl, rfl⟩
  · rw [bodyIs, evalCondition]
    simp only [valueOf, held, Utf8.decode_encode]
    decide
  · decide

end

end Rindle.Optimistic
