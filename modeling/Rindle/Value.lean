/-
  Rindle.Value — cells and their comparators (`rust/src/value.rs`, `predicate.rs`).

  A cell is one `Value`: the borrowed and the owned form of the source carry the same
  data, text as its bytes. `compareValues` (sort order, null = null) panics on two cells
  of genuinely different types; the panic is `none`. `valuesEqual` (join equality, null
  never equal) calls it, so it can panic too; `valuesIdentical` and
  `comparePredicateValues` (filters) are total.

  The numbers: an `Int` and a `Float` are compared by mathematical value, never by
  widening. `compareIntF64_eq` says what that comparison computes for every i64 and
  every bit pattern: the order of `F64.intRank` and `F64.rank`.
-/

import Mathlib.Data.List.Basic
import Rindle.Lib.Binary64

set_option linter.dupNamespace false

namespace Rindle

/-- A cell. Text and JSON are their bytes. -/
inductive Value where
  | absent
  | null
  | bool (b : Bool)
  | int (i : Int64)
  | float (f : F64)
  | str (b : List UInt8)
  | json (b : List UInt8)
  deriving DecidableEq

namespace Value

@[grind] def isNull : Value → Bool
  | .null => true
  | _ => false

def isAbsent : Value → Bool
  | .absent => true
  | _ => false

end Value

/-! ## Int against Float -/

/-- `compare_int_f64`: the exact order of an i64 and a double. -/
def compareIntF64 (x : Int64) (y : F64) : Ordering :=
  if y.isNan then
    if y.isSignPositive then .lt else .gt
  else if F64.le .twoPow63 y then .lt
  else if F64.lt y .negTwoPow63 then .gt
  else
    let t := y.trunc
    let ty := t.asI64
    match compare x ty with
    | .eq =>
      if F64.lt t y then .lt
      else if F64.lt y t || (x == 0 && y.isSignNegative) then .gt
      else .eq
    | ord => ord

/-- `float_int_class`: the i64 a double is exactly equal to, if any. -/
def floatIntClass (f : F64) : Option Int64 :=
  if !f.isFinite || !(F64.feq f.trunc f) then none
  else if F64.feq f .zero then
    if f.isSignNegative then none else some 0
  else if !(F64.le .negTwoPow63 f && F64.lt f .twoPow63) then none
  else some f.asI64

/-! ## The comparators -/

/-- `compare_values`: the sort order; `none` is the panic on a type mismatch. -/
@[grind] def compareValues : Value → Value → Option Ordering
  | .absent, .absent => some .eq
  | .absent, _ => some .lt
  | _, .absent => some .gt
  | .null, .null => some .eq
  | .null, _ => some .lt
  | _, .null => some .gt
  | .bool x, .bool y => some (compare x y)
  | .int x, .int y => some (compare x y)
  | .float x, .float y => some (F64.totalCmp x y)
  | .int x, .float y => some (compareIntF64 x y)
  | .float x, .int y => some (compareIntF64 y x).swap
  | .str x, .str y => some (compare x y)
  | .json x, .json y => some (compare x y)
  | _, _ => none

/-- `values_equal`: join equality, under which null and absent equal nothing. -/
def valuesEqual : Value → Value → Option Bool
  | .absent, _ => some false
  | _, .absent => some false
  | .null, _ => some false
  | _, .null => some false
  | a, b => (compareValues a b).map (· == .eq)

/-- `values_identical`: filter equality, total, null identical to null. -/
@[grind] def valuesIdentical : Value → Value → Bool
  | .absent, .absent => true
  | .absent, _ => false
  | _, .absent => false
  | .null, .null => true
  | .null, _ => false
  | _, .null => false
  | .bool x, .bool y => x == y
  | .int x, .int y => x == y
  | .float x, .float y => F64.totalCmp x y == .eq
  | .int x, .float y => compareIntF64 x y == .eq
  | .float x, .int y => compareIntF64 y x == .eq
  | .str x, .str y => x == y
  | .json x, .json y => x == y
  | _, _ => false

/-- `predicate_type_rank`. -/
def predicateTypeRank : Value → Nat
  | .absent => 0
  | .null => 1
  | .bool _ => 2
  | .int _ => 3
  | .float _ => 3
  | .str _ => 4
  | .json _ => 5

/-- `compare_predicate_values`: as `compareValues`, with a type rank in place of the panic. -/
@[grind] def comparePredicateValues : Value → Value → Ordering
  | .absent, .absent => .eq
  | .absent, _ => .lt
  | _, .absent => .gt
  | .null, .null => .eq
  | .null, _ => .lt
  | _, .null => .gt
  | .int x, .float y => compareIntF64 x y
  | .float x, .int y => (compareIntF64 y x).swap
  | .bool x, .bool y => compare x y
  | .int x, .int y => compare x y
  | .float x, .float y => F64.totalCmp x y
  | .str x, .str y => compare x y
  | .json x, .json y => compare x y
  | a, b => compare (predicateTypeRank a) (predicateTypeRank b)

/-! ## What the number comparison computes -/

theorem int64_compare (x y : Int64) : compare x y = compare x.toInt y.toInt := by
  rcases Int.lt_trichotomy x.toInt y.toInt with h | h | h
  · rw [Int.compare_eq_lt.mpr h]
    exact compareOfLessAndEq_eq_lt.mpr (Int64.lt_iff_toInt_lt.mpr h)
  · rw [Int.compare_eq_eq.mpr h, Int64.toInt_inj.mp h]
    exact Std.ReflOrd.compare_self
  · rw [Int.compare_eq_gt.mpr h, Std.OrientedOrd.eq_swap (a := x)]
    have : compare y x = .lt := compareOfLessAndEq_eq_lt.mpr (Int64.lt_iff_toInt_lt.mpr h)
    rw [this]; rfl

namespace F64

/-- Every i64 lies strictly inside ±2^63. -/
theorem intRank_bounds (x : Int64) :
    -(2 * (2 ^ 63 * unit) : Int) ≤ intRank x ∧ intRank x + 2 * unit ≤ 2 * (2 ^ 63 * unit) := by
  have hu : (0 : Int) < unit := by exact_mod_cast unit_pos
  have h1 := Int.mul_le_mul_of_nonneg_right x.le_toInt (Int.le_of_lt hu)
  have h2 := Int.mul_le_mul_of_nonneg_right (show x.toInt + 1 ≤ 2 ^ 63 by have := x.toInt_lt; omega) (Int.le_of_lt hu)
  rw [Int.add_mul] at h2
  unfold intRank
  omega

theorem scaled_twoPow63 : twoPow63.scaled = 2 ^ 63 * unit := by
  have h : twoPow63.scaledAbs = 2 ^ 63 * unit := by decide +kernel
  unfold scaled
  rw [h]
  push_cast
  rfl

theorem scaled_negTwoPow63 : negTwoPow63.scaled = -(2 ^ 63 * unit) := by
  have h : negTwoPow63.scaledAbs = 2 ^ 63 * unit := by decide +kernel
  unfold scaled
  rw [h]
  push_cast
  rfl

/-- The magnitude of an infinity or a NaN is past every i64. -/
theorem notFinite_scaledAbs {f : F64} (he : f.expo.val = 2047) : 2 ^ 63 * unit < f.scaledAbs := by
  have h1 := le_scaledAbs f (by omega)
  have h2 : 2 ^ 63 * unit < 2 ^ (51 + f.expo.val) := by rw [he]; decide +kernel
  omega

end F64

/-- `compare_int_f64` is the mathematical order with `Int(0)` above `-0.0`, for every i64 and
    every bit pattern. -/
theorem compareIntF64_eq (x : Int64) (y : F64) : compareIntF64 x y = compare (F64.intRank x) y.rank := by
  have hu : (0 : Int) < F64.unit := by exact_mod_cast F64.unit_pos
  have hx := F64.intRank_bounds x
  have hz := F64.scaledAbs_eq_zero (f := y)
  have hsc : y.scaled = if y.sign then -(y.scaledAbs : Int) else y.scaledAbs := rfl
  have hr : y.rank = 2 * y.scaled - (if y.sign ∧ y.mag = 0 then 1 else 0) := rfl
  unfold compareIntF64
  by_cases hn : y.isNan = true
  · rw [if_pos hn]
    have hb := F64.notFinite_scaledAbs (f := y) (by simp [F64.isNan] at hn; exact hn.1)
    have hm : y.mag ≠ 0 := by omega
    cases hs : y.sign <;> simp only [F64.isSignPositive, hs, hm, and_false, if_false] at hr hsc ⊢
    · symm; exact Int.compare_eq_lt.mpr (by simp at hsc; omega)
    · symm; exact Int.compare_eq_gt.mpr (by simp at hsc; omega)
  simp only [Bool.not_eq_true] at hn
  rw [hn, if_neg (by decide)]
  have hlim : F64.isNan .twoPow63 = false ∧ F64.isNan .negTwoPow63 = false := by decide
  by_cases h1 : F64.le .twoPow63 y = true
  · rw [if_pos h1]
    simp only [F64.le, hn, hlim.1, F64.scaled_twoPow63, Bool.not_false, Bool.and_self, Bool.true_and,
      decide_eq_true_eq] at h1
    symm; exact Int.compare_eq_lt.mpr (by rw [hr]; split <;> omega)
  rw [if_neg h1]
  simp only [F64.le, hn, hlim.1, F64.scaled_twoPow63, Bool.not_false, Bool.and_self, Bool.true_and,
    decide_eq_true_eq] at h1
  by_cases h2 : F64.lt y .negTwoPow63 = true
  · rw [if_pos h2]
    simp only [F64.lt, hn, hlim.2, F64.scaled_negTwoPow63, Bool.not_false, Bool.and_self, Bool.true_and,
      decide_eq_true_eq] at h2
    symm; exact Int.compare_eq_gt.mpr (by rw [hr]; split <;> omega)
  rw [if_neg h2]
  simp only [F64.lt, hn, hlim.2, F64.scaled_negTwoPow63, Bool.not_false, Bool.and_self, Bool.true_and,
    decide_eq_true_eq] at h2
  -- In range: the cast of the truncation is the integer part `q`.
  have hq := F64.asI64_trunc y hn (by omega) (by omega)
  obtain ⟨hp, hm⟩ := F64.tdiv_bounds y.scaled hu
  have hts := F64.trunc_scaled y
  have htn := F64.trunc_isNan y hn
  simp only [int64_compare, hq]
  rcases Int.lt_trichotomy x.toInt (y.scaled.tdiv F64.unit) with h | h | h
  · rw [Int.compare_eq_lt.mpr h]
    have hle := Int.mul_le_mul_of_nonneg_right (show x.toInt + 1 ≤ y.scaled.tdiv F64.unit by omega) (Int.le_of_lt hu)
    rw [Int.add_mul] at hle
    symm; exact Int.compare_eq_lt.mpr (by rw [hr, F64.intRank]; split <;> omega)
  · rw [Int.compare_eq_eq.mpr h]
    have hxq : x.toInt * F64.unit = y.trunc.scaled := by rw [hts, h]
    have hx0 : x = 0 ↔ x.toInt = 0 := by rw [← Int64.toInt_zero, Int64.toInt_inj]
    have hx0' : x.toInt = 0 ↔ y.trunc.scaled = 0 := by
      rw [← hxq, Int.mul_eq_zero]; omega
    simp only [F64.lt, hn, htn, Bool.not_false, Bool.true_and, decide_eq_true_eq, F64.isSignNegative,
      Bool.or_eq_true, Bool.and_eq_true, beq_iff_eq]
    split
    · symm; exact Int.compare_eq_lt.mpr (by rw [hr, F64.intRank, hxq]; split <;> omega)
    split
    · rename_i h4 h5
      symm; refine Int.compare_eq_gt.mpr ?_
      rw [hr, F64.intRank, hxq]
      rcases h5 with h5 | ⟨h5, h6⟩
      · split <;> omega
      · have h0 : y.trunc.scaled = 0 := by rw [← hx0', ← hx0]; exact h5
        rw [if_pos h6] at hsc
        by_cases h7 : y.mag = 0
        · rw [if_pos ⟨h6, h7⟩]; omega
        · rw [if_neg (fun h => h7 h.2)]; omega
    · rename_i h4 h5
      symm; refine Int.compare_eq_eq.mpr ?_
      rw [hr, F64.intRank, hxq]
      have h6 : y.trunc.scaled = y.scaled := by omega
      by_cases h7 : y.sign = true ∧ y.mag = 0
      · refine absurd (Or.inr ⟨?_, h7.1⟩) h5
        rw [hx0, hx0', h6, hsc, if_pos h7.1, hz.mpr h7.2]; rfl
      · rw [if_neg h7, h6]; omega
  · rw [Int.compare_eq_gt.mpr h]
    have hle := Int.mul_le_mul_of_nonneg_right (show y.scaled.tdiv F64.unit + 1 ≤ x.toInt by omega) (Int.le_of_lt hu)
    rw [Int.add_mul] at hle
    symm; exact Int.compare_eq_gt.mpr (by rw [hr, F64.intRank]; split <;> omega)

theorem intRank_inj {x y : Int64} : F64.intRank x = F64.intRank y ↔ x = y := by
  refine ⟨fun h => ?_, fun h => h ▸ rfl⟩
  have hu := F64.unit_pos
  have : x.toInt * F64.unit = y.toInt * F64.unit := by unfold F64.intRank at h; omega
  exact Int64.toInt_inj.mp (Int.eq_of_mul_eq_mul_right (by omega) this)

/-- `float_int_class` finds the i64 at the double's own place in the order, and nothing else. -/
theorem floatIntClass_eq_some {f : F64} {i : Int64} : floatIntClass f = some i ↔ f.rank = F64.intRank i := by
  have hu : (0 : Int) < F64.unit := by exact_mod_cast F64.unit_pos
  have hz := F64.scaledAbs_eq_zero (f := f)
  have hts := F64.trunc_scaled f
  have hsc : f.scaled = if f.sign then -(f.scaledAbs : Int) else f.scaledAbs := rfl
  have hr : f.rank = 2 * f.scaled - (if f.sign ∧ f.mag = 0 then 1 else 0) := rfl
  have hlim : F64.isNan .twoPow63 = false ∧ F64.isNan .negTwoPow63 = false ∧ F64.isNan .zero = false ∧
      F64.scaled .zero = 0 := by decide
  unfold floatIntClass
  by_cases hfin : f.isFinite = true
  · have hn : f.isNan = false := by simp [F64.isFinite, F64.isNan] at hfin ⊢; intro h; exact absurd h hfin
    have htn := F64.trunc_isNan f hn
    simp only [hfin, F64.feq, F64.le, F64.lt, hn, htn, hlim, F64.scaled_twoPow63, F64.scaled_negTwoPow63,
      Bool.not_true, Bool.not_false, Bool.true_and, Bool.false_or, Bool.and_self, Bool.not_eq_true',
      decide_eq_false_iff_not, decide_eq_true_eq, Bool.and_eq_false_iff, F64.isSignNegative]
    by_cases hint : f.trunc.scaled = f.scaled
    · rw [if_neg (by simpa using hint)]
      by_cases h0 : f.scaled = 0
      · have hm : f.mag = 0 := by rw [← hz]; rw [hsc] at h0; split at h0 <;> omega
        rw [if_pos h0, hr, h0]
        by_cases hs : f.sign = true
        · have : ¬(-1 : Int) = F64.intRank i := by unfold F64.intRank; omega
          simpa [hs, hm] using this
        · have h0' : F64.intRank 0 = 0 := by unfold F64.intRank; rw [Int64.toInt_zero]; omega
          have := intRank_inj (x := 0) (y := i)
          rw [h0'] at this
          simpa [hs] using this.symm
      · have hnz : ¬(f.sign = true ∧ f.mag = 0) := by
          rintro ⟨-, hm⟩
          rw [hsc, hz.mpr hm] at h0
          simp at h0
        rw [if_neg h0, hr, if_neg hnz]
        by_cases hrange : ¬-(2 ^ 63 * (F64.unit : Int)) ≤ f.scaled ∨ ¬f.scaled < 2 ^ 63 * (F64.unit : Int)
        · rw [if_pos hrange]
          have := F64.intRank_bounds i
          simp only [reduceCtorEq, false_iff]
          omega
        · rw [if_neg hrange]
          have hc := F64.asI64_toInt f hn (by omega) (by omega)
          rw [Option.some_inj, ← Int64.toInt_inj, hc, F64.intRank, ← hint, hts, Int.mul_tdiv_cancel _ (by omega)]
          constructor
          · intro h; rw [h]; omega
          · intro h; exact Int.eq_of_mul_eq_mul_right (a := F64.unit) (by omega) (by omega)
    · rw [if_pos (by simpa using hint)]
      simp only [reduceCtorEq, false_iff]
      intro h
      have hev : f.scaled = i.toInt * F64.unit := by
        rw [hr, F64.intRank] at h; split at h <;> omega
      rw [hts, hev, Int.mul_tdiv_cancel _ (by omega)] at hint
      exact hint rfl
  · simp only [Bool.not_eq_true] at hfin
    have hb := F64.notFinite_scaledAbs (f := f) (by simpa [F64.isFinite] using hfin)
    have hi := F64.intRank_bounds i
    rw [hfin, Bool.not_false, Bool.true_or, if_pos rfl]
    simp only [reduceCtorEq, false_iff]
    intro h
    rw [hr] at h
    split at hsc <;> split at h <;> omega

/-! ## The cells of one column

  A column holds cells of one kind (integers and floats are one), null, and, on a
  projected row, absent. On such cells the comparators never panic. `Value.cmp` is a
  total preorder on all cells that continues `compareValues` past its panics, so that
  what is built on it needs no side conditions: `compareValues_eq` says it is the
  source's comparator on the cells of one column. -/

inductive Kind where
  | bool
  | number
  | str
  | json
  deriving DecidableEq

@[grind] def Value.kind : Value → Option Kind
  | .absent => none
  | .null => none
  | .bool _ => some .bool
  | .int _ => some .number
  | .float _ => some .number
  | .str _ => some .str
  | .json _ => some .json

/-- A cell a column of kind `k` can hold. -/
def Value.fits (k : Kind) (v : Value) : Bool := v.kind == none || v.kind == some k

namespace Value

/-- Absent below null below everything else. -/
@[grind] def tag : Value → Nat
  | .absent => 0
  | .null => 1
  | _ => 2

/-- The place of a boolean or a number in its column's order. -/
@[grind] def num : Value → Int
  | .bool b => if b then 1 else 0
  | .int i => F64.intRank i
  | .float f => f.rank
  | _ => 0

@[grind] def text : Value → List UInt8
  | .str b => b
  | .json b => b
  | _ => []

@[grind] def cmp : Value → Value → Ordering :=
  compareLex (compareOn tag) (compareLex (compareOn num) (compareOn text))

instance : Std.TransCmp cmp := inferInstanceAs (Std.TransCmp (compareLex _ _))

theorem cmp_eq_eq {a b : Value} : cmp a b = .eq ↔ a.tag = b.tag ∧ a.num = b.num ∧ a.text = b.text := by
  simp [cmp, compareLex_eq_eq, compareOn]

/-- Join equality, made total the same way: null and absent equal nothing. -/
def joinEq (a b : Value) : Bool := a.tag == 2 && b.tag == 2 && cmp a b == .eq

end Value

theorem bool_compare (x y : Bool) : compare x y = compare (if x then 1 else 0 : Int) (if y then 1 else 0) := by
  cases x <;> cases y <;> decide

theorem int64_compare_rank (x y : Int64) : compare x y = compare (F64.intRank x) (F64.intRank y) := by
  have hu : (0 : Int) < F64.unit := by exact_mod_cast F64.unit_pos
  rw [int64_compare]
  refine F64.compare_congr ?_ ?_
  · unfold F64.intRank; rw [Int.mul_lt_mul_left (by decide), Int.mul_lt_mul_right hu]
  · unfold F64.intRank; rw [Int.mul_lt_mul_left (by decide), Int.mul_lt_mul_right hu]

theorem Value.fits_kind {k : Kind} {a b : Value} (ha : a.fits k = true) (hb : b.fits k = true) :
    a.kind = none ∨ b.kind = none ∨ a.kind = b.kind := by
  simp only [Value.fits, Bool.or_eq_true, beq_iff_eq] at ha hb
  rcases ha with ha | ha
  · exact Or.inl ha
  · rcases hb with hb | hb
    · exact Or.inr (Or.inl hb)
    · exact Or.inr (Or.inr (ha.trans hb.symm))

/-- On the cells of one column `compare_values` does not panic and is the total order. -/
theorem compareValues_eq {k : Kind} {a b : Value} (ha : a.fits k = true) (hb : b.fits k = true) :
    compareValues a b = some (Value.cmp a b) := by
  have hk := Value.fits_kind ha hb
  cases a <;> cases b <;>
    simp only [compareValues, Value.cmp, compareLex, compareOn, Value.tag, Value.num, Value.text, F64.totalCmp_eq,
      compareIntF64_eq, bool_compare, int64_compare_rank, Std.ReflOrd.compare_self, Ordering.eq_then,
      Ordering.then_eq, ← Std.OrientedOrd.eq_swap] <;>
    first
    | rfl
    | simp [Value.kind] at hk

theorem valuesEqual_eq {k : Kind} {a b : Value} (ha : a.fits k = true) (hb : b.fits k = true) :
    valuesEqual a b = some (Value.joinEq a b) := by
  have h := compareValues_eq ha hb
  cases a <;> cases b <;> simp_all [valuesEqual, Value.joinEq, Value.tag]

/-- A filter's comparator is the sort comparator wherever that does not panic. -/
theorem comparePredicateValues_eq {k : Kind} {a b : Value} (ha : a.fits k = true) (hb : b.fits k = true) :
    comparePredicateValues a b = Value.cmp a b := by
  have h := compareValues_eq ha hb
  cases a <;> cases b <;> simp_all [compareValues, comparePredicateValues]

end Rindle
