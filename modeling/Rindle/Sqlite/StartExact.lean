/-
  Rindle.Sqlite.StartExact — exactly when the start clause loses no row.

  At a column whose start cell SQLite can compare, the clause's two terms are the engine's two
  relations (`range_holds`, `equality_holds`), so the scan of the sort goes on to the next
  column. At the first other one everything is decided there: either the range term keeps
  every row still in question, or the row of `lost_row` is past the start and lost.
-/

import Rindle.Ast
import Rindle.Sqlite.Start

set_option linter.dupNamespace false

namespace Rindle.Sqlite

open Sql

/-- A cell of a start row: null, or a value of its column's kind. The bound's literals and the rows
    it is taken from hold no negative zero. -/
def StartCell (ty : ValueType) (s : Value) : Prop := s = .null ∨ (s.kind = some ty.kind ∧ s ≠ .float .negZero)

/-- Some value of the column is equal to the cell. -/
def Tieable (ty : ValueType) (s : Value) : Prop := ∃ x, Stored ty x = true ∧ Pictures ty.kind s x

/-- The clause loses nothing at a column whose start cell SQLite does not compare: a null, a NaN. -/
def unboundLowered (col : ColumnDef) (gt : Bool) : Value → Bool
  | .float f => if gt then col.optional || !f.isSignNegative else f.isSignNegative
  | _ => if gt then col.optional && col.ty != .json else true

/-- The start cell is one SQLite compares. -/
@[grind] def bindable : Value → Bool
  | .null => false
  | .float f => !f.isNan
  | _ => true

/-- No row past the start is lost: decided at the first column whose start cell is not bindable, if a
    row can tie the start up to it. -/
@[grind] def StartLowered (start : Start) (reverse : Bool) (columns : List ColumnDef) : SortSpec → Prop
  | [] => True
  | (c, asc) :: order =>
    if bindable (start.row.cell c) then
      Tieable (column columns c).ty (start.row.cell c) → StartLowered start reverse columns order
    else unboundLowered (column columns c) (opGt asc reverse) (start.row.cell c) = true

theorem StartCell.plain {ty : ValueType} {s : Value} (h : StartCell ty s) (hb : bindable s = true) :
    s.kind = some ty.kind ∧ Plain s = true := by
  rcases h with rfl | ⟨hk, hz⟩
  · cases hb
  · refine ⟨hk, ?_⟩
    cases s with
    | float f =>
      simp only [bindable] at hb
      simp only [Plain, hb, Bool.true_and, bne_iff_ne]
      intro hf
      exact hz (congrArg Value.float hf)
    | _ => rfl

/-- The cells SQLite does not compare. -/
theorem StartCell.unbound {ty : ValueType} {s : Value} (h : StartCell ty s) (hb : bindable s = false) :
    s = .null ∨ (ty.kind = .number ∧ ∃ f, s = .float f ∧ f.isNan = true) := by
  rcases h with rfl | ⟨hk, -⟩
  · exact Or.inl rfl
  · cases s with
    | null => exact Or.inl rfl
    | float f =>
      refine Or.inr ⟨(Option.some.inj hk).symm, f, rfl, ?_⟩
      simpa [bindable] using hb
    | absent => cases hb
    | bool _ => cases hb
    | int _ => cases hb
    | str _ => cases hb
    | json _ => cases hb

/-! ## One column -/

section
variable {display : F64 → List UInt8} {col : ColumnDef} {c : Nat} {row : Nat → SqlValue} {s : Value}

/-- What is known of a stored cell. -/
def Holding (col : ColumnDef) (x : SqlValue) : Prop := Stored col.ty x = true ∧ (col.optional = false → x ≠ .null)

/-- One sort column in the direction of the request, on cells. -/
@[grind] def dirCmp (gt : Bool) (v s : Value) : Ordering := if gt then Value.cmp v s else Value.cmp s v

theorem tag_of_kind {v : Value} {k : Kind} (h : v.kind = some k) : v.tag = 2 := by
  cases v <;> first | rfl | cases h

theorem cmp_null_value {v : Value} {k : Kind} (h : v.kind = some k) : Value.cmp .null v = .lt := by
  have htag : compare (Value.tag .null) v.tag = .lt := by
    rw [tag_of_kind h]
    rfl
  simp only [Value.cmp, compareLex, compareOn, htag]
  rfl

theorem cmp_swap_gt {v s : Value} (h : Value.cmp v s = .gt) : Value.cmp s v = .lt := Std.OrientedCmp.gt_iff_lt.mp h

theorem cmp_swap_lt {v s : Value} (h : Value.cmp v s = .lt) : Value.cmp s v = .gt := Std.OrientedCmp.gt_iff_lt.mpr h

theorem cmp_value_null {v : Value} {k : Kind} (h : v.kind = some k) : Value.cmp v .null = .gt := cmp_swap_lt (cmp_null_value h)

theorem readCell_null (ty : ColType) : readCell ty .null = .null := by cases ty <;> rfl

/-- Where SQLite compares the start cell, the range term is the engine's strict order. -/
theorem range_holds (hx : Holding col (row c)) (hk : s.kind = some col.ty.kind) (hp : Plain s = true) (gt : Bool) :
    (nullableAwareRangeComparison col c (toSqliteParam display s col.ty) gt).Holds row ↔
      dirCmp gt (readCell (colTypeOf col.ty) (row c)) s = .gt := by
  have hs := toSqliteParam_pictures display hk hp
  have hparam := hs.ne_null
  by_cases hnull : row c = .null
  · have hopt : col.optional = true := by
      cases h : col.optional with
      | true => rfl
      | false => exact absurd hnull (hx.2 h)
    rw [hnull, readCell_null]
    cases gt with
    | true =>
      simp [nullableAwareRangeComparison, hopt, Expr.holds_isNull, Expr.holds_cmp, Operand.eval, hnull, hparam, dirCmp,
        cmp_null_value hk]
    | false =>
      simp [nullableAwareRangeComparison, hopt, Expr.holds_isNull, Operand.eval, hnull, dirCmp, cmp_value_null hk]
  · have hr := readCell_pictures hx.1 hnull
    have hcmp := cmp_eq_cmp hr hs
    have hcomparison : (Expr.cmp (if gt then .gt else .lt) (.col c) (.param (toSqliteParam display s col.ty))).Holds row ↔
        dirCmp gt (readCell (colTypeOf col.ty) (row c)) s = .gt := by
      rw [Expr.holds_cmp]
      cases gt with
      | true => simp [Operand.eval, hnull, hparam, CmpOp.test, hcmp, dirCmp]
      | false =>
        simp only [Operand.eval, Bool.false_eq_true, if_false, CmpOp.test, hcmp, beq_iff_eq, dirCmp]
        rw [Std.OrientedCmp.gt_iff_lt]
        tauto
    unfold nullableAwareRangeComparison
    cases col.optional <;> cases gt <;>
      simpa [Expr.holds_isNull, Operand.eval, hnull, hparam] using hcomparison

/-- There the equality term is the engine's tie. -/
theorem equality_holds (hx : Holding col (row c)) (hk : s.kind = some col.ty.kind) (hp : Plain s = true) (gt : Bool) :
    (nullableAwareEquality col c (toSqliteParam display s col.ty)).Holds row ↔
      dirCmp gt (readCell (colTypeOf col.ty) (row c)) s = .eq := by
  have hs := toSqliteParam_pictures display hk hp
  have hparam := hs.ne_null
  have hdir : ∀ v : Value, dirCmp gt v s = .eq ↔ Value.cmp v s = .eq := by
    intro v
    cases gt with
    | true => rfl
    | false =>
      show Value.cmp s v = .eq ↔ Value.cmp v s = .eq
      exact Std.OrientedCmp.eq_comm
  rw [hdir]
  by_cases hnull : row c = .null
  · rw [hnull, readCell_null, cmp_null_value hk]
    unfold nullableAwareEquality
    cases col.optional <;>
      simp [Expr.holds_cmp, Expr.holds_is, Operand.eval, hnull, cmp_null_left hparam]
  · have hcmp := cmp_eq_cmp (readCell_pictures hx.1 hnull) hs
    unfold nullableAwareEquality
    cases col.optional <;>
      simp [Expr.holds_cmp, Expr.holds_is, Operand.eval, hnull, hparam, hcmp, CmpOp.test]

/-- A cell that ties a stored value stands for it. -/
theorem Pictures.of_tie {k : Kind} {v s : Value} {x : SqlValue} (hv : Pictures k v x) (hk : s.kind = some k)
    (h : Value.cmp v s = .eq) : Pictures k s x := by
  obtain ⟨-, hnum, htext⟩ := Value.cmp_eq_eq.mp h
  cases k with
  | bool =>
    obtain ⟨b, rfl, rfl⟩ := hv
    cases s with
    | bool b' =>
      refine ⟨b', rfl, ?_⟩
      cases b <;> cases b' <;> first | rfl | exact absurd hnum (by decide)
    | _ => cases hk
  | number => exact ⟨hk, hv.2.1, hnum ▸ hv.2.2⟩
  | str =>
    obtain ⟨b, rfl, rfl⟩ := hv
    cases s with
    | str b' => exact ⟨b', rfl, congrArg SqlValue.text htext⟩
    | _ => cases hk
  | json =>
    obtain ⟨b, rfl, rfl⟩ := hv
    cases s with
    | json b' => exact ⟨b', rfl, congrArg SqlValue.text htext⟩
    | _ => cases hk

theorem tieable_of_tie (hx : Holding col (row c)) (hk : s.kind = some col.ty.kind) {gt : Bool}
    (h : dirCmp gt (readCell (colTypeOf col.ty) (row c)) s = .eq) : Tieable col.ty s := by
  have htie : Value.cmp (readCell (colTypeOf col.ty) (row c)) s = .eq := by
    cases gt with
    | true => exact h
    | false => exact Std.OrientedCmp.eq_comm.mp h
  have hne : row c ≠ .null := by
    intro hnull
    rw [hnull, readCell_null, cmp_null_value hk] at htie
    cases htie
  exact ⟨row c, hx.1, (readCell_pictures hx.1 hne).of_tie hk htie⟩

/-! ### Cells SQLite does not compare -/

theorem mag_le_infinity {g : F64} (h : g.isNan = false) : g.mag ≤ 2047 * 2 ^ 52 := by
  have he := g.expo.isLt
  have hf := g.frac.isLt
  simp only [F64.isNan, Bool.and_eq_false_imp, beq_iff_eq, bne_eq_false_iff_eq] at h
  unfold F64.mag
  by_cases hexp : g.expo.val = 2047
  · rw [h hexp, hexp]
    omega
  · omega

theorem infinity_lt_mag {f : F64} (h : f.isNan = true) : 2047 * 2 ^ 52 < f.mag := by
  simp only [F64.isNan, Bool.and_eq_true, beq_iff_eq, bne_iff_ne] at h
  unfold F64.mag
  rw [h.1]
  omega

/-- A number cell: an integer, or a double that is not a NaN. -/
def IsNumber (v : Value) : Prop := (∃ i, v = .int i) ∨ ∃ g, v = .float g ∧ g.isNan = false

theorem readCell_isNumber {ty : ValueType} {x : SqlValue} (hs : Stored ty x = true) (hx : x ≠ .null)
    (hk : ty.kind = .number) : IsNumber (readCell (colTypeOf ty) x) := by
  cases ty <;> first
    | (cases hk; done)
    | skip
  case number =>
    cases x with
    | null => exact absurd rfl hx
    | int i => exact Or.inr ⟨_, rfl, F64.ofInt_not_nan _⟩
    | real g =>
      simp only [Stored, Bool.and_eq_true, Bool.not_eq_true'] at hs
      exact Or.inr ⟨g, rfl, hs.1⟩
    | text b => simp only [Stored, Bool.false_eq_true] at hs
  case int =>
    cases x with
    | null => exact absurd rfl hx
    | int i => exact Or.inl ⟨i, rfl⟩
    | real g => simp only [Stored, Bool.false_eq_true] at hs
    | text b => simp only [Stored, Bool.false_eq_true] at hs

/-- A NaN is past every number, on the side of its sign. -/
theorem cmp_nan {v : Value} (hv : IsNumber v) {f : F64} (hf : f.isNan = true) :
    Value.cmp v (.float f) = if f.isSignNegative then .gt else .lt := by
  have hbig := infinity_lt_mag hf
  have hrank : compare v.num f.rank = if f.isSignNegative then .gt else .lt := by
    rcases hv with ⟨i, rfl⟩ | ⟨g, rfl, hg⟩
    · show compare (F64.intRank i) f.rank = _
      rw [← compareIntF64_eq, compareIntF64, if_pos hf]
      cases hs : f.sign <;> simp [F64.isSignPositive, F64.isSignNegative, hs]
    have hle := mag_le_infinity hg
    show compare g.rank f.rank = _
    rw [← F64.totalCmp_eq, F64.totalCmp]
    unfold F64.totalKey F64.isSignNegative
    cases hs : f.sign with
    | true =>
      simp only [if_true]
      refine Int.compare_eq_gt.mpr ?_
      split <;> omega
    | false =>
      simp only [Bool.false_eq_true, if_false]
      refine Int.compare_eq_lt.mpr ?_
      split <;> omega
  obtain ⟨htag, htext⟩ : v.tag = 2 ∧ v.text = [] := by
    rcases hv with ⟨i, rfl⟩ | ⟨g, rfl, -⟩ <;> exact ⟨rfl, rfl⟩
  simp only [Value.cmp, compareLex, compareOn, htag, htext]
  rw [show (Value.float f).num = f.rank from rfl, hrank]
  cases f.isSignNegative <;> rfl

/-- Such a cell is bound as NULL, or, in a json column, as the text of a JSON null. -/
theorem unbound_param (hs : StartCell col.ty s) (hb : bindable s = false) :
    (toSqliteParam display s col.ty).bound = if col.ty = .json then .text jsonNull else .null := by
  rcases hs.unbound hb with rfl | ⟨hk, f, rfl, hnan⟩
  · cases col.ty <;> rfl
  · cases hty : col.ty <;> rw [hty] at hk <;> first
      | (cases hk; done)
      | simp [toSqliteParam, SqlValue.bound, hnan]

/-- Where the clause is lowered at such a column, a row is before the start there or kept. -/
theorem unbound_kept (hx : Holding col (row c)) (hs : StartCell col.ty s) (hb : bindable s = false) {gt : Bool}
    (hl : unboundLowered col gt s = true) :
    dirCmp gt (readCell (colTypeOf col.ty) (row c)) s = .lt ∨
      (col.optional = true ∧ (nullableAwareRangeComparison col c (toSqliteParam display s col.ty) gt).Holds row) := by
  have hparam := @unbound_param display col s hs hb
  have hkeptNull : row c = .null → col.optional = true ∧
      (nullableAwareRangeComparison col c (toSqliteParam display s col.ty) false).Holds row := by
    intro hnull
    have hopt : col.optional = true := by
      cases h : col.optional with
      | true => rfl
      | false => exact absurd hnull (hx.2 h)
    refine ⟨hopt, ?_⟩
    simp [nullableAwareRangeComparison, hopt, Expr.holds_isNull, Operand.eval, hnull]
  have hkeptGt : col.optional = true → col.ty ≠ .json →
      (nullableAwareRangeComparison col c (toSqliteParam display s col.ty) true).Holds row := by
    intro hopt hjson
    rw [if_neg hjson] at hparam
    simp [nullableAwareRangeComparison, hopt, Expr.holds_isNull, Operand.eval, hparam]
  rcases hs.unbound hb with rfl | ⟨hk, f, rfl, hnan⟩
  · cases gt with
    | true =>
      simp only [unboundLowered, if_true, Bool.and_eq_true, bne_iff_ne] at hl
      exact Or.inr ⟨hl.1, hkeptGt hl.1 hl.2⟩
    | false =>
      by_cases hnull : row c = .null
      · exact Or.inr (hkeptNull hnull)
      · exact Or.inl (cmp_null_value (readCell_pictures hx.1 hnull).kind)
  · have hjson : col.ty ≠ .json := by
      intro h
      rw [h] at hk
      cases hk
    by_cases hnull : row c = .null
    · cases gt with
      | true =>
        refine Or.inl ?_
        rw [hnull, readCell_null]
        exact @cmp_null_value (.float f) .number rfl
      | false => exact Or.inr (hkeptNull hnull)
    · have hcmp := cmp_nan (readCell_isNumber hx.1 hnull hk) hnan
      cases gt with
      | true =>
        simp only [unboundLowered, if_true, Bool.or_eq_true, Bool.not_eq_true'] at hl
        rcases hl with hopt | hneg
        · exact Or.inr ⟨hopt, hkeptGt hopt hjson⟩
        · refine Or.inl ?_
          rw [hneg] at hcmp
          exact hcmp
      | false =>
        simp only [unboundLowered, Bool.false_eq_true, if_false] at hl
        rw [hl] at hcmp
        exact Or.inl (cmp_swap_gt hcmp)

/-- A value of the column, below the text of a JSON null. -/
def sample : ValueType → SqlValue
  | .string => .text []
  | .number => .int 0
  | .boolean => .int 0
  | .null => .text []
  | .json => .text [48]
  | .int => .int 0

theorem sample_holding (col : ColumnDef) : Holding col (sample col.ty) ∧ sample col.ty ≠ .null := by
  have hexact : isExactF64Integer 0 = true := by decide +kernel
  have hne : ∀ ty, sample ty ≠ .null := fun ty => by cases ty <;> simp [sample]
  refine ⟨⟨?_, fun _ => hne _⟩, hne _⟩
  cases col.ty <;> simp [sample, Stored, hexact]

/-- Where it is not, a row that ties the start up to here and holds the sample is past it and lost. -/
theorem unbound_lost (hs : StartCell col.ty s) (hb : bindable s = false) {gt : Bool} (hl : unboundLowered col gt s = false)
    (hx : row c = sample col.ty) :
    dirCmp gt (readCell (colTypeOf col.ty) (row c)) s = .gt ∧
      ¬ (nullableAwareRangeComparison col c (toSqliteParam display s col.ty) gt).Holds row ∧
      ¬ (nullableAwareEquality col c (toSqliteParam display s col.ty)).Holds row := by
  have hparam := @unbound_param display col s hs hb
  obtain ⟨hhold, hne⟩ := sample_holding col
  have hnever : ∀ op : CmpOp, op = .gt ∨ op = .lt ∧ col.ty ≠ .json ∨ op = .eq →
      ¬ (Expr.cmp op (.col c) (.param (toSqliteParam display s col.ty))).Holds row := by
    intro op hop hholds
    obtain ⟨-, hp, htest⟩ := Expr.holds_cmp.mp hholds
    simp only [Operand.eval, hparam, hx] at hp htest
    by_cases hjson : col.ty = .json
    · rw [if_pos hjson, hjson] at htest
      rcases hop with rfl | ⟨-, hnot⟩ | rfl
      · exact absurd htest (by decide)
      · exact hnot hjson
      · exact absurd htest (by decide)
    · exact hp (if_neg hjson)
  have hequality : ¬ (nullableAwareEquality col c (toSqliteParam display s col.ty)).Holds row := by
    unfold nullableAwareEquality
    cases col.optional with
    | false => exact hnever .eq (Or.inr (Or.inr rfl))
    | true =>
      rw [if_pos rfl, Expr.holds_is]
      simp only [Operand.eval, hparam, hx]
      by_cases hjson : col.ty = .json
      · rw [if_pos hjson, hjson]
        decide
      · rw [if_neg hjson, cmp_null_right hne]
        decide
  rcases hs.unbound hb with rfl | ⟨hk, f, rfl, hnan⟩
  · cases gt with
    | false => cases hl
    | true =>
      simp only [unboundLowered, if_true, Bool.and_eq_false_imp, bne_eq_false_iff_eq] at hl
      refine ⟨?_, ?_, hequality⟩
      · rw [hx]
        exact cmp_value_null (readCell_pictures hhold.1 hne).kind
      · unfold nullableAwareRangeComparison
        cases hopt : col.optional with
        | false => exact hnever .gt (Or.inl rfl)
        | true =>
          simp only [Bool.not_true, Bool.false_eq_true, if_false, if_true, Expr.holds_or, not_or]
          refine ⟨?_, hnever .gt (Or.inl rfl)⟩
          rw [if_pos (hl hopt)] at hparam
          rw [Expr.holds_isNull]
          simp [Operand.eval, hparam]
  · have hjson : col.ty ≠ .json := by
      intro h
      rw [h] at hk
      cases hk
    have hcmp := cmp_nan (readCell_isNumber hhold.1 hne hk) hnan
    refine ⟨?_, ?_, hequality⟩
    · rw [hx]
      cases gt with
      | true =>
        simp only [unboundLowered, if_true, Bool.or_eq_false_iff, Bool.not_eq_false'] at hl
        rw [hl.2] at hcmp
        exact hcmp
      | false =>
        simp only [unboundLowered, Bool.false_eq_true, if_false] at hl
        rw [hl] at hcmp
        exact cmp_swap_lt hcmp
    · unfold nullableAwareRangeComparison
      cases gt with
      | true =>
        simp only [unboundLowered, if_true, Bool.or_eq_false_iff] at hl
        rw [hl.1]
        exact hnever .gt (Or.inl rfl)
      | false =>
        cases col.optional with
        | false => exact hnever .lt (Or.inr (Or.inl ⟨rfl, hjson⟩))
        | true =>
          simp only [Bool.not_true, Bool.false_eq_true, if_false, Expr.holds_or, not_or]
          refine ⟨?_, hnever .lt (Or.inr (Or.inl ⟨rfl, hjson⟩))⟩
          rw [Expr.holds_isNull]
          simpa [Operand.eval, hx] using hne

end

/-! ## The whole sort -/

section
variable {display : F64 → List UInt8} {start : Start} {reverse : Bool} {columns : List ColumnDef} {order : SortSpec}
  {x : List SqlValue}

/-- The sort names columns of the table, and the start row has cells for them. -/
structure StartOf (columns : List ColumnDef) (start : Start) (order : SortSpec) : Prop where
  within : ∀ p ∈ order, p.1 < columns.length
  cells : ∀ p ∈ order, StartCell (column columns p.1).ty (start.row.cell p.1)

theorem StartOf.tail {p : Nat × Bool} (h : StartOf columns start (p :: order)) : StartOf columns start order :=
  ⟨fun q hq => h.within q (List.mem_cons_of_mem _ hq), fun q hq => h.cells q (List.mem_cons_of_mem _ hq)⟩

theorem StoredRow.holding (h : StoredRow columns x) {c : Nat} (hc : c < columns.length) :
    Holding (column columns c) (storedCell x c) ∧ (readRow columns x).cell c = readCell (colTypeOf (column columns c).ty) (storedCell x c) := by
  have hget : columns[c]? = some (column columns c) := by simp [column, List.getElem?_eq_getElem hc]
  obtain ⟨hs, hn, hr⟩ := h.cell hget
  exact ⟨⟨hs, hn⟩, hr⟩

theorem StoredRow.dir (h : StoredRow columns x) {p : Nat × Bool} (hp : p.1 < columns.length) :
    cellDir p reverse (readRow columns x) start.row =
      dirCmp (opGt p.2 reverse) (readCell (colTypeOf (column columns p.1).ty) (storedCell x p.1)) (start.row.cell p.1) := by
  rw [cellDir, dirCmp, (h.holding hp).2]

/-- A row past the start is in some group. -/
theorem lowered_of_reached (hx : StoredRow columns x) (ho : StartOf columns start order)
    (hl : StartLowered start reverse columns order) (hr : startReached start order reverse (readRow columns x) = true) :
    Lowered display start reverse columns (storedCell x) order := by
  induction order with
  | nil => exact (startReached_nil _ _ _).mp hr
  | cons p order ih =>
    have hin := ho.within p List.mem_cons_self
    have hcell := ho.cells p List.mem_cons_self
    have hhold := (hx.holding hin).1
    rw [startReached_cons, hx.dir hin] at hr
    rw [StartLowered] at hl
    by_cases hb : bindable (start.row.cell p.1) = true
    · rw [if_pos hb] at hl
      obtain ⟨hk, hp⟩ := hcell.plain hb
      rcases hr with hgt | ⟨heq, hrest⟩
      · exact Or.inl ((range_holds hhold hk hp _).mpr hgt)
      · exact Or.inr ⟨(equality_holds hhold hk hp _).mpr heq, ih ho.tail (hl (tieable_of_tie hhold hk heq)) hrest⟩
    · rw [if_neg hb] at hl
      rw [Bool.not_eq_true] at hb
      rcases @unbound_kept display _ _ _ _ hhold hcell hb _ hl with hlt | ⟨-, hkeep⟩
      · rw [hlt] at hr
        simp at hr
      · exact Or.inl hkeep

/-- It meets the leading bound of a NOT NULL column too. -/
theorem leading_of_reached {p : Nat × Bool} (hx : StoredRow columns x) (ho : StartOf columns start (p :: order))
    (hl : StartLowered start reverse columns (p :: order))
    (hr : startReached start (p :: order) reverse (readRow columns x) = true) (hopt : (column columns p.1).optional = false) :
    (Expr.cmp (if p.2 != reverse then .ge else .le) (.col p.1) (.param (startParam display start columns p.1))).Holds (storedCell x) := by
  have hin := ho.within p List.mem_cons_self
  have hcell := ho.cells p List.mem_cons_self
  have hhold := (hx.holding hin).1
  have hne := hhold.2 hopt
  rw [startReached_cons, hx.dir hin] at hr
  have hnlt : dirCmp (opGt p.2 reverse) (readCell (colTypeOf (column columns p.1).ty) (storedCell x p.1)) (start.row.cell p.1) ≠ .lt := by
    intro h
    rw [h] at hr
    simp at hr
  rw [StartLowered] at hl
  by_cases hb : bindable (start.row.cell p.1) = true
  · obtain ⟨hk, hp⟩ := hcell.plain hb
    have hs := toSqliteParam_pictures display hk hp
    have hcmp := cmp_eq_cmp (readCell_pictures hhold.1 hne) hs
    refine Expr.holds_cmp.mpr ⟨hne, hs.ne_null, ?_⟩
    have hop : (p.2 != reverse) = opGt p.2 reverse := by
      cases p.2 <;> cases reverse <;> rfl
    rw [hop]
    show CmpOp.test _ (SqlValue.cmp (storedCell x p.1) (toSqliteParam display (start.row.cell p.1) _).bound) = true
    rw [hcmp]
    cases hgt : opGt p.2 reverse with
    | true =>
      rw [hgt] at hnlt
      simpa [CmpOp.test, dirCmp] using hnlt
    | false =>
      rw [hgt] at hnlt
      simp only [Bool.false_eq_true, if_false, CmpOp.test, bne_iff_ne]
      intro h
      exact hnlt (cmp_swap_gt h)
  · rw [if_neg hb] at hl
    rw [Bool.not_eq_true] at hb
    rcases @unbound_kept display _ _ _ _ hhold hcell hb _ hl with hlt | ⟨hyes, -⟩
    · exact absurd hlt hnlt
    · rw [hopt] at hyes
      cases hyes

theorem clause_of_reached (hne : order ≠ []) (hx : StoredRow columns x) (ho : StartOf columns start order)
    (hl : StartLowered start reverse columns order) (hr : startReached start order reverse (readRow columns x) = true) :
    (gatherStartConstraints display start reverse columns order).Holds (storedCell x) := by
  have hdisj : (Expr.any (startGroups display start reverse columns order)).Holds (storedCell x) :=
    startGroups_lowered.mpr (lowered_of_reached hx ho hl hr)
  cases order with
  | nil => exact absurd rfl hne
  | cons p order =>
    rw [gatherStartConstraints]
    cases hopt : (column columns p.1).optional with
    | true => simpa [hopt] using hdisj
    | false =>
      simp only [Bool.not_false, if_true, Expr.holds_and]
      exact ⟨leading_of_reached hx ho hl hr hopt, hdisj⟩

/-! ## The lost row -/

/-- Otherwise some column is the first that is not lowered. -/
theorem exists_unlowered (h : ¬ StartLowered start reverse columns order) :
    ∃ pre p post, order = pre ++ p :: post ∧
      (∀ q ∈ pre, bindable (start.row.cell q.1) = true ∧ Tieable (column columns q.1).ty (start.row.cell q.1)) ∧
      bindable (start.row.cell p.1) = false ∧
      unboundLowered (column columns p.1) (opGt p.2 reverse) (start.row.cell p.1) = false := by
  induction order with
  | nil => exact absurd trivial h
  | cons p order ih =>
    rw [StartLowered] at h
    by_cases hb : bindable (start.row.cell p.1) = true
    · rw [if_pos hb] at h
      obtain ⟨htie, hrest⟩ := Classical.not_imp.mp h
      obtain ⟨pre, q, post, rfl, hpre, hq⟩ := ih hrest
      exact ⟨p :: pre, q, post, rfl, List.forall_mem_cons.mpr ⟨⟨hb, htie⟩, hpre⟩, hq⟩
    · rw [if_neg hb, Bool.not_eq_true] at h
      exact ⟨[], p, order, rfl, by simp, by simpa using hb, h⟩

theorem storedRow_of {g : Nat → SqlValue} (h : ∀ c, c < columns.length → Holding (column columns c) (g c)) :
    StoredRow columns ((List.range columns.length).map g) := by
  refine List.forall₂_iff_get.mpr ⟨by simp, fun c hc hc' => ?_⟩
  have hcol : columns.get ⟨c, hc⟩ = column columns c := by simp [column, List.getElem?_eq_getElem hc]
  have hrow : ((List.range columns.length).map g).get ⟨c, hc'⟩ = g c := by simp
  rw [hcol, hrow]
  exact h c hc

theorem storedCell_map {g : Nat → SqlValue} {n c : Nat} (hc : c < n) : storedCell ((List.range n).map g) c = g c := by
  simp [storedCell, List.getElem?_range hc]

/-- A row that ties the start on some columns is past it, and in a group, as the rest of the sort says. -/
theorem tied_columns {pre rest : SortSpec} (hx : StoredRow columns x) (ho : StartOf columns start (pre ++ rest))
    (htie : ∀ q ∈ pre, bindable (start.row.cell q.1) = true ∧
      dirCmp (opGt q.2 reverse) (readCell (colTypeOf (column columns q.1).ty) (storedCell x q.1)) (start.row.cell q.1) = .eq) :
    (startReached start (pre ++ rest) reverse (readRow columns x) = true ↔
      startReached start rest reverse (readRow columns x) = true) ∧
    (Lowered display start reverse columns (storedCell x) (pre ++ rest) ↔
      Lowered display start reverse columns (storedCell x) rest) := by
  induction pre with
  | nil => exact ⟨Iff.rfl, Iff.rfl⟩
  | cons q pre ih =>
    obtain ⟨hreach, hlow⟩ := ih ho.tail fun q' hq' => htie q' (List.mem_cons_of_mem _ hq')
    have hin := ho.within q List.mem_cons_self
    obtain ⟨hb, heq⟩ := htie q List.mem_cons_self
    obtain ⟨hk, hp⟩ := (ho.cells q List.mem_cons_self).plain hb
    have hhold := (hx.holding hin).1
    constructor
    · rw [List.cons_append, startReached_cons, hx.dir hin, heq, hreach]
      simp
    · have hrange : ¬ (rangeTerm display start reverse columns q).Holds (storedCell x) := by
        intro h
        rw [(range_holds hhold hk hp _).mp h] at heq
        cases heq
      have hequality : (equalityTerm display start columns q).Holds (storedCell x) := (equality_holds hhold hk hp _).mpr heq
      rw [List.cons_append, Lowered, hlow]
      exact ⟨fun h => (h.resolve_left hrange).2, fun h => .inr ⟨hequality, h⟩⟩

/-- Tied up to the first column that is not lowered, past the start there, and in no group. -/
theorem lost_row (ho : StartOf columns start order) (h : ¬ StartLowered start reverse columns order) :
    ∃ x, StoredRow columns x ∧ startReached start order reverse (readRow columns x) = true ∧
      ¬ Lowered display start reverse columns (storedCell x) order := by
  obtain ⟨pre, p, post, rfl, hpre, hb, hl⟩ := exists_unlowered h
  have hchoice : ∀ c, ∃ y, Holding (column columns c) y ∧
      ((∃ asc, (c, asc) ∈ pre) → Pictures (column columns c).ty.kind (start.row.cell c) y) ∧
      ((¬ ∃ asc, (c, asc) ∈ pre) → y = sample (column columns c).ty) := by
    intro c
    by_cases hmem : ∃ asc, (c, asc) ∈ pre
    · obtain ⟨asc, hasc⟩ := hmem
      obtain ⟨-, y, hy, hpic⟩ := hpre _ hasc
      exact ⟨y, ⟨hy, fun _ => hpic.ne_null⟩, fun _ => hpic, fun hno => absurd ⟨asc, hasc⟩ hno⟩
    · exact ⟨_, (sample_holding _).1, fun hyes => absurd hyes hmem, fun _ => rfl⟩
  choose g hhold hpic hsample using hchoice
  have hstored : StoredRow columns ((List.range columns.length).map g) := storedRow_of fun c _ => hhold c
  have hp := ho.within p (List.mem_append_right _ List.mem_cons_self)
  have hcell := ho.cells p (List.mem_append_right _ List.mem_cons_self)
  -- the columns before `p` have cells that are bindable, so `p` is none of them and holds its sample
  have hfree : ¬ ∃ asc, (p.1, asc) ∈ pre := by
    intro hmem
    obtain ⟨asc, hasc⟩ := hmem
    rw [(hpre _ hasc).1] at hb
    cases hb
  obtain ⟨hgt, hrange, hequality⟩ := @unbound_lost display (column columns p.1) p.1
    (storedCell ((List.range columns.length).map g)) _ hcell hb _ hl ((storedCell_map hp).trans (hsample p.1 hfree))
  obtain ⟨hreach, hlow⟩ := @tied_columns display start reverse columns _ pre (p :: post) hstored ho (by
    intro q hq
    refine ⟨(hpre q hq).1, ?_⟩
    have hpicq := hpic q.1 ⟨q.2, hq⟩
    have hread := readCell_pictures (hhold q.1).1 hpicq.ne_null
    rw [storedCell_map (ho.within q (List.mem_append_left _ hq))]
    cases opGt q.2 reverse with
    | true => exact (cmp_eq_cmp hread hpicq).symm.trans Std.ReflCmp.compare_self
    | false => exact (cmp_eq_cmp hpicq hread).symm.trans Std.ReflCmp.compare_self)
  refine ⟨_, hstored, hreach.mpr ?_, fun h => ?_⟩
  · rw [startReached_cons, hstored.dir hp]
    exact Or.inl hgt
  · rcases hlow.mp h with h | ⟨h, -⟩
    · exact hrange h
    · exact hequality h

/-! ## Pages -/

/-- No row past the start is lost. -/
def StartComplete (display : F64 → List UInt8) (start : Start) (reverse : Bool) (columns : List ColumnDef) (order : SortSpec) : Prop :=
  ∀ x, StoredRow columns x → startReached start order reverse (readRow columns x) = true →
    (gatherStartConstraints display start reverse columns order).Holds (storedCell x)

/-- An answer of SQLite: the rows of the table on which the clause is TRUE and the other terms keep
    (`keep`), in the order asked for. -/
structure Answer (display : F64 → List UInt8) (start : Start) (reverse : Bool) (columns : List ColumnDef) (order : SortSpec)
    (keep : Row → Bool) (table ans : List (List SqlValue)) : Prop where
  perm : ans.Perm (table.filter fun x =>
    decide ((gatherStartConstraints display start reverse columns order).Holds (storedCell x)) && keep (readRow columns x))
  ordered : SList.Rising (fun x y => orderBy reverse order (storedCell x) (storedCell y)) ans

/-- A page read from SQLite is the page an in-memory source of the same rows returns. -/
def PagesAgree (display : F64 → List UInt8) (start : Start) (reverse : Bool) (columns : List ColumnDef) (order : SortSpec) : Prop :=
  ∀ (table ans : List (List SqlValue)) (s s' : MemorySource) (id : ConnId) (conn : Connection) (req : FetchRequest) (rows : List Row),
    (∀ x ∈ table, StoredRow columns x) → (table.map (readRow columns)).Nodup →
    s.Ok (MemorySource.same {r | r ∈ table.map (readRow columns)}) → s.overlay = none →
    s.conns.live id = some conn → conn.sort = order → conn.pkConstraint = none →
    req.start = some start → req.reverse = reverse → req.multiConstraints = [] → s.fetch id req = some (rows, s') →
    Answer display start reverse columns order (fun r => constraintHolds req.constraint r && conn.accepts r) table ans →
    generateWithStart (ans.map (readRow columns)) (some start) order reverse = rows

/-- Stored values are ordered as the cells they are read as. -/
theorem stored_cmp {col : ColumnDef} {x y : SqlValue} (hx : Stored col.ty x = true) (hy : Stored col.ty y = true) :
    SqlValue.cmp x y = Value.cmp (readCell (colTypeOf col.ty) x) (readCell (colTypeOf col.ty) y) := by
  by_cases hxn : x = .null
  · rw [hxn, readCell_null]
    by_cases hyn : y = .null
    · rw [hyn, readCell_null]
      rfl
    · rw [cmp_null_left hyn, cmp_null_value (readCell_pictures hy hyn).kind]
  · by_cases hyn : y = .null
    · rw [hyn, readCell_null, cmp_null_right hxn, cmp_value_null (readCell_pictures hx hxn).kind]
    · exact cmp_eq_cmp (readCell_pictures hx hxn) (readCell_pictures hy hyn)

theorem orderBy_eq {y : List SqlValue} (hx : StoredRow columns x) (hy : StoredRow columns y)
    (hw : ∀ p ∈ order, p.1 < columns.length) :
    orderBy reverse order (storedCell x) (storedCell y) =
      compareRowsRev order reverse (readRow columns x) (readRow columns y) := by
  induction order with
  | nil => cases reverse <;> rfl
  | cons p order ih =>
    obtain ⟨c, asc⟩ := p
    obtain ⟨hcx, hrx⟩ := hx.holding (hw (c, asc) List.mem_cons_self)
    obtain ⟨hcy, hry⟩ := hy.holding (hw (c, asc) List.mem_cons_self)
    rw [orderBy, compareRowsRev_cons, ih fun q hq => hw q (List.mem_cons_of_mem _ hq), cellDir, hrx, hry,
      ← stored_cmp hcx.1 hcy.1, ← stored_cmp hcy.1 hcx.1]
    cases asc <;> cases reverse <;> rfl

theorem pagesAgree_of_lowered (hne : order ≠ []) (ho : StartOf columns start order)
    (hl : StartLowered start reverse columns order) : PagesAgree display start reverse columns order := by
  intro table ans s s' id conn req rows htable hnodup hok hover hlive hsort hpk hstart hrev hmulti hfetch hans
  subst hsort hrev
  -- the in-memory rows: sorted, and exactly those asked for
  obtain ⟨rows', s'', hfetch', hf, -, hcov⟩ := hok.fetch_live hlive req
  obtain rfl : rows' = rows := congrArg Prod.fst (Option.some.inj (hfetch'.symm.trans hfetch))
  have hbatch : MemorySource.batches req = [] := by rw [MemorySource.batches, hmulti]; rfl
  rw [MemorySource.FetchedOn, hbatch] at hf
  obtain ⟨hsorted, hmem⟩ := hf.settled hpk (MemorySource.seen_unreached fun o ho => by rw [hover] at ho; cases ho)
  -- SQLite's rows: rising in the same order, and without ties
  have hsub : ∀ x ∈ ans, x ∈ table := fun x hx => (List.mem_filter.mp (hans.perm.mem_iff.mp hx)).1
  have hrise : SList.Rising (compareRowsRev conn.sort req.reverse) (ans.map (readRow columns)) := by
    refine List.pairwise_map.mpr (List.Pairwise.imp_of_mem (fun {a b} ha hb hab => ?_) hans.ordered)
    rw [← orderBy_eq (htable a (hsub a ha)) (htable b (hsub b hb)) ho.within]
    exact hab
  have hans' : (ans.map (readRow columns)).Nodup := by
    refine (hans.perm.map (readRow columns)).nodup_iff.mpr (hnodup.sublist (List.Sublist.map _ List.filter_sublist))
  have hties : (ans.map (readRow columns)).Pairwise fun a b => compareRowsRev conn.sort req.reverse a b ≠ .eq := by
    refine List.Pairwise.imp_of_mem (fun {a b} ha hb hab => ?_) hans'
    intro htie
    have hin : ∀ r, r ∈ ans.map (readRow columns) → r ∈ table.map (readRow columns) := by
      intro r hr
      obtain ⟨x, hx, rfl⟩ := List.mem_map.mp hr
      exact List.mem_map_of_mem (hsub x hx)
    exact hab (hok.holds.unique a (hin a ha) b (hin b hb) (hcov.key_tie (SList.dirCmp_eq_eq.mp htie)))
  have hmono : ∀ a b, compareRowsRev conn.sort req.reverse a b ≠ .gt → startReached start conn.sort req.reverse a = true →
      startReached start conn.sort req.reverse b = true := by
    intro a b hab ha
    have := @MemorySource.pastStart_mono conn req a b hab
    simp only [MemorySource.pastStart, hstart, Option.all_some] at this
    exact this ha
  rw [generateWithStart, SList.dropWhile_eq_filter hmono hrise]
  refine SList.Sorted.ext ((hrise.sorted hties).sublist List.filter_sublist) hsorted fun r => ?_
  rw [List.mem_filter, hmem, MemorySource.wanted, MemorySource.pastStart, hstart, Option.all_some]
  constructor
  · intro h
    obtain ⟨hr, hreach⟩ := h
    obtain ⟨x, hx, rfl⟩ := List.mem_map.mp hr
    obtain ⟨hxt, hkeep⟩ := List.mem_filter.mp (hans.perm.mem_iff.mp hx)
    simp only [Bool.and_eq_true] at hkeep ⊢
    exact ⟨List.mem_map_of_mem hxt, hreach, hkeep.2⟩
  · intro h
    obtain ⟨hr, hwanted⟩ := h
    obtain ⟨x, hx, rfl⟩ := List.mem_map.mp hr
    simp only [Bool.and_eq_true] at hwanted
    refine ⟨List.mem_map_of_mem (hans.perm.mem_iff.mpr (List.mem_filter.mpr ⟨hx, ?_⟩)), hwanted.1⟩
    simp only [Bool.and_eq_true, decide_eq_true_eq]
    exact ⟨clause_of_reached hne (htable x hx) ho hl hwanted.1, hwanted.2⟩

/-- The clause loses no row, and so pages read from SQLite are those of the in-memory source, exactly
    where each start cell up to the first that decides is one SQLite compares as the engine does. -/
theorem start_clause_exact (display : F64 → List UInt8) (reverse : Bool) (hne : order ≠ []) (ho : StartOf columns start order) :
    (StartComplete display start reverse columns order ∧ PagesAgree display start reverse columns order) ↔
      StartLowered start reverse columns order := by
  constructor
  · intro h
    by_contra hl
    obtain ⟨x, hx, hreach, hlost⟩ := @lost_row display _ _ _ _ ho hl
    refine hlost (startGroups_lowered.mp ?_)
    have hholds := h.1 x hx hreach
    cases order with
    | nil => exact absurd rfl hne
    | cons p order =>
      rw [gatherStartConstraints] at hholds
      split at hholds
      · exact (Expr.holds_and.mp hholds).2
      · exact hholds
  · intro hl
    exact ⟨fun x hx hr => clause_of_reached hne hx ho hl hr, pagesAgree_of_lowered hne ho hl⟩

end

/-! ## A bound without the primary key -/

/-- `issues(id, created)`, both NOT NULL; a page ordered by `created` after the bound `created = 5`. -/
def issueColumns : List ColumnDef := [⟨.string, false⟩, ⟨.number, false⟩]

def issueSchema : Schema := Schema.new ["id", "created"] [0] [(0, true)]

def createdBound : AstBound := { row := [("created", .int 5)], exclusive := false }

/-- The bound leaves the appended `id` null, and the row `("a", 5)`, past it, is lost. -/
theorem bound_without_key_loses_row :
    lowerStart createdBound issueSchema = .ok ⟨[.null, .int 5], .atRow⟩ ∧
      StoredRow issueColumns [.text [97], .int 5] ∧
      startReached ⟨[.null, .int 5], .atRow⟩ [(1, true), (0, true)] false (readRow issueColumns [.text [97], .int 5]) = true ∧
      (gatherStartConstraints (fun _ => []) ⟨[.null, .int 5], .atRow⟩ false issueColumns [(1, true), (0, true)]).eval
        (storedCell [.text [97], .int 5]) = none := by
  refine ⟨rfl, ?_, ?_, ?_⟩ <;> decide +kernel

/-- Read downward the same bound loses nothing: null is below every id. -/
theorem bound_without_key_descending :
    StartComplete (fun _ => []) ⟨[.null, .int 5], .atRow⟩ false issueColumns [(1, true), (0, false)] ∧
      PagesAgree (fun _ => []) ⟨[.null, .int 5], .atRow⟩ false issueColumns [(1, true), (0, false)] := by
  refine (start_clause_exact (fun _ => []) false (by decide) ⟨?_, ?_⟩).mpr ?_
  · decide
  · intro p hp
    simp only [List.mem_cons, List.not_mem_nil, or_false] at hp
    rcases hp with rfl | rfl
    · exact Or.inr ⟨rfl, by decide⟩
    · exact Or.inl rfl
  · intro _
    rfl

end Rindle.Sqlite
