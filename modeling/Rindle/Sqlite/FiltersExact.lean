/-
  Rindle.Sqlite.FiltersExact — the WHERE clause against the row predicate.

  Both lowerings of a leaf are compared with one meaning on cells (`LeafHolds`). The predicate
  always has it (`createPredicate_eval`); the clause has it except for a NOT IN on two kinds of
  row (`notInLowered`): a null cell against an empty list, which SQL calls TRUE, and a cell that
  a list with a null member does not hold, which SQL calls unknown. AND and OR are monotone on
  both sides, so a tree whose leaves are lowered is.
-/

import Rindle.Keys
import Rindle.Sqlite.Filters
import Rindle.Sqlite.StartExact

set_option linter.dupNamespace false

namespace Rindle.Sqlite

open Sql Glob

/-! ## One thing or null, on both sides -/

/-- The engine's cell and SQLite's value are both null or stand for one thing. -/
def Shows (k : Kind) (v : Value) (x : SqlValue) : Prop := (v = .null ∧ x = .null) ∨ Pictures k v x

section
variable {k : Kind} {v w : Value} {x y : SqlValue}

theorem Shows.null_iff (h : Shows k v x) : x = .null ↔ v = .null := by
  rcases h with ⟨rfl, rfl⟩ | h
  · simp
  · constructor
    · intro hx
      exact absurd hx h.ne_null
    · intro hv
      rw [hv] at h
      exact absurd h.kind (by simp [Value.kind])

theorem isNull_iff : v.isNull = true ↔ v = .null := by
  cases v <;> simp [Value.isNull]

theorem Shows.fits (h : Shows k v x) : v.fits k = true := by
  rcases h with ⟨rfl, -⟩ | h
  · rfl
  · exact Value.fits_of_kind h.kind

theorem Shows.cmp_eq (hv : Shows k v x) (hw : Shows k w y) : SqlValue.cmp x y = Value.cmp v w := by
  rcases hv with ⟨rfl, rfl⟩ | hv
  · rcases hw with ⟨rfl, rfl⟩ | hw
    · rfl
    · rw [cmp_null_left hw.ne_null, cmp_null_value hw.kind]
  · rcases hw with ⟨rfl, rfl⟩ | hw
    · rw [cmp_null_right hv.ne_null, cmp_value_null hv.kind]
    · exact cmp_eq_cmp hv hw

theorem valuesIdentical_eq (hv : v.fits k = true) (hw : w.fits k = true) : valuesIdentical v w = (Value.cmp v w == .eq) := by
  rw [Bool.eq_iff_iff, ← compareValues_eq_eq, compareValues_eq hv hw]
  simp

/-- The predicate's identity is SQLite's IS. -/
theorem Shows.identical (hv : Shows k v x) (hw : Shows k w y) : (SqlValue.cmp x y == .eq) = valuesIdentical v w := by
  rw [hv.cmp_eq hw, valuesIdentical_eq hv.fits hw.fits]

/-- A value a column of this type holds, and the cell it is read as. -/
theorem stored_shows {ty : ValueType} (hs : Stored ty x = true) : Shows ty.kind (readCell (colTypeOf ty) x) x := by
  by_cases hx : x = .null
  · subst hx
    exact Or.inl ⟨readCell_null _, rfl⟩
  · exact Or.inr (readCell_pictures hs hx)

end

/-! ## Literals -/

/-- A scalar literal of a column's kind, or null. A NaN is no JSON value. -/
def LitOf (k : Kind) : Lit → Bool
  | .null => true
  | .bool _ => k == .bool
  | .int _ => k == .number
  | .number f => k == .number && !f.isNan
  | .str _ => k == .str
  | .array _ => false

section
variable {display : F64 → List UInt8} {k : Kind} {lit : Lit} {v : Value}

theorem numberToOwned_kind {f : F64} (h : f.isNan = false) :
    (numberToOwned f).kind = some .number ∧ Plain (numberToOwned f) = true := by
  have hz := numberToOwned_ne_negZero f
  unfold numberToOwned at hz ⊢
  split at hz
  · rename_i hint
    rw [if_pos hint]
    exact ⟨rfl, rfl⟩
  · rename_i hint
    rw [if_neg hint]
    refine ⟨rfl, ?_⟩
    simp only [Plain, h, Bool.not_false, Bool.true_and, bne_iff_ne]
    intro hf
    exact hz (congrArg Value.float hf)

/-- A literal is null or a cell of its column's kind. -/
theorem litToScalar_kind (hl : LitOf k lit = true) (h : litToScalar lit = .ok v) :
    v = .null ∨ (v.kind = some k ∧ Plain v = true ∧ (jsTypeOf v).kind = k) := by
  cases lit with
  | null => cases h; exact Or.inl rfl
  | bool b =>
    cases h
    rw [LitOf, beq_iff_eq] at hl
    subst hl
    exact Or.inr ⟨rfl, rfl, rfl⟩
  | int i =>
    cases h
    rw [LitOf, beq_iff_eq] at hl
    subst hl
    exact Or.inr ⟨rfl, rfl, rfl⟩
  | number f =>
    cases h
    simp only [LitOf, Bool.and_eq_true, beq_iff_eq, Bool.not_eq_true'] at hl
    obtain ⟨rfl, hn⟩ := hl
    obtain ⟨hk, hp⟩ := numberToOwned_kind hn
    refine Or.inr ⟨hk, hp, ?_⟩
    cases hv : numberToOwned f <;> rw [hv] at hk <;> first | rfl | cases hk
  | str b =>
    cases h
    rw [LitOf, beq_iff_eq] at hl
    subst hl
    exact Or.inr ⟨rfl, rfl, rfl⟩
  | array _ => cases hl

/-- A literal is bound as what it stands for. -/
theorem lit_shows (hl : LitOf k lit = true) (h : litToScalar lit = .ok v) (row : Nat → SqlValue) :
    Shows k v ((valuePositionToSql display (.literal v)).eval row) := by
  rcases litToScalar_kind hl h with rfl | ⟨hk, hp, hty⟩
  · exact Or.inl ⟨rfl, rfl⟩
  · refine Or.inr ?_
    have := @toSqliteParam_pictures display (jsTypeOf v) v (by rw [hty]; exact hk) hp
    rw [hty] at this
    exact this

/-- The value an array element is bound as. -/
def litParam (display : F64 → List UInt8) (lit : Lit) : SqlValue :=
  match litToScalar lit with
  | .ok v => (toSqliteParam display v (jsTypeOf v)).bound
  | .error _ => .null

theorem mapM_ok {elems : List Lit} {ws : List Value} (h : elems.mapM litToScalar = .ok ws) :
    List.Forall₂ (fun e w => litToScalar e = .ok w) elems ws := by
  induction elems generalizing ws with
  | nil => cases h; exact .nil
  | cons e elems ih =>
    rw [List.mapM_cons, bind_ok] at h
    obtain ⟨w, hw, h⟩ := h
    rw [bind_ok] at h
    obtain ⟨ws', hws, h⟩ := h
    cases h
    exact .cons hw (ih hws)

theorem elems_shows {elems : List Lit} {ws : List Value} (hl : ∀ e ∈ elems, LitOf k e = true)
    (h : elems.mapM litToScalar = .ok ws) : List.Forall₂ (Shows k) ws (elems.map (litParam display)) := by
  have hpairs := mapM_ok h
  clear h
  induction hpairs with
  | nil => exact .nil
  | cons hw _ ih =>
    rw [List.forall_mem_cons] at hl
    refine .cons ?_ (ih hl.2)
    have := @lit_shows display _ _ _ hl.1 hw (fun _ => .null)
    rw [litParam, hw]
    exact this

end

/-! ## What a leaf says of a cell -/

/-- The operators by what they do. -/
inductive OpShape where
  | compare (op : Sql.CmpOp)
  | is (negated : Bool)
  | like (caseInsensitive negated : Bool)
  | isIn (negated : Bool)
  deriving DecidableEq

@[grind] def shape : CondOp → OpShape
  | .eq => .compare .eq
  | .ne => .compare .ne
  | .lt => .compare .lt
  | .le => .compare .le
  | .gt => .compare .gt
  | .ge => .compare .ge
  | .is => .is false
  | .isNot => .is true
  | .like => .like false false
  | .notLike => .like false true
  | .iLike => .like true false
  | .notILike => .like true true
  | .isIn => .isIn false
  | .notIn => .isIn true

/-- The two-valued meaning of a leaf on the cell on its left. -/
@[grind] def LeafHolds (right : Lit) (v : Value) : OpShape → Prop
  | .compare op => ∃ w, litToScalar right = .ok w ∧ v ≠ .null ∧ w ≠ .null ∧ op.test (Value.cmp v w) = true
  | .is negated => ∃ w, litToScalar right = .ok w ∧ (valuesIdentical v w ^^ negated) = true
  | .like ci negated =>
    ∃ pattern text, right = .str pattern ∧ v.likeText = some text ∧
      (((LikeMatcher.compileWithCase pattern ci).matches? text) ^^ negated) = true
  | .isIn negated =>
    ∃ elems ws, right = .array elems ∧ elems.mapM litToScalar = .ok ws ∧ v ≠ .null ∧
      ((ws.any fun w => valuesIdentical w v) ^^ negated) = true

/-- ASCII text: there SQLite's characters are bytes. -/
def Ascii (text : List UInt8) : Prop := ∀ c ∈ text, c < 128

/-- A pattern that escapes only `%`, `_` and the escape. -/
@[grind] def wellEscaped : List UInt8 → Bool
  | [] => true
  | b :: pattern =>
    if b = 92 then
      match pattern with
      | n :: pattern => LikeMatcher.isSpecial n && wellEscaped pattern
      | [] => false
    else wellEscaped pattern

/-- What stands on the right of a leaf over a column of kind `k`. -/
def RightOf (k : Kind) (right : Lit) : OpShape → Prop
  | .compare _ => LitOf k right = true
  | .is _ => LitOf k right = true
  | .like _ _ => right = .null ∨ (k = .str ∧ ∃ pattern, right = .str pattern ∧ Ascii pattern ∧ wellEscaped pattern = true)
  | .isIn _ => right = .null ∨ ∃ elems, right = .array elems ∧ ∀ e ∈ elems, LitOf k e = true

/-! ## The predicate -/

section
variable {k : Kind} {v w : Value} {right : Lit} {row : Row} {col : Nat}

/-- The comparison of the same name. -/
def sqlCmpOp : Predicate.CmpOp → Sql.CmpOp
  | .eq => .eq
  | .ne => .ne
  | .lt => .lt
  | .le => .le
  | .gt => .gt
  | .ge => .ge

theorem cmpOp_eval (op : Predicate.CmpOp) (hv : v.fits k = true) (hw : w.fits k = true) (hn : w ≠ .null) :
    op.eval v w = (sqlCmpOp op).test (Value.cmp v w) := by
  have hnull : w.isNull = false := by
    rw [Bool.eq_false_iff]
    exact fun h => hn (isNull_iff.mp h)
  cases op <;>
    simp [Predicate.CmpOp.eval, sqlCmpOp, Sql.CmpOp.test, valuesIdentical_eq hv hw, comparePredicateValues_eq hv hw, hnull, bne]

theorem litToScalar_ne_null (hn : right.isNull = false) (h : litToScalar right = .ok w) : w ≠ .null := by
  intro hw
  subst hw
  cases right with
  | null => cases hn
  | number f =>
    have : numberToOwned f = .null := Except.ok.inj h
    unfold numberToOwned at this
    split at this <;> cases this
  | _ => cases h

theorem likeText_some (h : v = .null ∨ v.kind = some .str) (hn : v ≠ .null) : ∃ text, v.likeText = some text := by
  rcases h with h | h
  · exact absurd h hn
  · cases v with
    | str b => exact ⟨b, rfl⟩
    | _ => cases h

/-- A null cell drops the row. -/
theorem unless_null {b : Bool} : (if v.isNull = true then false else b) = true ↔ v ≠ .null ∧ b = true := by
  cases v <;> simp [Value.isNull]

theorem fits_of_cell (h : v = .null ∨ v.kind = some k) : v.fits k = true := by
  rcases h with rfl | h
  · rfl
  · exact Value.fits_of_kind h

/-- The three kinds of predicate `lower_op` builds. -/
theorem cmp_leaf {p : CompiledPredicate} (op : Predicate.CmpOp) (h : litToScalar right >>= (fun w => pure (.cmp col op w)) = .ok p)
    (hn : right.isNull = false) (hcell : row.cell col = .null ∨ (row.cell col).kind = some k) (hr : LitOf k right = true) :
    p.eval row = true ↔ LeafHolds right (row.cell col) (.compare (sqlCmpOp op)) := by
  obtain ⟨w, hw, h⟩ := bind_ok.mp h
  cases h
  have hwn := litToScalar_ne_null hn hw
  have hwf : w.fits k = true := by
    rcases litToScalar_kind hr hw with rfl | ⟨hk, -⟩
    · rfl
    · exact Value.fits_of_kind hk
  rw [CompiledPredicate.eval, unless_null, cmpOp_eval op (fits_of_cell hcell) hwf hwn]
  simp [LeafHolds, hw, hwn]

theorem like_leaf {p : CompiledPredicate} (ci negated : Bool)
    (h : (bif ci then ilikePred col right negated else likePred col right negated) = .ok p)
    (hcell : row.cell col = .null ∨ (row.cell col).kind = some k) (hr : RightOf k right (.like ci negated)) :
    p.eval row = true ↔ LeafHolds right (row.cell col) (.like ci negated) := by
  obtain ⟨pattern, rfl, rfl⟩ : ∃ pattern, right = .str pattern ∧ p = .like col (LikeMatcher.compileWithCase pattern ci) negated := by
    cases right <;> cases ci <;> first
      | (cases h; exact ⟨_, rfl, rfl⟩)
      | cases h
  rcases hr with hr | ⟨rfl, -⟩
  · cases hr
  rw [CompiledPredicate.eval, unless_null]
  constructor
  · intro h
    obtain ⟨hne, hm⟩ := h
    obtain ⟨text, htext⟩ := likeText_some hcell hne
    rw [htext, Option.any_some] at hm
    exact ⟨pattern, text, rfl, htext, hm⟩
  · intro h
    obtain ⟨_, text, heq, htext, hm⟩ := h
    cases heq
    refine ⟨?_, by rw [htext]; exact hm⟩
    intro hv
    rw [hv] at htext
    cases htext

theorem in_leaf {p : CompiledPredicate} {negated : Bool} (h : inPred col right negated = .ok p) :
    p.eval row = true ↔ LeafHolds right (row.cell col) (.isIn negated) := by
  cases right with
  | array elems =>
    obtain ⟨ws, hws, h⟩ := bind_ok.mp h
    cases h
    rw [CompiledPredicate.eval, unless_null]
    simp [LeafHolds, hws, Predicate.ValueSet.contains]
  | _ => cases h

/-- `lower_op` builds the leaf's meaning. -/
theorem lowerOp_eval {op : CondOp} {p : CompiledPredicate} (h : lowerOp op col right = .ok p) (hn : right.isNull = false)
    (hcell : row.cell col = .null ∨ (row.cell col).kind = some k) (hr : RightOf k right (shape op)) :
    p.eval row = true ↔ LeafHolds right (row.cell col) (shape op) := by
  cases op with
  | eq => exact cmp_leaf .eq h hn hcell hr
  | ne => exact cmp_leaf .ne h hn hcell hr
  | lt => exact cmp_leaf .lt h hn hcell hr
  | le => exact cmp_leaf .le h hn hcell hr
  | gt => exact cmp_leaf .gt h hn hcell hr
  | ge => exact cmp_leaf .ge h hn hcell hr
  | is => cases h
  | isNot => cases h
  | like => exact like_leaf false false h hcell hr
  | notLike => exact like_leaf false true h hcell hr
  | iLike => exact like_leaf true false h hcell hr
  | notILike => exact like_leaf true true h hcell hr
  | isIn => exact in_leaf h
  | notIn => exact in_leaf h

/-- The cell on the left of a leaf. -/
def leftValue (schema : Schema) (row : Row) : ValuePosition → Except BuildError Value
  | .column name => do pure (row.cell (← colId schema name))
  | .literal value => litToScalar value

theorem not_leafHolds_null {op : OpShape} (h : right.isNull = true) (hop : ∀ negated, op ≠ .is negated) : ¬ LeafHolds right v op := by
  cases right with
  | null =>
    cases op with
    | compare o =>
      intro h
      obtain ⟨w, hw, -, hne, -⟩ := h
      exact hne (Except.ok.inj hw).symm
    | is negated => exact absurd rfl (hop negated)
    | like ci negated => intro h; obtain ⟨_, _, heq, -⟩ := h; cases heq
    | isIn negated => intro h; obtain ⟨_, _, heq, -⟩ := h; cases heq
  | _ => cases h

theorem not_leafHolds_left {op : OpShape} (hop : ∀ negated, op ≠ .is negated) : ¬ LeafHolds right .null op := by
  cases op with
  | compare o => intro h; obtain ⟨_, -, hne, -⟩ := h; exact hne rfl
  | is negated => exact absurd rfl (hop negated)
  | like ci negated => intro h; obtain ⟨_, _, -, htext, -⟩ := h; cases htext
  | isIn negated => intro h; obtain ⟨_, _, -, -, hne, -⟩ := h; exact hne rfl

theorem valuesIdentical_null : valuesIdentical v .null = v.isNull := by
  cases v <;> rfl

theorem shape_is {op : CondOp} : (op = .is ∨ op = .isNot) ↔ shape op = .is (op == .isNot) := by
  cases op <;> simp [shape]

/-- The predicate of a leaf has its meaning. -/
theorem createPredicate_eval {schema : Schema} {sc : SimpleCondition} {p : CompiledPredicate} (h : createPredicate sc schema = .ok p)
    (hright : sc.right = .literal right) (hv : leftValue schema row sc.left = .ok v) (hcell : v = .null ∨ v.kind = some k)
    (hr : RightOf k right (shape sc.op)) : p.eval row = true ↔ LeafHolds right v (shape sc.op) := by
  rw [createPredicate, hright] at h
  simp only at h
  by_cases his : sc.op = .is ∨ sc.op = .isNot
  · rw [if_pos his, bind_ok] at h
    obtain ⟨w, hw, h⟩ := h
    rw [shape_is.mp his]
    have hleaf : LeafHolds right v (.is (sc.op == .isNot)) ↔ (valuesIdentical v w ^^ (sc.op == .isNot)) = true := by
      simp [LeafHolds, hw]
    rw [hleaf]
    cases hleft : sc.left with
    | column name =>
      rw [hleft] at h hv
      obtain ⟨c, hc, h⟩ := bind_ok.mp h
      obtain ⟨c', hc', hv⟩ := bind_ok.mp hv
      rw [hc] at hc'
      cases hc'
      cases hv
      cases h
      cases right with
      | null =>
        cases hw
        simp only [Lit.isNull, if_true, CompiledPredicate.eval, valuesIdentical_null]
      | _ => rfl
    | literal value =>
      rw [hleft] at h hv
      obtain ⟨lhs, hlhs, h⟩ := bind_ok.mp h
      rw [show litToScalar value = .ok v from hv] at hlhs
      cases hlhs
      cases h
      rfl
  · rw [if_neg his] at h
    have hop : ∀ negated, shape sc.op ≠ .is negated := by
      intro negated hs
      apply his
      cases hop : sc.op <;> rw [hop] at hs <;> simp [shape] at hs ⊢
    by_cases hnull : right.isNull = true
    · rw [if_pos hnull] at h
      cases h
      simp [CompiledPredicate.eval, not_leafHolds_null hnull hop]
    rw [if_neg hnull] at h
    have hnn : right.isNull = false := by simpa using hnull
    cases hleft : sc.left with
    | column name =>
      rw [hleft] at h hv
      obtain ⟨c, hc, h⟩ := bind_ok.mp h
      obtain ⟨c', hc', hv⟩ := bind_ok.mp hv
      rw [hc] at hc'
      cases hc'
      cases hv
      exact lowerOp_eval h hnn hcell hr
    | literal value =>
      rw [hleft] at h hv
      simp only at h
      by_cases hvn : value.isNull = true
      · rw [if_pos hvn] at h
        cases h
        cases value with
        | null =>
          cases hv
          simp [CompiledPredicate.eval, not_leafHolds_left hop]
        | _ => cases hvn
      · rw [if_neg hvn] at h
        obtain ⟨lhs, hlhs, h⟩ := bind_ok.mp h
        rw [show litToScalar value = .ok v from hv] at hlhs
        cases hlhs
        obtain ⟨_, -, h⟩ := bind_ok.mp h
        obtain ⟨probe, hprobe, h⟩ := bind_ok.mp h
        cases h
        exact @lowerOp_eval k right [v] 0 sc.op probe hprobe hnn hcell hr

end

/-! ## LIKE -/

section
open LikeMatcher

/-- A well-escaped pattern has one reading on both sides. -/
theorem likeTokens_reading {pattern : List UInt8} (h : wellEscaped pattern = true) :
    ∃ ts, likeTokens pattern = some ts ∧ ts.map LikeToken.piece = reading false pattern := by
  have htest : ∀ c : UInt8, test false c = (c == ·) := fun c => by funext a; simp [test]
  have hof : ∀ (c : UInt8) (pattern : List UInt8), c ≠ 92 →
      reading false (c :: pattern) = (LikeToken.of c).piece :: reading false pattern := by
    intro c pattern hc
    rw [reading_cons false pattern hc, LikeToken.of]
    split
    · rfl
    · split
      · rfl
      · rw [htest]; rfl
  fun_induction likeTokens pattern with
  | case1 => exact ⟨[], rfl, rfl⟩
  | case2 => cases h
  | case3 c hc => exact ⟨_, rfl, by rw [hof c [] hc]; rfl⟩
  | case4 e pattern ih =>
    simp only [wellEscaped, if_true, Bool.and_eq_true] at h
    obtain ⟨ts, hts, hpieces⟩ := ih h.2
    refine ⟨.char e :: ts, by rw [hts]; rfl, ?_⟩
    rw [List.map_cons, hpieces, reading, if_pos rfl]
    simp only [h.1, if_true, htest]
    rfl
  | case5 c e pattern hc ih =>
    rw [wellEscaped, if_neg hc] at h
    obtain ⟨ts, hts, hpieces⟩ := ih h
    exact ⟨.of c :: ts, by rw [hts]; rfl, by rw [List.map_cons, hpieces, hof c _ hc]⟩

theorem wellEscaped_lower (pattern : List UInt8) : wellEscaped (pattern.map asciiLower) = wellEscaped pattern := by
  fun_induction wellEscaped pattern with
  | case1 => rfl
  | case2 n pattern ih =>
    have hesc : asciiLower 92 = 92 := by decide
    rw [List.map_cons, List.map_cons, hesc, wellEscaped, if_pos rfl]
    simp only [isSpecial_asciiLower, ih]
  | case3 => rfl
  | case4 b pattern hb ih =>
    have hesc := mt (asciiLower_special b).1.mp hb
    cases pattern <;> simp_all [wellEscaped]

theorem likeMatch_eq {pattern text : List UInt8} (h : wellEscaped pattern = true) :
    likeMatch pattern text = (compileWithCase pattern false).matches? text := by
  obtain ⟨ts, hts, hpieces⟩ := likeTokens_reading h
  rw [Bool.eq_iff_iff, compile_matches_iff, likeMatch, hts, Option.any_some, likeRun_iff, hpieces]

theorem likeMatch_lower {pattern text : List UInt8} (h : wellEscaped pattern = true) :
    likeMatch (pattern.map asciiLower) (text.map asciiLower) = (compileWithCase pattern true).matches? text := by
  rw [likeMatch_eq (by rw [wellEscaped_lower]; exact h), Bool.eq_iff_iff, compile_matches_iff, compile_matches_iff, fold_matches_iff]

end

/-! ## The clause -/

/-- SQL agrees on a NOT IN with these members: a null cell needs a member, and a cell outside the list
    a list without null. -/
def notInLowered (v : Value) (ws : List Value) : Bool :=
  if v.isNull then !ws.isEmpty else !ws.any Value.isNull || ws.any fun w => valuesIdentical w v

section
variable {display : F64 → List UInt8} {each : List UInt8 → List SqlValue} {stored : Nat → SqlValue} {k : Kind} {v w : Value}
  {right : Lit} {l r : Operand}

theorem compare_clause (op : Sql.CmpOp) (hl : Shows k v (l.eval stored)) (hr : Shows k w (r.eval stored)) :
    (Expr.cmp op l r).Holds stored ↔ v ≠ .null ∧ w ≠ .null ∧ op.test (Value.cmp v w) = true := by
  rw [Expr.holds_cmp, hl.cmp_eq hr, ne_eq, ne_eq, hl.null_iff, hr.null_iff]

theorem is_clause (negated : Bool) (hl : Shows k v (l.eval stored)) (hr : Shows k w (r.eval stored)) :
    (Expr.is negated l r).Holds stored ↔ (valuesIdentical v w ^^ negated) = true := by
  rw [← hl.identical hr]
  simp [Expr.Holds, Expr.eval]

/-- A clause over text, or over text in lower case. -/
theorem like_clause {pattern : List UInt8} (ci negated : Bool) (hl : Shows .str v (l.eval stored))
    (hr : r.eval stored = .text pattern) (hesc : wellEscaped pattern = true) :
    (bif ci then Expr.like negated (.lower l) (.lower r) else Expr.like negated l r).Holds stored ↔
      LeafHolds (.str pattern) v (.like ci negated) := by
  have hleaf : ∀ text, v = .str text → (LeafHolds (.str pattern) v (.like ci negated) ↔
      ((LikeMatcher.compileWithCase pattern ci).matches? text ^^ negated) = true) := by
    intro text htext
    subst htext
    constructor
    · intro h
      obtain ⟨_, _, h1, h2, hm⟩ := h
      cases h1
      cases h2
      exact hm
    · intro h
      exact ⟨pattern, text, rfl, rfl, h⟩
  rcases hl with ⟨rfl, hx⟩ | ⟨text, hv, hx⟩
  · have hno : ¬ LeafHolds (.str pattern) .null (.like ci negated) := not_leafHolds_left (fun _ => by simp)
    cases ci <;> simp [Expr.Holds, Expr.eval, Operand.eval, hx, hr, likeTruth, SqlValue.lower, Truth.negateIf, hno]
  · rw [hleaf text hv]
    cases ci with
    | false => simp [Expr.Holds, Expr.eval, hx, hr, likeTruth, Truth.negateIf, likeMatch_eq hesc]
    | true => simp [Expr.Holds, Expr.eval, Operand.eval, hx, hr, SqlValue.lower, likeTruth, Truth.negateIf, likeMatch_lower hesc]

variable {ys : List SqlValue}

theorem any_identical {x : SqlValue} {ws : List Value} (hv : Shows k v x) (hne : x ≠ .null)
    (h : List.Forall₂ (Shows k) ws ys) :
    (ys.any fun y => y != .null && x.cmp y == .eq) = ws.any fun w => valuesIdentical w v := by
  induction h with
  | nil => rfl
  | cons hw _ ih =>
    rename_i w y _ _ _
    rw [List.any_cons, List.any_cons, ih]
    congr 1
    by_cases hy : y = .null
    · subst hy
      have hcmp : SqlValue.cmp .null x = .lt := cmp_null_left hne
      rw [← hw.identical hv, hcmp]
      rfl
    · have hcomm : (SqlValue.cmp x y == .eq) = (SqlValue.cmp y x == .eq) := by
        rw [Bool.eq_iff_iff, beq_iff_eq, beq_iff_eq]
        exact Std.OrientedCmp.eq_comm
      have hy' : (y != .null) = true := by simpa using hy
      rw [hy', Bool.true_and, hcomm, hw.identical hv]

theorem any_null {ws : List Value} (h : List.Forall₂ (Shows k) ws ys) :
    ys.any (· == .null) = ws.any Value.isNull := by
  induction h with
  | nil => rfl
  | cons hw _ ih =>
    rw [List.any_cons, List.any_cons, ih]
    congr 1
    rw [Bool.eq_iff_iff, beq_iff_eq, hw.null_iff, isNull_iff]

/-- An IN agrees, and a NOT IN exactly where `notInLowered` says. -/
theorem in_clause {elems : List Lit} {ws : List Value} (negated : Bool) (hl : Shows k v (l.eval stored))
    (hws : elems.mapM litToScalar = .ok ws) (hys : List.Forall₂ (Shows k) ws ys) :
    ((Expr.inEach negated l ys).Holds stored ↔ LeafHolds (.array elems) v (.isIn negated)) ↔
      (negated = true → notInLowered v ws = true) := by
  have hleaf : LeafHolds (.array elems) v (.isIn negated) ↔ v ≠ .null ∧ ((ws.any fun w => valuesIdentical w v) ^^ negated) = true := by
    simp [LeafHolds, hws]
  have hempty : ys.isEmpty = ws.isEmpty := by cases hys <;> rfl
  rw [hleaf]
  unfold Expr.Holds Expr.eval inTruth notInLowered
  rw [hempty, any_null hys]
  by_cases hv : v = .null
  · have hx : l.eval stored = .null := hl.null_iff.mpr hv
    subst hv
    cases hws : ws.isEmpty <;> cases negated <;> simp [hx, Truth.negateIf, Value.isNull]
  · have hx : l.eval stored ≠ .null := fun h => hv (hl.null_iff.mp h)
    have hvn : v.isNull = false := by
      rw [Bool.eq_false_iff]
      exact fun h => hv (isNull_iff.mp h)
    rw [any_identical hl hx hys, hvn]
    cases ws with
    | nil => cases negated <;> simp [Truth.negateIf, hv]
    | cons w ws =>
      cases ((w :: ws).any fun w => valuesIdentical w v) <;> cases (w :: ws).any Value.isNull <;> cases negated <;>
        simp [Truth.negateIf, hv, hx]

end

/-! ## Leaves -/

/-- What stands on the left of a leaf: a column of the kind, or a literal of it. -/
def LeftOf (schema : Schema) (columns : List ColumnDef) (k : Kind) : ValuePosition → Prop
  | .column name => ∃ c col, schema.colId name = some c ∧ columns[c]? = some col ∧ col.ty.kind = k
  | .literal value => LitOf k value = true

/-- The literals of a leaf are of its column's type, and LIKE is asked of ASCII text only. -/
def TypedLeaf (schema : Schema) (columns : List ColumnDef) (row : Row) (sc : SimpleCondition) : Prop :=
  ∃ k right, sc.right = .literal right ∧ LeftOf schema columns k sc.left ∧ RightOf k right (shape sc.op) ∧
    ∀ ci negated text, shape sc.op = .like ci negated → leftValue schema row sc.left = .ok (.str text) → Ascii text

/-- `json_each` over an IN list yields the values of its elements, and over a JSON null one NULL. -/
def EachYields (display : F64 → List UInt8) (each : List UInt8 → List SqlValue) (sc : SimpleCondition) : Prop :=
  ∀ negated, shape sc.op = .isIn negated → each jsonNull = [.null] ∧
    ∀ elems, sc.right = .literal (.array elems) → each (litToJson display (.array elems)) = elems.map (litParam display)

/-- A NOT IN on a row where SQL agrees with the predicate. -/
def NotInLowered (schema : Schema) (row : Row) (sc : SimpleCondition) : Prop :=
  ∀ elems ws v, sc.op = .notIn → sc.right = .literal (.array elems) → elems.mapM litToScalar = .ok ws →
    leftValue schema row sc.left = .ok v → notInLowered v ws = true

section
variable {display : F64 → List UInt8} {each : List UInt8 → List SqlValue} {schema : Schema} {columns : List ColumnDef}
  {row : List SqlValue} {k : Kind} {right : Lit} {v : Value}

theorem simpleConditionToSql_shape (left : SqlOperand) (op : CondOp) (right : SqlOperand) :
    simpleConditionToSql display each left op right =
      match shape op with
      | .compare o => compareToSql display o left right
      | .is negated => .is negated (valuePositionToSql display left) (valuePositionToSql display right)
      | .like ci negated => likeConditionToSql display left right ci negated
      | .isIn negated => inConditionToSql display each left right negated := by
  cases op <;> rfl

theorem litToScalar_ok (h : LitOf k right = true) : ∃ w, litToScalar right = .ok w ∧ litToSqlValue display right = .ok w := by
  cases right with
  | array _ => cases h
  | _ => exact ⟨_, rfl, rfl⟩

theorem elems_ok {elems : List Lit} (h : ∀ e ∈ elems, LitOf k e = true) : ∃ ws, elems.mapM litToScalar = .ok ws := by
  induction elems with
  | nil => exact ⟨[], rfl⟩
  | cons e elems ih =>
    rw [List.forall_mem_cons] at h
    obtain ⟨w, hw, -⟩ := @litToScalar_ok (fun _ => []) k e h.1
    obtain ⟨ws, hws⟩ := ih h.2
    exact ⟨w :: ws, by rw [List.mapM_cons, hw, hws]; rfl⟩

/-- The left side, on both sides. -/
theorem left_shows (hrow : StoredRow columns row) {left : ValuePosition} (h : LeftOf schema columns k left) :
    ∃ v l, leftValue schema (readRow columns row) left = .ok v ∧ valuePositionToSqlOperand display left schema = .ok l ∧
      Shows k v ((valuePositionToSql display l).eval (storedCell row)) := by
  cases left with
  | column name =>
    obtain ⟨c, col, hc, hcol, rfl⟩ := h
    obtain ⟨hs, -, hcell⟩ := hrow.cell hcol
    have hid : colId schema name = .ok c := by rw [colId, hc]
    refine ⟨_, .column c, by rw [leftValue, hid]; rfl, by rw [valuePositionToSqlOperand, hid]; rfl, ?_⟩
    show Shows col.ty.kind ((readRow columns row).cell c) (storedCell row c)
    rw [hcell]
    exact stored_shows hs
  | literal value =>
    obtain ⟨w, hw, hsql⟩ := @litToScalar_ok display k value h
    exact ⟨w, .literal w, hw, by rw [valuePositionToSqlOperand, hsql]; rfl, lit_shows h hw _⟩

theorem Shows.cell {x : SqlValue} (h : Shows k v x) : v = .null ∨ v.kind = some k := by
  rcases h with ⟨rfl, -⟩ | h
  · exact Or.inl rfl
  · exact Or.inr h.kind

/-- The clause of a leaf has its meaning, but for a NOT IN that is not lowered. -/
theorem simpleConditionToSql_holds {sc : SimpleCondition} {l : SqlOperand} (hv : leftValue schema (readRow columns row) sc.left = .ok v)
    (hl : Shows k v ((valuePositionToSql display l).eval (storedCell row))) (hright : sc.right = .literal right)
    (hr : RightOf k right (shape sc.op)) (he : EachYields display each sc) :
    ∃ rv, litToSqlValue display right = .ok rv ∧
      (((simpleConditionToSql display each l sc.op (.literal rv)).Holds (storedCell row) ↔ LeafHolds right v (shape sc.op)) ↔
        NotInLowered schema (readRow columns row) sc) := by
  have hfree : shape sc.op ≠ .isIn true → NotInLowered schema (readRow columns row) sc := by
    intro hne elems ws v hop
    rw [hop] at hne
    exact absurd rfl hne
  cases hs : shape sc.op with
  | compare o =>
    rw [hs] at hr hfree
    obtain ⟨w, hw, hsql⟩ := @litToScalar_ok display k right hr
    refine ⟨w, hsql, iff_of_true ?_ (hfree (by simp))⟩
    rw [simpleConditionToSql_shape, hs]
    show (Expr.cmp o _ _).Holds _ ↔ _
    rw [compare_clause o hl (lit_shows hr hw _)]
    simp [LeafHolds, hw]
  | is negated =>
    rw [hs] at hr hfree
    obtain ⟨w, hw, hsql⟩ := @litToScalar_ok display k right hr
    refine ⟨w, hsql, iff_of_true ?_ (hfree (by simp))⟩
    rw [simpleConditionToSql_shape, hs]
    show (Expr.is negated _ _).Holds _ ↔ _
    rw [is_clause negated hl (lit_shows hr hw _)]
    simp [LeafHolds, hw]
  | like ci negated =>
    rw [hs] at hr hfree
    rcases hr with rfl | ⟨rfl, pattern, rfl, -, hesc⟩
    · refine ⟨.null, rfl, iff_of_true ?_ (hfree (by simp))⟩
      have hno : ¬ LeafHolds .null v (.like ci negated) := not_leafHolds_null rfl (fun _ => by simp)
      rw [simpleConditionToSql_shape, hs]
      have hnull : ∀ x : SqlValue, likeTruth x .null = none := fun x => by cases x <;> rfl
      cases ci <;>
        simp [likeConditionToSql, valuePositionToSql, toSqliteParam, jsTypeOf, Expr.Holds, Expr.eval, Operand.eval, SqlValue.bound,
          SqlValue.lower, hnull, Truth.negateIf, hno]
    · refine ⟨.str pattern, rfl, iff_of_true ?_ (hfree (by simp))⟩
      rw [simpleConditionToSql_shape, hs]
      have := @like_clause (storedCell row) v (valuePositionToSql display l) (valuePositionToSql display (.literal (.str pattern)))
        pattern ci negated hl rfl hesc
      cases ci <;> exact this
  | isIn negated =>
    rw [hs] at hr hfree
    obtain ⟨hnull, helems⟩ := he negated hs
    rcases hr with rfl | ⟨elems, rfl, hall⟩
    · refine ⟨.null, rfl, iff_of_true ?_ (fun elems ws v _ h => by rw [hright] at h; cases h)⟩
      have hno : ¬ LeafHolds .null v (.isIn negated) := not_leafHolds_null rfl (fun _ => by simp)
      rw [simpleConditionToSql_shape, hs]
      simp [inConditionToSql, jsonSerialize, hnull, Expr.Holds, Expr.eval, inTruth, Truth.negateIf, hno]
    · obtain ⟨ws, hws⟩ := elems_ok hall
      refine ⟨.json (litToJson display (.array elems)), rfl, ?_⟩
      rw [simpleConditionToSql_shape, hs]
      show ((Expr.inEach negated _ (each (litToJson display (.array elems)))).Holds _ ↔ _) ↔ _
      rw [helems elems hright, in_clause negated hl hws (elems_shows hall hws)]
      constructor
      · intro h elems' ws' v' hop hright' hws' hv'
        rw [hright] at hright'
        cases hright'
        rw [hws] at hws'
        rw [hv] at hv'
        cases hws'
        cases hv'
        rw [hop] at hs
        exact h (by cases hs; rfl)
      · intro h hneg
        subst hneg
        refine h elems ws v ?_ hright hws hv
        cases hop : sc.op <;> rw [hop] at hs <;> simp [shape] at hs ⊢

/-- The two lowerings of a leaf agree on a row exactly when no NOT IN stands in the way. -/
theorem leaf_exact (hrow : StoredRow columns row) {sc : SimpleCondition} (ht : TypedLeaf schema columns (readRow columns row) sc)
    (he : EachYields display each sc) {p : CompiledPredicate} (hp : createPredicate sc schema = .ok p) :
    ∃ c, createSimpleSqlCondition display sc schema = .ok c ∧
      (((filtersToSql display each c).Holds (storedCell row) ↔ p.eval (readRow columns row) = true) ↔
        NotInLowered schema (readRow columns row) sc) := by
  obtain ⟨k, right, hright, hleft, hr, -⟩ := ht
  obtain ⟨v, l, hv, hl, hshow⟩ := @left_shows display schema columns row k hrow sc.left hleft
  obtain ⟨rv, hrv, hiff⟩ := simpleConditionToSql_holds hv hshow hright hr he
  refine ⟨.simple l sc.op (.literal rv), ?_, ?_⟩
  · rw [createSimpleSqlCondition, hl, hright]
    show (do pure (SqlCondition.simple l sc.op (← valuePositionToSqlOperand display (.literal right) schema)) : Except BuildError _) = _
    rw [valuePositionToSqlOperand, hrv]
    rfl
  · rw [createPredicate_eval hp hright hv hshow.cell hr]
    exact hiff

/-! ## Trees -/

/-- A term and a predicate that agree on the row. -/
def Agree (stored : Nat → SqlValue) (row : Row) (e : Expr) (accept : Row → Bool) : Prop := e.Holds stored ↔ accept row = true

theorem agree_all {stored : Nat → SqlValue} {r : Row} {es : List Expr} {preds : List (Row → Bool)}
    (h : List.Forall₂ (Agree stored r) es preds) : (Expr.all es).Holds stored ↔ (preds.all fun p => p r) = true := by
  rw [Expr.holds_all]
  induction h with
  | nil => simp
  | cons hp _ ih =>
    rw [List.forall_mem_cons, List.all_cons, Bool.and_eq_true, ih]
    exact and_congr hp Iff.rfl

theorem agree_any {stored : Nat → SqlValue} {r : Row} {es : List Expr} {preds : List (Row → Bool)}
    (h : List.Forall₂ (Agree stored r) es preds) : (Expr.any es).Holds stored ↔ (preds.any fun p => p r) = true := by
  rw [Expr.holds_any]
  induction h with
  | nil => simp
  | cons hp _ ih =>
    rw [List.exists_mem_cons_iff, List.any_cons, Bool.or_eq_true, ih]
    exact or_congr hp Iff.rfl

variable (display each schema columns) in
/-- What is asked of a leaf before the lowerings are compared. -/
def LeafReady (row : Row) (sc : SimpleCondition) : Prop := TypedLeaf schema columns row sc ∧ EachYields display each sc

mutual

/-- A tree whose leaves agree agrees. -/
theorem tree_agrees (hrow : StoredRow columns row) : ∀ (cond : Condition) {accept : Row → Bool},
    cond.Leaves (LeafReady display each schema columns (readRow columns row)) → createRowPredicate schema cond = .ok accept →
    ∃ c, createSqlCondition display schema cond = .ok c ∧ (cond.Leaves (NotInLowered schema (readRow columns row)) →
      Agree (storedCell row) (readRow columns row) (filtersToSql display each c) accept)
  | .simple sc, accept, hready, h => by
    obtain ⟨p, hp, h⟩ := bind_ok.mp h
    cases h
    obtain ⟨c, hc, hiff⟩ := leaf_exact hrow hready.1 hready.2 hp
    exact ⟨c, hc, hiff.mpr⟩
  | .and conditions, accept, hready, h => by
    obtain ⟨preds, hp, h⟩ := bind_ok.mp h
    cases h
    obtain ⟨cs, hcs, hagree⟩ := trees_agree hrow conditions hready hp
    refine ⟨.and cs, by rw [createSqlCondition, hcs]; rfl, fun hlow => ?_⟩
    rw [filtersToSql]
    exact agree_all (hagree hlow)
  | .or conditions, accept, hready, h => by
    obtain ⟨preds, hp, h⟩ := bind_ok.mp h
    cases h
    obtain ⟨cs, hcs, hagree⟩ := trees_agree hrow conditions hready hp
    refine ⟨.or cs, by rw [createSqlCondition, hcs]; rfl, fun hlow => ?_⟩
    rw [filtersToSql]
    exact agree_any (hagree hlow)
  | .correlatedSubquery _ _, accept, hready, h => by cases h

theorem trees_agree (hrow : StoredRow columns row) : ∀ (conditions : List Condition) {preds : List (Row → Bool)},
    Condition.LeavesOf (LeafReady display each schema columns (readRow columns row)) conditions →
    createRowPredicates schema conditions = .ok preds →
    ∃ cs, createSqlConditions display schema conditions = .ok cs ∧ (Condition.LeavesOf (NotInLowered schema (readRow columns row)) conditions →
      List.Forall₂ (Agree (storedCell row) (readRow columns row)) (filtersListToSql display each cs) preds)
  | [], preds, hready, h => by
    cases h
    exact ⟨[], rfl, fun _ => .nil⟩
  | cond :: conditions, preds, hready, h => by
    obtain ⟨p, hp, h⟩ := bind_ok.mp h
    obtain ⟨ps, hps, h⟩ := bind_ok.mp h
    cases h
    obtain ⟨c, hc, hagree⟩ := tree_agrees hrow cond hready.1 hp
    obtain ⟨cs, hcs, hagrees⟩ := trees_agree hrow conditions hready.2 hps
    refine ⟨c :: cs, by rw [createSqlConditions, hc, hcs]; rfl, fun hlow => ?_⟩
    rw [filtersListToSql]
    exact .cons (hagree hlow.1) (hagrees hlow.2)

end

end

end Rindle.Sqlite
