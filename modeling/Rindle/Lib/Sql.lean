/-
  Rindle.Lib.Sql — the part of SQLite's expression language a generated WHERE clause uses.

  A value has a storage class; the order on values is NULL, then numbers by mathematical
  value, then text by its bytes. A comparison with NULL is unknown, `IS` never is, and a
  WHERE clause keeps a row when it is TRUE, so what is said of a connective below is when it
  is TRUE. Affinities convert nothing here: both sides of a comparison are of one type.

  A parameter is bound before it is compared, and SQLite binds a NaN as NULL.
-/

import Rindle.Lib.Binary64
import Rindle.Lib.Glob
import Rindle.Lib.SortedList

namespace Rindle.Sql

inductive SqlValue where
  | null
  | int (i : Int64)
  | real (f : F64)
  | text (b : List UInt8)
  deriving DecidableEq

namespace SqlValue

/-- NULL below the numbers below text. -/
def storageClass : SqlValue → Nat
  | .null => 0
  | .int _ => 1
  | .real _ => 1
  | .text _ => 2

/-- The mathematical value of a number, in units of 2^-1074. -/
def number : SqlValue → Int
  | .int i => i.toInt * F64.unit
  | .real f => f.scaled
  | _ => 0

def bytes : SqlValue → List UInt8
  | .text b => b
  | _ => []

/-- The order of `ORDER BY`; the comparisons follow it away from NULL. -/
def cmp : SqlValue → SqlValue → Ordering := compareLex (compareOn storageClass) (compareLex (compareOn number) (compareOn bytes))

instance : Std.TransCmp cmp := inferInstanceAs (Std.TransCmp (compareLex _ _))

/-- What a parameter is bound as. -/
def bound : SqlValue → SqlValue
  | .real f => if f.isNan then .null else .real f
  | v => v

/-- `lower` of text, over ASCII. A number would be rendered first; no query here asks for it. -/
def lower : SqlValue → SqlValue
  | .text b => .text (b.map Glob.asciiLower)
  | v => v

end SqlValue

/-! ## Three-valued logic -/

/-- `none` is UNKNOWN. -/
abbrev Truth := Option Bool

namespace Truth

def and : Truth → Truth → Truth
  | some false, _ => some false
  | _, some false => some false
  | some true, some true => some true
  | _, _ => none

def or : Truth → Truth → Truth
  | some true, _ => some true
  | _, some true => some true
  | some false, some false => some false
  | _, _ => none

def negateIf (negated : Bool) (t : Truth) : Truth := t.map (· ^^ negated)

@[simp] theorem and_eq_true {a b : Truth} : and a b = some true ↔ a = some true ∧ b = some true := by
  rcases a with _ | _ | _ <;> rcases b with _ | _ | _ <;> simp [and]

@[simp] theorem or_eq_true {a b : Truth} : or a b = some true ↔ a = some true ∨ b = some true := by
  rcases a with _ | _ | _ <;> rcases b with _ | _ | _ <;> simp [or]

end Truth

/-! ## Comparisons -/

inductive CmpOp where
  | eq
  | ne
  | lt
  | le
  | gt
  | ge
  deriving DecidableEq

@[grind] def CmpOp.test : CmpOp → Ordering → Bool
  | .eq, o => o == .eq
  | .ne, o => o != .eq
  | .lt, o => o == .lt
  | .le, o => o != .gt
  | .gt, o => o == .gt
  | .ge, o => o != .lt

/-- `a <op> b`: unknown when a side is NULL. -/
def compareTruth (op : CmpOp) (a b : SqlValue) : Truth :=
  if a = .null ∨ b = .null then none else some (op.test (a.cmp b))

/-- `a IN (vs)`: false for no values, whatever `a` is; unknown when `a` is NULL, or when a value is
    and none is equal. -/
def inTruth (a : SqlValue) (vs : List SqlValue) : Truth :=
  if vs.isEmpty then some false
  else if a = .null then none
  else if vs.any fun v => v != .null && a.cmp v == .eq then some true
  else if vs.any (· == .null) then none
  else some false

/-- A pattern of `LIKE … ESCAPE '\'`: `%` any run, `_` one character, an escaped character itself. -/
inductive LikeToken where
  | run
  | one
  | char (c : UInt8)

def LikeToken.of (c : UInt8) : LikeToken := if c = 37 then .run else if c = 95 then .one else .char c

/-- A pattern that ends in the escape has no reading, and matches nothing. -/
def likeTokens : List UInt8 → Option (List LikeToken)
  | [] => some []
  | [c] => if c = 92 then none else some [.of c]
  | c :: e :: pattern =>
    if c = 92 then (likeTokens pattern).map (.char e :: ·) else (likeTokens (e :: pattern)).map (.of c :: ·)

def likeRun : List LikeToken → List UInt8 → Bool
  | [], text => text.isEmpty
  | .run :: ts, text => text.tails.any (likeRun ts)
  | .one :: ts, text =>
    match text with
    | [] => false
    | _ :: text => likeRun ts text
  | .char c :: ts, text =>
    match text with
    | [] => false
    | d :: text => c == d && likeRun ts text

/-- The piece of a pattern a token stands for. -/
def LikeToken.piece : LikeToken → Glob.Piece UInt8
  | .run => .any
  | .one => .seg [fun _ => true]
  | .char c => .seg [(c == ·)]

theorem likeRun_iff {ts : List LikeToken} {text : List UInt8} : likeRun ts text = true ↔ text ∈ Glob.lang (ts.map LikeToken.piece) := by
  induction ts generalizing text with
  | nil => simp [likeRun, Language.mem_one]
  | cons t ts ih =>
    cases t with
    | run =>
      rw [likeRun, List.any_eq_true, List.map_cons, Glob.lang_cons, LikeToken.piece, Glob.mem_any_mul]
      constructor
      · intro h
        obtain ⟨tail, htail, hrun⟩ := h
        obtain ⟨front, rfl⟩ := (List.mem_tails _ _).mp htail
        exact ⟨front.length, by simp, by rw [List.drop_left]; exact ih.mp hrun⟩
      · intro h
        obtain ⟨k, -, hk⟩ := h
        exact ⟨text.drop k, (List.mem_tails _ _).mpr (List.drop_suffix k text), ih.mpr hk⟩
    | one =>
      rw [List.map_cons, Glob.lang_cons, LikeToken.piece, Glob.mem_seg_mul]
      cases text with
      | nil => simp [likeRun, Glob.Accepts]
      | cons d text => simp [likeRun, Glob.Accepts, ih]
    | char c =>
      rw [List.map_cons, Glob.lang_cons, LikeToken.piece, Glob.mem_seg_mul]
      cases text with
      | nil => simp [likeRun, Glob.Accepts]
      | cons d text => simp [likeRun, Glob.Accepts, ih]

def likeMatch (pattern text : List UInt8) : Bool := (likeTokens pattern).any fun ts => likeRun ts text

/-- `text LIKE pattern`. SQLite renders a number first; no query here asks for it. -/
def likeTruth : SqlValue → SqlValue → Truth
  | .text t, .text p => some (likeMatch p t)
  | _, _ => none

/-! ## Expressions -/

inductive Operand where
  | col (c : Nat)
  | param (v : SqlValue)
  | lower (o : Operand)

@[grind] def Operand.eval (row : Nat → SqlValue) : Operand → SqlValue
  | .col c => row c
  | .param v => v.bound
  | .lower o => (o.eval row).lower

inductive Expr where
  | cmp (op : CmpOp) (l r : Operand)
  | is (negated : Bool) (l r : Operand)
  | isNull (o : Operand)
  | inEach (negated : Bool) (o : Operand) (vs : List SqlValue)
  | like (negated : Bool) (text pattern : Operand)
  | and (a b : Expr)
  | or (a b : Expr)
  | tt
  | ff

namespace Expr

@[grind] def eval (row : Nat → SqlValue) : Expr → Truth
  | .cmp op l r => compareTruth op (l.eval row) (r.eval row)
  | .is negated l r => some (((l.eval row).cmp (r.eval row) == .eq) ^^ negated)
  | .isNull o => some (o.eval row == .null)
  | .inEach negated o vs => (inTruth (o.eval row) vs).negateIf negated
  | .like negated text pattern => (likeTruth (text.eval row) (pattern.eval row)).negateIf negated
  | .and a b => (a.eval row).and (b.eval row)
  | .or a b => (a.eval row).or (b.eval row)
  | .tt => some true
  | .ff => some false

/-- `e₁ AND e₂ AND …`, `TRUE` for no terms. -/
def all : List Expr → Expr
  | [] => .tt
  | [e] => e
  | e :: es => .and e (all es)

/-- `e₁ OR e₂ OR …`, `FALSE` for no terms. -/
def any : List Expr → Expr
  | [] => .ff
  | [e] => e
  | e :: es => .or e (any es)

/-- The WHERE clause keeps the row. -/
def Holds (e : Expr) (row : Nat → SqlValue) : Prop := e.eval row = some true

instance (e : Expr) (row : Nat → SqlValue) : Decidable (e.Holds row) := inferInstanceAs (Decidable (_ = _))

variable {row : Nat → SqlValue}

@[simp] theorem holds_and {a b : Expr} : (Expr.and a b).Holds row ↔ a.Holds row ∧ b.Holds row := Truth.and_eq_true

@[simp] theorem holds_or {a b : Expr} : (Expr.or a b).Holds row ↔ a.Holds row ∨ b.Holds row := Truth.or_eq_true

theorem holds_all {es : List Expr} : (all es).Holds row ↔ ∀ e ∈ es, e.Holds row := by
  induction es with
  | nil => simp [all, Holds, eval]
  | cons e es ih =>
    cases es with
    | nil => simp [all]
    | cons e' es =>
      show (Expr.and e (all (e' :: es))).Holds row ↔ _
      rw [holds_and, ih, List.forall_mem_cons (a := e)]

theorem holds_any {es : List Expr} : (any es).Holds row ↔ ∃ e ∈ es, e.Holds row := by
  induction es with
  | nil => simp [any, Holds, eval]
  | cons e es ih =>
    cases es with
    | nil => simp [any]
    | cons e' es =>
      show (Expr.or e (any (e' :: es))).Holds row ↔ _
      rw [holds_or, ih, List.exists_mem_cons_iff (a := e)]

theorem holds_cmp {op : CmpOp} {l r : Operand} :
    (Expr.cmp op l r).Holds row ↔ l.eval row ≠ .null ∧ r.eval row ≠ .null ∧ op.test ((l.eval row).cmp (r.eval row)) = true := by
  unfold Holds eval compareTruth
  by_cases h : l.eval row = .null ∨ r.eval row = .null
  · rw [if_pos h]
    simp only [reduceCtorEq, false_iff]
    tauto
  · rw [if_neg h]
    simp only [Option.some.injEq]
    tauto

theorem holds_is {l r : Operand} : (Expr.is false l r).Holds row ↔ (l.eval row).cmp (r.eval row) = .eq := by
  simp [Holds, eval]

theorem holds_isNull {o : Operand} : (Expr.isNull o).Holds row ↔ o.eval row = .null := by
  simp [Holds, eval]

end Expr

/-! ## The order away from NULL -/

theorem cmp_null_left {v : SqlValue} (h : v ≠ .null) : SqlValue.cmp .null v = .lt := by
  cases v with
  | null => exact absurd rfl h
  | int i => rfl
  | real f => rfl
  | text b => rfl

theorem cmp_null_right {v : SqlValue} (h : v ≠ .null) : SqlValue.cmp v .null = .gt :=
  Std.OrientedCmp.gt_iff_lt.mpr (cmp_null_left h)

end Rindle.Sql
