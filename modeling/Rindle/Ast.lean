/-
  Rindle.Ast — the query AST (`rust/src/ast.rs`) and how its literals and columns are lowered
  (`rust/src/builder.rs`).

  A query names its columns, which the lowering looks up in the table's schema. A text literal is
  its bytes. The AST nests three ways: a condition
  in AND and OR, a query in a condition's EXISTS, and a query in another's relationships.
-/

import Rindle.Change
import Rindle.View.Schema

set_option linter.dupNamespace false

namespace Rindle

/-! ## The AST -/

inductive Dir where
  | asc
  | desc
  deriving DecidableEq

/-- `Op`. -/
inductive CondOp where
  | eq
  | ne
  | lt
  | le
  | gt
  | ge
  | is
  | isNot
  | like
  | notLike
  | iLike
  | notILike
  | isIn
  | notIn
  deriving DecidableEq

inductive Lit where
  | null
  | bool (b : Bool)
  | int (i : Int64)
  | number (f : F64)
  | str (b : List UInt8)
  | array (elems : List Lit)

inductive ValuePosition where
  | literal (value : Lit)
  | column (name : String)

structure SimpleCondition where
  op : CondOp
  left : ValuePosition
  right : ValuePosition

inductive ExistsOp where
  | exists
  | notExists
  deriving DecidableEq

/-- `System`. -/
inductive QuerySystem where
  | permissions
  | client
  | test

structure Correlation where
  parentField : List String
  childField : List String

structure CorrelatedSubquery (query : Type) where
  correlation : Correlation
  subquery : query
  system : Option QuerySystem := none

/-- The parts of a `CorrelatedSubqueryCondition` other than its subquery. -/
structure ExistsFlags where
  op : ExistsOp
  flip : Option Bool := none
  scalar : Option Bool := none
  planId : Option UInt32 := none

/-- `Bound`: the bound columns by name. -/
structure AstBound where
  row : List (String × Lit)
  exclusive : Bool

inductive Aggregate where
  | count
  | sum (column : String)
  | avg (column : String)
  deriving DecidableEq

/-- The parts of an `Ast` that hold no conditions or queries. -/
structure AstHead where
  schema : Option String := none
  table : String
  aliasName : Option String := none
  select : Option (List String) := none
  start : Option AstBound := none
  limit : Option Nat := none
  one : Bool := false
  aggregate : Option Aggregate := none
  aggregatePrecomputed : Bool := false
  groupBy : List String := []
  orderBy : List (String × Dir) := []

mutual

inductive Condition where
  | simple (c : SimpleCondition)
  | and (conditions : List Condition)
  | or (conditions : List Condition)
  | correlatedSubquery (related : CorrelatedSubquery Ast) (flags : ExistsFlags)

inductive Ast where
  | mk (head : AstHead) (where? : Option Condition) (related : List (CorrelatedSubquery Ast)) (having : Option Condition)

end

namespace Ast

def head : Ast → AstHead
  | .mk h _ _ _ => h

def where? : Ast → Option Condition
  | .mk _ w _ _ => w

def related : Ast → List (CorrelatedSubquery Ast)
  | .mk _ _ r _ => r

def having : Ast → Option Condition
  | .mk _ _ _ h => h

def table (a : Ast) : String := a.head.table

end Ast

/-! ## Lowering -/

/-- The errors of the builder, and of the scalar resolver. -/
inductive BuildError where
  | unknownColumn (name : String)
  | unsupported (why : String)
  | invalid (why : String)
  | unknownTable (name : String)
  | unknownRelationship (name : String)

/-- A lowering that succeeds has taken each of its steps. -/
theorem bind_ok {ε α β : Type} {x : Except ε α} {f : α → Except ε β} {b : β} : (x >>= f) = .ok b ↔ ∃ a, x = .ok a ∧ f a = .ok b := by
  cases x with
  | error e => simp [bind, Except.bind]
  | ok a => simp [bind, Except.bind]

/-- `Schema::col_id`. -/
def Schema.colId (schema : Schema) (name : String) : Option Nat := schema.columns.idxOf? name

/-- `col_id`. -/
def colId (schema : Schema) (name : String) : Except BuildError Nat :=
  match schema.colId name with
  | some c => .ok c
  | none => .error (.unknownColumn name)

/-- `number_to_owned`: an integral number in the range of i64 is an integer. -/
def numberToOwned (n : F64) : Value :=
  if n.isFinite && F64.feq n.trunc n && F64.le .negTwoPow63 n && F64.lt n .twoPow63 then .int n.asI64 else .float n

/-- `lit_to_scalar`. -/
def litToScalar : Lit → Except BuildError Value
  | .null => .ok .null
  | .bool b => .ok (.bool b)
  | .int i => .ok (.int i)
  | .number n => .ok (numberToOwned n)
  | .str b => .ok (.str b)
  | .array _ => .error (.invalid "expected a scalar literal, found an array")

/-- `lower_start`: columns the bound does not name are null. -/
def lowerStart (bound : AstBound) (schema : Schema) : Except BuildError Start := do
  let place (row : Row) (p : String × Lit) : Except BuildError Row := do
    let c ← colId schema p.1
    let v ← litToScalar p.2
    pure (row.set c v)
  let row ← bound.row.foldlM place (List.replicate schema.columns.length .null)
  pure ⟨row, if bound.exclusive then .after else .atRow⟩

/-- An integral number is lowered to the integer it is equal to, never to a negative zero. -/
theorem numberToOwned_ne_negZero (n : F64) : numberToOwned n ≠ .float .negZero := by
  intro h
  unfold numberToOwned at h
  split at h
  · cases h
  · rename_i hn
    cases h
    exact hn (by decide +kernel)

theorem numberToOwned_num {n : F64} (hnan : n.isNan = false) :
    (numberToOwned n).kind = some .number ∧ (numberToOwned n).num = 2 * n.scaled := by
  have hz := numberToOwned_ne_negZero n
  unfold numberToOwned at hz ⊢
  split
  · rename_i hint
    simp only [Bool.and_eq_true, F64.feq, F64.le, F64.lt, decide_eq_true_eq, F64.scaled_twoPow63, F64.scaled_negTwoPow63] at hint
    obtain ⟨⟨⟨-, -, heq⟩, -, hlo⟩, -, hhi⟩ := hint
    refine ⟨rfl, ?_⟩
    show 2 * (n.asI64.toInt * F64.unit) = 2 * n.scaled
    rw [F64.asI64_scaled hnan heq hlo hhi]
  · rename_i hint
    rw [if_neg hint] at hz
    exact ⟨rfl, F64.rank_eq fun hn => hz (congrArg Value.float hn)⟩

end Rindle
