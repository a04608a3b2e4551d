/-
  Rindle.Sqlite.Filters — a condition tree as a WHERE clause (`rust/src/builder.rs`,
  `create_sql_condition`; `rindle-sqlite/src/query_builder.rs`, `filters_to_sql`).

  The core crate resolves the columns and keeps the literals (`SqlCondition`), the SQLite crate
  spells the clause. An IN list travels as JSON text, which `json_each` reads back; what
  `json_each` yields is the parameter `each`, and `f64::to_string` is `display`. A column is named
  by its index, so the table's columns are not needed to spell the clause.
-/

import Rindle.Predicate.Basic
import Rindle.Sqlite.Cells

set_option linter.dupNamespace false

namespace Rindle.Sqlite

open Sql

/-- `Operand`. -/
inductive SqlOperand where
  | column (col : Nat)
  | literal (value : Value)

/-- `SqlCondition`; its operators are the AST's own. -/
inductive SqlCondition where
  | simple (left : SqlOperand) (op : CondOp) (right : SqlOperand)
  | and (conds : List SqlCondition)
  | or (conds : List SqlCondition)

section
variable (display : F64 → List UInt8)

/-! ## To a SQL condition -/

/-- `Lit::Number` in JSON: a number without a fraction is written to its last digit. -/
def numberToJson (n : F64) : List UInt8 :=
  if n.isFinite && F64.feq n.trunc n then (if n.sign then [45] else []) ++ decimalNat (n.scaledAbs / F64.unit) else display n

mutual

/-- `lit_to_json`. -/
def litToJson : Lit → List UInt8
  | .null => jsonNull
  | .bool b => if b then jsonTrue else jsonFalse
  | .int i => decimalInt i.toInt
  | .number n => numberToJson display n
  | .str s => jsonQuote s
  | .array values => 91 :: (elemsToJson values ++ [93])

/-- The elements, with a comma before each but the first. -/
def elemsToJson : List Lit → List UInt8
  | [] => []
  | v :: values => litToJson v ++ restToJson values

def restToJson : List Lit → List UInt8
  | [] => []
  | v :: values => 44 :: (litToJson v ++ restToJson values)

end

/-- `lit_to_sql_value`. -/
def litToSqlValue (lit : Lit) : Except BuildError Value :=
  match lit with
  | .array values => .ok (.json (litToJson display (.array values)))
  | lit => litToScalar lit

/-- `value_position_to_sql_operand`. -/
def valuePositionToSqlOperand (value : ValuePosition) (schema : Schema) : Except BuildError SqlOperand :=
  match value with
  | .column name => do pure (.column (← colId schema name))
  | .literal value => do pure (.literal (← litToSqlValue display value))

/-- `create_simple_sql_condition`. -/
def createSimpleSqlCondition (cond : SimpleCondition) (schema : Schema) : Except BuildError SqlCondition := do
  let left ← valuePositionToSqlOperand display cond.left schema
  let right ←
    match cond.right with
    | .literal value => valuePositionToSqlOperand display (.literal value) schema
    | .column _ => .error (.invalid "right-hand side of a condition must be a literal")
  pure (.simple left cond.op right)

mutual

/-- `create_sql_condition`. -/
def createSqlCondition (schema : Schema) : Condition → Except BuildError SqlCondition
  | .simple sc => createSimpleSqlCondition display sc schema
  | .and conditions => do pure (.and (← createSqlConditions schema conditions))
  | .or conditions => do pure (.or (← createSqlConditions schema conditions))
  | .correlatedSubquery _ _ => .error (.unsupported "correlated subquery in source SQL condition")

def createSqlConditions (schema : Schema) : List Condition → Except BuildError (List SqlCondition)
  | [] => pure []
  | c :: conditions => do
    let s ← createSqlCondition schema c
    let rest ← createSqlConditions schema conditions
    pure (s :: rest)

end

/-! ## To a clause -/

/-- `js_type_of`. -/
def jsTypeOf : Value → ValueType
  | .absent => .null
  | .null => .null
  | .str _ => .string
  | .int _ => .number
  | .float _ => .number
  | .bool _ => .boolean
  | .json _ => .json

/-- `value_position_to_sql`. -/
def valuePositionToSql : SqlOperand → Operand
  | .column col => .col col
  | .literal v => .param (toSqliteParam display v (jsTypeOf v))

/-- `like_condition_to_sql`. -/
def likeConditionToSql (left right : SqlOperand) (caseInsensitive negated : Bool) : Expr :=
  let l := valuePositionToSql display left
  let r := valuePositionToSql display right
  if caseInsensitive then .like negated (.lower l) (.lower r) else .like negated l r

/-- `sql_op_raw`, for the comparisons. -/
def compareToSql (op : Sql.CmpOp) (left right : SqlOperand) : Expr :=
  .cmp op (valuePositionToSql display left) (valuePositionToSql display right)

variable (each : List UInt8 → List SqlValue)

/-- The IN arm of `simple_condition_to_sql`: the bound array, expanded. A column on the right panics;
    `create_sql_condition` never puts one there. -/
def inConditionToSql (left right : SqlOperand) (negated : Bool) : Expr :=
  let values :=
    match right with
    | .literal v => each (jsonSerialize display v)
    | .column _ => []
  .inEach negated (valuePositionToSql display left) values

/-- `simple_condition_to_sql`. -/
def simpleConditionToSql (left : SqlOperand) (op : CondOp) (right : SqlOperand) : Expr :=
  match op with
  | .isIn => inConditionToSql display each left right false
  | .notIn => inConditionToSql display each left right true
  | .like => likeConditionToSql display left right false false
  | .notLike => likeConditionToSql display left right false true
  | .iLike => likeConditionToSql display left right true false
  | .notILike => likeConditionToSql display left right true true
  | .eq => compareToSql display .eq left right
  | .ne => compareToSql display .ne left right
  | .lt => compareToSql display .lt left right
  | .le => compareToSql display .le left right
  | .gt => compareToSql display .gt left right
  | .ge => compareToSql display .ge left right
  | .is => .is false (valuePositionToSql display left) (valuePositionToSql display right)
  | .isNot => .is true (valuePositionToSql display left) (valuePositionToSql display right)

mutual

/-- `filters_to_sql`: no terms are TRUE under AND and FALSE under OR. -/
def filtersToSql : SqlCondition → Expr
  | .simple left op right => simpleConditionToSql display each left op right
  | .and conds => Expr.all (filtersListToSql conds)
  | .or conds => Expr.any (filtersListToSql conds)

def filtersListToSql : List SqlCondition → List Expr
  | [] => []
  | c :: conds => filtersToSql c :: filtersListToSql conds

end

end

end Rindle.Sqlite
