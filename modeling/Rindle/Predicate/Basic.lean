/-
  Rindle.Predicate.Basic — the compiled leaf predicate (`rust/src/predicate.rs`) and the lowering
  of a condition tree to one row predicate (`rust/src/builder.rs`, `create_predicate`,
  `create_row_predicate`).

  The logic is two-valued: a null cell drops the row for every operator but IS, and a null on the
  right is folded to a constant before a predicate is built. A condition whose left side is a
  literal is evaluated once, over a row of one cell.
-/

import Rindle.Ast
import Rindle.Predicate.Like

set_option linter.dupNamespace false

namespace Rindle

namespace Predicate

inductive CmpOp where
  | eq
  | ne
  | lt
  | le
  | gt
  | ge

/-- `ValueSet`: the right side of an IN. -/
structure ValueSet where
  values : List Value

/-- `ValueSet::contains`. -/
def ValueSet.contains (set : ValueSet) (needle : Value) : Bool := set.values.any fun v => valuesIdentical v needle

/-- The arms of `Cmp` for a cell that is not null. -/
@[grind] def CmpOp.eval (op : CmpOp) (cell value : Value) : Bool :=
  match op with
  | .eq => valuesIdentical cell value
  | .ne => !valuesIdentical cell value
  | .lt => !value.isNull && comparePredicateValues cell value == .lt
  | .le => !value.isNull && comparePredicateValues cell value != .gt
  | .gt => !value.isNull && comparePredicateValues cell value == .gt
  | .ge => !value.isNull && comparePredicateValues cell value != .lt

end Predicate

open Predicate

inductive CompiledPredicate where
  | cmp (col : Nat) (op : CmpOp) (value : Value)
  | isIn (col : Nat) (set : ValueSet) (negated : Bool)
  | like (col : Nat) (matcher : LikeMatcher) (negated : Bool)
  | is (col : Nat) (value : Value) (negated : Bool)
  | isNull (col : Nat) (negated : Bool)
  | const (b : Bool)

/-- The bytes a LIKE looks at. -/
def Value.likeText : Value → Option (List UInt8)
  | .str b => some b
  | .json b => some b
  | _ => none

/-- `CompiledPredicate::eval`. -/
@[grind] def CompiledPredicate.eval (row : Row) : CompiledPredicate → Bool
  | .const b => b
  | .is col value negated => valuesIdentical (row.cell col) value ^^ negated
  | .isNull col negated => (row.cell col).isNull ^^ negated
  | .cmp col op value => if (row.cell col).isNull then false else op.eval (row.cell col) value
  | .isIn col set negated => if (row.cell col).isNull then false else set.contains (row.cell col) ^^ negated
  | .like col matcher negated =>
    if (row.cell col).isNull then false else (row.cell col).likeText.any matcher.matches? ^^ negated

/-! ## Lowering a leaf -/

@[grind] def Lit.isNull : Lit → Bool
  | .null => true
  | _ => false

/-- `like_pred`. -/
def likePred (col : Nat) (right : Lit) (negated : Bool) : Except BuildError CompiledPredicate :=
  match right with
  | .str pat => .ok (.like col (LikeMatcher.compile pat) negated)
  | _ => .error (.invalid "LIKE pattern must be a string literal")

/-- `ilike_pred`. -/
def ilikePred (col : Nat) (right : Lit) (negated : Bool) : Except BuildError CompiledPredicate :=
  match right with
  | .str pat => .ok (.like col (LikeMatcher.compileCaseInsensitive pat) negated)
  | _ => .error (.invalid "ILIKE pattern must be a string literal")

/-- `in_pred`. -/
def inPred (col : Nat) (right : Lit) (negated : Bool) : Except BuildError CompiledPredicate :=
  match right with
  | .array elems => do
    let values ← elems.mapM litToScalar
    pure (.isIn col ⟨values⟩ negated)
  | _ => .error (.invalid "IN / NOT IN requires an array literal")

/-- `lower_op`. -/
@[grind] def lowerOp (op : CondOp) (col : Nat) (right : Lit) : Except BuildError CompiledPredicate :=
  let cmp (o : CmpOp) : Except BuildError CompiledPredicate := do pure (.cmp col o (← litToScalar right))
  match op with
  | .eq => cmp .eq
  | .ne => cmp .ne
  | .lt => cmp .lt
  | .le => cmp .le
  | .gt => cmp .gt
  | .ge => cmp .ge
  | .like => likePred col right false
  | .notLike => likePred col right true
  | .iLike => ilikePred col right false
  | .notILike => ilikePred col right true
  | .isIn => inPred col right false
  | .notIn => inPred col right true
  -- unreachable: `create_predicate` takes both first
  | .is => .error (.invalid "IS / IS NOT handled before lower_op")
  | .isNot => .error (.invalid "IS / IS NOT handled before lower_op")

/-- `same_class`. -/
def sameClass : Value → Value → Bool
  | .bool _, .bool _ => true
  | .int _, .int _ => true
  | .float _, .float _ => true
  | .str _, .str _ => true
  | .json _, .json _ => true
  | _, _ => false

/-- `guard_ordering_const`. -/
def guardOrderingConst (op : CondOp) (lhs : Value) (right : Lit) : Except BuildError Unit :=
  if op = .lt ∨ op = .le ∨ op = .gt ∨ op = .ge then do
    let rhs ← litToScalar right
    if sameClass lhs rhs then pure () else .error (.invalid "ordering comparison between mismatched literal types")
  else pure ()

/-- `create_predicate`. -/
@[grind] def createPredicate (cond : SimpleCondition) (schema : Schema) : Except BuildError CompiledPredicate :=
  match cond.right with
  | .column _ => .error (.invalid "right-hand side of a condition must be a literal")
  | .literal right =>
    if cond.op = .is ∨ cond.op = .isNot then do
      let negated := cond.op == .isNot
      let rhs ← litToScalar right
      match cond.left with
      | .column name =>
        let col ← colId schema name
        pure (if right.isNull then .isNull col negated else .is col rhs negated)
      | .literal value =>
        let lhs ← litToScalar value
        pure (.const (valuesIdentical lhs rhs ^^ negated))
    else if right.isNull then pure (.const false)
    else
      match cond.left with
      | .literal value =>
        if value.isNull then pure (.const false)
        else do
          let lhs ← litToScalar value
          guardOrderingConst cond.op lhs right
          let probe ← lowerOp cond.op 0 right
          pure (.const (probe.eval [lhs]))
      | .column name => do lowerOp cond.op (← colId schema name) right

/-! ## Lowering a tree -/

mutual

/-- `create_row_predicate`. -/
def createRowPredicate (schema : Schema) : Condition → Except BuildError (Row → Bool)
  | .simple sc => do
    let pred ← createPredicate sc schema
    pure fun row => pred.eval row
  | .and conditions => do
    let preds ← createRowPredicates schema conditions
    pure fun row => preds.all fun p => p row
  | .or conditions => do
    let preds ← createRowPredicates schema conditions
    pure fun row => preds.any fun p => p row
  | .correlatedSubquery _ _ => .error (.unsupported "correlated subquery in `where` (EXISTS not yet built)")

def createRowPredicates (schema : Schema) : List Condition → Except BuildError (List (Row → Bool))
  | [] => pure []
  | c :: conditions => do
    let p ← createRowPredicate schema c
    let preds ← createRowPredicates schema conditions
    pure (p :: preds)

end

mutual

/-- Every leaf of a condition without subqueries. -/
def Condition.Leaves (P : SimpleCondition → Prop) : Condition → Prop
  | .simple sc => P sc
  | .and conditions => LeavesOf P conditions
  | .or conditions => LeavesOf P conditions
  | .correlatedSubquery _ _ => False

def Condition.LeavesOf (P : SimpleCondition → Prop) : List Condition → Prop
  | [] => True
  | c :: conditions => c.Leaves P ∧ LeavesOf P conditions

end

mutual

theorem Condition.Leaves.and {P Q : SimpleCondition → Prop} : ∀ {cond : Condition}, cond.Leaves P → cond.Leaves Q →
    cond.Leaves fun sc => P sc ∧ Q sc
  | .simple _, hp, hq => ⟨hp, hq⟩
  | .and _, hp, hq => Condition.LeavesOf.and hp hq
  | .or _, hp, hq => Condition.LeavesOf.and hp hq
  | .correlatedSubquery _ _, hp, _ => hp.elim

theorem Condition.LeavesOf.and {P Q : SimpleCondition → Prop} : ∀ {conditions : List Condition}, LeavesOf P conditions →
    LeavesOf Q conditions → LeavesOf (fun sc => P sc ∧ Q sc) conditions
  | [], _, _ => trivial
  | _ :: _, hp, hq => ⟨hp.1.and hq.1, Condition.LeavesOf.and hp.2 hq.2⟩

end

mutual

theorem Condition.Leaves.mono {P Q : SimpleCondition → Prop} (hpq : ∀ sc, P sc → Q sc) : ∀ {c : Condition}, c.Leaves P → c.Leaves Q
  | .simple _, h => hpq _ h
  | .and _, h => Condition.LeavesOf.mono hpq h
  | .or _, h => Condition.LeavesOf.mono hpq h
  | .correlatedSubquery _ _, h => h

theorem Condition.LeavesOf.mono {P Q : SimpleCondition → Prop} (hpq : ∀ sc, P sc → Q sc) : ∀ {cs : List Condition},
    LeavesOf P cs → LeavesOf Q cs
  | [], _ => trivial
  | _ :: _, h => ⟨Condition.Leaves.mono hpq h.1, Condition.LeavesOf.mono hpq h.2⟩

end

end Rindle
