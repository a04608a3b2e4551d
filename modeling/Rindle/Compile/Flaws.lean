/-
  Rindle.Compile.Flaws — what each compiler refuses, read off the query.

  A query is refused by both for an unknown table, an alias that is missing, or a relationship
  that is not declared. Where a name that is not declared is one that every object inherits, the
  two differ: the walker takes an inherited relationship for declared, cannot read the columns
  of an inherited table of a sub-query, and binds an inherited value of the bound. And it binds
  a literal to the left of an empty list, where the comparison then is a constant (`Flaws`).

  - `walker_errs`, `d2s_errs`: each walk fails exactly where its flaws say so, in every state.
-/

import Rindle.Compile.Fragments

set_option linter.dupNamespace false

namespace Rindle.Compile

open Walker (objectPrototype record Found)

/-! ## The wire grammar -/

def Lit.isScalar : Lit → Bool
  | .array _ => false
  | .number n => n.isFinite
  | _ => true

def ValuePosition.isScalar : ValuePosition → Bool
  | .literal value => Lit.isScalar value
  | .column _ => true

/-- A list is only to the right of IN and NOT IN. -/
def rightFits (op : CondOp) (right : ValuePosition) : Bool :=
  match op, right with
  | .isIn, .literal (.array items) => items.all Lit.isScalar
  | .notIn, .literal (.array items) => items.all Lit.isScalar
  | _, right => ValuePosition.isScalar right

def Correlation.fits (c : Correlation) : Bool := c.parentField.length = c.childField.length

/-- The parts of a query that hold no queries: a bound of scalars, and no aggregate but a count. -/
def AstHead.fits (head : AstHead) : Bool :=
  (match head.start with
    | some start => start.row.all fun p => Lit.isScalar p.2
    | none => true) &&
  (head.aggregate = none || head.aggregate = some .count)

mutual

/-- The wire grammar. -/
def wireAst : Ast → Bool
  | .mk head (some w) related _ => AstHead.fits head && wireCondition w && wireRelated related
  | .mk head none related _ => AstHead.fits head && wireRelated related

def wireRelated : List (CorrelatedSubquery Ast) → Bool
  | [] => true
  | ⟨correlation, subquery, _⟩ :: related => Correlation.fits correlation && wireAst subquery && wireRelated related

def wireCondition : Condition → Bool
  | .simple sc => ValuePosition.isScalar sc.left && rightFits sc.op sc.right
  | .correlatedSubquery ⟨correlation, subquery, _⟩ _ => Correlation.fits correlation && wireAst subquery
  | .and conditions => wireConditions conditions
  | .or conditions => wireConditions conditions

def wireConditions : List Condition → Bool
  | [] => true
  | c :: conditions => wireCondition c && wireConditions conditions

end

def wireWhere : Option Condition → Bool
  | some w => wireCondition w
  | none => true

theorem wireAst_mk (head : AstHead) (where? : Option Condition) (related : List (CorrelatedSubquery Ast)) (having : Option Condition) :
    wireAst (.mk head where? related having) = (AstHead.fits head && wireWhere where? && wireRelated related) := by
  cases where? with
  | some w => rfl
  | none => simp [wireAst, wireWhere]

/-! ## Flaws -/

structure Flaws where
  /-- Both compilers refuse the query. -/
  refused : Bool := false
  /-- A relationship is not declared, and its name is inherited. -/
  undeclared : Bool := false
  /-- The columns of a table that is not in the catalog are looked up, and its name is inherited. -/
  inheritedTable : Bool := false
  /-- The bound has no value for an order column, and the column's name is inherited. -/
  inheritedColumn : Bool := false
  /-- A literal stands to the left of an empty list, and the comparison is left out. -/
  discarded : Bool := false

namespace Flaws

instance : Append Flaws :=
  ⟨fun a b => ⟨a.refused || b.refused, a.undeclared || b.undeclared, a.inheritedTable || b.inheritedTable,
    a.inheritedColumn || b.inheritedColumn, a.discarded || b.discarded⟩⟩

/-- The walker throws. -/
def walker (f : Flaws) : Bool := f.refused || f.inheritedTable

/-- The Rust compiler returns an error. -/
def d2s (f : Flaws) : Bool := f.refused || f.undeclared

@[simp] theorem append_walker (a b : Flaws) : (a ++ b).walker = (a.walker || b.walker) := by
  show ((a.refused || b.refused) || (a.inheritedTable || b.inheritedTable)) = _
  cases ha : a.refused <;> cases hb : b.refused <;> simp [walker, ha, hb]

@[simp] theorem append_d2s (a b : Flaws) : (a ++ b).d2s = (a.d2s || b.d2s) := by
  show ((a.refused || b.refused) || (a.undeclared || b.undeclared)) = _
  cases ha : a.refused <;> cases hb : b.refused <;> simp [d2s, ha, hb]

/-- A value is bound that is not SQLite's, or that has no placeholder. -/
def spoiled (f : Flaws) : Bool := f.inheritedColumn || f.discarded

@[simp] theorem append_spoiled (a b : Flaws) : (a ++ b).spoiled = (a.spoiled || b.spoiled) := by
  show ((a.inheritedColumn || b.inheritedColumn) || (a.discarded || b.discarded)) = _
  cases ha : a.inheritedColumn <;> cases hb : b.inheritedColumn <;> simp [spoiled, ha, hb]

end Flaws

/-- The name is not the record's own, and every object inherits it. -/
def inherits {α : Type} (own : Option α) (name : String) : Bool := own.isNone && decide (name ∈ objectPrototype)

def ValuePosition.isColumn : ValuePosition → Bool
  | .column _ => true
  | .literal _ => false

section
variable (catalog : Catalog)

/-- The comparison with an empty list is a constant, whatever is to its left. -/
def ofNothing (op : CondOp) (right : ValuePosition) : Bool :=
  match op, right with
  | .isIn, .literal (.array items) => items.isEmpty
  | .notIn, .literal (.array items) => items.isEmpty
  | _, _ => false

def comparisonFlaws (sc : SimpleCondition) (table : String) : Flaws :=
  { inheritedTable := (ValuePosition.isColumn sc.left || ValuePosition.isColumn sc.right) && inherits (catalog.tables table) table
    discarded := !ValuePosition.isColumn sc.left && ofNothing sc.op sc.right }

mutual

def conditionFlaws : Condition → String → Flaws
  | .simple sc, table => comparisonFlaws catalog sc table
  | .and conditions, table => conditionsFlaws conditions table
  | .or conditions, table => conditionsFlaws conditions table
  | .correlatedSubquery ⟨_, .mk head (some w) _ _, _⟩ _, _ => conditionFlaws w head.table
  | .correlatedSubquery ⟨_, .mk _ none _ _, _⟩ _, _ => {}

def conditionsFlaws : List Condition → String → Flaws
  | [], _ => {}
  | c :: conditions, table => conditionFlaws c table ++ conditionsFlaws conditions table

end

def whereFlaws (where? : Option Condition) (table : String) : Flaws :=
  match where? with
  | some w => conditionFlaws catalog w table
  | none => {}

def boundFlaws (head : AstHead) : Flaws :=
  match head.start with
  | some start =>
    { inheritedTable := !head.orderBy.isEmpty && inherits (catalog.tables head.table) head.table
      inheritedColumn := head.orderBy.any fun op => inherits (start.row.lookup op.1) op.1 }
  | none => {}

def tableFlaws (table : String) : Flaws := { refused := (catalog.tables table).isNone }

def relationshipFlaws (table rel : String) : Flaws :=
  match catalog.tables table with
  | some t =>
    match t.relationships rel with
    | some _ => {}
    | none => if rel ∈ objectPrototype then { undeclared := true } else { refused := true }
  | none => { refused := true }

mutual

def queryFlaws : Ast → Flaws
  | .mk head where? related _ =>
    tableFlaws catalog head.table ++ relatedFlaws related head.table ++ whereFlaws catalog where? head.table ++ boundFlaws catalog head

def relatedFlaws : List (CorrelatedSubquery Ast) → String → Flaws
  | [], _ => {}
  | ⟨_, subquery, _⟩ :: related, table =>
    (match subquery.head.aliasName with
      | none => { refused := true }
      | some name =>
        if subquery.head.aggregate.isSome then whereFlaws catalog subquery.where? subquery.table
        else relationshipFlaws catalog table name ++ queryFlaws subquery) ++ relatedFlaws related table

end

end

/-! ## Computations that fail exactly where a flag says so -/

/-- Whether it fails does not depend on the state. -/
def Errs {σ α : Type} (b : Bool) (x : StateT σ (Except CompileError) α) : Prop :=
  ∀ s, (∃ e, x s = .error e) ↔ b = true

namespace Errs

variable {σ α β : Type} {b c : Bool}

theorem pure (a : α) : Errs false (Pure.pure a : StateT σ (Except CompileError) α) := by
  intro s
  refine ⟨?_, fun h => by cases h⟩
  intro h
  obtain ⟨e, he⟩ := h
  cases he

theorem throw (e : CompileError) : Errs true (MonadExcept.throw e : StateT σ (Except CompileError) α) :=
  fun _ => ⟨fun _ => rfl, fun _ => ⟨e, rfl⟩⟩

/-- A computation that always succeeds. -/
theorem total {x : StateT σ (Except CompileError) α} {f : σ → α × σ} (h : ∀ s, x s = .ok (f s)) : Errs false x := by
  intro s
  refine ⟨?_, fun hf => by cases hf⟩
  intro he
  obtain ⟨e, he⟩ := he
  rw [h s] at he
  cases he

theorem bind {x : StateT σ (Except CompileError) α} {k : α → StateT σ (Except CompileError) β} (hx : Errs b x) (hk : ∀ a, Errs c (k a)) :
    Errs (b || c) (x >>= k) := by
  intro s
  have hrun : (x >>= k) s = (x s).bind fun p => k p.1 p.2 := rfl
  rw [hrun]
  cases hxs : x s with
  | error e =>
    have hb := (hx s).mp ⟨e, hxs⟩
    subst hb
    exact ⟨fun _ => rfl, fun _ => ⟨e, rfl⟩⟩
  | ok p =>
    have hb : b = false := by
      cases hb : b with
      | false => rfl
      | true =>
        obtain ⟨e, he⟩ := (hx s).mpr hb
        rw [hxs] at he
        cases he
    subst hb
    exact hk p.1 p.2

/-- What is done with the result does not fail. -/
theorem map {x : StateT σ (Except CompileError) α} (hx : Errs b x) (f : α → β) : Errs b (x >>= fun a => Pure.pure (f a)) := by
  have h := hx.bind fun a => Errs.pure (f a)
  rwa [Bool.or_false] at h

theorem after {x : StateT σ (Except CompileError) α} {k : α → StateT σ (Except CompileError) β} (hx : Errs false x) (hk : ∀ a, Errs c (k a)) :
    Errs c (x >>= k) :=
  hx.bind hk

end Errs

theorem Errs.throw_bind {σ α β : Type} {b : Bool} (e : CompileError) (k : α → StateT σ (Except CompileError) β) :
    Errs (true || b) (MonadExcept.throw e >>= k) :=
  fun _ => ⟨fun _ => rfl, fun _ => ⟨e, rfl⟩⟩

theorem Errs.cast {σ α : Type} {b c : Bool} {x : StateT σ (Except CompileError) α} (h : Errs b x) (hbc : b = c) : Errs c x := hbc ▸ h

section
variable (catalog : Catalog)

mutual

theorem conditionFlaws_d2s : ∀ (c : Condition) (table : String), (conditionFlaws catalog c table).d2s = false
  | .simple _, _ => rfl
  | .and conditions, table => conditionsFlaws_d2s conditions table
  | .or conditions, table => conditionsFlaws_d2s conditions table
  | .correlatedSubquery ⟨_, .mk head (some w) _ _, _⟩ _, _ => conditionFlaws_d2s w head.table
  | .correlatedSubquery ⟨_, .mk _ none _ _, _⟩ _, _ => rfl

theorem conditionsFlaws_d2s : ∀ (conditions : List Condition) (table : String), (conditionsFlaws catalog conditions table).d2s = false
  | [], _ => rfl
  | c :: conditions, table => by
    rw [conditionsFlaws, Flaws.append_d2s, conditionFlaws_d2s c table, conditionsFlaws_d2s conditions table, Bool.or_false]

end

theorem whereFlaws_d2s (where? : Option Condition) (table : String) : (whereFlaws catalog where? table).d2s = false := by
  cases where? with
  | some w => exact conditionFlaws_d2s catalog w table
  | none => rfl

theorem boundFlaws_d2s (head : AstHead) : (boundFlaws catalog head).d2s = false := by
  unfold boundFlaws
  split
  · rfl
  · rfl

end

/-! ## The Rust compiler -/

namespace D2s

variable {display : F64 → Sql} {catalog : Catalog}

theorem freshAlias_errs (table : String) : Errs false (freshAlias table) :=
  .total fun _ => rfl

theorem columns_errs (table : String) : Errs (tableFlaws catalog table).d2s (columns catalog table) := by
  unfold columns tableFlaws
  cases catalog.tables table with
  | some t => exact .pure _
  | none => exact .throw _

theorem cardinality_errs (table rel : String) : Errs (relationshipFlaws catalog table rel).d2s (cardinality catalog table rel) := by
  unfold cardinality relationshipFlaws
  cases catalog.tables table with
  | none => exact .throw _
  | some t =>
    simp only [Option.bind_some]
    cases t.relationships rel with
    | some card => exact .pure _
    | none =>
      simp only
      split
      · exact .throw _
      · exact .throw _

mutual

theorem whereSql_errs : ∀ (c : Condition) (aliasName : String), Errs false (whereSql display c aliasName)
  | .simple _, _ => .pure _
  | .and conditions, aliasName => (whereSqls_errs conditions aliasName).map _
  | .or conditions, aliasName => (whereSqls_errs conditions aliasName).map _
  | .correlatedSubquery ⟨_, .mk head (some w) _ _, _⟩ _, _ =>
    (freshAlias_errs head.table).after fun aliasName => (whereSql_errs w aliasName).map _
  | .correlatedSubquery ⟨_, .mk head none _ _, _⟩ _, _ => (freshAlias_errs head.table).map _

theorem whereSqls_errs : ∀ (conditions : List Condition) (aliasName : String), Errs false (whereSqls display conditions aliasName)
  | [], _ => .pure _
  | c :: conditions, aliasName => (whereSql_errs c aliasName).after fun _ => (whereSqls_errs conditions aliasName).map _

end

theorem whereConds_errs (where? : Option Condition) (aliasName : String) : Errs false (whereConds display where? aliasName) := by
  cases where? with
  | some w => exact (whereSql_errs w aliasName).map _
  | none => exact .pure _

theorem aggExpr_errs (correlation : Correlation) (sub : Ast) (parentAlias : String) (agg : Aggregate) :
    Errs false (aggExpr display correlation sub parentAlias agg) :=
  (freshAlias_errs sub.table).after fun aliasName => (whereConds_errs sub.where? aliasName).map _

mutual

theorem collection_errs : ∀ (ast : Ast) (singular : Bool) (correlate : Option (String × Correlation)),
    Errs (queryFlaws catalog ast).d2s (collection display catalog ast singular correlate)
  | .mk head where? related having, singular, correlate => by
    have hcols : Errs (tableFlaws catalog head.table).d2s (columns catalog head.table) := columns_errs head.table
    rw [collection]
    refine (hcols.bind fun cols => (freshAlias_errs head.table).after fun aliasName =>
      (relations_errs related head.table aliasName).bind fun rels => (whereConds_errs where? aliasName).map _).cast ?_
    rw [queryFlaws, Flaws.append_d2s, Flaws.append_d2s, Flaws.append_d2s, whereFlaws_d2s, boundFlaws_d2s]
    simp

theorem relations_errs : ∀ (related : List (CorrelatedSubquery Ast)) (parentTable parentAlias : String),
    Errs (relatedFlaws catalog related parentTable).d2s (relations display catalog related parentTable parentAlias)
  | [], _, _ => .pure _
  | ⟨correlation, subquery, system⟩ :: related, parentTable, parentAlias => by
    rw [relations, relatedFlaws, Flaws.append_d2s]
    cases subquery.head.aliasName with
    | none => exact Errs.throw_bind _ _
    | some name =>
      simp only [pure_bind]
      have hrest := relations_errs related parentTable parentAlias
      cases hagg : subquery.head.aggregate with
      | some agg =>
        refine ((aggExpr_errs correlation subquery parentAlias agg).bind fun expr => hrest.map _).cast ?_
        simp [whereFlaws_d2s]
      | none =>
        refine ((cardinality_errs parentTable name).bind fun card =>
          (collection_errs subquery (card = .one) (some (parentAlias, correlation))).bind fun expr => hrest.map _).cast ?_
        simp [Bool.or_assoc]

end

end D2s

/-! ## The walker -/

namespace Walker

variable {catalog : Catalog}

theorem record_some {α : Type} (a : α) (name : String) : record (some a) name = .own a := rfl

theorem record_none {α : Type} (name : String) :
    record (none : Option α) name = if name ∈ objectPrototype then .inherited else .absent := rfl

variable (sc : SimpleCondition) (start : AstBound) (table : String) (vp : ValuePosition) (aliasName : String)
  (order : List (String × Dir))

theorem freshAlias_errs : Errs false (freshAlias table) :=
  .total fun _ => rfl

theorem bindValue_errs (value : Param) : Errs false (bindValue value) :=
  .total fun _ => rfl

theorem columnsOf_errs : Errs (tableFlaws catalog table).walker (columnsOf catalog table) := by
  unfold columnsOf tableFlaws
  cases catalog.tables table with
  | some t => exact .pure _
  | none =>
    rw [record_none]
    by_cases h : table ∈ objectPrototype
    · rw [if_pos h]
      exact .throw _
    · rw [if_neg h]
      exact .throw _

theorem cardinalityOf_errs (table rel : String) : Errs (relationshipFlaws catalog table rel).walker (cardinalityOf catalog table rel) := by
  unfold cardinalityOf relationshipFlaws
  cases catalog.tables table with
  | none =>
    rw [record_none]
    by_cases h : table ∈ objectPrototype
    · rw [if_pos h]
      exact .throw _
    · rw [if_neg h]
      exact .throw _
  | some t =>
    rw [record_some]
    simp only
    cases t.relationships rel with
    | some card => exact .pure _
    | none =>
      rw [record_none]
      by_cases h : rel ∈ objectPrototype
      · simp only [if_pos h]
        exact .pure _
      · simp only [if_neg h]
        exact .throw _

theorem columnTypeOf_errs : Errs (inherits (catalog.tables table) table) (columnTypeOf catalog table) := by
  unfold columnTypeOf inherits
  cases catalog.tables table with
  | some t => exact .pure _
  | none =>
    rw [record_none]
    by_cases h : table ∈ objectPrototype
    · rw [if_pos h]
      exact (Errs.throw _).cast (by simp [h])
    · rw [if_neg h]
      exact (Errs.pure _).cast (by simp [h])

theorem colTypeOf_errs :
    Errs (ValuePosition.isColumn vp && inherits (catalog.tables table) table) (colTypeOf catalog table vp) := by
  cases vp with
  | column name => exact (columnTypeOf_errs table).cast (by simp [ValuePosition.isColumn])
  | literal value => exact .pure _

theorem valuePos_errs : Errs false (valuePos vp aliasName) := by
  cases vp with
  | column name => exact .pure _
  | literal value => exact bindValue_errs _

theorem isRhs_errs : Errs false (isRhs vp aliasName) := by
  unfold isRhs
  split
  · exact .pure _
  · exact .pure _
  · exact .pure _
  · exact valuePos_errs _ _

theorem bindAll_errs (items : List Lit) : Errs false (bindAll items) := by
  induction items with
  | nil => exact .pure _
  | cons item items ih => exact (bindValue_errs _).after fun _ => ih.map _

theorem inSql_errs (lhs : Sql) (right : ValuePosition) (aliasName : String) (negate : Bool) : Errs false (inSql lhs right aliasName negate) := by
  unfold inSql
  split
  · split
    · exact .pure _
    · exact (bindAll_errs _).map _
  · exact (valuePos_errs _ _).map _

theorem comparisonSql_errs : Errs false (comparisonSql sc aliasName) := by
  have hr := valuePos_errs sc.right aliasName
  have his := isRhs_errs sc.right aliasName
  refine (valuePos_errs sc.left aliasName).after fun l => ?_
  cases sc.op with
  | is => exact his.map _
  | isNot => exact his.map _
  | isIn => exact inSql_errs _ _ _ _
  | notIn => exact inSql_errs _ _ _ _
  | _ => exact hr.map _

theorem simpleSql_errs (table aliasName : String) :
    Errs (comparisonFlaws catalog sc table).walker (simpleSql catalog sc table aliasName) := by
  refine ((colTypeOf_errs table sc.left).bind fun _ => (colTypeOf_errs table sc.right).bind fun _ => comparisonSql_errs sc aliasName).cast ?_
  simp only [comparisonFlaws, Flaws.walker, Bool.false_or, Bool.or_false]
  cases inherits (catalog.tables table) table <;> simp

theorem correlateSql_errs {corr : Correlation} (h : Correlation.fits corr = true) (parentAlias childAlias : String) :
    Errs false (correlateSql parentAlias childAlias corr) := by
  have hlen : corr.parentField.length = corr.childField.length := by simpa [Correlation.fits] using h
  unfold correlateSql
  rw [if_neg (by omega)]
  exact .pure _

theorem beforeSql_errs (x : Sql) (asc : Bool) (b : Option Param) : Errs false (beforeSql x asc b) := by
  cases b with
  | none => exact .pure _
  | some b => exact (bindValue_errs b).map _

theorem eqSql_errs (x : Sql) (b : Option Param) : Errs false (eqSql x b) := by
  cases b with
  | none => exact .pure _
  | some b => exact (bindValue_errs b).map _

theorem eqSqls_errs : Errs false (eqSqls start aliasName order) := by
  induction order with
  | nil => exact .pure _
  | cons op order ih => exact (eqSql_errs _ _).after fun _ => ih.map _

theorem startTerms_errs (done order : List (String × Dir)) :
    Errs false (startTerms start aliasName done order) := by
  induction order generalizing done with
  | nil => exact .pure _
  | cons op order ih => exact (eqSqls_errs start aliasName done).after fun _ => (beforeSql_errs _ _ _).after fun _ => (ih _).map _

theorem startSql_errs (aliasName : String) : Errs false (startSql start order aliasName) := by
  unfold startSql
  split
  · exact .pure _
  · refine (startTerms_errs start aliasName [] order).after fun orTerms => ?_
    simp only
    split
    · exact .pure _
    · exact (eqSqls_errs start aliasName order).map _

theorem orderTypes_errs :
    Errs (!order.isEmpty && inherits (catalog.tables table) table) (orderTypes catalog table order) := by
  induction order with
  | nil => exact .pure _
  | cons op order ih =>
    refine ((columnTypeOf_errs table).bind fun _ => ih).cast ?_
    cases inherits (catalog.tables table) table <;> simp

theorem startConds_errs (head : AstHead) (aliasName : String) : Errs (boundFlaws catalog head).walker (startConds catalog head aliasName) := by
  unfold startConds boundFlaws
  cases head.start with
  | none => exact .pure _
  | some start =>
    refine ((orderTypes_errs head.table head.orderBy).bind fun _ => (startSql_errs start head.orderBy aliasName).map _).cast ?_
    simp [Flaws.walker]

mutual

theorem whereSql_errs : ∀ (c : Condition) (table aliasName : String), wireCondition c = true →
    Errs (conditionFlaws catalog c table).walker (whereSql catalog c table aliasName)
  | .simple sc, table, aliasName, _ => simpleSql_errs sc table aliasName
  | .and conditions, table, aliasName, h => (whereSqls_errs conditions table aliasName h).map _
  | .or conditions, table, aliasName, h => (whereSqls_errs conditions table aliasName h).map _
  | .correlatedSubquery ⟨correlation, .mk head (some w) related having, _⟩ _, _, parentAlias, h => by
    obtain ⟨hcorr, hsub⟩ := Bool.and_eq_true_iff.mp h
    rw [wireAst_mk, Bool.and_eq_true, Bool.and_eq_true] at hsub
    exact (freshAlias_errs head.table).after fun aliasName => (correlateSql_errs hcorr parentAlias aliasName).after fun _ =>
      (whereSql_errs w head.table aliasName hsub.1.2).map _
  | .correlatedSubquery ⟨correlation, .mk head none _ _, _⟩ _, _, parentAlias, h => by
    obtain ⟨hcorr, -⟩ := Bool.and_eq_true_iff.mp h
    exact (freshAlias_errs head.table).after fun aliasName => (correlateSql_errs hcorr parentAlias aliasName).map _

theorem whereSqls_errs : ∀ (conditions : List Condition) (table aliasName : String), wireConditions conditions = true →
    Errs (conditionsFlaws catalog conditions table).walker (whereSqls catalog conditions table aliasName)
  | [], _, _, _ => .pure _
  | c :: conditions, table, aliasName, h => by
    obtain ⟨hc, hrest⟩ := Bool.and_eq_true_iff.mp h
    refine ((whereSql_errs c table aliasName hc).bind fun _ => (whereSqls_errs conditions table aliasName hrest).map _).cast ?_
    rw [conditionsFlaws, Flaws.append_walker]

end

theorem whereConds_errs {where? : Option Condition} (h : wireWhere where? = true) (table aliasName : String) :
    Errs (whereFlaws catalog where? table).walker (whereConds catalog where? table aliasName) := by
  cases where? with
  | some w => exact (whereSql_errs w table aliasName h).map _
  | none => exact .pure _

theorem countExpr_errs {correlation : Correlation} {sub : Ast} (hcorr : Correlation.fits correlation = true)
    (hwhere : wireWhere sub.where? = true) (parentAlias : String) :
    Errs (whereFlaws catalog sub.where? sub.table).walker (countExpr catalog correlation sub parentAlias) :=
  (freshAlias_errs sub.table).after fun aliasName => (correlateSql_errs hcorr parentAlias aliasName).after fun _ =>
    (whereConds_errs hwhere sub.table aliasName).map _

theorem correlateConds_errs {correlate : Option (String × Correlation)} (h : ∀ c ∈ correlate, Correlation.fits c.2 = true)
    (aliasName : String) : Errs false (correlateConds correlate aliasName) := by
  cases correlate with
  | none => exact .pure _
  | some c => exact (correlateSql_errs (h c rfl) c.1 aliasName).map _

mutual

theorem collection_errs : ∀ (ast : Ast) (singular : Bool) (correlate : Option (String × Correlation)), wireAst ast = true →
    (∀ c ∈ correlate, Correlation.fits c.2 = true) → Errs (queryFlaws catalog ast).walker (collection catalog ast singular correlate)
  | .mk head where? related having, singular, correlate, hwire, hcorrelate => by
    rw [wireAst_mk, Bool.and_eq_true, Bool.and_eq_true] at hwire
    obtain ⟨⟨-, hwhere⟩, hrelated⟩ := hwire
    have hcols : Errs (tableFlaws catalog head.table).walker (columnsOf catalog head.table) := columnsOf_errs head.table
    rw [collection]
    refine (hcols.bind fun cols => (freshAlias_errs head.table).after fun aliasName =>
      (relations_errs related head.table aliasName hrelated).bind fun rels => (correlateConds_errs hcorrelate aliasName).after fun _ =>
        (whereConds_errs hwhere head.table aliasName).bind fun _ => (startConds_errs head aliasName).map _).cast ?_
    rw [queryFlaws, Flaws.append_walker, Flaws.append_walker, Flaws.append_walker]
    simp [Bool.or_assoc]

theorem relations_errs : ∀ (related : List (CorrelatedSubquery Ast)) (parentTable parentAlias : String), wireRelated related = true →
    Errs (relatedFlaws catalog related parentTable).walker (relations catalog related parentTable parentAlias)
  | [], _, _, _ => .pure _
  | ⟨correlation, .mk head where? related' having, system⟩ :: related, parentTable, parentAlias, h => by
    simp only [wireRelated, Bool.and_eq_true] at h
    obtain ⟨⟨hcorr, hsub⟩, hrelated⟩ := h
    have hrest := relations_errs related parentTable parentAlias hrelated
    have hcollection := fun card => collection_errs (.mk head where? related' having) card (some (parentAlias, correlation)) hsub
      (fun c hc => by cases hc; exact hcorr)
    rw [wireAst_mk, Bool.and_eq_true, Bool.and_eq_true] at hsub
    rw [relations, relatedFlaws, Flaws.append_walker]
    simp only [Ast.head]
    cases head.aliasName with
    | none => exact Errs.throw_bind _ _
    | some name =>
      simp only [pure_bind]
      have hfits := hsub.1.1
      simp only [AstHead.fits, Bool.and_eq_true, Bool.or_eq_true, decide_eq_true_eq] at hfits
      rcases hfits.2 with hagg | hagg
      · simp only [hagg]
        refine ((cardinalityOf_errs parentTable name).bind fun card => (hcollection (card = .one)).bind fun expr => hrest.map _).cast ?_
        simp [Bool.or_assoc]
      · simp only [hagg]
        have hwhere : wireWhere (Ast.mk head where? related' having).where? = true := hsub.1.2
        refine ((countExpr_errs hcorr hwhere parentAlias).bind fun expr => hrest.map _).cast ?_
        simp

end

end Walker

end Rindle.Compile
