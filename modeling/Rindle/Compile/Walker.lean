/-
  Rindle.Compile.Walker — the TypeScript compiler over its SQLite dialect, which binds its
  literals (`packages/query-compiler/src/walker.ts`, `dialect.ts`).

  `Cx` collects the parameters, in the order in which the placeholders are made, and counts the
  aliases. A fragment of the keyset predicate is made anew wherever it stands. A JS number is
  the token it is written as on the wire.

  The catalog's records and the bound's row are plain objects, so a name that is not their own
  is looked up on `Object.prototype` (`record`): there is something under `constructor` or
  `toString`, and it is neither a table, nor a cardinality, nor a value to bind.
-/

import Rindle.Compile.D2s

set_option linter.dupNamespace false

namespace Rindle.Compile.Walker

open D2s (fmtNumber)

/-! ## Plain objects -/

/-- The names `Object.prototype` has. -/
def objectPrototype : List String :=
  ["constructor", "__defineGetter__", "__defineSetter__", "hasOwnProperty", "__lookupGetter__", "__lookupSetter__", "isPrototypeOf",
    "propertyIsEnumerable", "toString", "valueOf", "__proto__", "toLocaleString"]

/-- What `record[name]` is. -/
inductive Found (α : Type) where
  | own (a : α)
  | inherited
  | absent

def record {α : Type} (own : Option α) (name : String) : Found α :=
  match own with
  | some a => .own a
  | none => if name ∈ objectPrototype then .inherited else .absent

/-! ## Parameters -/

/-- A bound value: a scalar, or what was found on `Object.prototype`. -/
inductive Param where
  | scalar (lit : Lit)
  | inherited (name : String)

/-- The SQLite literal of a bound value. There is none for what is not a scalar of SQLite. -/
def sqliteLiteral (display : F64 → Sql) : Param → Option Sql
  | .scalar .null => some (utf8 "NULL")
  | .scalar (.int i) => some (decimalInt i.toInt)
  | .scalar (.number n) => some (fmtNumber display n)
  | .scalar (.str s) => some (Lexicon.quoted 39 s)
  | .scalar (.bool _) => none
  | .scalar (.array _) => none
  | .inherited _ => none

structure Cx where
  params : List Param := []
  n : Nat := 0

abbrev Walk := StateT Cx (Except CompileError)

/-- `bindValue` of `sqliteDialect`. -/
def bindValue (value : Param) : Walk Sql := fun cx =>
  let native := match value with
    | .scalar (.bool b) => .scalar (.int (if b then 1 else 0))
    | value => value
  .ok (utf8 "?", { cx with params := cx.params ++ [native] })

/-- `#alias`. -/
def freshAlias (table : String) : Walk String := fun cx => .ok (table ++ "_" ++ toString cx.n, { cx with n := cx.n + 1 })

/-! ## The catalog -/

section
variable (catalog : Catalog)

/-- `columnsOf`, as `#rowObject` walks it: what is inherited has no columns. -/
def columnsOf (table : String) : Walk (List String) :=
  match record (catalog.tables table) table with
  | .own t => pure t.columns
  | .inherited => throw .typeError
  | .absent => throw (.unknownTable table)

/-- `cardinalityOf`: what is inherited is truthy, and is not `"one"`. -/
def cardinalityOf (table rel : String) : Walk Cardinality :=
  match record (catalog.tables table) table with
  | .own t =>
    match record (t.relationships rel) rel with
    | .own card => pure card
    | .inherited => pure .many
    | .absent => throw (.unknownRelationship table rel)
  | .inherited => throw .typeError
  | .absent => throw (.unknownRelationship table rel)

/-- `columnTypeOf`, whose value SQLite does not use: what is inherited has no `columnTypes`. -/
def columnTypeOf (table : String) : Walk Unit :=
  match record (catalog.tables table) table with
  | .own _ => pure ()
  | .inherited => throw .typeError
  | .absent => pure ()

/-! ## Conditions -/

def colTypeOf (table : String) (vp : ValuePosition) : Walk Unit :=
  match vp with
  | .column _ => columnTypeOf catalog table
  | .literal _ => pure ()

end

def valuePos (vp : ValuePosition) (aliasName : String) : Walk Sql :=
  match vp with
  | .column name => pure (columnRef aliasName name)
  | .literal value => bindValue (.scalar value)

/-- `#isRhs`. -/
def isRhs (vp : ValuePosition) (aliasName : String) : Walk Sql :=
  match vp with
  | .literal .null => pure (utf8 "NULL")
  | .literal (.bool true) => pure (utf8 "1")
  | .literal (.bool false) => pure (utf8 "0")
  | vp => valuePos vp aliasName

def bindAll : List Lit → Walk (List Sql)
  | [] => pure []
  | item :: items => do
    let v ← bindValue (.scalar item)
    let vs ← bindAll items
    pure (v :: vs)

def inSql (lhs : Sql) (right : ValuePosition) (aliasName : String) (negate : Bool) : Walk Sql :=
  match right with
  | .literal (.array items) => do
    if items.isEmpty then pure (if negate then utf8 "1" else utf8 "0")
    else
      let list ← bindAll items
      pure (lhs ++ (utf8 " " ++ (if negate then utf8 "NOT IN" else utf8 "IN") ++ utf8 " (" ++ commaJoin list ++ utf8 ")"))
  | right => do
    let r ← valuePos right aliasName
    pure (if negate then lhs ++ (utf8 " != " ++ r) else lhs ++ (utf8 " = " ++ r))

/-- `#simpleSql`, once the column types are looked up. -/
def comparisonSql (sc : SimpleCondition) (aliasName : String) : Walk Sql := do
  let l ← valuePos sc.left aliasName
  let r := valuePos sc.right aliasName
  match sc.op with
  | .eq => do pure (l ++ (utf8 " = " ++ (← r)))
  | .ne => do pure (l ++ (utf8 " != " ++ (← r)))
  | .lt => do pure (l ++ (utf8 " < " ++ (← r)))
  | .le => do pure (l ++ (utf8 " <= " ++ (← r)))
  | .gt => do pure (l ++ (utf8 " > " ++ (← r)))
  | .ge => do pure (l ++ (utf8 " >= " ++ (← r)))
  | .is => do pure (l ++ (utf8 " IS " ++ (← isRhs sc.right aliasName)))
  | .isNot => do pure (l ++ (utf8 " IS NOT " ++ (← isRhs sc.right aliasName)))
  | .like => do pure (l ++ (utf8 " LIKE " ++ (← r) ++ utf8 " ESCAPE '\\'"))
  | .notLike => do pure (l ++ (utf8 " NOT LIKE " ++ (← r) ++ utf8 " ESCAPE '\\'"))
  | .iLike => do pure (utf8 "lower(" ++ l ++ (utf8 ") LIKE lower(" ++ (← r) ++ utf8 ") ESCAPE '\\'"))
  | .notILike => do pure (utf8 "lower(" ++ l ++ (utf8 ") NOT LIKE lower(" ++ (← r) ++ utf8 ") ESCAPE '\\'"))
  | .isIn => inSql l sc.right aliasName false
  | .notIn => inSql l sc.right aliasName true

def simpleSql (catalog : Catalog) (sc : SimpleCondition) (table aliasName : String) : Walk Sql := do
  colTypeOf catalog table sc.left
  colTypeOf catalog table sc.right
  comparisonSql sc aliasName

/-- `correlateSql`: a child field that is missing is not a string. -/
def correlateSql (parentAlias childAlias : String) (corr : Correlation) : Walk Sql := do
  if corr.childField.length < corr.parentField.length then throw .typeError
  pure (andJoin ((corr.parentField.zip corr.childField).map fun (p, c) => columnRef parentAlias p ++ utf8 " = " ++ columnRef childAlias c))

/-! ## The keyset predicate -/

/-- `nullLowBound(start.row[field])`. -/
def boundValue (start : AstBound) (field : String) : Option Param :=
  match record (start.row.lookup field) field with
  | .own .null => none
  | .own lit => some (.scalar lit)
  | .inherited => some (.inherited field)
  | .absent => none

def beforeSql (x : Sql) (asc : Bool) : Option Param → Walk Sql
  | none => pure (if asc then x ++ utf8 " IS NOT NULL" else utf8 "0")
  | some b => do
    let v ← bindValue b
    pure (if asc then v ++ (utf8 " < " ++ x) else utf8 "(" ++ x ++ utf8 " IS NULL OR " ++ v ++ (utf8 " > " ++ x ++ utf8 ")"))

def eqSql (x : Sql) : Option Param → Walk Sql
  | none => pure (x ++ utf8 " IS NULL")
  | some b => do pure (x ++ utf8 " = " ++ (← bindValue b))

/-- The equality of a sort column. -/
def columnEq (start : AstBound) (aliasName : String) (op : String × Dir) : Walk Sql :=
  eqSql (columnRef aliasName op.1) (boundValue start op.1)

def eqSqls (start : AstBound) (aliasName : String) : List (String × Dir) → Walk (List Sql)
  | [] => pure []
  | op :: order => do
    let e ← columnEq start aliasName op
    let es ← eqSqls start aliasName order
    pure (e :: es)

/-- The loop of `#startSql`, at the column after `done`. -/
def startTerms (start : AstBound) (aliasName : String) : List (String × Dir) → List (String × Dir) → Walk (List Sql)
  | _, [] => pure []
  | done, (field, dir) :: order => do
    let conj ← eqSqls start aliasName done
    let before ← beforeSql (columnRef aliasName field) (dir = .asc) (boundValue start field)
    let orTerms ← startTerms start aliasName (done ++ [(field, dir)]) order
    pure ((utf8 "(" ++ andJoin (conj ++ [before]) ++ utf8 ")") :: orTerms)

def startSql (start : AstBound) (order : List (String × Dir)) (aliasName : String) : Walk Sql := do
  if order.isEmpty then pure (utf8 "1")
  else
    let orTerms ← startTerms start aliasName [] order
    let strictLt := utf8 "(" ++ Lexicon.join (utf8 " OR ") orTerms ++ utf8 ")"
    if start.exclusive then pure strictLt
    else
      let allEq ← eqSqls start aliasName order
      pure (utf8 "(" ++ strictLt ++ (utf8 " OR (" ++ andJoin allEq ++ utf8 "))"))

/-! ## The walk -/

section
variable (catalog : Catalog)

mutual

/-- `#whereSql`, with `#existsSql`; `table` and `aliasName` are the scope. -/
def whereSql : Condition → String → String → Walk Sql
  | .and conditions, table, aliasName => do pure (connective "1" " AND " (← whereSqls conditions table aliasName))
  | .or conditions, table, aliasName => do pure (connective "0" " OR " (← whereSqls conditions table aliasName))
  | .correlatedSubquery ⟨correlation, .mk head (some w) _ _, _⟩ flags, _, parentAlias => do
    let aliasName ← freshAlias head.table
    let correlate ← correlateSql parentAlias aliasName correlation
    let «where» ← whereSql w head.table aliasName
    pure (existsText flags.op (utf8 "SELECT 1 FROM " ++ correlated head.table aliasName [correlate, «where»]))
  | .correlatedSubquery ⟨correlation, .mk head none _ _, _⟩ flags, _, parentAlias => do
    let aliasName ← freshAlias head.table
    let correlate ← correlateSql parentAlias aliasName correlation
    pure (existsText flags.op (utf8 "SELECT 1 FROM " ++ correlated head.table aliasName [correlate]))
  | .simple sc, table, aliasName => simpleSql catalog sc table aliasName

def whereSqls : List Condition → String → String → Walk (List Sql)
  | [], _, _ => pure []
  | c :: conditions, table, aliasName => do
    let part ← whereSql c table aliasName
    let parts ← whereSqls conditions table aliasName
    pure (part :: parts)

end

/-- A condition, where there is one. -/
def whereConds (where? : Option Condition) (table aliasName : String) : Walk (List Sql) :=
  match where? with
  | some w => do pure [← whereSql catalog w table aliasName]
  | none => pure []

/-- `#countExpr`. -/
def countExpr (correlation : Correlation) (sub : Ast) (parentAlias : String) : Walk Sql := do
  let aliasName ← freshAlias sub.table
  let correlate ← correlateSql parentAlias aliasName correlation
  let conds ← whereConds catalog sub.where? sub.table aliasName
  pure (utf8 "(SELECT " ++ utf8 "count(*)" ++ utf8 " FROM " ++ correlated sub.table aliasName (correlate :: conds) ++ utf8 ")")

/-- The column types that `#startSql` looks up. -/
def orderTypes (table : String) : List (String × Dir) → Walk Unit
  | [] => pure ()
  | _ :: order => do
    columnTypeOf catalog table
    orderTypes table order

/-- The keyset predicate, where there is a bound. -/
def startConds (head : AstHead) (aliasName : String) : Walk (List Sql) :=
  match head.start with
  | some start => do
    orderTypes catalog head.table head.orderBy
    pure [← startSql start head.orderBy aliasName]
  | none => pure []

/-- The correlation to the parent, where there is one. -/
def correlateConds (correlate : Option (String × Correlation)) (aliasName : String) : Walk (List Sql) :=
  match correlate with
  | some (parentAlias, corr) => do pure [← correlateSql parentAlias aliasName corr]
  | none => pure []

mutual

/-- `collection`. -/
def collection : Ast → Bool → Option (String × Correlation) → Walk Sql
  | .mk head where? related having, singular, correlate => do
    let cols ← columnsOf catalog head.table
    let aliasName ← freshAlias head.table
    let rels ← relations related head.table aliasName
    let row := objectBuild ((shownColumns (.mk head where? related having) cols).map
      (fun col => jsonKey col ++ utf8 ", " ++ columnRef aliasName col) ++ rels)
    let correlate ← correlateConds correlate aliasName
    let conds ← whereConds catalog where? head.table aliasName
    let start ← startConds catalog head aliasName
    pure (pluralOrSingular singular row (fromSql head.table aliasName) (whereClause (correlate ++ conds ++ start)) head.orderBy aliasName
      head.limit)

/-- The relationships of `#rowObject`, with `#relationExpr`. -/
def relations : List (CorrelatedSubquery Ast) → String → String → Walk (List Sql)
  | [], _, _ => pure []
  | ⟨correlation, subquery, _⟩ :: related, parentTable, parentAlias => do
    let name ← match subquery.head.aliasName with
      | some name => pure name
      | none => throw (.missingAlias subquery.table)
    let expr ←
      if subquery.head.aggregate = some .count then countExpr catalog correlation subquery parentAlias
      else do
        let card ← cardinalityOf catalog parentTable name
        collection subquery (card = .one) (some (parentAlias, correlation))
    let rest ← relations related parentTable parentAlias
    pure ((jsonKey name ++ utf8 ", " ++ expr) :: rest)

end

/-- `pkOf`: what is inherited has no primary key. -/
def pkOf (table : String) : List String :=
  match record (catalog.tables table) table with
  | .own t => t.primaryKey
  | .inherited => []
  | .absent => []

def rejectTexts : RejectTexts :=
  ⟨"start inside a count aggregate", "limit inside a count aggregate", "nested related inside a count aggregate"⟩

/-- `compileWith`: the text, and the parameters. -/
def compileWith (ast : Ast) (singular : Bool) : Except CompileError (Sql × List Param) := do
  rejectUnsupported rejectTexts ast
  let (expr, cx) ← collection catalog (completeOrdering (pkOf catalog) ast) singular none {}
  pure (utf8 "SELECT " ++ expr ++ utf8 " AS \"rindle_result\"", cx.params)

end

end Rindle.Compile.Walker
