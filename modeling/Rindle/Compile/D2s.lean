/-
  Rindle.Compile.D2s — the Rust compiler, which inlines its literals
  (`rust/rindle-d2s/src/lib.rs`).

  `Cx` is the catalog and the alias counter. A literal is spelled where it stands, and a
  fragment of the keyset predicate may be spelled once and used again. `f64::to_string` is the
  parameter `display`.
-/

import Rindle.Compile.Text

set_option linter.dupNamespace false

namespace Rindle.Compile.D2s

section
variable (display : F64 → Sql)

/-! ## Literals -/

/-- `fmt_number`. -/
def fmtNumber (n : F64) : Sql :=
  if n.isFinite = false then utf8 "NULL"
  else if F64.feq n n.trunc && decide (n.scaledAbs < 2 ^ 53 * F64.unit) then decimalInt n.asI64.toInt
  else
    let s := display n
    if s.any fun b => b = 46 || b = 101 || b = 69 then s else s ++ utf8 ".0"

mutual

/-- `inline_lit`. -/
def inlineLit : Lit → Sql
  | .null => utf8 "NULL"
  | .bool true => utf8 "1"
  | .bool false => utf8 "0"
  | .int i => decimalInt i.toInt
  | .number n => fmtNumber display n
  | .str s => Lexicon.quoted 39 s
  | .array items => utf8 "(" ++ commaJoin (inlineLits items) ++ utf8 ")"

def inlineLits : List Lit → List Sql
  | [] => []
  | item :: items => inlineLit item :: inlineLits items

end

/-! ## Conditions -/

def valuePos (vp : ValuePosition) (aliasName : String) : Sql :=
  match vp with
  | .column name => columnRef aliasName name
  | .literal value => inlineLit display value

def inSql (lhs : Sql) (right : ValuePosition) (aliasName : String) (negate : Bool) : Sql :=
  match right with
  | .literal (.array items) =>
    if items.isEmpty then (if negate then utf8 "1" else utf8 "0")
    else lhs ++ (utf8 " " ++ (if negate then utf8 "NOT IN" else utf8 "IN") ++ utf8 " (" ++ commaJoin (inlineLits display items) ++ utf8 ")")
  | right =>
    let r := valuePos display right aliasName
    if negate then lhs ++ (utf8 " != " ++ r) else lhs ++ (utf8 " = " ++ r)

def simpleSql (sc : SimpleCondition) (aliasName : String) : Sql :=
  let l := valuePos display sc.left aliasName
  let r := valuePos display sc.right aliasName
  match sc.op with
  | .eq => l ++ (utf8 " = " ++ r)
  | .ne => l ++ (utf8 " != " ++ r)
  | .lt => l ++ (utf8 " < " ++ r)
  | .le => l ++ (utf8 " <= " ++ r)
  | .gt => l ++ (utf8 " > " ++ r)
  | .ge => l ++ (utf8 " >= " ++ r)
  | .is => l ++ (utf8 " IS " ++ r)
  | .isNot => l ++ (utf8 " IS NOT " ++ r)
  | .like => l ++ (utf8 " LIKE " ++ r ++ utf8 " ESCAPE '\\'")
  | .notLike => l ++ (utf8 " NOT LIKE " ++ r ++ utf8 " ESCAPE '\\'")
  | .iLike => utf8 "lower(" ++ l ++ (utf8 ") LIKE lower(" ++ r ++ utf8 ") ESCAPE '\\'")
  | .notILike => utf8 "lower(" ++ l ++ (utf8 ") NOT LIKE lower(" ++ r ++ utf8 ") ESCAPE '\\'")
  | .isIn => inSql display l sc.right aliasName false
  | .notIn => inSql display l sc.right aliasName true

/-- `correlate_sql`: the fields are paired up as far as both lists go. -/
def correlateSql (parentAlias childAlias : String) (corr : Correlation) : Sql :=
  andJoin ((corr.parentField.zip corr.childField).map fun (p, c) => columnRef parentAlias p ++ utf8 " = " ++ columnRef childAlias c)

/-! ## The keyset predicate -/

def beforeSql (x : Sql) (asc : Bool) : Option Lit → Sql
  | none => if asc then x ++ utf8 " IS NOT NULL" else utf8 "0"
  | some lit =>
    let v := inlineLit display lit
    if asc then v ++ (utf8 " < " ++ x) else utf8 "(" ++ x ++ utf8 " IS NULL OR " ++ v ++ (utf8 " > " ++ x ++ utf8 ")")

def eqSql (x : Sql) : Option Lit → Sql
  | none => x ++ utf8 " IS NULL"
  | some lit => x ++ utf8 " = " ++ inlineLit display lit

/-- A bound value: what is missing or null compares as the lowest. -/
def boundValue (start : AstBound) (field : String) : Option Lit :=
  match start.row.lookup field with
  | some .null => none
  | b => b

/-- The loop of `start_sql`: the terms, and the equalities of all columns. -/
def startTerms (start : AstBound) (aliasName : String) : List Sql → List (String × Dir) → List Sql × List Sql
  | prefixEq, [] => ([], prefixEq)
  | prefixEq, (field, dir) :: order =>
    let x := columnRef aliasName field
    let b := boundValue start field
    let conj := prefixEq ++ [beforeSql display x (dir = .asc) b]
    let (orTerms, allEq) := startTerms start aliasName (prefixEq ++ [eqSql display x b]) order
    ((utf8 "(" ++ andJoin conj ++ utf8 ")") :: orTerms, allEq)

def startSql (start : AstBound) (order : List (String × Dir)) (aliasName : String) : Sql :=
  let (orTerms, prefixEq) := startTerms display start aliasName [] order
  if orTerms.isEmpty then utf8 "1"
  else
    let strictLt := utf8 "(" ++ Lexicon.join (utf8 " OR ") orTerms ++ utf8 ")"
    if start.exclusive then strictLt else utf8 "(" ++ strictLt ++ (utf8 " OR (" ++ andJoin prefixEq ++ utf8 "))")

/-! ## The walk -/

/-- The alias counter, and the errors. -/
abbrev Walk := StateT Nat (Except CompileError)

/-- `Cx::alias`. -/
def freshAlias (table : String) : Walk String := fun n => .ok (table ++ "_" ++ toString n, n + 1)

variable (catalog : Catalog)

/-- `Catalog::columns`. -/
def columns (table : String) : Walk (List String) :=
  match catalog.tables table with
  | some t => pure t.columns
  | none => throw (.unknownTable table)

/-- `Catalog::cardinality`. -/
def cardinality (table rel : String) : Walk Cardinality :=
  match (catalog.tables table).bind (·.relationships rel) with
  | some card => pure card
  | none => throw (.unknownRelationship table rel)

def aggText (aliasName : String) : Aggregate → Sql
  | .count => utf8 "count(*)"
  | .sum col => utf8 "sum(" ++ columnRef aliasName col ++ utf8 ")"
  | .avg col => utf8 "avg(" ++ columnRef aliasName col ++ utf8 ")"

mutual

/-- `where_sql`, with `exists_sql`. -/
def whereSql : Condition → String → Walk Sql
  | .and conditions, aliasName => do pure (connective "1" " AND " (← whereSqls conditions aliasName))
  | .or conditions, aliasName => do pure (connective "0" " OR " (← whereSqls conditions aliasName))
  | .correlatedSubquery ⟨correlation, .mk head (some w) _ _, _⟩ flags, parentAlias => do
    let aliasName ← freshAlias head.table
    let «where» ← whereSql w aliasName
    pure (existsText flags.op (utf8 "SELECT 1 FROM " ++
      correlated head.table aliasName [correlateSql parentAlias aliasName correlation, «where»]))
  | .correlatedSubquery ⟨correlation, .mk head none _ _, _⟩ flags, parentAlias => do
    let aliasName ← freshAlias head.table
    pure (existsText flags.op (utf8 "SELECT 1 FROM " ++ correlated head.table aliasName [correlateSql parentAlias aliasName correlation]))
  | .simple sc, aliasName => pure (simpleSql display sc aliasName)

def whereSqls : List Condition → String → Walk (List Sql)
  | [], _ => pure []
  | c :: conditions, aliasName => do
    let part ← whereSql c aliasName
    let parts ← whereSqls conditions aliasName
    pure (part :: parts)

end

/-- A condition, where there is one. -/
def whereConds (where? : Option Condition) (aliasName : String) : Walk (List Sql) :=
  match where? with
  | some w => do pure [← whereSql display w aliasName]
  | none => pure []

/-- `agg_expr`. -/
def aggExpr (correlation : Correlation) (sub : Ast) (parentAlias : String) (agg : Aggregate) : Walk Sql := do
  let aliasName ← freshAlias sub.table
  let conds ← whereConds display sub.where? aliasName
  pure (utf8 "(SELECT " ++ aggText aliasName agg ++ utf8 " FROM " ++
    correlated sub.table aliasName (correlateSql parentAlias aliasName correlation :: conds) ++ utf8 ")")

/-- The keyset predicate, where there is a bound. -/
def startConds (head : AstHead) (aliasName : String) : List Sql :=
  match head.start with
  | some start => [startSql display start head.orderBy aliasName]
  | none => []

/-- The correlation to the parent, where there is one. -/
def correlateConds (correlate : Option (String × Correlation)) (aliasName : String) : List Sql :=
  match correlate with
  | some (parentAlias, corr) => [correlateSql parentAlias aliasName corr]
  | none => []

mutual

/-- `Cx::collection`. -/
def collection : Ast → Bool → Option (String × Correlation) → Walk Sql
  | .mk head where? related having, singular, correlate => do
    let cols ← columns catalog head.table
    let aliasName ← freshAlias head.table
    let rels ← relations related head.table aliasName
    let row := objectBuild ((shownColumns (.mk head where? related having) cols).map
      (fun col => jsonKey col ++ utf8 ", " ++ columnRef aliasName col) ++ rels)
    let conds ← whereConds display where? aliasName
    let conds := correlateConds correlate aliasName ++ conds ++ startConds display head aliasName
    pure (pluralOrSingular singular row (fromSql head.table aliasName) (whereClause conds) head.orderBy aliasName head.limit)

/-- The relationships of `row_object`, with `relation_expr`. -/
def relations : List (CorrelatedSubquery Ast) → String → String → Walk (List Sql)
  | [], _, _ => pure []
  | ⟨correlation, subquery, _⟩ :: related, parentTable, parentAlias => do
    let name ← match subquery.head.aliasName with
      | some name => pure name
      | none => throw (.missingAlias subquery.table)
    let expr ← match subquery.head.aggregate with
      | some agg => aggExpr display correlation subquery parentAlias agg
      | none => do
        let card ← cardinality catalog parentTable name
        collection subquery (card = .one) (some (parentAlias, correlation))
    let rest ← relations related parentTable parentAlias
    pure ((jsonKey name ++ utf8 ", " ++ expr) :: rest)

end

/-! ## The compiler -/

def rejectTexts : RejectTexts := ⟨"start inside an aggregate", "limit inside an aggregate", "nested related inside an aggregate"⟩

/-- `compile_with`. -/
def compileWith (ast : Ast) (singular : Bool) : Except CompileError Sql := do
  rejectUnsupported rejectTexts ast
  let (expr, _) ← collection display catalog (completeOrdering catalog.pk ast) singular none 0
  pure (utf8 "SELECT " ++ expr ++ utf8 " AS \"rindle_result\"")

end

end Rindle.Compile.D2s
