/-
  Rindle.Compile.Text — what the two SQL compilers have in common: `rindle-d2s`
  (`rust/rindle-d2s/src/lib.rs`) and the walker of `packages/query-compiler/src` over its SQLite
  dialect, which is its port.

  Both check the query for what they do not lower, complete every ORDER BY with the primary key,
  and spell identifiers, keys, orderings and the two forms of a collection alike; what each does
  in its own way is in `Rindle.Compile.D2s` and `Rindle.Compile.Walker`. A text is its UTF-8
  bytes, and so is a quoted one, since no byte of a longer character is a quote.
-/

import Rindle.Ast
import Rindle.Lib.Decimal
import Rindle.Lib.Placeholders

set_option linter.dupNamespace false

namespace Rindle.Compile

abbrev Sql := List UInt8

def utf8 (s : String) : Sql := s.toUTF8.data.toList

/-- `'` and `"` quote, `?` is a placeholder. -/
def sqlLexicon : Lexicon UInt8 := ⟨[39, 34], 63, by decide⟩

/-! ## The catalog -/

inductive Cardinality where
  | one | many
deriving DecidableEq

structure CatalogTable where
  columns : List String
  primaryKey : List String
  relationships : String → Option Cardinality

structure Catalog where
  tables : String → Option CatalogTable

inductive CompileError where
  | unknownTable (table : String)
  | unknownRelationship (table rel : String)
  | missingAlias (table : String)
  | unsupported (what : String)
  /-- A `TypeError` of the language. -/
  | typeError

/-! ## Unsupported features -/

/-- How a compiler names what an aggregate may not have. -/
structure RejectTexts where
  start : String
  limit : String
  related : String

mutual

/-- `reject_start_anywhere`, `rejectStartAnywhere`. -/
def rejectStartAnywhere : Ast → Except CompileError Unit
  | .mk head (some w) related _ => do
    if head.start.isSome then throw (.unsupported "start (paging) inside an EXISTS subquery")
    rejectStartRelated related
    rejectStartAnywhereCond w
  | .mk head none related _ => do
    if head.start.isSome then throw (.unsupported "start (paging) inside an EXISTS subquery")
    rejectStartRelated related

def rejectStartRelated : List (CorrelatedSubquery Ast) → Except CompileError Unit
  | [] => pure ()
  | ⟨_, subquery, _⟩ :: related => do
    rejectStartAnywhere subquery
    rejectStartRelated related

/-- `reject_start_anywhere_cond`, `rejectStartAnywhereCond`. -/
def rejectStartAnywhereCond : Condition → Except CompileError Unit
  | .simple _ => pure ()
  | .correlatedSubquery ⟨_, subquery, _⟩ _ => rejectStartAnywhere subquery
  | .and conditions => rejectStartConds conditions
  | .or conditions => rejectStartConds conditions

def rejectStartConds : List Condition → Except CompileError Unit
  | [] => pure ()
  | c :: conditions => do
    rejectStartAnywhereCond c
    rejectStartConds conditions

end

mutual

/-- `reject_unsupported_cond`, `rejectUnsupportedCond`. -/
def rejectUnsupportedCond : Condition → Except CompileError Unit
  | .simple _ => pure ()
  | .correlatedSubquery ⟨_, subquery, _⟩ _ => rejectStartAnywhere subquery
  | .and conditions => rejectUnsupportedConds conditions
  | .or conditions => rejectUnsupportedConds conditions

def rejectUnsupportedConds : List Condition → Except CompileError Unit
  | [] => pure ()
  | c :: conditions => do
    rejectUnsupportedCond c
    rejectUnsupportedConds conditions

end

def rejectWhere : Option Condition → Except CompileError Unit
  | some w => rejectUnsupportedCond w
  | none => pure ()

/-- `reject_aggregate_subquery`, `rejectAggregateSubquery`. -/
def rejectAggregateSubquery (texts : RejectTexts) (ast : Ast) : Except CompileError Unit := do
  if ast.head.start.isSome then throw (.unsupported texts.start)
  if ast.head.limit.isSome then throw (.unsupported texts.limit)
  if ast.related.isEmpty = false then throw (.unsupported texts.related)
  rejectWhere ast.where?

mutual

/-- `reject_unsupported`, `rejectUnsupported`. -/
def rejectUnsupported (texts : RejectTexts) : Ast → Except CompileError Unit
  | .mk _ where? related _ => do
    rejectRelated texts related
    rejectWhere where?

def rejectRelated (texts : RejectTexts) : List (CorrelatedSubquery Ast) → Except CompileError Unit
  | [] => pure ()
  | ⟨_, subquery, _⟩ :: related => do
    if subquery.head.aggregate.isSome then rejectAggregateSubquery texts subquery else rejectUnsupported texts subquery
    rejectRelated texts related

end

/-! ## Ordering completion -/

/-- `add_primary_keys`, `addPrimaryKeys`. -/
def addPrimaryKeys (pk : List String) (orderBy : List (String × Dir)) : List (String × Dir) :=
  pk.foldl (fun order col => if order.any (·.1 = col) then order else order ++ [(col, .asc)]) orderBy

mutual

/-- `complete_ordering`, `completeOrdering`. -/
def completeOrdering (getPk : String → List String) : Ast → Ast
  | .mk head (some w) related having =>
    .mk { head with orderBy := addPrimaryKeys (getPk head.table) head.orderBy } (some (completeOrderingInCondition getPk w))
      (completeRelated getPk related) having
  | .mk head none related having =>
    .mk { head with orderBy := addPrimaryKeys (getPk head.table) head.orderBy } none (completeRelated getPk related) having

def completeRelated (getPk : String → List String) : List (CorrelatedSubquery Ast) → List (CorrelatedSubquery Ast)
  | [] => []
  | ⟨correlation, subquery, system⟩ :: related => ⟨correlation, completeOrdering getPk subquery, system⟩ :: completeRelated getPk related

/-- `complete_ordering_in_condition`, `completeOrderingInCondition`. -/
def completeOrderingInCondition (getPk : String → List String) : Condition → Condition
  | .simple c => .simple c
  | .correlatedSubquery ⟨correlation, subquery, system⟩ flags =>
    .correlatedSubquery ⟨correlation, completeOrdering getPk subquery, system⟩ flags
  | .and conditions => .and (completeConditions getPk conditions)
  | .or conditions => .or (completeConditions getPk conditions)

def completeConditions (getPk : String → List String) : List Condition → List Condition
  | [] => []
  | c :: conditions => completeOrderingInCondition getPk c :: completeConditions getPk conditions

end

/-- The primary key of a table; none for a table that is not in the catalog. -/
def Catalog.pk (catalog : Catalog) (table : String) : List String :=
  match catalog.tables table with
  | some t => t.primaryKey
  | none => []

/-! ## Spelling -/

/-- `quote_ident`, `quoteIdent`. -/
def quoteIdent (name : String) : Sql := Lexicon.quoted 34 (utf8 name)

/-- `json_key`, `jsonKey`. -/
def jsonKey (name : String) : Sql := Lexicon.quoted 39 (utf8 name)

def columnRef (aliasName column : String) : Sql := quoteIdent aliasName ++ utf8 "." ++ quoteIdent column

variable (parts : List Sql) (order : List (String × Dir)) (aliasName : String)

def commaJoin : Sql := Lexicon.join (utf8 ", ") parts

def andJoin : Sql := Lexicon.join (utf8 " AND ") parts

/-- `dir_sql`, `orderDir`. -/
def dirSql : Dir → Sql
  | .asc => utf8 "ASC"
  | .desc => utf8 "DESC"

/-- `order_terms`, `orderTerms`. -/
def orderTerms : Sql :=
  commaJoin (order.map fun op => columnRef aliasName op.1 ++ utf8 " " ++ dirSql op.2)

/-- `order_clause` and `agg_order_inline`, `orderClause` and `aggOrderInline`. -/
def orderClause : Sql :=
  if order.isEmpty then [] else utf8 " ORDER BY " ++ orderTerms order aliasName

/-- `agg_order`, `aggOrderProjected`. -/
def aggOrder : Sql :=
  if order.isEmpty then []
  else utf8 " ORDER BY " ++ commaJoin (order.zipIdx.map fun (op, i) => utf8 "__o" ++ decimalNat i ++ utf8 " " ++ dirSql op.2)

/-- `order_proj`, `orderProj`. -/
def orderProj : Sql :=
  (order.zipIdx.map fun (op, i) => utf8 ", " ++ columnRef aliasName op.1 ++ utf8 " AS __o" ++ decimalNat i).flatten

/-- `where_clause`, `whereClause`. -/
def whereClause (conds : List Sql) : Sql :=
  if conds.isEmpty then [] else utf8 " WHERE " ++ andJoin conds

/-- `{table} AS {alias}`. -/
def fromSql (table aliasName : String) : Sql := quoteIdent table ++ utf8 " AS " ++ quoteIdent aliasName

def objectBuild : Sql := utf8 "json_object(" ++ commaJoin parts ++ utf8 ")"

/-- `plural_or_singular`, `pluralOrSingular`. -/
def pluralOrSingular (singular : Bool) (row «from» «where» : Sql) (order : List (String × Dir)) (aliasName : String) (limit : Option Nat) : Sql :=
  if singular then
    utf8 "(SELECT " ++ row ++ (utf8 " FROM " ++ «from» ++ «where» ++ orderClause order aliasName ++ utf8 " LIMIT 1)")
  else match limit with
  | some n =>
    utf8 "COALESCE((SELECT json_group_array(json(__r)" ++ aggOrder order ++ utf8 ") FROM (SELECT " ++ row ++
      (utf8 " AS __r" ++ orderProj order aliasName ++ utf8 " FROM " ++ «from» ++ «where» ++ orderClause order aliasName ++ utf8 " LIMIT " ++
        decimalNat n ++ utf8 ")), '[]')")
  | none =>
    utf8 "COALESCE((SELECT json_group_array(" ++ row ++ (orderClause order aliasName ++ utf8 ") FROM " ++ «from» ++ «where» ++ utf8 "), '[]')")

/-- The columns that a row shows: none that a relationship of the name shadows, and of a
    selection only its own. -/
def shownColumns (ast : Ast) (cols : List String) : List String :=
  let relNames := ast.related.filterMap (·.subquery.head.aliasName)
  cols.filter fun col => !relNames.contains col && (match ast.head.select with | some selected => selected.contains col | none => true)

/-- A condition on the rows of a sub-query, after its correlation. -/
def correlated (table aliasName : String) (conds : List Sql) : Sql :=
  fromSql table aliasName ++ utf8 " WHERE " ++ andJoin conds

/-- An EXISTS, or its negation. -/
def existsText (op : ExistsOp) (inner : Sql) : Sql :=
  match op with
  | .exists => utf8 "EXISTS (" ++ inner ++ utf8 ")"
  | .notExists => utf8 "NOT EXISTS (" ++ inner ++ utf8 ")"

/-- AND and OR of the parts; of none, the constant. -/
def connective (empty : String) (op : String) (parts : List Sql) : Sql :=
  if parts.isEmpty then utf8 empty else utf8 "(" ++ Lexicon.join (utf8 op) parts ++ utf8 ")"

end Rindle.Compile
