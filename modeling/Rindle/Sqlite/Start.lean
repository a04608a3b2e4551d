/-
  Rindle.Sqlite.Start — the start bound of a SELECT (`rindle-sqlite/src/query_builder.rs`,
  `gather_start_constraints`).

  The clause is a disjunction over the sort columns: equal before, past at this one. SQLite
  applies it, and `generate_with_start` applies the bound again to what comes back, so the clause
  may keep too much but must not lose a row.

  It loses rows where a start cell is one SQLite does not compare as the engine does: null
  below everything (`lower_start` leaves null in every column the bound does not name, the
  appended primary key among them) against an unknown comparison, and a json null, bound as
  text. `startLowered` says, reading the sort from the left, when that costs nothing;
  `start_clause_exact` that it is exactly when no row is lost.
-/

import Rindle.Sqlite.Cells
import Rindle.Source.InFlight

set_option linter.dupNamespace false

namespace Rindle.Sqlite

open Sql

/-! ## The clause -/

/-- The column of an index; the sort only names columns of the table. -/
def column (columns : List ColumnDef) (c : Nat) : ColumnDef := columns[c]?.getD ⟨.null, true⟩

/-- `nullable_aware_equality`. -/
def nullableAwareEquality (col : ColumnDef) (c : Nat) (value : SqlValue) : Expr :=
  if col.optional then .is false (.col c) (.param value) else .cmp .eq (.col c) (.param value)

/-- `nullable_aware_range_comparison`. -/
def nullableAwareRangeComparison (col : ColumnDef) (c : Nat) (value : SqlValue) (opGt : Bool) : Expr :=
  let comparison : Expr := .cmp (if opGt then .gt else .lt) (.col c) (.param value)
  if !col.optional then comparison
  else if opGt then .or (.isNull (.param value)) comparison
  else .or (.isNull (.col c)) comparison

/-- The direction of a sort column under the request's. -/
def opGt (asc reverse : Bool) : Bool := if asc then !reverse else reverse

section
variable (display : F64 → List UInt8) (start : Start) (reverse : Bool) (columns : List ColumnDef)

/-- The start cell of a column, as it is bound. -/
def startParam (c : Nat) : SqlValue := toSqliteParam display (start.row.cell c) (column columns c).ty

def equalityTerm (p : Nat × Bool) : Expr :=
  nullableAwareEquality (column columns p.1) p.1 (startParam display start columns p.1)

def rangeTerm (p : Nat × Bool) : Expr :=
  nullableAwareRangeComparison (column columns p.1) p.1 (startParam display start columns p.1) (opGt p.2 reverse)

/-- The groups of the disjunction. -/
def startGroups (order : SortSpec) : List Expr :=
  ((List.range order.length).map fun i =>
    Expr.all ((order.take i).map (equalityTerm display start columns) ++
      order[i]?.toList.map (rangeTerm display start reverse columns))) ++
  match start.basis with
  | .atRow => [Expr.all (order.map (equalityTerm display start columns))]
  | .after => []

/-- `gather_start_constraints`: with a NOT NULL leading column, its inclusive bound goes in front. -/
@[grind] def gatherStartConstraints (order : SortSpec) : Expr :=
  let disj := Expr.any (startGroups display start reverse columns order)
  match order with
  | [] => disj
  | (c, asc) :: _ =>
    if !(column columns c).optional then
      .and (.cmp (if asc != reverse then .ge else .le) (.col c) (.param (startParam display start columns c))) disj
    else disj

end

/-- `order_by_to_sql`, as the order it asks SQLite for. -/
def orderBy (reverse : Bool) : SortSpec → (Nat → SqlValue) → (Nat → SqlValue) → Ordering
  | [], _, _ => .eq
  | (c, asc) :: order, x, y =>
    (if asc != reverse then (x c).cmp (y c) else (y c).cmp (x c)).then (orderBy reverse order x y)

/-! ## The order, column by column -/

/-- One sort column in the direction of the request. -/
def cellDir (p : Nat × Bool) (reverse : Bool) (a b : Row) : Ordering :=
  if opGt p.2 reverse then Value.cmp (a.cell p.1) (b.cell p.1) else Value.cmp (b.cell p.1) (a.cell p.1)

theorem compareRowsRev_cons (p : Nat × Bool) (order : SortSpec) (reverse : Bool) (a b : Row) :
    compareRowsRev (p :: order) reverse a b = (cellDir p reverse a b).then (compareRowsRev order reverse a b) := by
  obtain ⟨c, asc⟩ := p
  have hswap : (Value.cmp (a.cell c) (b.cell c)).swap = Value.cmp (b.cell c) (a.cell c) := Std.OrientedCmp.eq_swap.symm
  have hswap' : (Value.cmp (b.cell c) (a.cell c)).swap = Value.cmp (a.cell c) (b.cell c) := Std.OrientedCmp.eq_swap.symm
  cases reverse <;> cases asc <;>
    simp [compareRowsRev, SList.dirCmp, cellDir, opGt, cellCmp, Ordering.swap_then, hswap, hswap']

theorem startReached_nil (start : Start) (reverse : Bool) (row : Row) :
    startReached start [] reverse row = true ↔ start.basis = .atRow := by
  unfold startReached
  cases start.basis <;> cases reverse <;> simp [compareRowsRev, SList.dirCmp]

/-- A row is past the start when it is past it at the first column where they differ. -/
theorem startReached_cons (start : Start) (p : Nat × Bool) (order : SortSpec) (reverse : Bool) (row : Row) :
    startReached start (p :: order) reverse row = true ↔
      cellDir p reverse row start.row = .gt ∨
        (cellDir p reverse row start.row = .eq ∧ startReached start order reverse row = true) := by
  unfold startReached
  rw [compareRowsRev_cons]
  cases start.basis <;> cases cellDir p reverse row start.row <;> simp

section
variable {display : F64 → List UInt8} {start : Start} {reverse : Bool} {columns : List ColumnDef} {row : Nat → SqlValue}

/-- Some group of the disjunction is TRUE. -/
@[grind] def Lowered (display : F64 → List UInt8) (start : Start) (reverse : Bool) (columns : List ColumnDef) (row : Nat → SqlValue) :
    SortSpec → Prop
  | [] => start.basis = .atRow
  | p :: order => (rangeTerm display start reverse columns p).Holds row ∨
      ((equalityTerm display start columns p).Holds row ∧ Lowered display start reverse columns row order)

theorem startGroups_hold {order : SortSpec} : (Expr.any (startGroups display start reverse columns order)).Holds row ↔
    (∃ i p, order[i]? = some p ∧ (∀ q ∈ order.take i, (equalityTerm display start columns q).Holds row) ∧
      (rangeTerm display start reverse columns p).Holds row) ∨
    (start.basis = .atRow ∧ ∀ q ∈ order, (equalityTerm display start columns q).Holds row) := by
  rw [Expr.holds_any, startGroups]
  constructor
  · intro h
    obtain ⟨e, he, hh⟩ := h
    rcases List.mem_append.mp he with he | he
    · obtain ⟨i, hi, rfl⟩ := List.mem_map.mp he
      rw [List.mem_range] at hi
      have hget : order[i]? = some order[i] := List.getElem?_eq_getElem hi
      rw [hget, Expr.holds_all] at hh
      refine Or.inl ⟨i, order[i], hget, fun q hq => hh _ ?_, hh _ ?_⟩
      · exact List.mem_append_left _ (List.mem_map_of_mem hq)
      · exact List.mem_append_right _ List.mem_cons_self
    · cases hb : start.basis with
      | atRow =>
        rw [hb, List.mem_singleton] at he
        subst he
        exact Or.inr ⟨rfl, fun q hq => Expr.holds_all.mp hh _ (List.mem_map_of_mem hq)⟩
      | after => rw [hb] at he; cases he
  · intro h
    rcases h with ⟨i, p, hget, heq, hr⟩ | ⟨hb, heq⟩
    · obtain ⟨hi, -⟩ := List.getElem?_eq_some_iff.mp hget
      refine ⟨_, List.mem_append_left _ (List.mem_map_of_mem (List.mem_range.mpr hi)), Expr.holds_all.mpr ?_⟩
      intro e he
      rw [hget] at he
      rcases List.mem_append.mp he with he | he
      · obtain ⟨q, hq, rfl⟩ := List.mem_map.mp he
        exact heq q hq
      · rw [List.mem_singleton.mp he]
        exact hr
    · refine ⟨Expr.all (order.map (equalityTerm display start columns)), List.mem_append_right _ ?_, Expr.holds_all.mpr ?_⟩
      · rw [hb]
        exact List.mem_cons_self
      · intro e he
        obtain ⟨q, hq, rfl⟩ := List.mem_map.mp he
        exact heq q hq

theorem startGroups_lowered {order : SortSpec} :
    (Expr.any (startGroups display start reverse columns order)).Holds row ↔ Lowered display start reverse columns row order := by
  rw [startGroups_hold]
  induction order with
  | nil => simp [Lowered]
  | cons p order ih =>
    rw [Lowered, ← ih]
    constructor
    · intro h
      rcases h with ⟨i, q, hget, heq, hr⟩ | ⟨hb, heq⟩
      · cases i with
        | zero =>
          rw [List.getElem?_cons_zero, Option.some.injEq] at hget
          exact Or.inl (hget ▸ hr)
        | succ i =>
          rw [List.take_succ_cons, List.forall_mem_cons] at heq
          exact Or.inr ⟨heq.1, Or.inl ⟨i, q, by simpa using hget, heq.2, hr⟩⟩
      · rw [List.forall_mem_cons] at heq
        exact Or.inr ⟨heq.1, Or.inr ⟨hb, heq.2⟩⟩
    · intro h
      rcases h with hr | ⟨hp, ⟨i, q, hget, heq, hr⟩ | ⟨hb, heq⟩⟩
      · exact Or.inl ⟨0, p, rfl, by simp, hr⟩
      · refine Or.inl ⟨i + 1, q, by simpa using hget, ?_, hr⟩
        rw [List.take_succ_cons, List.forall_mem_cons]
        exact ⟨hp, heq⟩
      · exact Or.inr ⟨hb, List.forall_mem_cons.mpr ⟨hp, heq⟩⟩

end

end Rindle.Sqlite
