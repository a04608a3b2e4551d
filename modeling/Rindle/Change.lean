/-
  Rindle.Change — nodes, changes, constraints and fetch requests (`rust/src/change.rs`), scan
  bounds (`RowBound` of `rust/src/btree.rs`).

  A node is a row with its relationships; the source's are thunks that make a fresh stream,
  here the stream itself.

  A constraint is a list of `(column, value)` equalities, ANDed; its order fixes the index
  a source builds for it. Cells are compared as in `Rindle.Value`, made total: `joinEq` for
  constraints (null matches nothing), `Value.cmp` for bounds.
-/

import Rindle.Row
import Rindle.BTree.Diff

namespace Rindle

/-! ## Nodes and changes -/

inductive Node where
  | mk (row : Row) (rels : List (Nat × List Node))

namespace Node

def row : Node → Row
  | .mk row _ => row

def rels : Node → List (Nat × List Node)
  | .mk _ rels => rels

/-- A source row: no relationships. -/
def leaf (row : Row) : Node := .mk row []

@[simp] theorem leaf_row (r : Row) : (leaf r).row = r := rfl

end Node

inductive Change where
  | add (node : Node)
  | remove (node : Node)
  | edit (node old : Node)
  | child (node : Node) (rel : Nat) (child : Change)

namespace Change

/-- The row that identifies the change's node; an edit's new one. -/
@[grind] def primaryRow : Change → Row
  | .add n => n.row
  | .remove n => n.row
  | .edit n _ => n.row
  | .child n _ _ => n.row

/-- A source change at its connection: rows become leaf nodes. -/
@[grind] def ofSource : SourceChange Row → Change
  | .add r => .add (.leaf r)
  | .remove r => .remove (.leaf r)
  | .edit old row => .edit (.leaf row) (.leaf old)

end Change

/-! ## Constraints and requests -/

abbrev Constraint := List (Nat × Value)

/-- A disjunction of constraints. -/
abbrev MultiConstraint := List Constraint

/-- `constraint_matches`. -/
def constraintMatches (row : Row) (c : Constraint) : Bool := c.all fun p => (row.cell p.1).joinEq p.2

/-- `constraint_matches_primary_key`: the constraint's columns are the key's. -/
def constraintMatchesPrimaryKey (c : Constraint) (pk : List Nat) : Bool :=
  c.length == pk.length && pk.all fun p => c.any fun q => q.1 == p

/-- `constraints_are_compatible`: equal values on the shared columns. -/
def constraintsAreCompatible (a b : Constraint) : Bool :=
  a.all fun p => (b.find? fun q => q.1 == p.1).all fun q => p.2.joinEq q.2

/-- `merge_constraints`: `extra` overrides `base` on shared columns, in place. -/
def mergeConstraints (base : Option Constraint) (extra : Constraint) : Constraint :=
  match base with
  | none => extra
  | some base =>
    (base.map fun p =>
      match extra.find? fun q => q.1 == p.1 with
      | some q => (p.1, q.2)
      | none => p) ++
    extra.filter fun q => !base.any fun p => p.1 == q.1

/-- `At` and `After`. -/
inductive Basis where
  | atRow
  | after
  deriving DecidableEq

structure Start where
  row : Row
  basis : Basis

structure FetchRequest where
  constraint : Option Constraint := none
  multiConstraints : List MultiConstraint := []
  start : Option Start := none
  reverse : Bool := false

/-- `has_multi`: some batch is not empty. -/
def FetchRequest.hasMulti (req : FetchRequest) : Bool := req.multiConstraints.any fun mc => !mc.isEmpty

/-- `matches`, where no constraint is one that every row meets. -/
def constraintHolds (c : Option Constraint) (row : Row) : Bool := c.all (constraintMatches row)

/-! ## Scan bounds -/

inductive Bound where
  | min
  | max
  | val (v : Value)

abbrev RowBound := List (Nat × Bound)

/-- `row_bound_of`: every sort column pinned to a row's cell. -/
def rowBoundOf (row : Row) (sort : SortSpec) : RowBound := sort.map fun p => (p.1, .val (row.cell p.1))

/-- One column of `cmp_bound_row`; a column without a bound is at the minimum. -/
def cmpBoundCell (bound : RowBound) (col : Nat) (row : Row) : Ordering :=
  match bound.find? fun p => p.1 == col with
  | none => .lt
  | some (_, .min) => .lt
  | some (_, .max) => .gt
  | some (_, .val v) => Value.cmp v (row.cell col)

/-- `cmp_bound_row`. -/
@[grind] def cmpBoundRow : SortSpec → RowBound → Row → Ordering
  | [], _, _ => .eq
  | (col, asc) :: sort, bound, row =>
    if cmpBoundCell bound col row = .eq then cmpBoundRow sort bound row
    else applyDir (cmpBoundCell bound col row) asc

end Rindle
