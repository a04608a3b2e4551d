/-
  Rindle.Source.Common — what a source does to a stream of rows (`rust/src/source_common.rs`).

  While a change is pushed it is not yet in the indexes: it is the overlay. A fetch narrows
  the overlay to the rows the request is about (`computeOverlays`) and splices what is left
  into the scan (`overlaySplice`): the added row before the first row it sorts before, the
  removed row left out where it ties. Both use the order of the scanned index. The start
  gate uses the order of the connection; it opens once and stays open.

  The streams are lazy in the source, over a snapshot of the index and of the overlay taken
  when the fetch is made; here they are lists.
-/

import Rindle.Source.Connections
import Rindle.Lib.Stream

set_option linter.dupNamespace false

namespace Rindle

/-- `compare_rows_rev`. -/
@[grind] def compareRowsRev (sort : SortSpec) (reverse : Bool) : Row → Row → Ordering := SList.dirCmp reverse (rowCmp sort)

instance (sort : SortSpec) (reverse : Bool) : Std.TransCmp (compareRowsRev sort reverse) :=
  inferInstanceAs (Std.TransCmp (SList.dirCmp reverse (rowCmp sort)))

/-! ## The overlay -/

/-- The change in flight, with the epoch of its push. -/
structure Overlay where
  epoch : Nat
  change : SourceChange Row

structure Overlays where
  add : Option Row := none
  remove : Option Row := none

namespace Overlays

variable (o : Overlays)

def isEmpty : Bool := o.add.isNone && o.remove.isNone

/-- Keep the rows a narrower keeps. -/
def narrow (keep : Row → Bool) : Overlays := ⟨o.add.filter keep, o.remove.filter keep⟩

/-- `overlays_from_change`. -/
@[grind] def ofChange : SourceChange Row → Overlays
  | .add r => { add := some r }
  | .remove r => { remove := some r }
  | .edit old row => { add := some row, remove := some old }

/-- `overlays_from_change` of a gated overlay. -/
def fromChange (overlay : Option Overlay) : Overlays := (overlay.map fun o => ofChange o.change).getD {}

/-- The row does not sort strictly before the start row. -/
def notBefore (startAt : Row) (sort : SortSpec) (reverse : Bool) (r : Row) : Bool :=
  compareRowsRev sort reverse r startAt != .lt

/-- `overlays_for_start_at`. -/
def forStartAt (startAt : Row) (sort : SortSpec) (reverse : Bool) : Overlays :=
  o.narrow (notBefore startAt sort reverse)

/-- `overlays_for_constraint`. -/
def forConstraint (c : Constraint) : Overlays := o.narrow fun r => constraintMatches r c

/-- `overlays_for_multi_constraint`. -/
def forMultiConstraint (mc : MultiConstraint) : Overlays :=
  o.narrow fun r => mc.any fun c => constraintMatches r c

/-- `overlays_for_filter_predicate`. -/
def forFilterPredicate (predicate : Row → Bool) : Overlays := o.narrow predicate

end Overlays

variable (startAt : Option Row) (rows : List Row) (constraint : Option Constraint)

/-- `compute_overlays`: start row, constraint, each non-empty batch, filter. -/
def computeOverlays (overlay : Option Overlay) (sort : SortSpec)
    (reverse : Bool) (predicate : Option (Row → Bool)) (multis : List MultiConstraint) : Overlays :=
  let o := Overlays.fromChange overlay
  let o := match startAt with
    | some s => o.forStartAt s sort reverse
    | none => o
  let o := match constraint with
    | some c => o.forConstraint c
    | none => o
  let o := multis.foldl (fun o mc => if mc.isEmpty then o else o.forMultiConstraint mc) o
  match predicate with
  | some p => o.forFilterPredicate p
  | none => o

/-! ## Streams -/

section
variable {α : Type} (cmp : α → α → Ordering)

/-- `OverlaySplice`: the added row goes out before the first row it sorts before, at the
    end if there is none; the first row that ties the removed one is left out. -/
@[grind] def overlaySplice : Option α → Option α → List α → List α
  | add, _, [] => add.toList
  | add, remove, row :: rows =>
    let ahead := add.any fun a => cmp a row == .lt
    let later := if ahead then none else add
    let rest :=
      if remove.any fun r => cmp r row == .eq then overlaySplice later none rows
      else row :: overlaySplice later remove rows
    if ahead then add.toList ++ rest else rest

end

/-- `generate_with_overlay_inner`. -/
def generateWithOverlayInner (o : Overlays) (sort : SortSpec) (reverse : Bool) : List Row :=
  if o.isEmpty then rows else overlaySplice (compareRowsRev sort reverse) o.add o.remove rows

/-- `generate_with_overlay`: a connection the push has not reached does not see the overlay. -/
def generateWithOverlay
    (overlay : Option Overlay) (lastPushedEpoch : Nat) (sort : SortSpec) (reverse : Bool)
    (predicate : Option (Row → Bool)) (multis : List MultiConstraint) : List Row :=
  let gated := overlay.filter fun o => decide (o.epoch ≤ lastPushedEpoch)
  generateWithOverlayInner rows (computeOverlays startAt constraint gated sort reverse predicate multis) sort reverse

/-- The start bound is reached. -/
def startReached (start : Start) (sort : SortSpec) (reverse : Bool) (row : Row) : Bool :=
  match start.basis with
  | .atRow => compareRowsRev sort reverse row start.row != .lt
  | .after => compareRowsRev sort reverse row start.row == .gt

/-- `generate_with_start`: skip until the bound is reached, then pass the rest. -/
def generateWithStart (start : Option Start) (sort : SortSpec) (reverse : Bool) : List Row :=
  match start with
  | none => rows
  | some start => rows.dropWhile fun row => !startReached start sort reverse row

/-- `generate_with_constraint`: stop at the first row that fails the constraint. -/
def generateWithConstraint : List Row :=
  match constraint with
  | none => rows
  | some c => rows.takeWhile fun row => constraintMatches row c

/-- `generate_with_filter`. -/
def generateWithFilter (predicate : Row → Bool) : List Row := rows.filter predicate

/-! ## Pushes -/

/-- `filter_push`: what a connection with this filter is sent, if anything. -/
@[grind] def filterPush (change : SourceChange Row) (predicate : Option (Row → Bool)) : Option (SourceChange Row) :=
  match predicate with
  | none => some change
  | some p =>
    match change with
    | .add r => if p r then some (.add r) else none
    | .remove r => if p r then some (.remove r) else none
    | .edit old row =>
      if p old && p row then some (.edit old row)
      else if p old then some (.remove old)
      else if p row then some (.add row)
      else none

inductive RindleError where
  | consistencyViolation (kind : String)
  | schemaViolation (message : String)

/-- `assert_change_existence_checked`. Without `strict` a malformed change passes. -/
@[grind] def assertChangeExistenceChecked (change : SourceChange Row) (present : Row → Bool) (strict : Bool) :
    Except RindleError Unit :=
  let check (ok : Bool) (kind : String) : Except RindleError Unit :=
    if ok || !strict then .ok () else .error (.consistencyViolation kind)
  match change with
  | .add r => check (!present r) "ADD row already exists"
  | .remove r => check (present r) "REMOVE row not found"
  | .edit old _ => check (present old) "EDIT old row not found"

end Rindle
