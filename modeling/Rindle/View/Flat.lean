/-
  Rindle.View.Flat — the flat change stream and its reference receiver (`rust/src/changes.rs`,
  `flat.rs`, `flat_receiver.rs`).

  The sender drains a nested change into an owned one (`expandChange`), peels its `child`
  layers into a path (`flatten`) and ships the operation at the end of the path. The receiver
  walks the path from its top list, finding each parent by its whole row, and applies the
  operation to the list it reaches. It panics (`none`) where a parent or the row of a removal
  or of an edit is missing.

  A `BTreeMap` from slots is the list of its entries, ascending.
-/

import Rindle.Change
import Rindle.View.Schema

set_option linter.dupNamespace false

namespace Rindle

/-! ## Owned changes -/

structure CaughtNode where
  row : Row
  relationships : List (Nat × List CaughtNode)

inductive CaughtChange where
  | add (node : CaughtNode)
  | remove (node : CaughtNode)
  | edit (old row : Row)
  | child (row : Row) (rel : Nat) (change : CaughtChange)

/-- Slots ascending. -/
def slotCmp {β : Type} (a b : Nat × β) : Ordering := compare a.1 b.1

mutual

/-- `expand_node`: every relationship drained; the last of two with one slot stays. -/
def expandNode : Node → CaughtNode
  | .mk row rels => ⟨row, expandRels rels []⟩

def expandRels : List (Nat × List Node) → List (Nat × List CaughtNode) → List (Nat × List CaughtNode)
  | [], acc => acc
  | (slot, children) :: rest, acc => expandRels rest (SList.insert slotCmp (slot, expandNodes children) acc)

@[grind] def expandNodes : List Node → List CaughtNode
  | [] => []
  | c :: rest => expandNode c :: expandNodes rest

end

/-- `expand_change`. -/
@[grind] def expandChange : Change → CaughtChange
  | .add n => .add (expandNode n)
  | .remove n => .remove (expandNode n)
  | .edit n old => .edit old.row n.row
  | .child n rel c => .child n.row rel (expandChange c)

/-! ## Flat changes -/

structure WireNode where
  row : Row
  rels : List (Nat × List WireNode)

structure PathSeg where
  rel : Nat
  parentRow : Row

inductive FlatOp where
  | add (node : WireNode)
  | remove (row : Row)
  | edit (old new : Row)

structure FlatChange where
  path : List PathSeg
  op : FlatOp

mutual

def wireNode : CaughtNode → WireNode
  | ⟨row, relationships⟩ => ⟨row, wireRels relationships⟩

def wireRels : List (Nat × List CaughtNode) → List (Nat × List WireNode)
  | [] => []
  | (slot, children) :: rest => (slot, wireNodes children) :: wireRels rest

@[grind] def wireNodes : List CaughtNode → List WireNode
  | [] => []
  | c :: rest => wireNode c :: wireNodes rest

end

/-- The loop of `flatten`, with the path so far. -/
@[grind] def flattenFrom (path : List PathSeg) : CaughtChange → FlatChange
  | .child row rel change => flattenFrom (path ++ [⟨rel, row⟩]) change
  | .add node => ⟨path, .add (wireNode node)⟩
  | .remove node => ⟨path, .remove node.row⟩
  | .edit old row => ⟨path, .edit old row⟩

@[grind] def flatten (change : CaughtChange) : FlatChange := flattenFrom [] change

def flattenAll (changes : List CaughtChange) : List FlatChange := changes.map flatten

theorem flattenFrom_eq (c : CaughtChange) :
    ∀ path, flattenFrom path c = ⟨path ++ (flatten c).path, (flatten c).op⟩ := by
  induction c with
  | add node => intro path; simp [flatten, flattenFrom]
  | remove node => intro path; simp [flatten, flattenFrom]
  | edit old row => intro path; simp [flatten, flattenFrom]
  | child row rel change ih =>
    intro path
    rw [flatten, flattenFrom, flattenFrom, ih, ih]
    simp

@[simp] theorem flatten_child (row : Row) (rel : Nat) (c : CaughtChange) :
    flatten (.child row rel c) = ⟨⟨rel, row⟩ :: (flatten c).path, (flatten c).op⟩ := by
  rw [flatten, flattenFrom, flattenFrom_eq]
  rfl

/-! ## The receiver -/

structure RecvNode where
  row : Row
  rc : Nat
  rels : List (List RecvNode)

namespace Receiver

/-- `binary_search` over a level. -/
@[grind] def locate (sort : SortSpec) (list : List RecvNode) (row : Row) : Except Nat Nat :=
  binarySearchBy (fun n => rowCmp sort n.row row) list

mutual

/-- `build_node`: a fresh node; a slot out of view stays empty. -/
def buildNode (schema : Schema) : WireNode → RecvNode
  | ⟨row, rels⟩ => ⟨row, 1, buildRels schema rels (List.replicate schema.relationships.length [])⟩

@[grind] def buildRels (schema : Schema) : List (Nat × List WireNode) → List (List RecvNode) → List (List RecvNode)
  | [], acc => acc
  | (slot, children) :: rest, acc =>
    match schema.relChild slot with
    | none => buildRels schema rest acc
    | some child => buildRels schema rest (acc.set slot (buildChildren child children []))

def buildChildren (schema : Schema) : List WireNode → List RecvNode → List RecvNode
  | [], built => built
  | c :: rest, built =>
    match locate schema.sort built c.row with
    | .ok p => buildChildren schema rest (built.modify p fun n => { n with rc := n.rc + 1 })
    | .error ins => buildChildren schema rest (built.insertIdx ins (buildNode schema c))

end

@[grind] def applyAdd (schema : Schema) (list : List RecvNode) (node : WireNode) : List RecvNode :=
  match locate schema.sort list node.row with
  | .ok p => list.modify p fun n => { n with rc := n.rc + 1 }
  | .error ins => list.insertIdx ins (buildNode schema node)

@[grind] def applyRemove (schema : Schema) (list : List RecvNode) (row : Row) : Option (List RecvNode) :=
  match locate schema.sort list row with
  | .error _ => none
  | .ok pos =>
    match list[pos]? with
    | none => none
    | some n => some (if n.rc = 1 then list.eraseIdx pos else list.modify pos fun n => { n with rc := n.rc - 1 })

/-- The edit of a row whose sort key changed: the old row at `oldPos`, the new one found or to insert at `pos`. -/
@[grind] def moveRow (list : List RecvNode) (oldPos : Nat) (oldEntry : RecvNode) (raw : Except Nat Nat) (new : Row) :
    Option (List RecvNode) :=
  let pos := searchPos raw
  if oldEntry.rc = 1 ∧ (pos = oldPos ∨ pos = oldPos + 1) then
    some (list.modify oldPos fun n => { n with row := new })
  else
    let newRc := oldEntry.rc - 1
    -- with other paths to the row left, a ghost stays behind
    let rest := if newRc = 0 then list.eraseIdx oldPos else list.modify oldPos fun n => { n with rc := newRc }
    let adjustedPos := if newRc = 0 ∧ oldPos < pos then pos - 1 else pos
    match raw with
    | .ok _ =>
      match rest[adjustedPos]? with
      | none => none
      | some existing => some (rest.set adjustedPos { existing with row := new, rc := existing.rc + 1 })
    | .error _ => some (rest.insertIdx adjustedPos { oldEntry with row := new, rc := 1 })

@[grind] def applyEdit (schema : Schema) (list : List RecvNode) (old new : Row) : Option (List RecvNode) :=
  match locate schema.sort list old with
  | .error _ => none
  | .ok oldPos =>
    if rowCmp schema.sort old new = .eq then some (list.modify oldPos fun n => { n with row := new })
    else
      match list[oldPos]? with
      | none => none
      | some oldEntry => moveRow list oldPos oldEntry (locate schema.sort list new) new

@[grind] def applyOp (schema : Schema) (list : List RecvNode) : FlatOp → Option (List RecvNode)
  | .add node => some (applyAdd schema list node)
  | .remove row => applyRemove schema list row
  | .edit old new => applyEdit schema list old new

/-- `apply_at`: a hop into a slot out of view drops the change. -/
@[grind] def applyAt (schema : Schema) (list : List RecvNode) (op : FlatOp) : List PathSeg → Option (List RecvNode)
  | [] => applyOp schema list op
  | seg :: rest =>
    match schema.relChild seg.rel with
    | none => some list
    | some child =>
      match locate schema.sort list seg.parentRow with
      | .error _ => none
      | .ok pos =>
        match list[pos]? with
        | none => none
        | some n =>
          match n.rels[seg.rel]? with
          | none => none
          | some slot =>
            (applyAt child slot op rest).map fun slot' => list.set pos { n with rels := n.rels.set seg.rel slot' }

end Receiver

/-- `Receiver`: the shipped schema and the top-level list. -/
structure Receiver where
  schema : Schema
  top : List RecvNode

namespace Receiver

def new (schema : Schema) : Receiver := ⟨schema, []⟩

def apply (r : Receiver) (change : FlatChange) : Option Receiver :=
  (applyAt r.schema r.top change.op change.path).map fun top => { r with top := top }

def applyAll (r : Receiver) (changes : List FlatChange) : Option Receiver := changes.foldlM apply r

end Receiver

end Rindle
