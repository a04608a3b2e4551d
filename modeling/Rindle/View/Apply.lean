/-
  Rindle.View.Apply — the materialised view tree and the fold of a change into it
  (`rust/src/view.rs`).

  An entry counts the paths that reach its row (`rc`) and holds a sorted list for each slot of
  its schema. Entries and lists carry the generation that made them: in mode `cow` what the
  current generation made is changed in place and the rest copied, `inPlace` changes all in
  place, `immutable` copies all. An `Arc` is a value here: `Arc::make_mut` copies what is
  shared, so no mode can reach another holder's tree. What is left of a mode are the stamps and
  the branches that read them.

  `none` is a panic: a row to remove, to edit or to descend into is not there.
  Ids (`with_ids`) are left out: the view never makes them.
-/

import Rindle.View.Flat

set_option linter.dupNamespace false

namespace Rindle

structure EntryList (ε : Type) where
  created : Nat
  items : List ε

structure Entry where
  row : Row
  rc : Nat
  created : Nat
  rels : List (EntryList Entry)

inductive ViewChange where
  | add (node : Node)
  | remove (node : Node)
  | child (row : Row) (rel : Nat) (change : ViewChange)
  | edit (row old : Row)

/-- `from_change`. -/
@[grind] def ViewChange.fromChange : Change → ViewChange
  | .add node => .add node
  | .remove node => .remove node
  | .edit node old => .edit node.row old.row
  | .child node rel c => .child node.row rel (fromChange c)

inductive Mutate where
  | immutable
  | inPlace
  | cow

namespace View

/-- `can_mut`: whether what `created` stamps may be changed in place. -/
def canMut (created : Nat) (mode : Mutate) (gen : Nat) : Bool :=
  match mode with
  | .immutable => false
  | .inPlace => true
  | .cow => created == gen

/-- `entry_cow`: in place or copied, the entry is stamped. -/
@[grind] def entryCow (gen : Nat) (e : Entry) : Entry := { e with created := gen }

/-- `entry_cow` of the parent, `list_cow` of its slot, and the slot's new items. -/
def putItems (gen rel : Nat) (items : List Entry) (parent : Entry) : Entry :=
  { entryCow gen parent with rels := parent.rels.set rel ⟨gen, items⟩ }

/-- `binary_search`. -/
def locate (sort : SortSpec) (items : List Entry) (row : Row) : Except Nat Nat :=
  binarySearchBy (fun e => rowCmp sort e.row row) items

/-- The shared empty list: committed for ever. -/
def emptyEntryList : EntryList Entry := ⟨0, []⟩

mutual

/-- `make_new_entry` and `init_rels_for_new_entry`. -/
def newEntry (gen : Nat) (schema : Schema) : Node → Entry
  | .mk row rels =>
    ⟨row, 1, gen, initRels gen schema rels (List.replicate schema.relationships.length emptyEntryList)⟩

@[grind] def initRels (gen : Nat) (schema : Schema) : List (Nat × List Node) → List (EntryList Entry) → List (EntryList Entry)
  | [], rels => rels
  | (slot, children) :: rest, rels =>
    match schema.relChild slot with
    | none => initRels gen schema rest rels
    | some child =>
      let items := initChildren gen child children []
      -- a slot drained empty keeps the list it has
      initRels gen schema rest (if items.isEmpty then rels else rels.set slot ⟨gen, items⟩)

def initChildren (gen : Nat) (schema : Schema) : List Node → List Entry → List Entry
  | [], items => items
  | c :: rest, items =>
    match locate schema.sort items c.row with
    | .ok p => initChildren gen schema rest (items.modify p fun e => { e with rc := e.rc + 1 })
    | .error ins => initChildren gen schema rest (items.insertIdx ins (newEntry gen schema c))

end

def applyAdd (gen : Nat) (schema : Schema) (rel : Nat) (parent : Entry) (node : Node) : Option (Entry × Bool) :=
  match parent.rels[rel]? with
  | none => none
  | some list =>
    match locate schema.sort list.items node.row with
    | .ok p => some (putItems gen rel (list.items.modify p fun e => { entryCow gen e with rc := e.rc + 1 }) parent, true)
    | .error ins => some (putItems gen rel (list.items.insertIdx ins (newEntry gen schema node)) parent, true)

def applyRemove (gen : Nat) (schema : Schema) (rel : Nat) (parent : Entry) (row : Row) : Option (Entry × Bool) :=
  match parent.rels[rel]? with
  | none => none
  | some list =>
    match locate schema.sort list.items row with
    | .error _ => none
    | .ok pos =>
      match list.items[pos]? with
      | none => none
      | some e =>
        some (putItems gen rel
          (if e.rc = 1 then list.items.eraseIdx pos
            else list.items.modify pos fun e => { entryCow gen e with rc := e.rc - 1 }) parent, true)

/-- `apply_edit`: in place where the entry may be changed and keeps its key, else a stamped copy. -/
def applyEdit (mode : Mutate) (gen : Nat) (schema : Schema) (new old : Row) (existing : Entry) : Entry :=
  if canMut existing.created mode gen ∧ rowCmp schema.sort old new = .eq then
    { entryCow gen existing with row := new }
  else { existing with row := new, created := gen }

/-- The move of `apply_edit_change`: the old row is at `oldPos`, the new one at `raw`. -/
def moveEntry (mode : Mutate) (gen : Nat) (schema : Schema) (items : List Entry) (oldPos : Nat) (oldEntry : Entry)
    (raw : Except Nat Nat) (new old : Row) : Option (List Entry) :=
  let pos := searchPos raw
  if oldEntry.rc = 1 ∧ (pos = oldPos ∨ pos = oldPos + 1) then
    some (items.modify oldPos (applyEdit mode gen schema new old))
  else
    let newRc := oldEntry.rc - 1
    let rest := if newRc = 0 then items.eraseIdx oldPos
      else items.modify oldPos fun e => { entryCow gen e with rc := newRc }
    let adjustedPos := if newRc = 0 ∧ oldPos < pos then pos - 1 else pos
    match raw with
    | .ok _ =>
      match rest[adjustedPos]? with
      | none => none
      | some existing =>
        some (rest.set adjustedPos
          { entryCow gen (applyEdit mode gen schema new old existing) with rc := existing.rc + 1 })
    | .error _ =>
      some (rest.insertIdx adjustedPos { entryCow gen (applyEdit mode gen schema new old oldEntry) with rc := 1 })

def applyEditChange (mode : Mutate) (gen : Nat) (schema : Schema) (rel : Nat) (parent : Entry) (new old : Row) :
    Option (Entry × Bool) :=
  match parent.rels[rel]? with
  | none => none
  | some list =>
    match locate schema.sort list.items old with
    | .error _ => none
    | .ok oldPos =>
      if rowCmp schema.sort old new = .eq then
        some (putItems gen rel (list.items.modify oldPos (applyEdit mode gen schema new old)) parent, true)
      else
        match list.items[oldPos]? with
        | none => none
        | some oldEntry =>
          (moveEntry mode gen schema list.items oldPos oldEntry (locate schema.sort list.items new) new old).map
            fun items => (putItems gen rel items parent, true)

/-- `apply` and `apply_child`; the flag says whether the slot's content changed. -/
@[grind] def apply (mode : Mutate) (gen : Nat) (schema : Schema) (rel : Nat) (parent : Entry) :
    ViewChange → Option (Entry × Bool)
  | .add node => applyAdd gen schema rel parent node
  | .remove node => applyRemove gen schema rel parent node.row
  | .edit row old => applyEditChange mode gen schema rel parent row old
  | .child row childRel change =>
    match schema.relChild childRel with
    | none => some (parent, false)
    | some childSchema =>
      match parent.rels[rel]? with
      | none => none
      | some list =>
        match locate schema.sort list.items row with
        | .error _ => none
        | .ok pos =>
          match list.items[pos]? with
          | none => none
          | some child =>
            (apply mode gen childSchema childRel child change).map fun q =>
              -- a committed list is copied only if the child changed
              if canMut list.created mode gen || q.2 then
                (putItems gen rel (list.items.set pos q.1) parent, q.2)
              else (parent, false)

/-- `apply_change` of a dataflow change at the top. -/
def applyChange (mode : Mutate) (gen : Nat) (schema : Schema) (root : Entry) (change : Change) : Option Entry :=
  (apply mode gen schema 0 root (.fromChange change)).map (·.1)

def syntheticRoot : Entry := ⟨[], 0, 0, [⟨0, []⟩]⟩

/-- The top-level result. -/
def viewData (root : Entry) : List Entry := (root.rels[0]?.map (·.items)).getD []

/-- A stream of changes, each in its mode and generation. -/
def applyChanges (schema : Schema) (root : Entry) (steps : List ((Mutate × Nat) × Change)) : Option Entry :=
  steps.foldlM (fun root s => applyChange s.1.1 s.1.2 schema root s.2) root

end View

end Rindle
