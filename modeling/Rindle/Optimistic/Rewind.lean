/-
  Rindle.Optimistic.Rewind — the optimistic tables and their rewind (`rust/src/optimistic.rs`).

  Beside each tracked table's live source there is a `sync` tree, the rows the server has
  confirmed. Local writes go to the live source only. When a batch of server deltas comes in,
  the rewind folds them into the `sync` tree, pushes the structural diff from the live primary
  tree to the result through the source, and takes the live tree as the new `sync`.

  The graph is its in-memory sources by node id. What the operators downstream do with a push
  is given from outside (`Downstream`): the fetches they make from the pushing source and from
  the others, and the error they park for `take_runtime_error`. A fork shares the tree, so it
  is the tree. `none` is a panic.
-/

import Rindle.Source.Postings
import Rindle.Source.Feed
import Rindle.Source.Strict
import Rindle.BTree.DiffProofs
import Rindle.Graph.Basic

set_option linter.dupNamespace false

namespace Rindle

/-- `full_row_equal`, continued to rows of any types as `rowCmp` continues `compare_rows`. -/
def rowSame (a b : Row) : Bool := a.length == b.length && (a.zip b).all fun p => Value.cmp p.1 p.2 == .eq

/-- `fork_primary`. -/
def MemorySource.forkPrimary (s : MemorySource) : Option (BTree Row) := (s.index? s.primaryIndexSort).map (·.data)

namespace Optimistic

structure SyncEntry where
  source : NodeId
  sync : BTree Row
  sort : SortSpec

/-- A table's name and its entry. -/
abbrev Table := String × SyncEntry

/-- The graph's in-memory sources and the tracked tables, in the order of their names. -/
structure Db where
  sources : NodeId → Option MemorySource := fun _ => none
  tables : List Table := []

/-- What downstream does while one push is handled. -/
structure Downstream where
  reads : NodeId → MemorySource.Reads := fun _ _ _ => []
  elsewhere : NodeId → List (NodeId × ConnId × FetchRequest) := fun _ => []
  fault : Option RindleError := none

namespace Db

def put (w : Db) (id : NodeId) (s : MemorySource) : Db := { w with sources := Function.update w.sources id (some s) }

/-! ## Tables -/

def isTracked (w : Db) (table : String) : Bool := w.tables.any fun t => t.1 == table

/-- `BTreeMap::insert` of a new name. -/
def insertTable (t : Table) : List Table → List Table
  | [] => [t]
  | u :: tables => if t.1 < u.1 then t :: u :: tables else u :: insertTable t tables

/-- `track`. -/
def track (w : Db) (table : String) (source : NodeId) : Option (Except RindleError Db) :=
  if w.isTracked table then some (.ok w)
  else
    match w.sources source with
    | none => some (.error (.schemaViolation s!"optimistic tracking needs an in-memory source for table {table.quote}"))
    | some ms => ms.forkPrimary.map fun sync => .ok { w with tables := insertTable (table, ⟨source, sync, ms.primaryIndexSort⟩) w.tables }

/-- `forget`. -/
def forget (w : Db) (table : String) : Db := { w with tables := w.tables.filter fun t => t.1 != table }

/-! ## Pushes -/

/-- A fetch from the source it names. -/
def fetchFrom (w : Db) (r : NodeId × ConnId × FetchRequest) : Option Db := do
  let s ← w.sources r.1
  let (_, s) ← s.fetch r.2.1 r.2.2
  some (w.put r.1 s)

/-- A graph after a push, what its source sent, and what the push returned. -/
structure Outcome where
  db : Db
  sent : List MemorySource.Delivery
  result : Except RindleError Unit

/-- `try_source_push`. -/
def trySourcePush (strict : Bool) (d : Downstream) (w : Db) (id : NodeId) (change : SourceChange Row) : Option Outcome := do
  let s ← w.sources id
  let p ← s.tryPush change (d.reads id) strict
  let w ← (d.elsewhere id).foldlM fetchFrom (w.put id p.source)
  match p.result, d.fault with
  | .error e, _ => some ⟨w, p.sent, .error e⟩
  | .ok (), some e => some ⟨w, p.sent, .error e⟩
  | .ok (), none => some ⟨w, p.sent, .ok ()⟩

/-- Push a list of changes, up to the first error. -/
def pushAll (strict : Bool) (d : Nat → Downstream) (id : NodeId) : Db → List (SourceChange Row) → Option Outcome
  | w, [] => some ⟨w, [], .ok ()⟩
  | w, c :: cs => do
    let o ← trySourcePush strict (d cs.length) w id c
    match o.result with
    | .error e => some ⟨o.db, o.sent, .error e⟩
    | .ok () => do
      let o' ← pushAll strict d id o.db cs
      some ⟨o'.db, o.sent ++ o'.sent, o'.result⟩

/-! ## The rewind -/

/-- The server's changes to a table. -/
abbrev Deltas := List (String × List (SourceChange Row))

def Deltas.of (deltas : Deltas) (table : String) : List (SourceChange Row) := ((deltas.find? fun e => e.1 == table).map (·.2)).getD []

/-- Step 1: the `sync` tree with the deltas folded in. -/
def rebased (deltas : Deltas) (t : Table) : BTree Row :=
  (deltas.of t.1).foldl (applySourceChangeToTree (rowCmp t.2.sort)) t.2.sync

def setSync (w : Db) (table : String) (sync : BTree Row) : Db :=
  { w with tables := w.tables.map fun t => if t.1 = table then (t.1, { t.2 with sync }) else t }

/-- Steps 1 to 4 for one table; `ident` is what pointer identity is between the two trees. -/
def rewindTable (strict : Bool) (d : Nat → Downstream) (ident : Identity Row) (deltas : Deltas) (w : Db) (t : Table) : Option Outcome := do
  let ms ← w.sources t.2.source
  let head ← ms.forkPrimary
  let next := rebased deltas t
  let rewind ← structuralDiff (rowCmp t.2.sort) rowSame ident (walkLength head + walkLength next + 1) head next
  let o ← pushAll strict d t.2.source w rewind
  match o.result with
  | .error e => some ⟨o.db, o.sent, .error e⟩
  | .ok () => do
    let ms ← o.db.sources t.2.source
    let sync ← ms.forkPrimary
    some ⟨o.db.setSync t.1 sync, o.sent, .ok ()⟩

/-- The graph after a rewind, what each source sent, and what the rewind returned. -/
structure Rewound where
  db : Db
  sent : List (NodeId × MemorySource.Delivery)
  result : Except RindleError Unit

/-- The loop of `rewind` over the tables. -/
def rewindTables (strict : Bool) (d : String → Nat → Downstream) (ident : String → Identity Row) (deltas : Deltas) :
    Db → List Table → Option Rewound
  | w, [] => some ⟨w, [], .ok ()⟩
  | w, t :: ts => do
    let o ← rewindTable strict (d t.1) (ident t.1) deltas w t
    let sent := o.sent.map fun s => (t.2.source, s)
    match o.result with
    | .error e => some ⟨o.db, sent, .error e⟩
    | .ok () => do
      let r ← rewindTables strict d ident deltas o.db ts
      some ⟨r.db, sent ++ r.sent, r.result⟩

/-- `rewind`. -/
def rewind (strict : Bool) (d : String → Nat → Downstream) (ident : String → Identity Row) (deltas : Deltas) (w : Db) : Option Rewound :=
  match deltas.find? fun e => !w.isTracked e.1 with
  | some e =>
    some ⟨w, [], .error (.schemaViolation s!"server delta for untracked (local-only or unknown) table {e.1.quote}")⟩
  | none => rewindTables strict d ident deltas w w.tables

end Db

end Optimistic

end Rindle
