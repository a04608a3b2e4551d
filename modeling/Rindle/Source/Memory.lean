/-
  Rindle.Source.Memory — the in-memory source (`rust/src/memory_source.rs`) and its push
  (`rust/src/source_common.rs`).

  Every index is a B+tree under its own sort; the primary one is keyed by the primary key
  and always there, the others are built from it when a fetch first needs them. A push sends
  the change to the candidate connections in slot order, with the change as the overlay,
  then clears the overlay and writes every index.

  While a connection handles what it was sent it may fetch from the source again; such a
  fetch can build an index. `reads` are the fetches downstream makes on each delivery.

  `none` is a panic: a stale connection, a slot out of range. The consistency checks that
  only debug builds make are left out.
-/

import Rindle.Source.Merge
import Rindle.Source.Common
import Rindle.BTree.Cursor

set_option linter.dupNamespace false

namespace Rindle

structure Index where
  sort : SortSpec
  data : BTree Row

structure MemorySource where
  primaryKey : List Nat
  indexes : List Index
  conns : ConnTable := {}
  overlay : Option Overlay := none
  epoch : Nat := 0

/-- `rows.sort_by(compare_rows)`, stable. -/
def sortRows (sort : SortSpec) (rows : List Row) : List Row := rows.insertionSort fun a b => (rowCmp sort a b).isLE = true

/-- The primary key ascending. -/
def primarySort (pk : List Nat) : SortSpec := pk.map fun c => (c, true)

/-- `validate_rows`: every row has the table's width. -/
def validateRows (width : Nat) (rows : List Row) : Except RindleError Unit :=
  match rows.findIdx? fun r => r.length != width with
  | none => .ok ()
  | some i =>
    .error (.schemaViolation
      s!"ingest row {i} has {(rows[i]?.getD []).length} cells but the schema declares {width} columns")

/-- `assert_ordering_includes_pk`. -/
def orderingIncludesPk (sort : SortSpec) (pk : List Nat) : Bool := pk.all fun p => sort.any fun q => q.1 == p

/-- The index a fetch scans: the constraint's columns, then the connection's sort, which a
    constraint on a single-column primary key makes needless. -/
def fetchIndexSort (pk : List Nat) (c : Option Constraint) (sort : SortSpec) : SortSpec :=
  (c.getD []).map (fun p => (p.1, true)) ++
    if pk.length > 1 || c.isNone || !c.any fun c => constraintMatchesPrimaryKey c pk then sort else []

/-- `build_scan_start`: constrained columns at their value, the others at the near end. -/
def buildScanStart (c : Constraint) (indexSort : SortSpec) (reverse : Bool) : RowBound :=
  indexSort.map fun (col, asc) =>
    match c.find? fun q => q.1 == col with
    | some (_, v) => (col, .val v)
    | none => (col, if reverse == asc then .max else .min)

namespace MemorySource

@[grind] def primaryIndexSort (s : MemorySource) : SortSpec := primarySort s.primaryKey

/-- `try_new`. -/
def tryNew (width : Nat) (primaryKey : List Nat) (initial : List Row) : Except RindleError MemorySource :=
  match validateRows width initial with
  | .error e => .error e
  | .ok () =>
    let sort := primarySort primaryKey
    .ok { primaryKey, indexes := [⟨sort, BTree.fromSorted (sortRows sort initial)⟩] }

def index? (s : MemorySource) (sort : SortSpec) : Option Index := s.indexes.find? fun i => i.sort == sort

/-- `exists`: the primary index has the row's key. -/
def present (s : MemorySource) (row : Row) : Bool :=
  (s.index? s.primaryIndexSort).any fun i => i.data.has (rowCmp s.primaryIndexSort) row

/-- `get_by_pk`. -/
def getByPk (s : MemorySource) (probe : Row) : Option Row :=
  (s.index? s.primaryIndexSort).bind fun i => i.data.get (rowCmp s.primaryIndexSort) probe

/-! ## Indexes -/

/-- `write_change` on one index: an edit deletes the old row, then adds the new one. -/
def Index.write (i : Index) (change : SourceChange Row) : Index :=
  match change with
  | .add r => { i with data := (i.data.add (rowCmp i.sort) r).1 }
  | .remove r => { i with data := (i.data.delete (rowCmp i.sort) r).1 }
  | .edit old row => { i with data := ((i.data.delete (rowCmp i.sort) old).1.add (rowCmp i.sort) row).1 }

/-- `write_change`. -/
def writeChange (s : MemorySource) (change : SourceChange Row) : MemorySource :=
  { s with indexes := s.indexes.map fun i => Index.write i change }

/-- `ensure_index`: build an index from the primary one unless it is there. -/
def ensureIndex (s : MemorySource) (sort : SortSpec) : Option MemorySource :=
  if s.indexes.any fun i => i.sort == sort then some s
  else do
    let primary ← s.index? s.primaryIndexSort
    let rows ← primary.data.scan none true false
    some { s with indexes := s.indexes ++ [⟨sort, BTree.fromSorted (sortRows sort rows)⟩] }

/-! ## Connections -/

/-- `connect`: an ordered connection's sort has to include the primary key. -/
def connect (s : MemorySource) (sort : Option SortSpec) (filters : Option ConnectionFilters) (splitEditKeys : List Nat) :
    Option (MemorySource × ConnId) :=
  if sort.all fun o => orderingIncludesPk o s.primaryKey then
    let (conns, id) := s.conns.connect
      { sort := sort.getD s.primaryIndexSort, unordered := sort.isNone, splitEditKeys, filters }
    some ({ s with conns }, id)
  else none

/-- `destroy`: the indexes stay. -/
def destroy (s : MemorySource) (conn : ConnId) : MemorySource := { s with conns := s.conns.destroy conn }

def setConnOutput (s : MemorySource) (conn : ConnId) : Option MemorySource :=
  (s.conns.setOutput conn).map fun conns => { s with conns }

/-! ## Fetch -/

/-- What a fetch makes of the rows it scans: overlay, start, constraint, filter. The splice goes by
    the index order, the start gate by the connection's. Both narrow by the request's constraint,
    not by the one from the filters. -/
def fetchStream (conn : Connection) (req : FetchRequest) (overlay : Option Overlay) (indexSort : SortSpec)
    (rows : List Row) : List Row :=
  let predicate := conn.filters.map fun f => f.predicate
  let rows := generateWithOverlay (req.start.map (·.row)) rows req.constraint overlay conn.lastPushedEpoch indexSort
    req.reverse predicate []
  let rows := generateWithStart rows req.start conn.sort req.reverse
  let rows := generateWithConstraint rows req.constraint
  match predicate with
  | some p => generateWithFilter rows p
  | none => rows

/-- Where a fetch starts to scan. -/
def scanStart (c : Option Constraint) (req : FetchRequest) (indexSort : SortSpec) : Option RowBound :=
  match c with
  | some c => some (buildScanStart c indexSort req.reverse)
  | none => req.start.map fun start => rowBoundOf start.row indexSort

/-- `fetch_or_pk`: the constraint the scan seeks, the filters' one first. -/
def fetchOrPk (conn : Connection) (req : FetchRequest) : Option Constraint := conn.pkConstraint.or req.constraint

/-- `fetch` without a batch. -/
def fetchSingle (s : MemorySource) (conn : Connection) (req : FetchRequest) : Option (List Row × MemorySource) := do
  let indexSort := fetchIndexSort s.primaryKey (fetchOrPk conn req) conn.sort
  let s ← s.ensureIndex indexSort
  let index ← s.index? indexSort
  let rows ← index.data.scan ((scanStart (fetchOrPk conn req) req indexSort).map (cmpBoundRow indexSort)) true req.reverse
  some (fetchStream conn req s.overlay indexSort rows, s)

/-- The request for one entry of a batch. -/
def entryRequest (base : FetchRequest) (c : Constraint) : FetchRequest :=
  { constraint := some (mergeConstraints base.constraint c), start := base.start, reverse := base.reverse }

/-- The sub-fetches of a batch, one for each constraint. -/
def fetchEach (conn : Connection) (base : FetchRequest) :
    List Constraint → MemorySource → Option (List (List Row) × MemorySource)
  | [], s => some ([], s)
  | c :: cs, s => do
    let (rows, s) ← s.fetchSingle conn (entryRequest base c)
    let (streams, s) ← fetchEach conn base cs s
    some (rows :: streams, s)

/-- Some entry of every batch matches. -/
def matchesEach (rest : List MultiConstraint) (row : Row) : Bool := rest.all fun mc => mc.any fun c => constraintMatches row c

/-- `fetch_multi`: a sub-fetch for each entry of the first batch, merged, then filtered by the others. -/
def fetchMulti (s : MemorySource) (conn : Connection) (req : FetchRequest) : Option (List Row × MemorySource) :=
  match req.multiConstraints.filter fun mc => !mc.isEmpty with
  | [] => none
  | primary :: rest => do
    let (streams, s) ← s.fetchEach conn req primary
    let merged := mergeSortedStreams (compareRowsRev conn.sort req.reverse) streams
    some (if rest.isEmpty then merged else merged.filter (matchesEach rest), s)

/-- `fetch` on the connection in a slot. -/
def fetchOn (s : MemorySource) (conn : Connection) (req : FetchRequest) : Option (List Row × MemorySource) :=
  if req.hasMulti then s.fetchMulti conn req else s.fetchSingle conn req

/-- `fetch`. -/
def fetch (s : MemorySource) (id : ConnId) (req : FetchRequest) : Option (List Row × MemorySource) :=
  (s.conns.live id).bind fun conn => s.fetchOn conn req

/-! ## Push -/

/-- The fetches a connection's downstream makes while it handles a change. -/
abbrev Reads := Nat → SourceChange Row → List (ConnId × FetchRequest)

/-- A change sent to the connection in a slot. -/
abbrev Delivery := Nat × SourceChange Row

/-- Make fetches one after the other; what they return is downstream's. -/
def readAll (s : MemorySource) (reqs : List (ConnId × FetchRequest)) : Option MemorySource :=
  reqs.foldlM (fun s r => (s.fetch r.1 r.2).map (·.2)) s

/-- One candidate slot of `gen_push`: stamp it, set the overlay, send what its filter lets through. -/
def visit (change : SourceChange Row) (epoch : Nat) (reads : Reads) (s : MemorySource) (slot : Nat) :
    Option (MemorySource × List Delivery) := do
  let conn ← s.conns.conns[slot]?
  if conn.output then
    let s := { s with conns := s.conns.stamp slot epoch, overlay := some ⟨epoch, change⟩ }
    match filterPush change (conn.filters.map fun f => f.predicate) with
    | some sc => do
      let s ← s.readAll (reads slot sc)
      some (s, [(slot, sc)])
    | none => some (s, [])
  else some (s, [])

/-- The loop of `gen_push` over the candidates. -/
def fanOut (change : SourceChange Row) (epoch : Nat) (reads : Reads) :
    List Nat → MemorySource → Option (MemorySource × List Delivery)
  | [], s => some (s, [])
  | slot :: slots, s => do
    let (s, sent) ← visit change epoch reads s slot
    let (s, sent') ← fanOut change epoch reads slots s
    some (s, sent ++ sent')

/-- The source after a push, what it sent, and what it returned. -/
structure Pushed where
  source : MemorySource
  sent : List Delivery
  result : Except RindleError Unit

/-- `try_gen_push_and_write`: check, fan out, clear the overlay, write. -/
def tryGenPushAndWrite (s : MemorySource) (change : SourceChange Row) (pushEpoch : Nat) (reads : Reads) (strict : Bool) :
    Option Pushed :=
  match assertChangeExistenceChecked change s.present strict with
  | .error e => some ⟨s, [], .error e⟩
  | .ok () => do
    let (s, sent) ← fanOut change pushEpoch reads (s.conns.index.pushCandidates change) s
    some ⟨{ s with overlay := none }.writeChange change, sent, .ok ()⟩

/-- `next_epoch`: a `u32` counter. -/
def nextEpoch (s : MemorySource) : MemorySource := { s with epoch := (s.epoch + 1) % 2 ^ 32 }

/-- A single push at the next epoch. -/
def pushOnce (s : MemorySource) (change : SourceChange Row) (reads : Reads) (strict : Bool) : Option Pushed :=
  s.nextEpoch.tryGenPushAndWrite change s.nextEpoch.epoch reads strict

/-- `try_push`: an edit that changes a split-edit key is pushed as its removal, then its addition. -/
@[grind] def tryPush (s : MemorySource) (change : SourceChange Row) (reads : Reads) (strict : Bool) : Option Pushed :=
  match change with
  | .edit old row =>
    if s.conns.shouldSplitEdit row old then do
      let removed ← s.pushOnce (.remove old) reads strict
      match removed.result with
      | .error e => some { removed with result := .error e }
      | .ok () => do
        let added ← removed.source.pushOnce (.add row) reads strict
        some { added with sent := removed.sent ++ added.sent }
    else s.pushOnce change reads strict
  | _ => s.pushOnce change reads strict

end MemorySource

end Rindle
