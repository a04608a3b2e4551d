/-
  Rindle.Graph.Basic — the operator arena of `rust/src/graph.rs`: adding nodes, connecting
  to sources, recording a pipeline, tearing it down.

  `nodes`, `node_gens` and `free_nodes` are one arena, `storage`, `storage_gens` and
  `free_storage` another. `none` is a panic: a stale id, an id of another kind of node.

  An operator is its own data (`ω`), except for the two kinds that own a connection: a
  source with its connection table, and the `SourceConn` node that stands for one
  connection of a source. A storage slot is what an operator keeps in it (`σ`), `default`
  when it is fresh or cleared.
-/

import Rindle.Lib.Slots
import Rindle.Source.Memory

set_option linter.dupNamespace false

namespace Rindle

abbrev NodeId := SlotId
abbrev StorageId := SlotId

/-- A generation is a `u32`. -/
def genWrap : Nat := 2 ^ 32

/-! ## Sources -/

/-- The in-memory source, or another backend, of which the graph sees the same connections. -/
inductive SourceLeaf where
  | memory (s : MemorySource)
  | dyn (primaryKey : List Nat) (conns : ConnTable)

namespace SourceLeaf

def conns : SourceLeaf → ConnTable
  | memory s => s.conns
  | dyn _ conns => conns

/-- `connect`: both backends check the order and register the connection. -/
def connect (leaf : SourceLeaf) (sort : Option SortSpec) (filters : Option ConnectionFilters) (splitEditKeys : List Nat) :
    Option (SourceLeaf × ConnId) :=
  match leaf with
  | memory s => (s.connect sort filters splitEditKeys).map fun (s, id) => (memory s, id)
  | dyn pk conns =>
    if sort.all fun o => orderingIncludesPk o pk then
      let (conns, id) := conns.connect { sort := sort.getD (primarySort pk), unordered := sort.isNone, splitEditKeys, filters }
      some (dyn pk conns, id)
    else none

def destroy (leaf : SourceLeaf) (conn : ConnId) : SourceLeaf :=
  match leaf with
  | memory s => memory (s.destroy conn)
  | dyn pk conns => dyn pk (conns.destroy conn)

def setConnOutput (leaf : SourceLeaf) (conn : ConnId) : Option SourceLeaf :=
  match leaf with
  | memory s => (s.setConnOutput conn).map memory
  | dyn pk conns => (conns.setOutput conn).map (dyn pk)

/-- The source apart from its connections. -/
def core : SourceLeaf → SourceLeaf
  | memory s => memory { s with conns := {} }
  | dyn pk _ => dyn pk {}

end SourceLeaf

/-- `live_conn_count`. -/
def ConnTable.liveConnCount (t : ConnTable) : Nat := t.conns.countP fun c => c.output

/-! ## The graph -/

inductive Graph.Operator (ω : Type) where
  | tombstone
  | source (leaf : SourceLeaf)
  | sourceConn (source : NodeId) (conn : ConnId)
  | other (op : ω)

/-- An operator apart from the connections a source has. -/
def Graph.Operator.core {ω : Type} : Graph.Operator ω → Graph.Operator ω
  | .source leaf => .source leaf.core
  | op => op

/-- The connection a `SourceConn` node stands for. -/
def Graph.Operator.conn? {ω : Type} : Graph.Operator ω → Option (NodeId × ConnId)
  | .sourceConn s c => some (s, c)
  | _ => none

/-- The ids one pipeline's build created. -/
structure PipelineManifest where
  nodes : List NodeId := []
  storage : List StorageId := []

structure Graph (ω σ : Type) where
  nodes : Arena (Graph.Operator ω) := {}
  storage : Arena σ := {}
  recording : Option PipelineManifest := none

namespace Graph

variable {ω σ : Type} [Inhabited σ]

/-- `add`. -/
def add (g : Graph ω σ) (op : Operator ω) : Graph ω σ × NodeId :=
  let (nodes, id) := g.nodes.add op
  ({ g with nodes, recording := g.recording.map fun rec => { rec with nodes := rec.nodes ++ [id] } }, id)

variable (g : Graph ω σ) (id : NodeId)

/-- `begin_recording`; that none is in progress is a debug check. -/
def beginRecording : Graph ω σ := { g with recording := some {} }

/-- `take_recording`. -/
def takeRecording : Graph ω σ × PipelineManifest := ({ g with recording := none }, g.recording.getD {})

/-- `alloc_storage`: a recycled slot was cleared when it was freed. -/
def allocStorage : Graph ω σ × StorageId :=
  let (storage, id) := g.storage.alloc default
  ({ g with storage, recording := g.recording.map fun rec => { rec with storage := rec.storage ++ [id] } }, id)

/-- `node`. -/
@[grind] def node : Option (Operator ω) := g.nodes.get? id

/-- `source`. -/
def source : Option SourceLeaf :=
  match g.node id with
  | some (.source leaf) => some leaf
  | _ => none

/-- The connection a source keeps under an id. -/
@[grind] def connection (source : NodeId) (conn : ConnId) : Option Connection :=
  (g.source source).bind fun leaf => leaf.conns.live conn

/-- A source changed in place. -/
def putSource (leaf : SourceLeaf) : Graph ω σ := { g with nodes := g.nodes.put id (.source leaf) }

/-- `try_add_source`. -/
def tryAddSource (width : Nat) (primaryKey : List Nat) (initial : List Row) : Except RindleError (Graph ω σ × NodeId) :=
  match MemorySource.tryNew width primaryKey initial with
  | .error e => .error e
  | .ok s => .ok (g.add (.source (.memory s)))

/-- `add_dyn_source`, of a new backend. -/
def addDynSource (primaryKey : List Nat) : Graph ω σ × NodeId := g.add (.source (.dyn primaryKey {}))

/-- `connect`; the id of the new connection is in the node's operator. -/
def connect (g : Graph ω σ) (source : NodeId) (sort : Option SortSpec) (filters : Option ConnectionFilters)
    (splitEditKeys : List Nat) : Option (Graph ω σ × NodeId × ConnId) := do
  let leaf ← g.source source
  let (leaf, conn) ← leaf.connect sort filters splitEditKeys
  let (g, id) := (g.putSource source leaf).add (.sourceConn source conn)
  some (g, id, conn)

/-- `self.source(source).destroy(conn)`. -/
def destroy (g : Graph ω σ) (source : NodeId) (conn : ConnId) : Option (Graph ω σ) :=
  (g.source source).map fun leaf => g.putSource source (leaf.destroy conn)

/-- `set_conn_output`: wire the connection of a `SourceConn` node. -/
def setConnOutput : Option (Graph ω σ) :=
  match g.node id with
  | some (.sourceConn source conn) => do
    let leaf ← g.source source
    let leaf ← leaf.setConnOutput conn
    some (g.putSource source leaf)
  | _ => none

/-- `destroy_pipeline`: disconnect, then free the storage, then the nodes. -/
def destroyPipeline (manifest : PipelineManifest) : Option (Graph ω σ) := do
  let ops ← manifest.nodes.mapM g.node
  let g ← (ops.filterMap Operator.conn?).foldlM (fun g c => g.destroy c.1 c.2) g
  let storage ← g.storage.retireAll genWrap default manifest.storage
  let nodes ← g.nodes.retireAll genWrap .tombstone manifest.nodes
  some { g with nodes, storage }

/-- `remove_source`. -/
def removeSource (g : Graph ω σ) (source : NodeId) : Option (Except RindleError (Graph ω σ)) :=
  (g.node source).bind fun op =>
    match op with
    | .source (.memory s) =>
      if s.conns.liveConnCount ≠ 0 then
        some (.error (.schemaViolation
          s!"remove_source: NodeId \x7b idx: {source.idx}, gen: {source.gen} \x7d still has {s.conns.liveConnCount} live connection(s) — destroy readers first"))
      else (g.nodes.retire genWrap source .tombstone).map fun nodes => .ok { g with nodes }
    | .source (.dyn ..) => some (.error (.schemaViolation "remove_source: external (dyn) sources are not removable"))
    | _ => some (.error (.schemaViolation s!"remove_source: NodeId \x7b idx: {source.idx}, gen: {source.gen} \x7d is not a source node"))

end Graph

end Rindle
