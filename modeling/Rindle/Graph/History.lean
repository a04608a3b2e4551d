/-
  Rindle.Graph.History — the ids of a graph and the calls that handed them out.

  A run adds nodes, allocates storage, connects, wires, records pipelines, and destroys
  pipelines, sources and connections in any order, destroyed ones again among them. Beside
  the graph a world keeps what an observer of the calls knows: the ids handed out and what
  each was handed out for, the ids destroyed, and the recordings taken.

  `Inv`: each arena is `Kept` with respect to that history, every live id holds what it was
  handed out for, and the recordings share no id.
-/

import Rindle.Graph.Basic

set_option linter.dupNamespace false

namespace Rindle

open Arena

/-! ## A connection table is an arena -/

def ConnId.slot (id : ConnId) : SlotId := ⟨id.idx, id.gen⟩

theorem ConnId.slot_inj {a b : ConnId} : a.slot = b.slot ↔ a = b := by
  cases a
  cases b
  simp [ConnId.slot]

namespace ConnTable

variable {t t' : ConnTable} {conn : Connection} {id : ConnId}

def arena (t : ConnTable) : Arena Connection := ⟨t.conns, t.gens, t.free⟩

theorem connect_arena (t : ConnTable) (conn : Connection) :
    (t.connect conn).1.arena = (t.arena.add conn).1 ∧ (t.connect conn).2.slot = (t.arena.add conn).2 := by
  unfold connect Arena.add Arena.alloc
  cases hf : t.free with
  | cons i free => simp [arena, hf, Arena.put, ConnId.slot]
  | nil => simp [arena, hf, Arena.put, ConnId.slot]

theorem live_arena (t : ConnTable) (id : ConnId) : t.live id = t.arena.get? id.slot := by
  unfold live liveIx Arena.get?
  by_cases hg : t.gens[id.idx]? = some id.gen
  · simp [arena, ConnId.slot, hg]
  · simp [arena, ConnId.slot, hg]

/-- A stale id frees nothing. -/
theorem destroy_stale (h : t.arena.get? id.slot = none) (hlen : t.conns.length = t.gens.length) : t.destroy id = t := by
  unfold destroy
  refine if_neg fun hg => ?_
  have hlt : id.idx < t.conns.length := hlen ▸ (List.getElem?_eq_some_iff.mp hg).1
  have hg' : t.arena.gens[id.slot.idx]? = some id.slot.gen := hg
  have hc : t.arena.cells[id.slot.idx]? = some t.conns[id.idx] := List.getElem?_eq_getElem hlt
  rw [Arena.get?, if_pos hg', hc] at h
  cases h

theorem destroy_arena (h : t.arena.get? id.slot = some conn) :
    t.arena.retire genWrap id.slot { conn with output := false } = some (t.destroy id).arena := by
  unfold Arena.get? at h
  split at h
  · rename_i hg
    have hg' : t.gens[id.idx]? = some id.gen := hg
    have hc : t.conns[id.idx]? = some conn := h
    rw [Arena.retire, if_pos hg, destroy, if_pos hg', hc]
    rfl
  · cases h

theorem setOutput_arena (h : t.setOutput id = some t') :
    ∃ conn, t.arena.get? id.slot = some conn ∧ t'.arena = t.arena.put id.slot { conn with output := true } := by
  simp only [setOutput, Option.bind_eq_bind, Option.bind_eq_some_iff] at h
  obtain ⟨i, hi, conn, hc, ht⟩ := h
  have hix : i = id.idx ∧ t.gens[id.idx]? = some id.gen := by
    unfold liveIx at hi
    split at hi
    · rename_i hg
      exact ⟨(Option.some.inj hi).symm, hg⟩
    · cases hi
  obtain ⟨rfl, hg⟩ := hix
  have hg' : t.arena.gens[id.slot.idx]? = some id.slot.gen := hg
  refine ⟨conn, ?_, ?_⟩
  · rw [Arena.get?, if_pos hg']
    exact hc
  · rw [← Option.some.inj ht]
    rfl

/-- `destroy` on an id that was handed out retires it, once; what the other ids read stays. -/
theorem destroy_kept {handed retired : List SlotId} (h : t.arena.Kept handed retired) (hid : id.slot ∈ handed)
    (hfew : Arena.Few genWrap (retired.insert id.slot)) :
    (t.destroy id).arena.Kept handed (retired.insert id.slot) ∧
      ∀ other ∈ handed, other ≠ id.slot → (t.destroy id).arena.get? other = t.arena.get? other := by
  by_cases hr : id.slot ∈ retired
  · rw [List.insert_of_mem hr, destroy_stale (h.get?_retired hr) h.cells]
    exact ⟨h, fun other _ _ => rfl⟩
  · rw [List.insert_of_not_mem hr] at hfew ⊢
    obtain ⟨conn, hget⟩ := h.exists_get? hid hr
    refine ⟨h.retire hid hr hfew (destroy_arena hget), ?_⟩
    intro other ho hne
    exact h.get?_retire_ne hid hr hfew (destroy_arena hget) ho hne

end ConnTable

/-! ## What a caller asked for -/

/-- The arguments of a `connect`. -/
structure ConnSpec where
  sort : Option SortSpec
  filters : Option ConnectionFilters
  splitEditKeys : List Nat

/-- The connection has what the call asked for; its wiring and its epoch are its own. -/
structure Connection.MadeFor (conn : Connection) (spec : ConnSpec) : Prop where
  sort : ∀ o, spec.sort = some o → conn.sort = o
  unordered : conn.unordered = spec.sort.isNone
  filters : conn.filters = spec.filters
  keys : conn.splitEditKeys = spec.splitEditKeys

namespace SourceLeaf

variable {leaf leaf' : SourceLeaf} {id : ConnId} {spec : ConnSpec}

theorem connect_conns (h : leaf.connect spec.sort spec.filters spec.splitEditKeys = some (leaf', id)) :
    leaf'.core = leaf.core ∧ ∃ conn : Connection, conn.MadeFor spec ∧ leaf'.conns = (leaf.conns.connect conn).1 ∧
      id = (leaf.conns.connect conn).2 := by
  have hmade : ∀ pk : List Nat, Connection.MadeFor
      { sort := spec.sort.getD (primarySort pk), unordered := spec.sort.isNone, splitEditKeys := spec.splitEditKeys, filters := spec.filters }
      spec := by
    intro pk
    refine ⟨?_, rfl, rfl, rfl⟩
    intro o ho
    simp [ho]
  cases leaf with
  | memory s =>
    simp only [connect, Option.map_eq_some_iff] at h
    obtain ⟨p, hp, heq⟩ := h
    unfold MemorySource.connect at hp
    split at hp
    · obtain rfl := Option.some.inj hp
      obtain ⟨rfl, rfl⟩ := Prod.mk.inj heq
      exact ⟨rfl, _, hmade s.primaryKey, rfl, rfl⟩
    · cases hp
  | dyn pk conns =>
    simp only [connect] at h
    split at h
    · obtain ⟨rfl, rfl⟩ := Prod.mk.inj (Option.some.inj h)
      exact ⟨rfl, _, hmade pk, rfl, rfl⟩
    · cases h

theorem destroy_conns (leaf : SourceLeaf) (id : ConnId) :
    (leaf.destroy id).core = leaf.core ∧ (leaf.destroy id).conns = leaf.conns.destroy id := by
  cases leaf with
  | memory s => exact ⟨rfl, rfl⟩
  | dyn pk conns => exact ⟨rfl, rfl⟩

theorem destroy_stale (h : leaf.conns.destroy id = leaf.conns) : leaf.destroy id = leaf := by
  cases leaf with
  | memory s =>
    have h : s.conns.destroy id = s.conns := h
    simp [destroy, MemorySource.destroy, h]
  | dyn pk conns =>
    have h : conns.destroy id = conns := h
    simp [destroy, h]

theorem setConnOutput_conns (h : leaf.setConnOutput id = some leaf') :
    leaf'.core = leaf.core ∧ leaf.conns.setOutput id = some leaf'.conns := by
  cases leaf with
  | memory s =>
    simp only [setConnOutput, MemorySource.setConnOutput, Option.map_map, Option.map_eq_some_iff] at h
    obtain ⟨t, ht, rfl⟩ := h
    exact ⟨rfl, ht⟩
  | dyn pk conns =>
    simp only [setConnOutput, Option.map_eq_some_iff] at h
    obtain ⟨t, ht, rfl⟩ := h
    exact ⟨rfl, ht⟩

end SourceLeaf

namespace Graph

variable {ω σ : Type}

/-! ## Worlds -/

/-- What the calls so far handed out and destroyed. -/
structure History (ω : Type) where
  nodes : List (NodeId × Operator ω) := []
  retired : List NodeId := []
  storage : List StorageId := []
  retiredStorage : List StorageId := []
  conns : List ((NodeId × ConnId) × ConnSpec) := []
  closed : List (NodeId × ConnId) := []
  pipelines : List PipelineManifest := []

namespace History

variable (h : History ω)

/-- The node ids handed out. -/
def handed : List NodeId := h.nodes.map (·.1)

/-- The connections handed out. -/
def connIds : List (NodeId × ConnId) := h.conns.map (·.1)

/-- The slots one source handed out, of a list of connections. -/
def slotsOf (source : NodeId) (conns : List (NodeId × ConnId)) : List SlotId :=
  conns.filterMap fun c => if c.1 = source then some c.2.slot else none

/-- The connection a node was added for. -/
def connOf (id : NodeId) : Option (NodeId × ConnId) :=
  (h.nodes.find? fun e => e.1 == id).bind fun e => e.2.conn?

/-- The connections of a pipeline. -/
def connsIn (m : PipelineManifest) : List (NodeId × ConnId) := m.nodes.filterMap h.connOf

/-- The closed connections once some more are closed. -/
def closing (conns : List (NodeId × ConnId)) : List (NodeId × ConnId) :=
  conns.foldl (fun closed c => closed.insert c) h.closed

/-- The history once a pipeline is destroyed. -/
def teardown (m : PipelineManifest) : History ω :=
  { h with
    retired := m.nodes.reverse ++ h.retired
    retiredStorage := m.storage.reverse ++ h.retiredStorage
    closed := h.closing (h.connsIn m) }

end History

/-- No slot of the graph or of a source was freed 2^32 times. -/
structure History.Few (h : History ω) : Prop where
  nodes : Arena.Few genWrap h.retired
  storage : Arena.Few genWrap h.retiredStorage
  conns : ∀ source, Arena.Few genWrap (History.slotsOf source h.closed)

structure World (ω σ : Type) where
  graph : Graph ω σ := {}
  hist : History ω := {}

inductive Op (ω : Type) where
  | addSource (width : Nat) (primaryKey : List Nat) (initial : List Row)
  | addDynSource (primaryKey : List Nat)
  | addOperator (op : ω)
  | connect (source : NodeId) (spec : ConnSpec)
  | setConnOutput (id : NodeId)
  | destroy (source : NodeId) (conn : ConnId)
  | allocStorage
  | beginRecording
  | takeRecording
  | destroyPipeline (manifest : PipelineManifest)
  | removeSource (source : NodeId)

/-- What a caller can name: an id it was handed, be it destroyed since, and a recording it took. -/
def Op.Fits (h : History ω) : Op ω → Prop
  | .connect source _ => source ∈ h.handed
  | .setConnOutput id => id ∈ h.handed
  | .destroy source conn => (source, conn) ∈ h.connIds
  | .destroyPipeline m => m ∈ h.pipelines
  | .removeSource source => source ∈ h.handed
  | _ => True

namespace World

variable [Inhabited σ]

/-- A node handed out. -/
def handOut (w : World ω σ) (g : Graph ω σ × NodeId) (op : Operator ω) : World ω σ :=
  ⟨g.1, { w.hist with nodes := (g.2, op) :: w.hist.nodes }⟩

@[grind] def step (w : World ω σ) : Op ω → Option (World ω σ)
  | .addSource width pk initial =>
    match MemorySource.tryNew width pk initial, w.graph.tryAddSource width pk initial with
    | .ok s, .ok g => some (w.handOut g (.source (.memory s)))
    | _, _ => some w
  | .addDynSource pk => some (w.handOut (w.graph.addDynSource pk) (.source (.dyn pk {})))
  | .addOperator op => some (w.handOut (w.graph.add (.other op)) (.other op))
  | .connect source spec => do
    let (g, id, conn) ← w.graph.connect source spec.sort spec.filters spec.splitEditKeys
    let w := w.handOut (g, id) (.sourceConn source conn)
    some ⟨w.graph, { w.hist with conns := ((source, conn), spec) :: w.hist.conns }⟩
  | .setConnOutput id => (w.graph.setConnOutput id).map fun g => ⟨g, w.hist⟩
  | .destroy source conn =>
    (w.graph.destroy source conn).map fun g => ⟨g, { w.hist with closed := w.hist.closed.insert (source, conn) }⟩
  | .allocStorage =>
    let (g, id) := w.graph.allocStorage
    some ⟨g, { w.hist with storage := id :: w.hist.storage }⟩
  | .beginRecording => some ⟨w.graph.beginRecording, w.hist⟩
  | .takeRecording =>
    let (g, m) := w.graph.takeRecording
    some ⟨g, { w.hist with pipelines := m :: w.hist.pipelines }⟩
  | .destroyPipeline m =>
    (w.graph.destroyPipeline m).map fun g => ⟨g, w.hist.teardown m⟩
  | .removeSource source =>
    (w.graph.removeSource source).map fun result =>
      match result with
      | .ok g => ⟨g, { w.hist with retired := source :: w.hist.retired }⟩
      | .error _ => w

/-- The worlds a run of calls reaches. -/
inductive Reach : World ω σ → Prop
  | new : Reach {}
  | step {w w' : World ω σ} {op : Op ω} : Reach w → op.Fits w.hist → w.step op = some w' → Reach w'

end World

/-! ## The invariant -/

/-- The recordings, the one in progress first. -/
def manifests (g : Graph ω σ) (h : History ω) : List PipelineManifest := g.recording.toList ++ h.pipelines

/-- Recordings name ids that were handed out, each at most once. -/
structure Recorded (ms : List PipelineManifest) (handed : List NodeId) (stores : List StorageId) : Prop where
  nodes : (ms.flatMap (·.nodes)).Nodup
  storage : (ms.flatMap (·.storage)).Nodup
  nodesNamed : ∀ id ∈ ms.flatMap (·.nodes), id ∈ handed
  storageNamed : ∀ id ∈ ms.flatMap (·.storage), id ∈ stores

namespace Recorded

variable {rec : Option PipelineManifest} {ps : List PipelineManifest} {handed : List NodeId} {storage : List StorageId} {id : SlotId}

theorem addNode (h : Recorded (rec.toList ++ ps) handed storage) (hid : id ∉ handed) :
    Recorded ((rec.map fun m => { m with nodes := m.nodes ++ [id] }).toList ++ ps) (id :: handed) storage := by
  cases rec with
  | none => exact ⟨h.nodes, h.storage, fun i hi => List.mem_cons_of_mem _ (h.nodesNamed i hi), h.storageNamed⟩
  | some m =>
    have hnodes : ({ m with nodes := m.nodes ++ [id] } :: ps).flatMap (·.nodes) = m.nodes ++ id :: ps.flatMap (·.nodes) := by simp
    have hold : (m :: ps).flatMap (·.nodes) = m.nodes ++ ps.flatMap (·.nodes) := rfl
    refine ⟨?_, h.storage, ?_, h.storageNamed⟩
    · show (({ m with nodes := m.nodes ++ [id] } :: ps).flatMap (·.nodes)).Nodup
      rw [hnodes, List.nodup_middle, List.nodup_cons, ← hold]
      exact ⟨fun hmem => hid (h.nodesNamed id hmem), h.nodes⟩
    · intro i hi
      have hi : i ∈ ({ m with nodes := m.nodes ++ [id] } :: ps).flatMap (·.nodes) := hi
      rw [hnodes, List.perm_middle.mem_iff, List.mem_cons, ← hold] at hi
      rcases hi with rfl | hi
      · exact List.mem_cons_self
      · exact List.mem_cons_of_mem _ (h.nodesNamed i hi)

theorem addStorage (h : Recorded (rec.toList ++ ps) handed storage) (hid : id ∉ storage) :
    Recorded ((rec.map fun m => { m with storage := m.storage ++ [id] }).toList ++ ps) handed (id :: storage) := by
  cases rec with
  | none => exact ⟨h.nodes, h.storage, h.nodesNamed, fun i hi => List.mem_cons_of_mem _ (h.storageNamed i hi)⟩
  | some m =>
    have hstorage : ({ m with storage := m.storage ++ [id] } :: ps).flatMap (·.storage) = m.storage ++ id :: ps.flatMap (·.storage) := by
      simp
    have hold : (m :: ps).flatMap (·.storage) = m.storage ++ ps.flatMap (·.storage) := rfl
    refine ⟨h.nodes, ?_, h.nodesNamed, ?_⟩
    · show (({ m with storage := m.storage ++ [id] } :: ps).flatMap (·.storage)).Nodup
      rw [hstorage, List.nodup_middle, List.nodup_cons, ← hold]
      exact ⟨fun hmem => hid (h.storageNamed id hmem), h.storage⟩
    · intro i hi
      have hi : i ∈ ({ m with storage := m.storage ++ [id] } :: ps).flatMap (·.storage) := hi
      rw [hstorage, List.perm_middle.mem_iff, List.mem_cons, ← hold] at hi
      rcases hi with rfl | hi
      · exact List.mem_cons_self
      · exact List.mem_cons_of_mem _ (h.storageNamed i hi)

/-- The recording in progress is dropped. -/
theorem restart (h : Recorded (rec.toList ++ ps) handed storage) : Recorded ps handed storage := by
  cases rec with
  | none => exact h
  | some m =>
    have happ : ∀ {f : PipelineManifest → List SlotId}, (m :: ps).flatMap f = f m ++ ps.flatMap f := rfl
    refine ⟨?_, ?_, ?_, ?_⟩
    · exact (List.nodup_append.mp (happ ▸ h.nodes)).2.1
    · exact (List.nodup_append.mp (happ ▸ h.storage)).2.1
    · intro i hi
      exact h.nodesNamed i (List.mem_append_right _ hi)
    · intro i hi
      exact h.storageNamed i (List.mem_append_right _ hi)

theorem begin (h : Recorded ps handed storage) : Recorded ({} :: ps) handed storage :=
  ⟨h.nodes, h.storage, h.nodesNamed, h.storageNamed⟩

/-- Two recordings share no node and no storage. -/
theorem apart {ms : List PipelineManifest} (h : Recorded ms handed storage) {m m' : PipelineManifest} (hm : m ∈ ms) (hm' : m' ∈ ms)
    (hne : m ≠ m') : List.Disjoint m.nodes m'.nodes ∧ List.Disjoint m.storage m'.storage := by
  have hsymm : ∀ f : PipelineManifest → List SlotId, Std.Symm (Function.onFun List.Disjoint f) := fun f =>
    ⟨fun _ _ hd => List.Disjoint.symm hd⟩
  have hnodes := hsymm (·.nodes)
  have hstorage := hsymm (·.storage)
  exact ⟨(List.nodup_flatMap.mp h.nodes).2.forall hm hm' hne, (List.nodup_flatMap.mp h.storage).2.forall hm hm' hne⟩

theorem nodup {ms : List PipelineManifest} (h : Recorded ms handed storage) {m : PipelineManifest} (hm : m ∈ ms) :
    m.nodes.Nodup ∧ m.storage.Nodup :=
  ⟨(List.nodup_flatMap.mp h.nodes).1 m hm, (List.nodup_flatMap.mp h.storage).1 m hm⟩

theorem named {ms : List PipelineManifest} (h : Recorded ms handed storage) {m : PipelineManifest} (hm : m ∈ ms) :
    (∀ id ∈ m.nodes, id ∈ handed) ∧ ∀ id ∈ m.storage, id ∈ storage :=
  ⟨fun id hid => h.nodesNamed id (List.mem_flatMap.mpr ⟨m, hm, hid⟩),
    fun id hid => h.storageNamed id (List.mem_flatMap.mpr ⟨m, hm, hid⟩)⟩

end Recorded

structure Inv (g : Graph ω σ) (h : History ω) : Prop where
  nodes : g.nodes.Kept h.handed h.retired
  storage : g.storage.Kept h.storage h.retiredStorage
  unique : h.handed.Nodup ∧ h.storage.Nodup ∧ h.connIds.Nodup
  own : ∀ id op, (id, op) ∈ h.nodes → id ∉ h.retired → ∃ o, g.node id = some o ∧ o.core = op
  tables : ∀ s leaf, s ∈ h.handed → g.source s = some leaf →
    leaf.conns.arena.Kept (History.slotsOf s h.connIds) (History.slotsOf s h.closed)
  made : ∀ s c spec, ((s, c), spec) ∈ h.conns → s ∉ h.retired → (s, c) ∉ h.closed →
    ∃ conn, g.connection s c = some conn ∧ conn.MadeFor spec
  sources : ∀ c ∈ h.connIds, ∃ leaf, (c.1, .source leaf) ∈ h.nodes
  closed : ∀ c ∈ h.closed, c ∈ h.connIds
  joined : ∀ id s c, (id, .sourceConn s c) ∈ h.nodes → (s, c) ∈ h.connIds
  recorded : Recorded (manifests g h) h.handed h.storage

theorem mem_slotsOf {s : NodeId} {conns : List (NodeId × ConnId)} {c : ConnId} :
    c.slot ∈ History.slotsOf s conns ↔ (s, c) ∈ conns := by
  simp only [History.slotsOf, List.mem_filterMap]
  constructor
  · intro h
    obtain ⟨⟨s', c'⟩, hmem, heq⟩ := h
    split at heq
    · rename_i hs
      have hs : s' = s := hs
      rw [← hs, ← ConnId.slot_inj.mp (Option.some.inj heq)]
      exact hmem
    · cases heq
  · intro h
    exact ⟨_, h, if_pos rfl⟩

theorem slotsOf_cons (s : NodeId) (c : NodeId × ConnId) (conns : List (NodeId × ConnId)) :
    History.slotsOf s (c :: conns) = if c.1 = s then c.2.slot :: History.slotsOf s conns else History.slotsOf s conns := by
  rw [History.slotsOf, List.filterMap_cons]
  by_cases hc : c.1 = s
  · simp [hc, History.slotsOf]
  · simp [hc, History.slotsOf]

theorem mem_handed {h : History ω} {id : NodeId} {op : Operator ω} (hid : (id, op) ∈ h.nodes) : id ∈ h.handed :=
  List.mem_map.mpr ⟨_, hid, rfl⟩

theorem mem_connIds {h : History ω} {c : NodeId × ConnId} {spec : ConnSpec} (hc : (c, spec) ∈ h.conns) : c ∈ h.connIds :=
  List.mem_map.mpr ⟨_, hc, rfl⟩

theorem source_eq_some {g : Graph ω σ} {id : NodeId} {leaf : SourceLeaf} :
    g.source id = some leaf ↔ g.node id = some (.source leaf) := by
  unfold source
  split
  · rename_i leaf' hn
    rw [hn]
    simp
  · rename_i hn
    constructor
    · intro h
      cases h
    · intro h
      exact absurd h (hn leaf)

theorem source_congr {g g' : Graph ω σ} {id : NodeId} (h : g'.node id = g.node id) : g'.source id = g.source id := by
  unfold source
  rw [h]

/-- An operator with the core of a source is one. -/
theorem Operator.core_source {o : Operator ω} {leaf : SourceLeaf} (h : o.core = .source leaf) : ∃ leaf', o = .source leaf' := by
  cases o with
  | source leaf' => exact ⟨leaf', rfl⟩
  | tombstone => cases h
  | sourceConn s c => cases h
  | other op => cases h

theorem Operator.core_conn? (o : Operator ω) : o.core.conn? = o.conn? := by
  cases o with
  | source leaf => rfl
  | tombstone => rfl
  | sourceConn s c => rfl
  | other op => rfl

theorem Operator.eq_of_conn? {o : Operator ω} {s : NodeId} {c : ConnId} (h : o.conn? = some (s, c)) : o = .sourceConn s c := by
  cases o with
  | sourceConn s' c' =>
    obtain ⟨rfl, rfl⟩ := Prod.mk.inj (Option.some.inj h)
    rfl
  | source leaf => cases h
  | tombstone => cases h
  | other op => cases h

namespace Inv

variable {g g' : Graph ω σ} {h : History ω} {s : NodeId} {leaf leaf' : SourceLeaf} {c : ConnId} {spec : ConnSpec}

theorem empty : Inv ({} : Graph ω σ) {} := by
  refine ⟨kept_empty, kept_empty, ⟨List.nodup_nil, List.nodup_nil, List.nodup_nil⟩, ?_, ?_, ?_, ?_, ?_, ?_,
    ⟨List.nodup_nil, List.nodup_nil, fun id hid => (by cases hid), fun id hid => (by cases hid)⟩⟩
  · intro id op hid
    cases hid
  · intro s leaf hs
    cases hs
  · intro s c spec hc
    cases hc
  · intro c hc
    cases hc
  · intro c hc
    cases hc
  · intro id s c hid
    cases hid

/-- A connection handed out by a source that is still there finds it. -/
theorem exists_source (hi : Inv g h) {k : NodeId × ConnId} (hc : k ∈ h.connIds) (hs : k.1 ∉ h.retired) :
    ∃ leaf, g.source k.1 = some leaf := by
  obtain ⟨leaf, hleaf⟩ := hi.sources k hc
  obtain ⟨o, ho, hcore⟩ := hi.own _ _ hleaf hs
  obtain ⟨leaf', rfl⟩ := Operator.core_source hcore
  exact ⟨leaf', source_eq_some.mpr ho⟩

theorem source_live (hi : Inv g h) (hleaf : g.source s = some leaf) : s ∉ h.retired := by
  intro hr
  have hn := source_eq_some.mp hleaf
  rw [node, hi.nodes.get?_retired hr] at hn
  cases hn

/-- What a connection reads, through the source's table. -/
theorem connection_eq (hleaf : g.source s = some leaf) (c : ConnId) : g.connection s c = leaf.conns.arena.get? c.slot := by
  rw [connection, hleaf, Option.bind_some, ConnTable.live_arena]

theorem connection_closed (hi : Inv g h) (hc : (s, c) ∈ h.closed) : g.connection s c = none := by
  cases hleaf : g.source s with
  | none => rw [connection, hleaf, Option.bind_none]
  | some leaf =>
    obtain ⟨leaf0, hmem⟩ := hi.sources _ (hi.closed _ hc)
    rw [connection_eq hleaf]
    exact (hi.tables s leaf (mem_handed hmem) hleaf).get?_retired (mem_slotsOf.mpr hc)

/-! ## Nodes added -/

theorem add {op : Operator ω} (hi : Inv g h) (hcore : op.core = op) (hnew : ∀ leaf, op = .source leaf → leaf.conns = {})
    (hconn : ∀ s c, op = .sourceConn s c → (s, c) ∈ h.connIds) :
    Inv (g.add op).1 { h with nodes := ((g.add op).2, op) :: h.nodes } := by
  have hfresh := hi.nodes.add_fresh op
  have hnode : ∀ id ∈ h.handed, (g.add op).1.node id = g.node id := fun id hid => hi.nodes.get?_add hid op
  have hself : (g.add op).1.node (g.add op).2 = some op := hi.nodes.get?_add_self op
  have hne : ∀ id ∈ h.handed, id ≠ (g.add op).2 := fun id hid heq => hfresh.1 (heq ▸ hid)
  have hsource : ∀ k ∈ h.connIds, k.1 ∈ h.handed := by
    intro k hk
    obtain ⟨leaf, hleaf⟩ := hi.sources k hk
    exact mem_handed hleaf
  refine ⟨hi.nodes.add op, hi.storage, ⟨List.nodup_cons.mpr ⟨hfresh.1, hi.unique.1⟩, hi.unique.2⟩, ?_, ?_, ?_, ?_, hi.closed, ?_, ?_⟩
  · intro id op' hid hlive
    rcases List.mem_cons.mp hid with heq | hid
    · obtain ⟨rfl, rfl⟩ := Prod.mk.inj heq
      exact ⟨op', hself, hcore⟩
    · rw [hnode id (mem_handed hid)]
      exact hi.own id op' hid hlive
  · intro s leaf hs hleaf
    rcases List.mem_cons.mp hs with rfl | hs
    · -- a new source has an empty table and handed out no connection
      have hop : op = .source leaf := Option.some.inj (hself.symm.trans (source_eq_some.mp hleaf))
      have hempty : ∀ conns : List (NodeId × ConnId), (∀ k ∈ conns, k ∈ h.connIds) →
          History.slotsOf (g.add op).2 conns = [] := by
        intro conns hconns
        rw [History.slotsOf, List.filterMap_eq_nil_iff]
        intro k hk
        exact if_neg (hne k.1 (hsource k (hconns k hk)))
      have h1 : History.slotsOf (g.add op).2 h.connIds = [] := hempty _ fun k hk => hk
      have h2 : History.slotsOf (g.add op).2 h.closed = [] := hempty _ hi.closed
      show Kept leaf.conns.arena (History.slotsOf (g.add op).2 h.connIds) (History.slotsOf (g.add op).2 h.closed)
      rw [h1, h2, hnew leaf hop]
      exact kept_empty
    · rw [source_congr (hnode s hs)] at hleaf
      exact hi.tables s leaf hs hleaf
  · intro s c spec hc hs hclosed
    rw [connection, source_congr (hnode s (hsource (s, c) (mem_connIds hc)))]
    exact hi.made s c spec hc hs hclosed
  · intro k hk
    obtain ⟨leaf, hleaf⟩ := hi.sources k hk
    exact ⟨leaf, List.mem_cons_of_mem _ hleaf⟩
  · intro id s c hid
    rcases List.mem_cons.mp hid with heq | hid
    · exact hconn s c (Prod.mk.inj heq).2.symm
    · exact hi.joined id s c hid
  · exact hi.recorded.addNode hfresh.1

/-! ## Sources changed in place -/

theorem node_putSource (hi : Inv g h) (hs : s ∈ h.handed) (hleaf : g.source s = some leaf) (leaf' : SourceLeaf) :
    (g.putSource s leaf').node s = some (.source leaf') ∧
      ∀ id ∈ h.handed, id ≠ s → (g.putSource s leaf').node id = g.node id := by
  have hlive := hi.source_live hleaf
  refine ⟨hi.nodes.get?_put_self hs hlive _, ?_⟩
  intro id hid hne
  exact hi.nodes.get?_put_ne hs hlive hid hne _

/-- The connections of one source change: those handed out and those closed, and its table with them. -/
theorem putSource (hi : Inv g h) (hs : s ∈ h.handed) (hleaf : g.source s = some leaf) (hcore : leaf'.core = leaf.core)
    {conns : List ((NodeId × ConnId) × ConnSpec)} {closed : List (NodeId × ConnId)} {h' : History ω}
    (hh : h' = { h with conns, closed })
    (hissued : h'.connIds.Nodup ∧ (∀ k ∈ h'.connIds, k ∈ h.connIds ∨ k.1 = s ∧ ∃ leaf, (s, .source leaf) ∈ h.nodes) ∧
      ∀ k ∈ h.connIds, k ∈ h'.connIds)
    (hclosed : ∀ k ∈ closed, k ∈ h'.connIds)
    (htable : leaf'.conns.arena.Kept (History.slotsOf s h'.connIds) (History.slotsOf s closed))
    (hother : ∀ s', s' ≠ s → History.slotsOf s' h'.connIds = History.slotsOf s' h.connIds ∧
      History.slotsOf s' closed = History.slotsOf s' h.closed)
    (hmade : ∀ c spec, ((s, c), spec) ∈ conns → (s, c) ∉ closed →
      ∃ conn, leaf'.conns.arena.get? c.slot = some conn ∧ conn.MadeFor spec)
    (hkept : ∀ s' c spec, s' ≠ s → ((s', c), spec) ∈ conns → (s', c) ∉ closed →
      ((s', c), spec) ∈ h.conns ∧ (s', c) ∉ h.closed) :
    Inv (g.putSource s leaf') h' := by
  obtain ⟨hself, hnode⟩ := hi.node_putSource hs hleaf leaf'
  obtain ⟨hnd, hold, hmono⟩ := hissued
  have hsources : ∀ k ∈ h'.connIds, ∃ leaf, (k.1, .source leaf) ∈ h.nodes := by
    intro k hk
    rcases hold k hk with hk | ⟨hks, hleaf⟩
    · exact hi.sources k hk
    · exact hks ▸ hleaf
  subst hh
  refine ⟨hi.nodes.put s _, hi.storage, ⟨hi.unique.1, hi.unique.2.1, hnd⟩, ?_, ?_, ?_, hsources, hclosed, ?_, hi.recorded⟩
  · intro id op hid hlive
    by_cases heq : id = s
    · subst heq
      obtain ⟨o, ho, hco⟩ := hi.own id op hid hlive
      rw [source_eq_some.mp hleaf] at ho
      obtain rfl := Option.some.inj ho
      exact ⟨_, hself, (congrArg Operator.source hcore).trans hco⟩
    · rw [hnode id (mem_handed hid) heq]
      exact hi.own id op hid hlive
  · intro s' l hs' hl
    by_cases heq : s' = s
    · subst heq
      rw [source_eq_some, hself] at hl
      obtain rfl : leaf' = l := by
        have := Option.some.inj hl
        exact Operator.source.inj this
      exact htable
    · rw [source_congr (hnode s' hs' heq)] at hl
      obtain ⟨h1, h2⟩ := hother s' heq
      show l.conns.arena.Kept (History.slotsOf s' _) (History.slotsOf s' closed)
      rw [h1, h2]
      exact hi.tables s' l hs' hl
  · intro s' c spec hc hlive hnc
    by_cases heq : s' = s
    · subst heq
      obtain ⟨conn, hget, hfor⟩ := hmade c spec hc hnc
      exact ⟨conn, by rw [connection_eq (source_eq_some.mpr hself), hget], hfor⟩
    · obtain ⟨hc', hnc'⟩ := hkept s' c spec heq hc hnc
      obtain ⟨conn, hget, hfor⟩ := hi.made s' c spec hc' hlive hnc'
      obtain ⟨leaf0, hmem⟩ := hi.sources _ (mem_connIds hc')
      refine ⟨conn, ?_, hfor⟩
      rw [connection, source_congr (hnode s' (mem_handed hmem) heq)]
      exact hget
  · intro id s' c hid
    exact hmono _ (hi.joined id s' c hid)

theorem slotsOf_insert (s : NodeId) (k : NodeId × ConnId) (closed : List (NodeId × ConnId)) :
    History.slotsOf s (closed.insert k) =
      if k.1 = s then (History.slotsOf s closed).insert k.2.slot else History.slotsOf s closed := by
  by_cases hmem : k ∈ closed
  · rw [List.insert_of_mem hmem]
    by_cases hs : k.1 = s
    · subst hs
      rw [if_pos rfl, List.insert_of_mem (mem_slotsOf.mpr hmem)]
    · rw [if_neg hs]
  · rw [List.insert_of_not_mem hmem, slotsOf_cons]
    by_cases hs : k.1 = s
    · subst hs
      rw [if_pos rfl, if_pos rfl, List.insert_of_not_mem fun h => hmem (mem_slotsOf.mp h)]
    · rw [if_neg hs, if_neg hs]

/-- `Source::destroy` on a connection handed out, whether or not it was destroyed before. -/
theorem destroy (hi : Inv g h) (hc : (s, c) ∈ h.connIds) (hfew : Arena.Few genWrap (History.slotsOf s (h.closed.insert (s, c))))
    (hg : g.destroy s c = some g') :
    Inv g' { h with closed := h.closed.insert (s, c) } ∧
      ∀ k ∈ h.connIds, k ≠ (s, c) → g'.connection k.1 k.2 = g.connection k.1 k.2 := by
  obtain ⟨leaf, hleaf, rfl⟩ := Option.map_eq_some_iff.mp hg
  obtain ⟨hcore, hconns⟩ := leaf.destroy_conns c
  obtain ⟨leaf0, hmem⟩ := hi.sources _ hc
  have hs : s ∈ h.handed := mem_handed hmem
  rw [slotsOf_insert, if_pos rfl] at hfew
  obtain ⟨htab, hsame⟩ := ConnTable.destroy_kept (hi.tables s leaf hs hleaf) (mem_slotsOf.mpr hc) hfew
  rw [← hconns] at htab hsame
  have hself := (hi.node_putSource hs hleaf (leaf.destroy c)).1
  refine ⟨?_, ?_⟩
  · refine hi.putSource hs hleaf hcore rfl ⟨hi.unique.2.2, fun k hk => Or.inl hk, fun k hk => hk⟩ ?_ ?_ ?_ ?_ ?_
    · intro k hk
      rcases List.mem_insert_iff.mp hk with rfl | hk
      · exact hc
      · exact hi.closed k hk
    · rw [slotsOf_insert, if_pos rfl]
      exact htab
    · intro s' hne
      rw [slotsOf_insert, if_neg (Ne.symm hne)]
      exact ⟨rfl, rfl⟩
    · intro c' spec hc' hnc
      rw [List.mem_insert_iff, not_or] at hnc
      obtain ⟨conn, hget, hfor⟩ := hi.made s c' spec hc' (hi.source_live hleaf) hnc.2
      rw [connection_eq hleaf] at hget
      have hne : c'.slot ≠ c.slot := fun heq => hnc.1 (by rw [ConnId.slot_inj.mp heq])
      exact ⟨conn, by rw [hsame _ (mem_slotsOf.mpr (mem_connIds hc')) hne, hget], hfor⟩
    · intro s' c' spec hne hc' hnc
      rw [List.mem_insert_iff, not_or] at hnc
      exact ⟨hc', hnc.2⟩
  · intro k hk hne
    obtain ⟨leaf1, hmem1⟩ := hi.sources _ hk
    by_cases heq : k.1 = s
    · have hk : (s, k.2) ∈ h.connIds := heq ▸ hk
      have hslot : k.2.slot ≠ c.slot := fun hslot => hne (Prod.ext heq (ConnId.slot_inj.mp hslot))
      rw [heq, connection_eq hleaf, connection_eq (source_eq_some.mpr hself)]
      exact hsame _ (mem_slotsOf.mpr hk) hslot
    · rw [connection, source_congr ((hi.node_putSource hs hleaf _).2 k.1 (mem_handed hmem1) heq)]
      rfl

theorem setOutput (hi : Inv g h) (hc : (s, c) ∈ h.connIds) (hleaf : g.source s = some leaf) (hset : leaf.setConnOutput c = some leaf') :
    Inv (g.putSource s leaf') h := by
  obtain ⟨hcore, hconns⟩ := SourceLeaf.setConnOutput_conns hset
  obtain ⟨leaf0, hmem⟩ := hi.sources _ hc
  have hs : s ∈ h.handed := mem_handed hmem
  have htab := hi.tables s leaf hs hleaf
  obtain ⟨conn, hget, harena⟩ := ConnTable.setOutput_arena hconns
  have hh : c.slot ∈ History.slotsOf s h.connIds := mem_slotsOf.mpr hc
  have hlive : c.slot ∉ History.slotsOf s h.closed := by
    intro hr
    rw [htab.get?_retired hr] at hget
    cases hget
  refine hi.putSource hs hleaf hcore (show h = { h with conns := h.conns, closed := h.closed } from rfl) ⟨hi.unique.2.2, fun k hk => Or.inl hk, fun k hk => hk⟩ hi.closed ?_
    (fun s' _ => ⟨rfl, rfl⟩) ?_ (fun s' c' spec _ hc' hnc => ⟨hc', hnc⟩)
  · rw [harena]
    exact htab.put _ _
  · intro c' spec hc' hnc
    obtain ⟨conn', hget', hfor⟩ := hi.made s c' spec hc' (hi.source_live hleaf) hnc
    rw [connection_eq hleaf] at hget'
    by_cases heq : c' = c
    · subst heq
      rw [hget] at hget'
      obtain rfl := Option.some.inj hget'
      refine ⟨{ conn with output := true }, ?_, hfor.sort, hfor.unordered, hfor.filters, hfor.keys⟩
      rw [harena]
      exact htab.get?_put_self hh hlive _
    · refine ⟨conn', ?_, hfor⟩
      have hne : c'.slot ≠ c.slot := fun hslot => heq (ConnId.slot_inj.mp hslot)
      rw [harena, htab.get?_put_ne hh hlive (mem_slotsOf.mpr (mem_connIds hc')) hne]
      exact hget'

/-- `Source::connect`, before the node is added. -/
theorem connectSource (hi : Inv g h) (hs : s ∈ h.handed) (hleaf : g.source s = some leaf)
    (hconn : leaf.connect spec.sort spec.filters spec.splitEditKeys = some (leaf', c)) :
    Inv (g.putSource s leaf') { h with conns := ((s, c), spec) :: h.conns } := by
  obtain ⟨hcore, conn, hfor, hconns, hid⟩ := SourceLeaf.connect_conns hconn
  have htab := hi.tables s leaf hs hleaf
  obtain ⟨harena, hslot⟩ := leaf.conns.connect_arena conn
  rw [← hconns] at harena
  rw [← hid] at hslot
  have hfresh := htab.add_fresh conn
  rw [← hslot] at hfresh
  have hnew : (s, c) ∉ h.connIds := fun hmem => hfresh.1 (mem_slotsOf.mpr hmem)
  have hsource : ∃ l, (s, Operator.source l) ∈ h.nodes := by
    obtain ⟨e, he, rfl⟩ := List.mem_map.mp hs
    obtain ⟨o, ho, hco⟩ := hi.own e.1 e.2 he (hi.source_live hleaf)
    rw [source_eq_some.mp hleaf] at ho
    obtain rfl := Option.some.inj ho
    exact ⟨leaf.core, by rw [show Operator.source leaf.core = e.2 from hco]; exact he⟩
  refine hi.putSource hs hleaf hcore rfl ⟨List.nodup_cons.mpr ⟨hnew, hi.unique.2.2⟩, ?_, fun k hk => List.mem_cons_of_mem _ hk⟩ ?_ ?_ ?_ ?_ ?_
  · intro k hk
    rcases List.mem_cons.mp hk with rfl | hk
    · exact Or.inr ⟨rfl, hsource⟩
    · exact Or.inl hk
  · intro k hk
    exact List.mem_cons_of_mem _ (hi.closed k hk)
  · show leaf'.conns.arena.Kept (History.slotsOf s ((s, c) :: h.connIds)) (History.slotsOf s h.closed)
    rw [slotsOf_cons, if_pos rfl, harena, hslot]
    exact htab.add conn
  · intro s' hne
    refine ⟨?_, rfl⟩
    show History.slotsOf s' ((s, c) :: h.connIds) = _
    rw [slotsOf_cons, if_neg (Ne.symm hne)]
  · intro c' spec' hc' hnc
    rcases List.mem_cons.mp hc' with heq | hc'
    · obtain ⟨hk, rfl⟩ := Prod.mk.inj heq
      obtain rfl := (Prod.mk.inj hk).2
      refine ⟨conn, ?_, hfor⟩
      rw [harena, hslot]
      exact htab.get?_add_self conn
    · obtain ⟨conn', hget, hfor'⟩ := hi.made s c' spec' hc' (hi.source_live hleaf) hnc
      rw [connection_eq hleaf] at hget
      refine ⟨conn', ?_, hfor'⟩
      rw [harena, htab.get?_add (mem_slotsOf.mpr (mem_connIds hc'))]
      exact hget
  · intro s' c' spec' hne hc' hnc
    rcases List.mem_cons.mp hc' with heq | hc'
    · exact absurd (Prod.mk.inj (Prod.mk.inj heq).1).1 hne
    · exact ⟨hc', hnc⟩

end Inv

end Graph

end Rindle
