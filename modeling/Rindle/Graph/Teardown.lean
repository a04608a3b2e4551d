/-
  Rindle.Graph.Teardown — what a graph's ids resolve to over whole runs.

  `ids_never_alias`: in every world a run of calls reaches, as long as no slot was freed 2^32
  times, a live id resolves to what it was handed out for, a destroyed one to nothing, and
  destroying a pipeline changes no other.
-/

import Rindle.Graph.History

set_option linter.dupNamespace false

namespace Rindle

open Arena

namespace Graph

variable {ω σ : Type}

namespace Inv

variable {g g' : Graph ω σ} {h : History ω} {s : NodeId} {leaf leaf' : SourceLeaf} {c : ConnId} {spec : ConnSpec}

/-! ## Pipelines -/

theorem suffix_insert (k : NodeId × ConnId) (closed : List (NodeId × ConnId)) : closed <:+ closed.insert k := by
  by_cases hmem : k ∈ closed
  · exact (List.insert_of_mem hmem).symm ▸ List.suffix_refl closed
  · rw [List.insert_of_not_mem hmem]
    exact List.suffix_cons k closed

theorem suffix_closing (conns : List (NodeId × ConnId)) : ∀ (h : History ω), h.closed <:+ h.closing conns := by
  induction conns with
  | nil => exact fun h => List.suffix_refl _
  | cons c conns ih =>
    intro h
    exact (suffix_insert c h.closed).trans (ih { h with closed := h.closed.insert c })

theorem few_of_suffix {closed closed' : List (NodeId × ConnId)} (hsuf : closed <:+ closed')
    (hfew : Arena.Few genWrap (History.slotsOf s closed')) : Arena.Few genWrap (History.slotsOf s closed) := by
  obtain ⟨before, rfl⟩ := hsuf
  rw [History.slotsOf, List.filterMap_append] at hfew
  exact hfew.of_append

/-- The disconnecting pass. -/
theorem destroyAll (conns : List (NodeId × ConnId)) : ∀ {g : Graph ω σ} {h : History ω}, Inv g h → (∀ k ∈ conns, k ∈ h.connIds) →
    (∀ s, Arena.Few genWrap (History.slotsOf s (h.closing conns))) → conns.foldlM (fun g k => g.destroy k.1 k.2) g = some g' →
      Inv g' { h with closed := h.closing conns } ∧ g'.storage = g.storage ∧ g'.recording = g.recording ∧
        (∀ id ∈ h.handed, (g'.node id).map Operator.core = (g.node id).map Operator.core) ∧
          ∀ k ∈ h.connIds, k ∉ conns → g'.connection k.1 k.2 = g.connection k.1 k.2 := by
  induction conns with
  | nil =>
    intro g h hi _ _ hg
    obtain rfl : g = g' := by simpa using hg
    exact ⟨hi, rfl, rfl, fun id _ => rfl, fun k _ _ => rfl⟩
  | cons k conns ih =>
    intro g h hi hconns hfew hg
    rw [List.foldlM_cons] at hg
    obtain ⟨g1, hg1, hg⟩ := Option.bind_eq_some_iff.mp hg
    have hk : (k.1, k.2) ∈ h.connIds := hconns k List.mem_cons_self
    have hstep : Arena.Few genWrap (History.slotsOf k.1 (h.closed.insert k)) :=
      few_of_suffix (suffix_closing conns { h with closed := h.closed.insert k }) (hfew k.1)
    obtain ⟨hi1, hconn1⟩ := hi.destroy hk hstep hg1
    obtain ⟨hi', hst, hrec, hnode, hconn⟩ := ih hi1 (fun k' hk' => hconns k' (List.mem_cons_of_mem _ hk')) hfew hg
    obtain ⟨leaf, hleaf, rfl⟩ := Option.map_eq_some_iff.mp hg1
    obtain ⟨leaf0, hmem⟩ := hi.sources _ hk
    obtain ⟨hself, hother⟩ := hi.node_putSource (mem_handed hmem) hleaf (leaf.destroy k.2)
    refine ⟨hi', hst, hrec, ?_, ?_⟩
    · intro id hid
      rw [hnode id hid]
      by_cases heq : id = k.1
      · subst heq
        rw [hself, source_eq_some.mp hleaf]
        simp [Operator.core, (leaf.destroy_conns k.2).1]
      · rw [hother id hid heq]
    · intro k' hk' hnot
      rw [List.mem_cons, not_or] at hnot
      rw [hconn k' hk' hnot.2]
      exact hconn1 k' hk' hnot.1

theorem retireStorage (hi : Inv g h) {ids : List StorageId} {x : σ} {b : Arena σ} (hids : ∀ id ∈ ids, id ∈ h.storage)
    (hfew : Arena.Few genWrap (ids.reverse ++ h.retiredStorage)) (hb : g.storage.retireAll genWrap x ids = some b) :
    Inv { g with storage := b } { h with retiredStorage := ids.reverse ++ h.retiredStorage } :=
  ⟨hi.nodes, (hi.storage.retireAll ids hids hfew hb).1, hi.unique, hi.own, hi.tables, hi.made, hi.sources, hi.closed, hi.joined,
    hi.recorded⟩

theorem retireNodes (hi : Inv g h) {ids : List NodeId} {b : Arena (Operator ω)} (hids : ∀ id ∈ ids, id ∈ h.handed)
    (hfew : Arena.Few genWrap (ids.reverse ++ h.retired)) (hb : g.nodes.retireAll genWrap .tombstone ids = some b) :
    Inv { g with nodes := b } { h with retired := ids.reverse ++ h.retired } := by
  obtain ⟨hk, -, hsame⟩ := hi.nodes.retireAll ids hids hfew hb
  have hlive : ∀ {id : NodeId}, id ∉ ids.reverse ++ h.retired → id ∉ ids ∧ id ∉ h.retired := by
    intro id hid
    simpa using hid
  have hnode : ∀ id ∈ h.handed, id ∉ ids → ({ g with nodes := b } : Graph ω σ).node id = g.node id := hsame
  refine ⟨hk, hi.storage, hi.unique, ?_, ?_, ?_, hi.sources, hi.closed, hi.joined, hi.recorded⟩
  · intro id op hid hr
    rw [hnode id (mem_handed hid) (hlive hr).1]
    exact hi.own id op hid (hlive hr).2
  · intro s leaf hs hleaf
    by_cases hr : s ∈ ids.reverse ++ h.retired
    · have hn := source_eq_some.mp hleaf
      rw [node, hk.get?_retired hr] at hn
      cases hn
    · rw [source_congr (hnode s hs (hlive hr).1)] at hleaf
      exact hi.tables s leaf hs hleaf
  · intro s c spec hc hr hnc
    obtain ⟨leaf, hmem⟩ := hi.sources _ (mem_connIds hc)
    rw [connection, source_congr (hnode s (mem_handed hmem) (hlive hr).1)]
    exact hi.made s c spec hc (hlive hr).2 hnc

/-- The connections found in the nodes are the ones the nodes were added for. -/
theorem connsOf_nodes (hi : Inv g h) (ids : List NodeId) : ∀ {ops : List (Operator ω)}, (∀ id ∈ ids, id ∈ h.handed) →
    ids.mapM g.node = some ops → ops.filterMap Operator.conn? = ids.filterMap h.connOf := by
  induction ids with
  | nil =>
    intro ops _ hops
    obtain rfl : [] = ops := by simpa using hops
    rfl
  | cons id ids ih =>
    intro ops hids hops
    rw [List.mapM_cons] at hops
    obtain ⟨op, hop, hops⟩ := Option.bind_eq_some_iff.mp hops
    obtain ⟨rest, hrest, hops⟩ := Option.bind_eq_some_iff.mp hops
    obtain rfl := Option.some.inj hops
    have hih := ih (fun i hi => hids i (List.mem_cons_of_mem _ hi)) hrest
    have hlive : id ∉ h.retired := by
      intro hr
      rw [node, hi.nodes.get?_retired hr] at hop
      cases hop
    cases hf : h.nodes.find? (fun e => e.1 == id) with
    | none =>
      obtain ⟨e, he, heq⟩ := List.mem_map.mp (hids id List.mem_cons_self)
      have hno := List.find?_eq_none.mp hf e he
      simp [heq] at hno
    | some e =>
      have hid : e.1 = id := by simpa using List.find?_some hf
      obtain ⟨o, ho, hcore⟩ := hi.own e.1 e.2 (List.mem_of_find?_eq_some hf) (hid ▸ hlive)
      rw [hid, hop] at ho
      obtain rfl := Option.some.inj ho
      have hconn : h.connOf id = op.conn? := by rw [History.connOf, hf, Option.bind_some, ← hcore, Operator.core_conn?]
      rw [List.filterMap_cons, List.filterMap_cons, hconn, hih]

/-- A pipeline's connections were handed out. -/
theorem connsIn_handed (hi : Inv g h) {m : PipelineManifest} {k : NodeId × ConnId} (hk : k ∈ h.connsIn m) : k ∈ h.connIds := by
  obtain ⟨id, -, hconn⟩ := List.mem_filterMap.mp hk
  obtain ⟨e, he, hop⟩ := Option.bind_eq_some_iff.mp hconn
  exact hi.joined e.1 k.1 k.2 (Operator.eq_of_conn? hop ▸ List.mem_of_find?_eq_some he)

end Inv

/-- What a teardown leaves alone: every other node, apart from the connections of a source, every other
    connection of a source that stays, and every other storage slot. -/
structure Untouched (g g' : Graph ω σ) (h : History ω) (m : PipelineManifest) : Prop where
  nodes : ∀ id ∈ h.handed, id ∉ m.nodes → (g'.node id).map Operator.core = (g.node id).map Operator.core
  conns : ∀ k ∈ h.connIds, k ∉ h.connsIn m → k.1 ∉ m.nodes → g'.connection k.1 k.2 = g.connection k.1 k.2
  storage : ∀ id ∈ h.storage, id ∉ m.storage → g'.storage.get? id = g.storage.get? id

namespace Inv

variable {g g' : Graph ω σ} {h : History ω} {m : PipelineManifest} [Inhabited σ]

theorem destroyPipeline (hi : Inv g h) (hm : m ∈ h.pipelines) (hfew : (h.teardown m).Few) (hg : g.destroyPipeline m = some g') :
    Inv g' (h.teardown m) ∧ (∀ id ∈ m.nodes, id ∉ h.retired) ∧ Untouched g g' h m := by
  obtain ⟨hnodes, hstorage⟩ := hi.recorded.named (List.mem_append_right _ hm)
  simp only [Graph.destroyPipeline, Option.bind_eq_bind, Option.bind_eq_some_iff] at hg
  obtain ⟨ops, hops, g1, hg1, storage, hst, nodes, hnd, hg⟩ := hg
  obtain rfl := Option.some.inj hg
  rw [hi.connsOf_nodes m.nodes hnodes hops] at hg1
  obtain ⟨hi1, hst1, hrec1, hnode1, hconn1⟩ := hi.destroyAll (h.connsIn m) (fun k hk => hi.connsIn_handed hk) hfew.conns hg1
  have hi2 := hi1.retireStorage hstorage hfew.storage hst
  obtain ⟨-, hfresh, hsame⟩ := hi2.nodes.retireAll m.nodes hnodes hfew.nodes hnd
  have hi3 := hi2.retireNodes hnodes hfew.nodes hnd
  refine ⟨hi3, hfresh, ?_, ?_, ?_⟩
  · intro id hid hno
    rw [← hnode1 id hid]
    exact congrArg (Option.map Operator.core) (hsame id hid hno)
  · intro k hk hno hsource
    obtain ⟨leaf, hmem⟩ := hi.sources k hk
    have hnode : ({ g1 with nodes, storage } : Graph ω σ).node k.1 = g1.node k.1 := hsame k.1 (mem_handed hmem) hsource
    rw [← hconn1 k hk hno, connection, connection, source_congr hnode]
  · intro id hid hno
    rw [← hst1]
    exact (hi1.storage.retireAll m.storage hstorage hfew.storage hst).2.2 id hid hno

/-- A pipeline whose nodes and storage are live, and whose sources are, can be torn down. -/
theorem exists_destroyPipeline (hi : Inv g h) (hm : m ∈ h.pipelines) (hfew : (h.teardown m).Few)
    (hnodes : ∀ id ∈ m.nodes, id ∉ h.retired) (hstorage : ∀ id ∈ m.storage, id ∉ h.retiredStorage)
    (hsources : ∀ k ∈ h.connsIn m, k.1 ∉ h.retired) : ∃ g', g.destroyPipeline m = some g' := by
  obtain ⟨hnamed, hstores⟩ := hi.recorded.named (List.mem_append_right _ hm)
  obtain ⟨hnd, hndst⟩ := hi.recorded.nodup (List.mem_append_right _ hm)
  have hlookup : ∀ ids : List NodeId, (∀ id ∈ ids, id ∈ h.handed ∧ id ∉ h.retired) → ∃ ops, ids.mapM g.node = some ops := by
    intro ids
    induction ids with
    | nil => exact fun _ => ⟨[], rfl⟩
    | cons id ids ih =>
      intro hids
      obtain ⟨op, hop⟩ := hi.nodes.exists_get? (hids id List.mem_cons_self).1 (hids id List.mem_cons_self).2
      obtain ⟨ops, hops⟩ := ih fun i hi => hids i (List.mem_cons_of_mem _ hi)
      refine ⟨op :: ops, ?_⟩
      rw [List.mapM_cons, show g.node id = some op from hop, hops]
      rfl
  have hdisconnect : ∀ (conns : List (NodeId × ConnId)) {g : Graph ω σ} {h : History ω}, Inv g h → (∀ k ∈ conns, k ∈ h.connIds) →
      (∀ k ∈ conns, k.1 ∉ h.retired) → (∀ s, Arena.Few genWrap (History.slotsOf s (h.closing conns))) →
        ∃ g', conns.foldlM (fun g k => g.destroy k.1 k.2) g = some g' := by
    intro conns
    induction conns with
    | nil => exact fun {g} _ _ _ _ _ => ⟨g, rfl⟩
    | cons k conns ih =>
      intro g h hi hconns hlive hfew
      obtain ⟨leaf, hleaf⟩ := hi.exists_source (hconns k List.mem_cons_self) (hlive k List.mem_cons_self)
      have hg : g.destroy k.1 k.2 = some (g.putSource k.1 (leaf.destroy k.2)) := by
        rw [Graph.destroy, hleaf]
        rfl
      have hstep := few_of_suffix (suffix_closing conns { h with closed := h.closed.insert k }) (hfew k.1)
      have hi1 := (hi.destroy (hconns k List.mem_cons_self) hstep hg).1
      obtain ⟨g', hg'⟩ := ih hi1 (fun k' hk' => hconns k' (List.mem_cons_of_mem _ hk'))
        (fun k' hk' => hlive k' (List.mem_cons_of_mem _ hk')) hfew
      refine ⟨g', ?_⟩
      rw [List.foldlM_cons, hg]
      exact hg'
  obtain ⟨ops, hops⟩ := hlookup m.nodes fun id hid => ⟨hnamed id hid, hnodes id hid⟩
  obtain ⟨g1, hg1⟩ := hdisconnect (h.connsIn m) hi (fun k hk => hi.connsIn_handed hk) hsources hfew.conns
  obtain ⟨hi1, hst1, -⟩ := hi.destroyAll (h.connsIn m) (fun k hk => hi.connsIn_handed hk) hfew.conns hg1
  obtain ⟨storage, hst⟩ := Kept.exists_retireAll (x := default) m.storage hi1.storage (fun id hid => ⟨hstores id hid, hstorage id hid⟩) hndst
    hfew.storage
  obtain ⟨nodes, hn⟩ := Kept.exists_retireAll (x := .tombstone) m.nodes hi1.nodes (fun id hid => ⟨hnamed id hid, hnodes id hid⟩) hnd
    hfew.nodes
  refine ⟨{ g1 with nodes, storage }, ?_⟩
  simp only [Graph.destroyPipeline, Option.bind_eq_bind, Option.bind_eq_some_iff]
  refine ⟨ops, hops, g1, ?_, storage, hst, nodes, hn, rfl⟩
  rw [hi.connsOf_nodes m.nodes hnamed hops]
  exact hg1

end Inv

/-! ## Runs -/

theorem tryNew_conns {width : Nat} {pk : List Nat} {initial : List Row} {s : MemorySource}
    (h : MemorySource.tryNew width pk initial = .ok s) : s.conns = {} := by
  unfold MemorySource.tryNew at h
  split at h
  · cases h
  · rw [← Except.ok.inj h]

theorem source_core {s : MemorySource} (h : s.conns = {}) : (Operator.source (.memory s) : Operator ω).core = .source (.memory s) := by
  rw [Operator.core, SourceLeaf.core, ← h]

namespace World

variable [Inhabited σ] {w w' : World ω σ} {op : Op ω}

/-- What is destroyed stays destroyed. -/
theorem step_grows (h : w.step op = some w') :
    w.hist.retired <:+ w'.hist.retired ∧ w.hist.retiredStorage <:+ w'.hist.retiredStorage ∧ w.hist.closed <:+ w'.hist.closed := by
  have hsame : ∀ {g : Graph ω σ} {h' : History ω}, some (⟨g, h'⟩ : World ω σ) = some w' → h'.retired = w.hist.retired →
      h'.retiredStorage = w.hist.retiredStorage → h'.closed = w.hist.closed →
      w.hist.retired <:+ w'.hist.retired ∧ w.hist.retiredStorage <:+ w'.hist.retiredStorage ∧ w.hist.closed <:+ w'.hist.closed := by
    intro g h' heq h1 h2 h3
    rw [← Option.some.inj heq]
    exact ⟨h1 ▸ List.suffix_refl _, h2 ▸ List.suffix_refl _, h3 ▸ List.suffix_refl _⟩
  cases op with
  | addSource width pk initial =>
    simp only [step] at h
    split at h
    · exact hsame h rfl rfl rfl
    · exact hsame h rfl rfl rfl
  | addDynSource pk => exact hsame h rfl rfl rfl
  | addOperator o => exact hsame h rfl rfl rfl
  | connect source spec =>
    simp only [step, Option.bind_eq_bind, Option.bind_eq_some_iff] at h
    obtain ⟨p, -, h⟩ := h
    exact hsame h rfl rfl rfl
  | setConnOutput id =>
    obtain ⟨g, -, h⟩ := Option.map_eq_some_iff.mp h
    exact hsame (congrArg some h) rfl rfl rfl
  | destroy source conn =>
    obtain ⟨g, -, h⟩ := Option.map_eq_some_iff.mp h
    rw [← h]
    exact ⟨List.suffix_refl _, List.suffix_refl _, Inv.suffix_insert _ _⟩
  | allocStorage => exact hsame h rfl rfl rfl
  | beginRecording => exact hsame h rfl rfl rfl
  | takeRecording => exact hsame h rfl rfl rfl
  | destroyPipeline m =>
    obtain ⟨g, -, h⟩ := Option.map_eq_some_iff.mp h
    rw [← h]
    exact ⟨List.suffix_append _ _, List.suffix_append _ _, Inv.suffix_closing _ _⟩
  | removeSource source =>
    obtain ⟨r, -, h⟩ := Option.map_eq_some_iff.mp h
    cases r with
    | ok g =>
      rw [← h]
      exact ⟨List.suffix_cons _ _, List.suffix_refl _, List.suffix_refl _⟩
    | error e => exact hsame (congrArg some h) rfl rfl rfl

theorem few_of_step (h : w.step op = some w') (hfew : w'.hist.Few) : w.hist.Few := by
  obtain ⟨⟨rs, hr⟩, ⟨ss, hs⟩, hc⟩ := step_grows h
  refine ⟨?_, ?_, ?_⟩
  · exact (show Arena.Few genWrap (rs ++ w.hist.retired) from hr ▸ hfew.nodes).of_append
  · exact (show Arena.Few genWrap (ss ++ w.hist.retiredStorage) from hs ▸ hfew.storage).of_append
  · intro source
    exact Inv.few_of_suffix hc (hfew.conns source)

theorem step_inv (hi : Inv w.graph w.hist) (hfit : op.Fits w.hist) (h : w.step op = some w') (hfew : w'.hist.Few) :
    Inv w'.graph w'.hist := by
  cases op with
  | addSource width pk initial =>
    simp only [step, tryAddSource] at h
    cases hnew : MemorySource.tryNew width pk initial with
    | error e =>
      rw [hnew] at h
      rw [← Option.some.inj h]
      exact hi
    | ok s =>
      rw [hnew] at h
      rw [← Option.some.inj h]
      have hempty := tryNew_conns hnew
      refine hi.add (source_core hempty) ?_ ?_
      · intro leaf hleaf
        rw [← Operator.source.inj hleaf]
        exact hempty
      · intro s' c hop
        cases hop
  | addDynSource pk =>
    rw [← Option.some.inj h]
    refine hi.add rfl ?_ ?_
    · intro leaf hleaf
      rw [← Operator.source.inj hleaf]
      rfl
    · intro s' c hop
      cases hop
  | addOperator o =>
    rw [← Option.some.inj h]
    refine hi.add rfl ?_ ?_
    · intro leaf hleaf
      cases hleaf
    · intro s' c hop
      cases hop
  | connect source spec =>
    simp only [step, Graph.connect, Option.bind_eq_bind, Option.bind_eq_some_iff] at h
    obtain ⟨p, ⟨leaf, hleaf, q, hconn, hp⟩, h⟩ := h
    rw [← Option.some.inj h, ← Option.some.inj hp]
    refine (hi.connectSource hfit hleaf hconn).add rfl ?_ ?_
    · intro leaf hleaf
      cases hleaf
    · intro s' c hop
      obtain ⟨rfl, rfl⟩ := Operator.sourceConn.inj hop
      exact List.mem_cons_self
  | setConnOutput id =>
    obtain ⟨g, hg, rfl⟩ := Option.map_eq_some_iff.mp h
    unfold Graph.setConnOutput at hg
    split at hg
    · rename_i source conn hnode
      simp only [Option.bind_eq_bind, Option.bind_eq_some_iff] at hg
      obtain ⟨leaf, hleaf, leaf', hset, hg⟩ := hg
      rw [← Option.some.inj hg]
      have hlive : id ∉ w.hist.retired := by
        intro hr
        rw [node, hi.nodes.get?_retired hr] at hnode
        cases hnode
      obtain ⟨e, he, heid⟩ := List.mem_map.mp (show id ∈ w.hist.handed from hfit)
      obtain ⟨o, ho, hcore⟩ := hi.own e.1 e.2 he (heid ▸ hlive)
      rw [heid, hnode] at ho
      rw [← Option.some.inj ho] at hcore
      have hrecorded : (e.1, Operator.sourceConn source conn) ∈ w.hist.nodes := by
        rw [show Operator.sourceConn source conn = e.2 from hcore]
        exact he
      exact hi.setOutput (hi.joined e.1 source conn hrecorded) hleaf hset
    · cases hg
  | destroy source conn =>
    obtain ⟨g, hg, rfl⟩ := Option.map_eq_some_iff.mp h
    exact (hi.destroy hfit (hfew.conns source) hg).1
  | allocStorage =>
    rw [← Option.some.inj h]
    have hfresh := hi.storage.alloc_fresh (default : σ)
    exact ⟨hi.nodes, hi.storage.alloc _, ⟨hi.unique.1, List.nodup_cons.mpr ⟨hfresh.1, hi.unique.2.1⟩, hi.unique.2.2⟩, hi.own, hi.tables,
      hi.made, hi.sources, hi.closed, hi.joined, hi.recorded.addStorage hfresh.1⟩
  | beginRecording =>
    rw [← Option.some.inj h]
    exact ⟨hi.nodes, hi.storage, hi.unique, hi.own, hi.tables, hi.made, hi.sources, hi.closed, hi.joined, hi.recorded.restart.begin⟩
  | takeRecording =>
    rw [← Option.some.inj h]
    refine ⟨hi.nodes, hi.storage, hi.unique, hi.own, hi.tables, hi.made, hi.sources, hi.closed, hi.joined, ?_⟩
    have hrec := hi.recorded
    unfold manifests at hrec
    show Recorded (w.graph.recording.getD {} :: w.hist.pipelines) w.hist.handed w.hist.storage
    cases hr : w.graph.recording with
    | none =>
      rw [hr] at hrec
      exact hrec.begin
    | some m =>
      rw [hr] at hrec
      exact hrec
  | destroyPipeline m =>
    obtain ⟨g, hg, rfl⟩ := Option.map_eq_some_iff.mp h
    exact (hi.destroyPipeline hfit hfew hg).1
  | removeSource source =>
    obtain ⟨r, hr, h⟩ := Option.map_eq_some_iff.mp h
    cases r with
    | error e =>
      rw [← h]
      exact hi
    | ok g =>
      subst h
      obtain ⟨o, -, hr⟩ := Option.bind_eq_some_iff.mp hr
      split at hr
      · split at hr
        · cases hr
        · obtain ⟨nodes, hret, hg⟩ := Option.map_eq_some_iff.mp hr
          rw [← Except.ok.inj hg]
          have hall : w.graph.nodes.retireAll genWrap .tombstone [source] = some nodes := by
            rw [Arena.retireAll, List.foldlM_cons, hret]
            rfl
          have hfew : Arena.Few genWrap ([source].reverse ++ w.hist.retired) := hfew.nodes
          refine hi.retireNodes (fun id hid => ?_) hfew hall
          rw [List.mem_singleton.mp hid]
          exact hfit
      · cases hr
      · cases hr

theorem Reach.inv (h : Reach w) : w.hist.Few → Inv w.graph w.hist := by
  induction h with
  | new => exact fun _ => Inv.empty
  | step _ hfit hstep ih => exact fun hfew => step_inv (ih (few_of_step hstep hfew)) hfit hstep hfew

/-- What the ids of a world resolve to. A live one: the operator it was added with, a store, a
    connection made for what the call asked. A destroyed one, or a connection of a destroyed
    source: nothing. Each id was handed out once; a free list has no slot twice and none of a
    live id. -/
structure NoAlias (w : World ω σ) : Prop where
  nodeLive : ∀ id op, (id, op) ∈ w.hist.nodes → id ∉ w.hist.retired → ∃ o, w.graph.node id = some o ∧ o.core = op
  nodeGone : ∀ id ∈ w.hist.retired, w.graph.node id = none
  storageLive : ∀ id ∈ w.hist.storage, id ∉ w.hist.retiredStorage → ∃ x, w.graph.storage.get? id = some x
  storageGone : ∀ id ∈ w.hist.retiredStorage, w.graph.storage.get? id = none
  connLive : ∀ s c spec, ((s, c), spec) ∈ w.hist.conns → s ∉ w.hist.retired → (s, c) ∉ w.hist.closed →
    ∃ conn, w.graph.connection s c = some conn ∧ conn.MadeFor spec
  connGone : ∀ k ∈ w.hist.connIds, k.1 ∈ w.hist.retired ∨ k ∈ w.hist.closed → w.graph.connection k.1 k.2 = none
  once : w.hist.handed.Nodup ∧ w.hist.storage.Nodup ∧ w.hist.connIds.Nodup
  freeNodes : w.graph.nodes.free.Nodup ∧ ∀ id ∈ w.hist.handed, id ∉ w.hist.retired → id.idx ∉ w.graph.nodes.free
  freeStorage : w.graph.storage.free.Nodup ∧ ∀ id ∈ w.hist.storage, id ∉ w.hist.retiredStorage → id.idx ∉ w.graph.storage.free
  freeConns : ∀ s leaf, s ∈ w.hist.handed → w.graph.source s = some leaf →
    leaf.conns.free.Nodup ∧ ∀ c, (s, c) ∈ w.hist.connIds → (s, c) ∉ w.hist.closed → c.idx ∉ leaf.conns.free

omit [Inhabited σ] in
theorem noAlias_of_inv (hi : Inv w.graph w.hist) : NoAlias w := by
  refine ⟨hi.own, fun id hid => hi.nodes.get?_retired hid, fun id hid hlive => hi.storage.exists_get? hid hlive,
    fun id hid => hi.storage.get?_retired hid, hi.made, ?_, hi.unique, ?_, ?_, ?_⟩
  · intro k hk hgone
    rcases hgone with hr | hc
    · cases hleaf : w.graph.source k.1 with
      | none => rw [connection, hleaf, Option.bind_none]
      | some leaf => exact absurd hr (hi.source_live hleaf)
    · exact hi.connection_closed hc
  · exact ⟨hi.nodes.nodup, fun id hid hlive => (hi.nodes.live id hid hlive).2⟩
  · exact ⟨hi.storage.nodup, fun id hid hlive => (hi.storage.live id hid hlive).2⟩
  · intro s leaf hs hleaf
    have htab := hi.tables s leaf hs hleaf
    refine ⟨htab.nodup, ?_⟩
    intro c hc hclosed
    exact (htab.live c.slot (mem_slotsOf.mpr hc) fun hr => hclosed (mem_slotsOf.mp hr)).2

/-- Destroying a connection again changes nothing. -/
theorem step_destroy_closed (hi : Inv w.graph w.hist) {k : NodeId × ConnId} (hk : k ∈ w.hist.closed) (hs : k.1 ∉ w.hist.retired) :
    w.step (.destroy k.1 k.2) = some w := by
  obtain ⟨leaf, hleaf⟩ := hi.exists_source (hi.closed k hk) hs
  obtain ⟨leaf0, hmem⟩ := hi.sources _ (hi.closed k hk)
  have hh := mem_handed hmem
  have htab := hi.tables k.1 leaf hh hleaf
  have hstale : leaf.destroy k.2 = leaf :=
    SourceLeaf.destroy_stale (ConnTable.destroy_stale (htab.get?_retired (mem_slotsOf.mpr hk)) htab.cells)
  have hput : w.graph.putSource k.1 leaf = w.graph := by
    have hn := source_eq_some.mp hleaf
    rw [node, hi.nodes.get?_eq hh hs] at hn
    obtain ⟨hlt, hcell⟩ := List.getElem?_eq_some_iff.mp hn
    rw [putSource, Arena.put, ← hcell, List.set_getElem_self]
  simp only [step, Graph.destroy, hleaf, Option.map_some, hstale, hput, List.insert_of_mem hk]

/-- Destroying a pipeline again is refused. -/
theorem step_destroyed_pipeline (hi : Inv w.graph w.hist) {m : PipelineManifest} {id : NodeId} (hid : id ∈ m.nodes)
    (hr : id ∈ w.hist.retired) : w.step (.destroyPipeline m) = none := by
  have hnone : ∀ ids : List NodeId, id ∈ ids → ids.mapM w.graph.node = none := by
    intro ids
    induction ids with
    | nil => exact fun h => (by cases h)
    | cons i ids ih =>
      intro hmem
      rw [List.mapM_cons]
      rcases List.mem_cons.mp hmem with rfl | hmem
      · rw [node, hi.nodes.get?_retired hr]
        rfl
      · rw [ih hmem]
        cases w.graph.node i <;> rfl
  simp only [step, Graph.destroyPipeline, hnone m.nodes hid]
  rfl

theorem ids_never_alias (hreach : Reach w) (hfew : w.hist.Few) :
    NoAlias w ∧
      (∀ k ∈ w.hist.closed, k.1 ∉ w.hist.retired → w.step (.destroy k.1 k.2) = some w) ∧
      (∀ m id, id ∈ m.nodes → id ∈ w.hist.retired → w.step (.destroyPipeline m) = none) ∧
      ∀ m ∈ w.hist.pipelines, (w.hist.teardown m).Few →
        ((∀ id ∈ m.nodes, id ∉ w.hist.retired) → (∀ id ∈ m.storage, id ∉ w.hist.retiredStorage) →
          (∀ k ∈ w.hist.connsIn m, k.1 ∉ w.hist.retired) → ∃ w', w.step (.destroyPipeline m) = some w') ∧
        ∀ w', w.step (.destroyPipeline m) = some w' → Untouched w.graph w'.graph w.hist m ∧
          ∀ m' ∈ w.hist.pipelines, m' ≠ m → ∀ id ∈ m'.nodes,
            id ∉ m.nodes ∧ (w'.graph.node id).map Operator.core = (w.graph.node id).map Operator.core := by
  have hi := hreach.inv hfew
  refine ⟨noAlias_of_inv hi, fun k hk hs => step_destroy_closed hi hk hs, fun m id hid hr => step_destroyed_pipeline hi hid hr, ?_⟩
  intro m hm hfew'
  refine ⟨?_, ?_⟩
  · intro hnodes hstorage hsources
    obtain ⟨g', hg'⟩ := hi.exists_destroyPipeline hm hfew' hnodes hstorage hsources
    exact ⟨⟨g', w.hist.teardown m⟩, by rw [step, hg']; rfl⟩
  · intro w' hstep
    obtain ⟨g', hg', rfl⟩ := Option.map_eq_some_iff.mp hstep
    obtain ⟨-, -, huntouched⟩ := hi.destroyPipeline hm hfew' hg'
    refine ⟨huntouched, ?_⟩
    intro m' hm' hne id hid
    have hdisj := (hi.recorded.apart (List.mem_append_right _ hm') (List.mem_append_right _ hm) hne).1
    have hno : id ∉ m.nodes := fun hmem => hdisj hid hmem
    exact ⟨hno, huntouched.nodes id ((hi.recorded.named (List.mem_append_right _ hm')).1 id hid) hno⟩

/-- A pipeline on a source is recorded, destroyed, and its slots are taken by a second one: the first
    ids are stale, the second ones of the same slots resolve. -/
theorem ids_never_alias_recycled : ∃ w : World Nat Unit, Reach w ∧ w.hist.Few ∧ NoAlias w ∧
    w.hist.retired = [⟨1, 0⟩] ∧ w.hist.closed = [(⟨0, 0⟩, ⟨0, 0⟩)] ∧ w.hist.connIds = [(⟨0, 0⟩, ⟨0, 1⟩), (⟨0, 0⟩, ⟨0, 0⟩)] ∧
    w.graph.node ⟨1, 0⟩ = none ∧ w.graph.node ⟨1, 1⟩ = some (.sourceConn ⟨0, 0⟩ ⟨0, 1⟩) ∧ w.graph.nodes.free = [] := by
  have h1 : Reach (_ : World Nat Unit) := Reach.new.step (show Op.Fits _ (.addSource 1 [0] [[.int 7]]) from trivial) rfl
  have h2 := h1.step (show Op.Fits _ .beginRecording from trivial) rfl
  have h3 := h2.step (show Op.Fits _ (.connect ⟨0, 0⟩ ⟨none, none, []⟩) from List.mem_cons_self) rfl
  have h4 := h3.step (show Op.Fits _ .takeRecording from trivial) rfl
  have h5 := h4.step (show Op.Fits _ (.destroyPipeline ⟨[⟨1, 0⟩], []⟩) from List.mem_cons_self) rfl
  have h6 := h5.step (show Op.Fits _ (.connect ⟨0, 0⟩ ⟨none, none, []⟩) from List.mem_cons_of_mem _ List.mem_cons_self) rfl
  have hsmall : ∀ {ids : List SlotId}, ids.length < genWrap → Arena.Few genWrap ids := fun hlen i =>
    Nat.lt_of_le_of_lt List.countP_le_length hlen
  have hfew : ∀ {h : History Nat}, h.retired.length < genWrap → h.retiredStorage.length < genWrap → h.closed.length < genWrap →
      h.Few := fun h1 h2 h3 => ⟨hsmall h1, hsmall h2, fun source => hsmall (Nat.lt_of_le_of_lt (List.length_filterMap_le _ _) h3)⟩
  refine ⟨_, h6, ?_, (ids_never_alias h6 ?_).1, rfl, rfl, rfl, rfl, rfl, rfl⟩
  all_goals exact hfew (by decide) (by decide) (by decide)

end World

end Graph

end Rindle
