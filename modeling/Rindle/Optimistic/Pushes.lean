/-
  Rindle.Optimistic.Pushes — what a push does to a source's primary rows, its connections and
  what it sends, for any change whatsoever (`Holding.pushAny`) and for one that meets the primary
  rows (`Holding.pushFits`).

  A local write may carry a stale image and leave the secondary indexes apart from the primary
  one; nothing here needs them to agree.
-/

import Rindle.Optimistic.Rewind
import Rindle.Source.Filtered

namespace Rindle.MemorySource

variable {s s' s'' : MemorySource} {C : SortSpec → Set Row} {change : SourceChange Row} {reads : Reads} {strict : Bool}
  {l : List Row} {live : List ConnId}

/-- A source whose primary index holds `l`, with its ids in use. -/
structure Holding (s : MemorySource) (l : List Row) (live : List ConnId) : Prop where
  ok : ∃ C, s.Ok C
  rows : ∃ t, s.forkPrimary = some t ∧ t.Valid (rowCmp s.primaryIndexSort) ∧ t.rows = l
  posts : s.conns.Posts live

/-! ## The primary index -/

theorem forkPrimary_indexes {more : List Index} {t : BTree Row} (h : s.forkPrimary = some t) (hi : s'.indexes = s.indexes ++ more)
    (hk : s'.primaryKey = s.primaryKey) : s'.forkPrimary = some t := by
  obtain ⟨i, hi0, ht⟩ := Option.map_eq_some_iff.mp h
  unfold forkPrimary index? primaryIndexSort at *
  rw [hi, hk, List.find?_append, hi0, Option.some_or, Option.map_some, ht]

theorem forkPrimary_write (s : MemorySource) (change : SourceChange Row) :
    (s.writeChange change).forkPrimary = s.forkPrimary.map fun t => applySourceChangeToTree (rowCmp s.primaryIndexSort) t change := by
  unfold forkPrimary index?
  show ((s.indexes.map fun i => Index.write i change).find? fun i => i.sort == s.primaryIndexSort).map (·.data) = _
  rw [List.find?_map]
  have hsort : ((fun i : Index => i.sort == s.primaryIndexSort) ∘ fun i => Index.write i change) =
      fun i => i.sort == s.primaryIndexSort := by
    funext i
    simp [Index.write_sort]
  rw [hsort, Option.map_map, Option.map_map]
  cases hf : s.indexes.find? fun i => i.sort == s.primaryIndexSort with
  | none => rfl
  | some i =>
    have his : i.sort = s.primaryIndexSort := by simpa using List.find?_some hf
    simp only [Option.map_some, Function.comp, Option.some.injEq, ← his]
    cases change <;> rfl

/-- Any change written: each index patched by its own sort. -/
theorem Ok.writeAny (h : s.Ok C) (change : SourceChange Row) : ∃ C', (s.writeChange change).Ok C' := by
  classical
  let patched : SortSpec → Set Row := fun sort => {x | change.result = some x ∨ (x ∈ C sort ∧ change.Leaves (rowCmp sort) x)}
  let C' : SortSpec → Set Row := fun sort => if s.Live sort then patched sort else patched s.primaryIndexSort
  have hpatch : (s.writeChange change).Holds C' := h.holds.patch ?_ ?_
  · exact ⟨C', hpatch, h.conns⟩
  · intro sort hs x
    simp only [C', if_pos hs]
    rfl
  · intro sort hs
    simp only [C', if_neg hs, if_pos h.holds.primary]

/-! ## One piece -/

theorem Holding.pushOnceAny (h : s.Holding l live) (hr : s.ReadsLive reads) (change : SourceChange Row) (strict : Bool) :
    ∃ p, s.pushOnce change reads strict = some p ∧ Steady s p.source ∧ ∃ l', p.source.Holding l' live := by
  obtain ⟨⟨C, hok⟩, ⟨t, ht, hv, hl⟩, hp⟩ := h
  cases hc : assertChangeExistenceChecked change s.present strict with
  | error e =>
    refine ⟨_, pushOnce_rejected hc, ⟨rfl, rfl, fun _ c hc => ⟨c, hc, rfl, rfl⟩⟩, l, ⟨C, hok.nextEpoch⟩, ⟨t, ht, hv, hl⟩, hp⟩
  | ok u =>
    obtain ⟨s1, sent, heq, hok1, hvis, -⟩ := hok.pushOnce hr hc
    have hsteady : Steady s s1 := ⟨hvis.key, hvis.gens, hvis.steady.conns⟩
    obtain ⟨more, hmore⟩ := hvis.indexes
    have ht1 : ({ s1 with overlay := none } : MemorySource).forkPrimary = some t := forkPrimary_indexes ht hmore hvis.key
    have hsort : s1.primaryIndexSort = s.primaryIndexSort := by rw [primaryIndexSort, primaryIndexSort, hvis.key]; rfl
    have hok2 : ({ s1 with overlay := none } : MemorySource).Ok C := ⟨hok1.holds.of_indexes rfl rfl, hok1.conns⟩
    have hfork : ({ s1 with overlay := none }.writeChange change).forkPrimary =
        some (applySourceChangeToTree (rowCmp s.primaryIndexSort) t change) := by
      rw [forkPrimary_write, ht1, Option.map_some]
      exact congrArg (fun o => some (applySourceChangeToTree (rowCmp o) t change)) hsort
    refine ⟨_, heq, ⟨hsteady.key, hsteady.gens, hsteady.conns⟩, _, hok2.writeAny change, ⟨_, hfork, ?_, rfl⟩, hvis.posts hp⟩
    show BTree.Valid (rowCmp s1.primaryIndexSort) _
    rw [hsort]
    exact (apply_refines hv change).1

theorem connRows_congr {c c' : Connection} (h : c'.filters = c.filters) (R : Set Row) : connRows c' R = connRows c R := by
  unfold connRows Connection.accepts
  rw [h]

/-- The downstream of a wired connection goes from the connection's rows of `R` to those of `R'`. -/
def Carries (s : MemorySource) (sent : List Delivery) (R R' : Set Row) : Prop :=
  ∀ (slot : Nat) (c : Connection), s.conns.conns[slot]? = some c → c.output = true →
    foldOutput sent slot (connRows c R) = connRows c R'

theorem Carries.append {sent sent' : List Delivery} {R R' R'' : Set Row} (h : s.Carries sent R R') (hs : Steady s s')
    (h' : s'.Carries sent' R' R'') : s.Carries (sent ++ sent') R R'' := by
  intro slot c hc hout
  obtain ⟨c', hc', hf, ho⟩ := hs.conns slot c hc
  have hnext := h' slot c' hc' (ho.trans hout)
  rw [connRows_congr hf, connRows_congr hf] at hnext
  rw [foldOutput, List.filter_append, List.foldl_append]
  exact (congrArg (foldOutput sent' slot) (h slot c hc hout)).trans hnext

/-- The change as the rows' own. -/
theorem valid_of_fits {pk : List Nat} {l : List Row} (hl : SList.Sorted (keyCmp pk) l) {d : SourceChange Row} (hd : d.Fits (keyCmp pk) l) :
    ValidChange pk {r | r ∈ l} d := by
  cases d with
  | add r => exact hd
  | remove r => exact hd
  | edit a b =>
    refine ⟨hd.1, ?_⟩
    intro x hx hne htie
    exact hne (hl.eq_of_cmp hx hd.1 (Std.TransCmp.eq_trans htie (SList.eq_comm.mp hd.2)))

theorem applyChange_rows {pk : List Nat} {l : List Row} (hl : SList.Sorted (keyCmp pk) l) {d : SourceChange Row}
    (hd : d.Fits (keyCmp pk) l) : applyChange {r | r ∈ l} d = {r | r ∈ SList.patch (keyCmp pk) l d} := by
  have hu : KeyUnique pk {r | r ∈ l} := fun a ha b hb hab => hl.eq_of_cmp ha hb hab
  ext x
  rw [← ValidChange.leaves hu (valid_of_fits hl hd) (primarySort_covers pk)]
  exact (SList.mem_patch hl).symm

/-- A change that meets the primary rows is accepted, and its connections are told. -/
theorem Holding.pushOnceFits (h : s.Holding l live) (hr : s.ReadsLive reads) {d : SourceChange Row} (hd : d.Fits (keyCmp s.primaryKey) l)
    (strict : Bool) : ∃ p, s.pushOnce d reads strict = some p ∧ p.result = .ok () ∧ Steady s p.source ∧
      p.source.Holding (SList.patch (keyCmp s.primaryKey) l d) live ∧
        s.Carries p.sent {r | r ∈ l} {r | r ∈ SList.patch (keyCmp s.primaryKey) l d} := by
  obtain ⟨⟨C, hok⟩, ⟨t, ht, hv, rfl⟩, hp⟩ := h
  have hsorted : SList.Sorted (keyCmp s.primaryKey) t.rows := hv.sorted
  have hvalid := valid_of_fits hsorted hd
  have hself : ∀ r : Row, keyCmp s.primaryKey r r = .eq := fun r => Std.ReflCmp.compare_self
  have hpresent : ∀ r, s.present r = true ↔ ∃ x ∈ t.rows, keyCmp s.primaryKey x r = .eq := by
    intro r
    obtain ⟨i, hi, rfl⟩ := Option.map_eq_some_iff.mp ht
    rw [present, hi, Option.any_some, BTree.has_eq hv, Option.isSome_iff_exists]
    constructor
    · intro hx
      obtain ⟨x, hx⟩ := hx
      exact ⟨x, SList.find_some hx⟩
    · intro hx
      obtain ⟨x, hx, hk⟩ := hx
      exact ⟨x, (SList.find_eq_some hv.sorted).mpr ⟨hx, hk⟩⟩
  have hc : assertChangeExistenceChecked d s.present strict = .ok () := by
    cases d with
    | add r =>
      have : s.present r = false := by
        rw [Bool.eq_false_iff, Ne, hpresent]
        intro hx
        obtain ⟨x, hx, hk⟩ := hx
        exact hd x hx hk
      simp [assertChangeExistenceChecked, this]
    | remove r =>
      have : s.present r = true := (hpresent r).mpr ⟨r, hd, hself r⟩
      simp [assertChangeExistenceChecked, this]
    | edit a b =>
      have : s.present a = true := (hpresent a).mpr ⟨a, hd.1, hself a⟩
      simp [assertChangeExistenceChecked, this]
  obtain ⟨s1, sent, hfan, hok1, hvis, -, hsent⟩ := Ok.fanOut d s.nextEpoch.epoch _ hok.nextEpoch hr
    (PushIndex.pushCandidates_below hok.conns.index d)
  have hpush : s.pushOnce d reads strict = some ⟨{ s1 with overlay := none }.writeChange d, sent, .ok ()⟩ := by
    have hc' : assertChangeExistenceChecked d s.nextEpoch.present strict = .ok () := hc
    simp only [MemorySource.pushOnce, tryGenPushAndWrite, hc']
    rw [show MemorySource.fanOut d s.nextEpoch.epoch reads (s.nextEpoch.conns.index.pushCandidates d) s.nextEpoch = some (s1, sent)
      from hfan]
    rfl
  obtain ⟨p, hp', hsteady, l', hold⟩ := Holding.pushOnceAny ⟨⟨C, hok⟩, ⟨t, ht, hv, rfl⟩, hp⟩ hr d strict
  obtain rfl := Option.some.inj (hpush.symm.trans hp')
  refine ⟨_, hpush, rfl, hsteady, ?_, ?_⟩
  · obtain ⟨u, hu, huv, rfl⟩ := hold.rows
    refine ⟨hold.ok, ⟨u, hu, huv, ?_⟩, hold.posts⟩
    obtain ⟨more, hmore⟩ := hvis.indexes
    have ht1 : ({ s1 with overlay := none } : MemorySource).forkPrimary = some t := forkPrimary_indexes ht hmore hvis.key
    rw [forkPrimary_write, ht1, Option.map_some] at hu
    have hsort : s1.primaryIndexSort = s.primaryIndexSort := by rw [primaryIndexSort, primaryIndexSort, hvis.key]; rfl
    have hu' : applySourceChangeToTree (rowCmp s1.primaryIndexSort) t d = u := Option.some.inj hu
    rw [← hu', hsort]
    exact (apply_refines hv d).2
  · intro slot c hc hout
    rw [hsent]
    show foldOutput (s.deliveries d (s.conns.index.pushCandidates d)) slot _ = _
    rw [foldOutput_received, Posts.received hp d hc hout, ← applyChange_rows hsorted hd]
    cases hf : filterPush d (c.filters.map fun f => f.predicate) with
    | none => exact (filterPush_none hf).symm
    | some δ => exact (filterPush_some hvalid hf).2

/-! ## A push -/

theorem Holding.pushAny (h : s.Holding l live) (hr : s.ReadsLive reads) (change : SourceChange Row) (strict : Bool) :
    ∃ p, s.tryPush change reads strict = some p ∧ Steady s p.source ∧ ∃ l', p.source.Holding l' live := by
  have hwhole := h.pushOnceAny hr change strict
  cases change with
  | add r => exact hwhole
  | remove r => exact hwhole
  | edit old row =>
    unfold MemorySource.tryPush
    by_cases hsplit : s.conns.shouldSplitEdit row old = true
    · simp only [hsplit, if_true]
      obtain ⟨p, hp, hsp, l1, hold⟩ := h.pushOnceAny hr (.remove old) strict
      cases hres : p.result with
      | error e => exact ⟨{ p with result := .error e }, by simp [hp, hres], hsp, l1, hold⟩
      | ok u =>
        obtain ⟨q, hq, hsq, l2, hold'⟩ := hold.pushOnceAny (hsp.readsLive hr) (.add row) strict
        exact ⟨{ q with sent := p.sent ++ q.sent }, by simp [hp, hres, hq], hsp.trans hsq, l2, hold'⟩
    · simp only [hsplit, Bool.false_eq_true, if_false]
      exact hwhole

theorem Holding.pushFits (h : s.Holding l live) (hr : s.ReadsLive reads) {d : SourceChange Row} (hd : d.Fits (keyCmp s.primaryKey) l)
    (strict : Bool) : ∃ p, s.tryPush d reads strict = some p ∧ p.result = .ok () ∧ Steady s p.source ∧
      p.source.Holding (SList.patch (keyCmp s.primaryKey) l d) live ∧
        s.Carries p.sent {r | r ∈ l} {r | r ∈ SList.patch (keyCmp s.primaryKey) l d} := by
  have hwhole := h.pushOnceFits hr hd strict
  cases d with
  | add r => exact hwhole
  | remove r => exact hwhole
  | edit old row =>
    unfold MemorySource.tryPush
    by_cases hsplit : s.conns.shouldSplitEdit row old = true
    · simp only [hsplit, if_true]
      obtain ⟨t, ht, hv, hl⟩ := h.rows
      have hsorted : SList.Sorted (keyCmp s.primaryKey) l := hl ▸ hv.sorted
      obtain ⟨p, hp, hres, hsp, hold, hcar⟩ := h.pushOnceFits hr (d := .remove old) hd.1 strict
      -- the removal took the only row under the key
      have hadd : (SList.Delta.add row).Fits (keyCmp p.source.primaryKey) (SList.patch (keyCmp s.primaryKey) l (.remove old)) := by
        rw [hsp.key]
        intro x hx htie
        obtain ⟨hx, hne⟩ := (SList.mem_patch hsorted).mp hx |>.resolve_left (by simp [SList.Delta.result])
        exact hne (Std.TransCmp.eq_trans htie (SList.eq_comm.mp hd.2))
      obtain ⟨q, hq, hres', hsq, hold', hcar'⟩ := hold.pushOnceFits (hsp.readsLive hr) hadd strict
      rw [hsp.key] at hold' hcar'
      exact ⟨{ q with sent := p.sent ++ q.sent }, by simp [hp, hres, hq], hres', hsp.trans hsq, hold', hcar.append hsp hcar'⟩
    · simp only [hsplit, Bool.false_eq_true, if_false]
      exact hwhole

/-- A fetch adds an index at most. -/
theorem Holding.fetch (h : s.Holding l live) {id : ConnId} (hid : (s.conns.liveIx id).isSome = true) (req : FetchRequest) :
    ∃ rows s', s.fetch id req = some (rows, s') ∧ Grown s s' ∧ s'.Holding l live := by
  obtain ⟨⟨C, hok⟩, ⟨t, ht, hv, hl⟩, hp⟩ := h
  obtain ⟨conn, rows, s', -, -, hfetch, hok', hg, -, -⟩ := hok.fetch hid req
  refine ⟨rows, s', hfetch, hg, ⟨C, hok'⟩, ?_, ?_⟩
  · obtain ⟨more, rfl⟩ := hg
    exact ⟨t, forkPrimary_indexes ht rfl rfl, hv, hl⟩
  · obtain ⟨more, rfl⟩ := hg
    exact hp

end Rindle.MemorySource
