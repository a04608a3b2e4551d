/-
  Rindle.Optimistic.Exact — what a rewind leaves behind, after any run.

  A run registers sources and tables, forgets tables, makes local writes of any kind, wires
  and unwires connections and rewinds, in any order (`Reach`). In every database it reaches:

  - `rewind_exact`: a rewind does not panic. With deltas for an untracked table it returns the
    error and nothing has changed. Otherwise it fails only with an error downstream parked,
    and when it returns, each tracked table's live rows are the rows synced before with its
    deltas folded in, the live tree is the new `sync`, and what each wired connection was sent
    takes its downstream from the old live rows to the new.

  Rows are compared as the diff compares them: two images of a row whose cells are all equal
  as values (`rowSame`) count as one, and the live tree keeps the image it has.
-/

import Rindle.Optimistic.Pushes

set_option linter.dupNamespace false

namespace Rindle.Optimistic

open MemorySource

variable {w w' w'' : Db} {held : NodeId → List ConnId} {d : Downstream} {id : NodeId} {s s' : MemorySource} {strict : Bool}

namespace Db

/-! ## Pushes on a database -/

/-- Every source holds some rows, with its ids in use. -/
def Sound (w : Db) (held : NodeId → List ConnId) : Prop := ∀ id s, w.sources id = some s → ∃ l, s.Holding l (held id)

/-- Downstream fetches from connections that are there. -/
structure Live (d : Downstream) (w : Db) : Prop where
  reads : ∀ id s, w.sources id = some s → s.ReadsLive (d.reads id)
  elsewhere : ∀ id, ∀ r ∈ d.elsewhere id, r.1 ≠ id ∧ ∃ s, w.sources r.1 = some s ∧ (s.conns.liveIx r.2.1).isSome = true

/-- What work on some sources leaves: the others get an index at most, connections stay as they are. -/
structure Moved (ids : List NodeId) (w w' : Db) : Prop where
  steady : ∀ i s, w.sources i = some s → ∃ s', w'.sources i = some s' ∧ Steady s s'
  others : ∀ i, i ∉ ids → ∀ s, w.sources i = some s → ∃ s', w'.sources i = some s' ∧ Grown s s'
  absent : ∀ i, w.sources i = none → w'.sources i = none

theorem Moved.refl (ids : List NodeId) (w : Db) : Moved ids w w :=
  ⟨fun _ s hs => ⟨s, hs, Steady.refl s⟩, fun _ _ s hs => ⟨s, hs, Grown.refl s⟩, fun _ h => h⟩

theorem Moved.trans {ids more : List NodeId} (h : Moved ids w w') (h' : Moved more w' w'') : Moved (ids ++ more) w w'' := by
  refine ⟨?_, ?_, fun i hi => h'.absent i (h.absent i hi)⟩
  · intro i s hs
    obtain ⟨s1, hs1, h1⟩ := h.steady i s hs
    obtain ⟨s2, hs2, h2⟩ := h'.steady i s1 hs1
    exact ⟨s2, hs2, h1.trans h2⟩
  · intro i hi s hs
    rw [List.mem_append, not_or] at hi
    obtain ⟨s1, hs1, h1⟩ := h.others i hi.1 s hs
    obtain ⟨s2, hs2, h2⟩ := h'.others i hi.2 s1 hs1
    exact ⟨s2, hs2, h1.trans h2⟩

theorem Moved.mono {ids more : List NodeId} (h : Moved ids w w') (hsub : ∀ i ∈ ids, i ∈ more) : Moved more w w' :=
  ⟨h.steady, fun i hi s hs => h.others i (fun hmem => hi (hsub i hmem)) s hs, h.absent⟩

theorem Moved.live {ids : List NodeId} (h : Moved ids w w') (hl : Live d w) : Live d w' := by
  refine ⟨?_, ?_⟩
  · intro id s' hs'
    cases hs : w.sources id with
    | none =>
      rw [h.absent id hs] at hs'
      cases hs'
    | some s =>
      obtain ⟨s1, hs1, hst⟩ := h.steady id s hs
      obtain rfl := Option.some.inj (hs1.symm.trans hs')
      exact hst.readsLive (hl.reads id s hs)
  · intro id r hr
    obtain ⟨hne, s, hs, hix⟩ := hl.elsewhere id r hr
    obtain ⟨s1, hs1, hst⟩ := h.steady r.1 s hs
    exact ⟨hne, s1, hs1, by rw [liveIx_congr hst.gens]; exact hix⟩

theorem put_self (w : Db) (id : NodeId) (s : MemorySource) : (w.put id s).sources id = some s := Function.update_self ..

theorem put_ne (w : Db) {id i : NodeId} (h : i ≠ id) (s : MemorySource) : (w.put id s).sources i = w.sources i :=
  Function.update_of_ne h ..

theorem Moved.put (hs : w.sources id = some s) (hst : Steady s s') : Moved [id] w (w.put id s') := by
  refine ⟨?_, ?_, ?_⟩
  · intro i t ht
    by_cases hi : i = id
    · subst hi
      obtain rfl := Option.some.inj (hs.symm.trans ht)
      exact ⟨s', put_self w i s', hst⟩
    · exact ⟨t, by rw [put_ne w hi, ht], Steady.refl t⟩
  · intro i hi t ht
    exact ⟨t, by rw [put_ne w (by simpa using hi), ht], Grown.refl t⟩
  · intro i hi
    by_cases hid : i = id
    · subst hid
      rw [hs] at hi
      cases hi
    · rw [put_ne w hid, hi]

theorem Sound.put (h : w.Sound held) {l : List Row} (hold : s'.Holding l (held id)) : (w.put id s').Sound held := by
  intro i t ht
  by_cases hi : i = id
  · subst hi
    rw [put_self] at ht
    obtain rfl := Option.some.inj ht
    exact ⟨l, hold⟩
  · rw [put_ne w hi] at ht
    exact h i t ht

/-- Fetches from sources other than `id`. -/
theorem fetchAll (rs : List (NodeId × ConnId × FetchRequest)) : ∀ {w : Db}, w.Sound held →
    (∀ r ∈ rs, r.1 ≠ id ∧ ∃ s, w.sources r.1 = some s ∧ (s.conns.liveIx r.2.1).isSome = true) →
      ∃ w', rs.foldlM fetchFrom w = some w' ∧ w'.Sound held ∧ Moved [] w w' ∧ w'.tables = w.tables ∧ w'.sources id = w.sources id := by
  induction rs with
  | nil => exact fun {w} h _ => ⟨w, rfl, h, Moved.refl [] w, rfl, rfl⟩
  | cons r rs ih =>
    intro w h hrs
    obtain ⟨hne, s, hs, hix⟩ := hrs r List.mem_cons_self
    obtain ⟨l, hold⟩ := h r.1 s hs
    obtain ⟨rows, s1, hfetch, hg, hold1⟩ := hold.fetch hix r.2.2
    have hmoved : Moved [] w (w.put r.1 s1) := by
      have hput := Moved.put hs hg.steady
      refine ⟨hput.steady, ?_, hput.absent⟩
      intro i _ t ht
      by_cases hi : i = r.1
      · subst hi
        obtain rfl := Option.some.inj (hs.symm.trans ht)
        exact ⟨s1, put_self w _ s1, hg⟩
      · exact ⟨t, by rw [put_ne w hi, ht], Grown.refl t⟩
    have hrest : ∀ q ∈ rs, q.1 ≠ id ∧ ∃ s, (w.put r.1 s1).sources q.1 = some s ∧ (s.conns.liveIx q.2.1).isSome = true := by
      intro q hq
      obtain ⟨hqne, t, ht, hqix⟩ := hrs q (List.mem_cons_of_mem _ hq)
      obtain ⟨t', ht', hst⟩ := hmoved.steady q.1 t ht
      exact ⟨hqne, t', ht', by rw [liveIx_congr hst.gens]; exact hqix⟩
    obtain ⟨w', hfold, hsound, hm, htab, hid⟩ := ih (h.put hold1) hrest
    refine ⟨w', ?_, hsound, hmoved.trans hm, htab, ?_⟩
    · rw [List.foldlM_cons, fetchFrom, hs]
      simp only [Option.bind_eq_bind, Option.bind_some, hfetch]
      exact hfold
    · rw [hid, put_ne w (Ne.symm hne)]

/-- The result of a push the source accepted. -/
def faulted (d : Downstream) : Except RindleError Unit :=
  match d.fault with
  | some e => .error e
  | none => .ok ()

theorem pushAny (h : w.Sound held) (hl : Live d w) (hs : w.sources id = some s) (change : SourceChange Row) :
    ∃ o, trySourcePush strict d w id change = some o ∧ o.db.Sound held ∧ Moved [id] w o.db ∧ o.db.tables = w.tables := by
  obtain ⟨l, hold⟩ := h id s hs
  obtain ⟨p, hp, hst, l', hold'⟩ := hold.pushAny (hl.reads id s hs) change strict
  have hmoved := Moved.put hs hst
  have hl' := hmoved.live hl
  obtain ⟨w', hw', hsound, hm, htab, -⟩ := @fetchAll held id (d.elsewhere id) _ (h.put hold') (hl'.elsewhere id)
  have hboth : Moved [id] w w' := hmoved.trans hm
  simp only [trySourcePush, hs, Option.bind_eq_bind, Option.bind_some, hp, hw']
  split
  · exact ⟨_, rfl, hsound, hboth, htab⟩
  · exact ⟨_, rfl, hsound, hboth, htab⟩
  · exact ⟨_, rfl, hsound, hboth, htab⟩

/-- A push of a change that meets the primary rows. -/
theorem pushFits (h : w.Sound held) (hl : Live d w) (hs : w.sources id = some s) {l : List Row} (hold : s.Holding l (held id))
    {c : SourceChange Row} (hc : c.Fits (keyCmp s.primaryKey) l) :
    ∃ o s', trySourcePush strict d w id c = some o ∧ o.db.Sound held ∧ Moved [id] w o.db ∧ o.db.tables = w.tables ∧
      o.db.sources id = some s' ∧ Steady s s' ∧ s'.Holding (SList.patch (keyCmp s.primaryKey) l c) (held id) ∧ o.result = faulted d ∧
        s.Carries o.sent {r | r ∈ l} {r | r ∈ SList.patch (keyCmp s.primaryKey) l c} := by
  obtain ⟨p, hp, hres, hst, hold', hcar⟩ := hold.pushFits (hl.reads id s hs) hc strict
  have hmoved := Moved.put hs hst
  have hl' := hmoved.live hl
  obtain ⟨w', hw', hsound, hm, htab, hid⟩ := @fetchAll held id (d.elsewhere id) _ (h.put hold') (hl'.elsewhere id)
  refine ⟨⟨w', p.sent, faulted d⟩, p.source, ?_, hsound, hmoved.trans hm, htab, by rw [hid, put_self], hst, hold', rfl, hcar⟩
  simp only [trySourcePush, hs, Option.bind_eq_bind, Option.bind_some, hp, hw', hres, faulted]
  cases d.fault with
  | none => rfl
  | some e => rfl

/-- A script with distinct keys that meets the primary rows, pushed change by change. -/
theorem pushScript {d : Nat → Downstream} (D : List (SourceChange Row)) : ∀ {w : Db} {s : MemorySource} {l : List Row}, w.Sound held →
    (∀ n, Live (d n) w) → w.sources id = some s → s.Holding l (held id) → SList.Sorted (keyCmp s.primaryKey) l →
      (∀ e ∈ D, e.Fits (keyCmp s.primaryKey) l ∧ e.Keyed (keyCmp s.primaryKey)) →
        (D.Pairwise fun a b => keyCmp s.primaryKey b.key a.key = .lt) →
          ∃ o, pushAll strict d id w D = some o ∧ o.db.Sound held ∧ Moved [id] w o.db ∧ o.db.tables = w.tables ∧
            ((∀ n, (d n).fault = none) → o.result = .ok ()) ∧
              (o.result = .ok () → ∃ s', o.db.sources id = some s' ∧ Steady s s' ∧
                s'.Holding (D.foldl (SList.patch (keyCmp s.primaryKey)) l) (held id) ∧
                  s.Carries o.sent {r | r ∈ l} {r | r ∈ D.foldl (SList.patch (keyCmp s.primaryKey)) l}) := by
  induction D with
  | nil =>
    intro w s l h _ hs hold _ _ _
    exact ⟨_, rfl, h, Moved.refl [id] w, rfl, fun _ => rfl, fun _ => ⟨s, hs, Steady.refl s, hold, fun _ _ _ _ => rfl⟩⟩
  | cons c D ih =>
    intro w s l h hl hs hold hsorted hfits hpair
    obtain ⟨hc, hkeyed⟩ := hfits c List.mem_cons_self
    obtain ⟨hhead, htail⟩ := List.pairwise_cons.mp hpair
    obtain ⟨o, s1, ho, hsound, hm, htab, hs1, hst, hold1, hres, hcar⟩ := @pushFits w held (d D.length) id s strict h (hl D.length) hs l hold c hc
    cases hfault : (d D.length).fault with
    | some e =>
      have hr : o.result = .error e := by rw [hres, faulted, hfault]
      refine ⟨⟨o.db, o.sent, .error e⟩, by simp [pushAll, ho, hr], hsound, hm, htab, ?_, ?_⟩
      · intro hnone
        rw [hnone] at hfault
        cases hfault
      · intro hok
        cases hok
    | none =>
      have hr : o.result = .ok () := by rw [hres, faulted, hfault]
      have hkey := hst.key
      have hsorted1 : SList.Sorted (keyCmp s1.primaryKey) (SList.patch (keyCmp s.primaryKey) l c) := by
        rw [hkey]
        exact SList.sorted_patch hsorted c
      have hrest : ∀ e ∈ D, e.Fits (keyCmp s1.primaryKey) (SList.patch (keyCmp s.primaryKey) l c) ∧ e.Keyed (keyCmp s1.primaryKey) := by
        intro e he
        rw [hkey]
        have hlt := hhead e he
        have hne : keyCmp s.primaryKey c.key e.key ≠ .eq := by
          intro heq
          rw [SList.eq_comm.mp heq] at hlt
          cases hlt
        obtain ⟨hf, hk⟩ := hfits e (List.mem_cons_of_mem _ he)
        exact ⟨hf.patch hsorted hkeyed hne, hk⟩
      obtain ⟨o', ho', hsound', hm', htab', hfree, hdone⟩ :=
        ih hsound (fun n => hm.live (hl n)) hs1 hold1 hsorted1 hrest (by rw [hkey]; exact htail)
      refine ⟨⟨o'.db, o.sent ++ o'.sent, o'.result⟩, by simp [pushAll, ho, hr, ho'], hsound', (hm.trans hm').mono (by simp),
        htab'.trans htab, hfree, ?_⟩
      intro hok
      obtain ⟨s2, hs2, hst2, hold2, hcar2⟩ := hdone hok
      rw [hkey] at hold2 hcar2
      exact ⟨s2, hs2, hst.trans hst2, hold2, hcar.append hst hcar2⟩

/-! ## One table -/

theorem rowSame_refl (a : Row) : rowSame a a = true := by
  simp only [rowSame, beq_self_eq_true, Bool.true_and, List.all_eq_true]
  intro p hp
  obtain ⟨i, hi, rfl⟩ := List.getElem_of_mem hp
  rw [List.getElem_zip, beq_iff_eq]
  exact Std.ReflCmp.compare_self

/-- The sources and the tracked tables of a database. -/
structure Ok (w : Db) (held : NodeId → List ConnId) : Prop where
  sound : w.Sound held
  names : (w.tables.map (·.1)).Nodup
  owners : (w.tables.map (·.2.source)).Nodup
  tables : ∀ t ∈ w.tables, ∃ s, w.sources t.2.source = some s ∧ t.2.sort = s.primaryIndexSort ∧ t.2.sync.Valid (rowCmp t.2.sort)

/-- What a source sent, among all that was sent. -/
def sentBy (source : NodeId) (sent : List (NodeId × Delivery)) : List Delivery := (sent.filter fun e => e.1 == source).map (·.2)

/-- The rows of a table as the server has them: the ones synced before, with the deltas folded in. -/
def serverRows (deltas : Deltas) (t : Table) : List Row := (deltas.of t.1).foldl (SList.patch (rowCmp t.2.sort)) t.2.sync.rows

/-- A table rewound from `w` to `w'`. The live rows are the server's, image by image unless a row was there in
    another image of the same value; the live tree is the new `sync`; each wired connection's downstream went
    from the old live rows to the new. -/
structure Settled (deltas : Deltas) (w w' : Db) (sent : List Delivery) (t : Table) (s : MemorySource) (head live : BTree Row) : Prop where
  before : w.sources t.2.source = some s ∧ s.forkPrimary = some head
  after : ∃ s', w'.sources t.2.source = some s' ∧ s'.forkPrimary = some live
  synced : (t.1, { t.2 with sync := live }) ∈ w'.tables
  rows : List.Forall₂ (fun x y => rowCmp t.2.sort x y = .eq ∧ rowSame x y = true) live.rows (serverRows deltas t)
  exact : (∀ a ∈ head.rows, ∀ b ∈ serverRows deltas t, rowSame a b = true → a = b) → live.rows = serverRows deltas t
  carried : s.Carries sent {r | r ∈ head.rows} {r | r ∈ live.rows}

theorem forkPrimary_grown (h : Grown s s') {t : BTree Row} (ht : s.forkPrimary = some t) : s'.forkPrimary = some t := by
  obtain ⟨more, rfl⟩ := h
  exact forkPrimary_indexes ht rfl rfl

theorem primarySort_congr (h : s'.primaryKey = s.primaryKey) : s'.primaryIndexSort = s.primaryIndexSort := by
  rw [primaryIndexSort, primaryIndexSort, h]

/-- Work that leaves the entries alone keeps a database sound. -/
theorem Ok.moved {ids : List NodeId} (h : w.Ok held) (hm : Moved ids w w') (hs : w'.Sound held) (htab : w'.tables = w.tables) : w'.Ok held := by
  refine ⟨hs, htab ▸ h.names, htab ▸ h.owners, ?_⟩
  intro t ht
  obtain ⟨s, hs, hsort, hv⟩ := h.tables t (htab ▸ ht)
  obtain ⟨s', hs', hst⟩ := hm.steady _ s hs
  exact ⟨s', hs', hsort.trans (primarySort_congr hst.key).symm, hv⟩

theorem setSync_map {β : Type} (w : Db) (table : String) (sync : BTree Row) (f : Table → β)
    (hf : ∀ t : Table, f (t.1, { t.2 with sync }) = f t) : (w.setSync table sync).tables.map f = w.tables.map f := by
  simp only [setSync, List.map_map]
  refine List.map_congr_left ?_
  intro t _
  simp only [Function.comp]
  split
  · exact hf t
  · rfl

theorem Ok.setSync (h : w.Ok held) {t : Table} (ht : t ∈ w.tables) {sync : BTree Row} (hv : sync.Valid (rowCmp t.2.sort)) :
    (w.setSync t.1 sync).Ok held := by
  refine ⟨h.sound, ?_, ?_, ?_⟩
  · rw [setSync_map w t.1 sync (·.1) fun _ => rfl]
    exact h.names
  · rw [setSync_map w t.1 sync (·.2.source) fun _ => rfl]
    exact h.owners
  · intro u hu
    obtain ⟨u0, hu0, rfl⟩ := List.mem_map.mp hu
    obtain ⟨s, hs, hsort, hvu⟩ := h.tables u0 hu0
    by_cases hn : u0.1 = t.1
    · -- the names are distinct, so this is the table itself
      have hut : u0 = t := List.inj_on_of_nodup_map h.names hu0 ht hn
      subst hut
      rw [if_pos rfl]
      exact ⟨s, hs, hsort, hv⟩
    · rw [if_neg hn]
      exact ⟨s, hs, hsort, hvu⟩

/-- One table's rewind. -/
theorem rewindTable_spec {d : Nat → Downstream} (h : w.Ok held) (hl : ∀ n, Live (d n) w) {t : Table} (ht : t ∈ w.tables)
    (ident : Identity Row) (deltas : Deltas) :
    ∃ o, rewindTable strict d ident deltas w t = some o ∧ o.db.Ok held ∧ Moved [t.2.source] w o.db ∧
      (∀ u ∈ w.tables, u.1 ≠ t.1 → u ∈ o.db.tables) ∧
        (o.db.tables.map fun u => (u.1, u.2.source)) = (w.tables.map fun u => (u.1, u.2.source)) ∧
          ((∀ n, (d n).fault = none) → o.result = .ok ()) ∧
            (o.result = .ok () → ∃ s head live, Settled deltas w o.db o.sent t s head live) := by
  obtain ⟨s, hs, hsort, hv⟩ := h.tables t ht
  obtain ⟨l, hold⟩ := h.sound _ s hs
  obtain ⟨head, hhead, hheadv, rfl⟩ := hold.rows
  obtain ⟨hnextv, hnext⟩ := applies_refine (deltas.of t.1) hv
  have hkey : rowCmp t.2.sort = keyCmp s.primaryKey := by rw [hsort]; rfl
  have hheadv' : head.Valid (rowCmp t.2.sort) := by rw [hsort]; exact hheadv
  have hdiff : structuralDiff (rowCmp t.2.sort) rowSame ident (walkLength head + walkLength (rebased deltas t) + 1) head (rebased deltas t) =
      some (SList.diff (rowCmp t.2.sort) rowSame head.rows.reverse (serverRows deltas t).reverse) := by
    rw [serverRows, ← hnext]
    exact diffVisit_eq rowSame_refl hheadv' hnextv (some ident) (Nat.lt_succ_self _)
  have hserver : SList.Sorted (rowCmp t.2.sort) (serverRows deltas t) := SList.sorted_patches hv.sorted _
  have hfits : ∀ e ∈ SList.diff (rowCmp t.2.sort) rowSame head.rows.reverse (serverRows deltas t).reverse,
      e.Fits (keyCmp s.primaryKey) head.rows ∧ e.Keyed (keyCmp s.primaryKey) := by
    intro e he
    rw [← hkey]
    exact SList.fits_of_diff hheadv'.sorted hserver he
  have hdesc : (SList.diff (rowCmp t.2.sort) rowSame head.rows.reverse (serverRows deltas t).reverse).Pairwise
      fun a b => keyCmp s.primaryKey b.key a.key = .lt := by
    rw [← hkey]
    exact SList.diff_desc _ _ (SList.desc_reverse.mpr hheadv'.sorted) (SList.desc_reverse.mpr hserver)
  have hpushed := @pushScript held t.2.source strict d _ w s head.rows h.sound hl hs hold hheadv.sorted hfits hdesc
  obtain ⟨o, ho, hsound, hm, htab, hfree, hdone⟩ := hpushed
  have hok := h.moved hm hsound htab
  have hkept : ∀ u ∈ w.tables, u.1 ≠ t.1 → u ∈ o.db.tables := fun u hu _ => htab ▸ hu
  cases hres : o.result with
  | error e =>
    refine ⟨⟨o.db, o.sent, .error e⟩, by simp [rewindTable, hs, hhead, hdiff, ho, hres], hok, hm, hkept, by rw [htab], ?_, ?_⟩
    · intro hnone
      have := hfree hnone
      rw [hres] at this
      cases this
    · intro hok
      cases hok
  | ok u =>
    obtain ⟨s', hs', hst, hold', hcar⟩ := hdone hres
    obtain ⟨live, hlive, hlivev, hrows⟩ := hold'.rows
    have hlivev' : live.Valid (rowCmp t.2.sort) := by rw [hsort, ← primarySort_congr hst.key]; exact hlivev
    have ht' : t ∈ o.db.tables := htab ▸ ht
    rw [← hkey] at hrows hcar
    refine ⟨⟨o.db.setSync t.1 live, o.sent, .ok ()⟩, by simp [rewindTable, hs, hhead, hdiff, ho, hres, hs', hlive],
      hok.setSync ht' hlivev', ⟨hm.steady, hm.others, hm.absent⟩, ?_, ?_, fun _ => rfl, ?_⟩
    · intro u hu hne
      exact List.mem_map.mpr ⟨u, hkept u hu hne, if_neg hne⟩
    · rw [setSync_map o.db t.1 live _ fun _ => rfl, htab]
    · intro _
      refine ⟨s, head, live, ⟨hs, hhead⟩, ⟨s', hs', hlive⟩, List.mem_map.mpr ⟨t, ht', if_pos rfl⟩, ?_, ?_, ?_⟩
      · rw [hrows]
        exact SList.patch_diff rowSame_refl hheadv'.sorted hserver
      · intro heq
        rw [hrows]
        exact SList.patch_diff_eq rowSame_refl hheadv'.sorted hserver heq
      · rw [hrows]
        exact hcar

/-! ## All tables -/

theorem Settled.from {ids : List NodeId} {deltas : Deltas} {sent : List Delivery} {t : Table} {head live : BTree Row}
    (h : Settled deltas w' w'' sent t s' head live) (hm : Moved ids w w') (hs : w.sources t.2.source = some s) (ht : t.2.source ∉ ids)
    (hhead : s.forkPrimary.isSome = true) : Settled deltas w w'' sent t s head live := by
  obtain ⟨s1, hs1, hg⟩ := hm.others _ ht s hs
  obtain rfl := Option.some.inj (hs1.symm.trans h.before.1)
  obtain ⟨u, hu⟩ := Option.isSome_iff_exists.mp hhead
  have hfork : s.forkPrimary = some head := by
    rw [hu, ← h.before.2, forkPrimary_grown hg hu]
  refine ⟨⟨hs, hfork⟩, h.after, h.synced, h.rows, h.exact, ?_⟩
  obtain ⟨more, rfl⟩ := hg
  exact h.carried

theorem Settled.to {ids : List NodeId} {deltas : Deltas} {sent : List Delivery} {t : Table} {head live : BTree Row}
    (h : Settled deltas w w' sent t s head live) (hm : Moved ids w' w'') (ht : t.2.source ∉ ids)
    (hsync : (t.1, { t.2 with sync := live }) ∈ w''.tables) : Settled deltas w w'' sent t s head live := by
  obtain ⟨s1, hs1, hlive⟩ := h.after
  obtain ⟨s2, hs2, hg⟩ := hm.others _ ht s1 hs1
  exact ⟨h.before, ⟨s2, hs2, forkPrimary_grown hg hlive⟩, hsync, h.rows, h.exact, h.carried⟩

theorem sentBy_append (source : NodeId) (a b : List (NodeId × Delivery)) : sentBy source (a ++ b) = sentBy source a ++ sentBy source b := by
  simp [sentBy]

theorem sentBy_self (source : NodeId) (sent : List Delivery) : sentBy source (sent.map fun s => (source, s)) = sent := by
  simp [sentBy, List.filter_map, Function.comp_def]

theorem sentBy_other {source other : NodeId} (h : other ≠ source) (sent : List Delivery) :
    sentBy source (sent.map fun s => (other, s)) = [] := by
  simp [sentBy, List.filter_map, Function.comp_def, h]

/-- The loop over the tables, each on a source of its own. -/
theorem rewindTables_spec {d : String → Nat → Downstream} (ident : String → Identity Row) (deltas : Deltas) (ts : List Table) :
    ∀ {w : Db}, w.Ok held → (∀ t n, Live (d t n) w) → (∀ t ∈ ts, t ∈ w.tables) → (ts.map (·.1)).Nodup → (ts.map (·.2.source)).Nodup →
      ∃ r, rewindTables strict d ident deltas w ts = some r ∧ r.db.Ok held ∧ Moved (ts.map (·.2.source)) w r.db ∧
        (∀ u ∈ w.tables, u.1 ∉ ts.map (·.1) → u ∈ r.db.tables) ∧ (∀ source, source ∉ ts.map (·.2.source) → sentBy source r.sent = []) ∧
          ((∀ t n, (d t n).fault = none) → r.result = .ok ()) ∧
            (r.result = .ok () → ∀ t ∈ ts, ∃ s head live, Settled deltas w r.db (sentBy t.2.source r.sent) t s head live) := by
  induction ts with
  | nil =>
    intro w h _ _ _ _
    exact ⟨_, rfl, h, Moved.refl _ w, fun u hu _ => hu, fun _ _ => rfl, fun _ => rfl, fun _ t ht => (by cases ht)⟩
  | cons t ts ih =>
    intro w h hl hts hnames howners
    rw [List.map_cons, List.nodup_cons] at hnames howners
    have ht := hts t List.mem_cons_self
    obtain ⟨o, ho, hok, hm, hkept, -, hfree, hdone⟩ := @rewindTable_spec w held strict (d t.1) h (hl t.1) t ht (ident t.1) deltas
    cases hres : o.result with
    | error e =>
      refine ⟨⟨o.db, o.sent.map fun s => (t.2.source, s), .error e⟩, by simp [rewindTables, ho, hres], hok, hm.mono (by simp), ?_, ?_, ?_, ?_⟩
      · intro u hu hno
        rw [List.map_cons, List.mem_cons, not_or] at hno
        exact hkept u hu hno.1
      · intro source hno
        rw [List.map_cons, List.mem_cons, not_or] at hno
        exact sentBy_other (Ne.symm hno.1) o.sent
      · intro hnone
        have hok := hfree fun n => hnone t.1 n
        rw [hres] at hok
        cases hok
      · intro hok
        cases hok
    | ok u =>
      have hne : ∀ v ∈ ts, v.1 ≠ t.1 := fun v hv heq => hnames.1 (List.mem_map.mpr ⟨v, hv, heq⟩)
      have hrest : ∀ v ∈ ts, v ∈ o.db.tables := fun v hv => hkept v (hts v (List.mem_cons_of_mem _ hv)) (hne v hv)
      obtain ⟨r, hr, hok', hm', hkept', hsent', hfree', hdone'⟩ :=
        ih hok (fun v n => hm.live (hl v n)) hrest hnames.2 howners.2
      refine ⟨⟨r.db, (o.sent.map fun s => (t.2.source, s)) ++ r.sent, r.result⟩, by simp [rewindTables, ho, hres, hr], hok',
        (hm.trans hm').mono (by simp), ?_, ?_, hfree', ?_⟩
      · intro v hv hno
        rw [List.map_cons, List.mem_cons, not_or] at hno
        exact hkept' v (hkept v hv hno.1) hno.2
      · intro source hno
        rw [List.map_cons, List.mem_cons, not_or] at hno
        rw [sentBy_append, sentBy_other (Ne.symm hno.1), hsent' source hno.2]
        rfl
      · intro hok v hv
        rcases List.mem_cons.mp hv with rfl | hv
        · obtain ⟨s, head, live, hset⟩ := hdone hres
          have hsent : sentBy v.2.source ((o.sent.map fun s => (v.2.source, s)) ++ r.sent) = o.sent := by
            rw [sentBy_append, sentBy_self, hsent' _ howners.1, List.append_nil]
          rw [hsent]
          exact ⟨s, head, live, hset.to hm' howners.1 (hkept' _ hset.synced hnames.1)⟩
        · obtain ⟨s1, head, live, hset⟩ := hdone' hok v hv
          have hvt : t.2.source ≠ v.2.source := fun heq => howners.1 (List.mem_map.mpr ⟨v, hv, heq.symm⟩)
          obtain ⟨s, hs, -⟩ := h.tables v (hts v (List.mem_cons_of_mem _ hv))
          obtain ⟨l, hold⟩ := h.sound _ s hs
          obtain ⟨u, hu, -⟩ := hold.rows
          rw [sentBy_append, sentBy_other hvt, List.nil_append]
          exact ⟨s, head, live, hset.from hm hs (by simpa using Ne.symm hvt) (by rw [hu]; rfl)⟩

/-- The rewind of a sound database. -/
theorem rewind_spec {d : String → Nat → Downstream} (h : w.Ok held) (hl : ∀ t n, Live (d t n) w) (ident : String → Identity Row)
    (deltas : Deltas) : ∃ r, rewind strict d ident deltas w = some r ∧ r.db.Ok held := by
  unfold rewind
  split
  · exact ⟨_, rfl, h⟩
  · obtain ⟨r, hr, hok, -⟩ := @rewindTables_spec held strict d ident deltas w.tables w h hl (fun t ht => ht) h.names h.owners
    exact ⟨r, hr, hok⟩

/-! ## Runs -/

/-- The databases a run reaches, with the connection ids in use at each source. A tracked table has a source of its
    own; a connection's filter implies its push guard; only an id in use is wired. -/
inductive Reach : Db → (NodeId → List ConnId) → Prop
  | empty : Reach {} fun _ => []
  | addSource {w : Db} {held : NodeId → List ConnId} {id : NodeId} {width : Nat} {pk : List Nat} {initial : List Row} {s : MemorySource} :
      Reach w held → w.sources id = none → tryNew width pk initial = .ok s →
        (initial.Pairwise fun a b => keyCmp pk a b ≠ .eq) → Reach (w.put id s) (Function.update held id [])
  | removeSource {w : Db} {held : NodeId → List ConnId} {id : NodeId} : Reach w held → (∀ t ∈ w.tables, t.2.source ≠ id) →
      Reach { w with sources := Function.update w.sources id none } held
  | connect {w : Db} {held : NodeId → List ConnId} {id : NodeId} {s s' : MemorySource} {sort : Option SortSpec}
      {filters : Option ConnectionFilters} {keys : List Nat} {c : ConnId} : Reach w held → w.sources id = some s →
        (∀ f, filters = some f → f.Guarded) → s.connect sort filters keys = some (s', c) →
          Reach (w.put id s') (Function.update held id (ConnTable.claim (held id) c))
  | wire {w : Db} {held : NodeId → List ConnId} {id : NodeId} {s s' : MemorySource} {c : ConnId} : Reach w held →
      w.sources id = some s → c ∈ held id → s.setConnOutput c = some s' → Reach (w.put id s') held
  | destroy {w : Db} {held : NodeId → List ConnId} {id : NodeId} {s : MemorySource} {c : ConnId} : Reach w held →
      w.sources id = some s → Reach (w.put id (s.destroy c)) (Function.update held id (s.conns.release (held id) c))
  | fetch {w w' : Db} {held : NodeId → List ConnId} {r : NodeId × ConnId × FetchRequest} {s : MemorySource} : Reach w held →
      w.sources r.1 = some s → (s.conns.liveIx r.2.1).isSome = true → w.fetchFrom r = some w' → Reach w' held
  | track {w w' : Db} {held : NodeId → List ConnId} {table : String} {source : NodeId} : Reach w held →
      (w.isTracked table = false → ∀ t ∈ w.tables, t.2.source ≠ source) → w.track table source = some (.ok w') → Reach w' held
  | forget {w : Db} {held : NodeId → List ConnId} {table : String} : Reach w held → Reach (w.forget table) held
  | write {w : Db} {held : NodeId → List ConnId} {id : NodeId} {s : MemorySource} {change : SourceChange Row} {strict : Bool}
      {d : Downstream} {o : Outcome} : Reach w held → Live d w → w.sources id = some s →
        trySourcePush strict d w id change = some o → Reach o.db held
  | rewind {w : Db} {held : NodeId → List ConnId} {strict : Bool} {d : String → Nat → Downstream} {ident : String → Identity Row}
      {deltas : Deltas} {r : Rewound} : Reach w held → (∀ t n, Live (d t n) w) →
        rewind strict d ident deltas w = some r → Reach r.db held

theorem holding_of_ok {C : SortSpec → Set Row} {live : List ConnId} (h : s.Ok C) (hp : s.conns.Posts live) : ∃ l, s.Holding l live := by
  obtain ⟨i, hi⟩ := index?_isSome h.holds.primary
  obtain ⟨hmem, hsort⟩ := index?_some hi
  have hv := h.holds.valid i hmem
  rw [hsort] at hv
  exact ⟨i.data.rows, ⟨C, h⟩, ⟨i.data, by rw [forkPrimary, hi]; rfl, hv, rfl⟩, hp⟩

/-- A source's connections change, its rows stay. -/
theorem Ok.putConns {held' : NodeId → List ConnId} (h : w.Ok held) (hs : w.sources id = some s) {C : SortSpec → Set Row}
    (hok : s'.Ok C) (hkey : s'.primaryKey = s.primaryKey) (hp : s'.conns.Posts (held' id)) (hheld : ∀ i, i ≠ id → held' i = held i) :
    (w.put id s').Ok held' := by
  refine ⟨?_, h.names, h.owners, ?_⟩
  · intro i t ht
    by_cases hi : i = id
    · subst hi
      rw [put_self] at ht
      obtain rfl := Option.some.inj ht
      exact holding_of_ok hok hp
    · rw [put_ne w hi] at ht
      rw [hheld i hi]
      exact h.sound i t ht
  · intro t ht
    obtain ⟨u, hu, hsort, hv⟩ := h.tables t ht
    by_cases hi : t.2.source = id
    · rw [hi] at hu ⊢
      obtain rfl := Option.some.inj (hs.symm.trans hu)
      exact ⟨s', put_self w id s', hsort.trans (primarySort_congr hkey).symm, hv⟩
    · exact ⟨u, by rw [put_ne w hi, hu], hsort, hv⟩

theorem insertTable_perm (t : Table) (tables : List Table) : (insertTable t tables).Perm (t :: tables) := by
  induction tables with
  | nil => exact List.Perm.refl _
  | cons v tables ih =>
    rw [insertTable]
    split
    · exact List.Perm.refl _
    · exact (ih.cons v).trans (List.Perm.swap t v tables)

theorem Ok.track (h : w.Ok held) {table : String} {source : NodeId}
    (hown : w.isTracked table = false → ∀ t ∈ w.tables, t.2.source ≠ source) (ht : w.track table source = some (.ok w')) : w'.Ok held := by
  unfold Db.track at ht
  split at ht
  · rw [← Except.ok.inj (Option.some.inj ht)]
    exact h
  rename_i hnew
  split at ht
  · cases ht
  rename_i ms hms
  obtain ⟨sync, hsync, heq⟩ := Option.map_eq_some_iff.mp ht
  rw [← Except.ok.inj heq]
  obtain ⟨l, hold⟩ := h.sound source ms hms
  obtain ⟨u, hu, huv, -⟩ := hold.rows
  obtain rfl := Option.some.inj (hu.symm.trans hsync)
  have hfresh : w.isTracked table = false := by simpa using hnew
  have hname : ∀ t ∈ w.tables, t.1 ≠ table := by
    intro t ht heq
    have := List.any_eq_false.mp hfresh t ht
    simp [heq] at this
  have hperm := insertTable_perm (table, ⟨source, u, ms.primaryIndexSort⟩) w.tables
  refine ⟨h.sound, ?_, ?_, ?_⟩
  · rw [(hperm.map _).nodup_iff, List.map_cons, List.nodup_cons]
    refine ⟨?_, h.names⟩
    intro hmem
    obtain ⟨t, ht, heq⟩ := List.mem_map.mp hmem
    exact hname t ht heq
  · rw [(hperm.map _).nodup_iff, List.map_cons, List.nodup_cons]
    refine ⟨?_, h.owners⟩
    intro hmem
    obtain ⟨t, ht, heq⟩ := List.mem_map.mp hmem
    exact hown hfresh t ht heq
  · intro t ht
    rcases List.mem_cons.mp (hperm.mem_iff.mp ht) with rfl | ht
    · exact ⟨ms, hms, rfl, huv⟩
    · exact h.tables t ht

theorem Reach.ok (hr : Reach w held) : w.Ok held := by
  induction hr with
  | empty =>
    refine ⟨?_, List.nodup_nil, List.nodup_nil, ?_⟩
    · intro id s hs
      cases hs
    · intro t ht
      cases ht
  | @addSource w held id width pk initial s _ hid hnew hkeys ih =>
    have hok := tryNew_ok hnew hkeys
    have hconns : s.conns = {} := by
      unfold MemorySource.tryNew at hnew
      split at hnew
      · cases hnew
      · rw [← Except.ok.inj hnew]
    have hposts : s.conns.Posts [] := by
      rw [hconns]
      exact ⟨fun i hi => (by cases hi), fun i hi => (by cases hi), fun i c hc => (by cases hc)⟩
    refine ⟨?_, ih.names, ih.owners, ?_⟩
    · intro i t ht
      by_cases hi : i = id
      · subst hi
        rw [put_self] at ht
        obtain rfl := Option.some.inj ht
        rw [Function.update_self]
        exact holding_of_ok hok hposts
      · rw [put_ne w hi] at ht
        rw [Function.update_of_ne hi]
        exact ih.sound i t ht
    · intro t ht
      obtain ⟨u, hu, hsort, hv⟩ := ih.tables t ht
      have hi : t.2.source ≠ id := by
        intro heq
        rw [heq, hid] at hu
        cases hu
      exact ⟨u, by rw [put_ne w hi, hu], hsort, hv⟩
  | @removeSource w held id _ hid ih =>
    refine ⟨?_, ih.names, ih.owners, ?_⟩
    · intro i t ht
      by_cases hi : i = id
      · subst hi
        have ht : Function.update w.sources i none i = some t := ht
        rw [Function.update_self] at ht
        cases ht
      · have ht : Function.update w.sources id none i = some t := ht
        rw [Function.update_of_ne hi] at ht
        exact ih.sound i t ht
    · intro t ht
      obtain ⟨u, hu, hsort, hv⟩ := ih.tables t ht
      refine ⟨u, ?_, hsort, hv⟩
      show Function.update w.sources id none _ = _
      rw [Function.update_of_ne (hid t ht), hu]
  | @connect w held id s s' sort filters keys c _ hs hguard hconn ih =>
    obtain ⟨l, ⟨C, hok⟩, -, hp⟩ := ih.sound id s hs
    unfold MemorySource.connect at hconn
    split at hconn
    · rename_i hcov
      obtain ⟨rfl, rfl⟩ := Prod.mk.inj (Option.some.inj hconn)
      have hcovers : SortSpec.Covers (sort.getD s.primaryIndexSort) s.primaryKey := by
        cases sort with
        | none => exact primarySort_covers s.primaryKey
        | some o => exact orderingIncludesPk_iff.mp hcov
      refine ih.putConns hs ⟨hok.holds.of_indexes rfl rfl, hok.conns.connect hcovers⟩ rfl ?_ fun i hi => Function.update_of_ne hi ..
      rw [Function.update_self]
      exact hp.connect hok.conns rfl hguard
    · cases hconn
  | @wire w held id s s' c _ hs hc hset ih =>
    obtain ⟨l, ⟨C, hok⟩, -, hp⟩ := ih.sound id s hs
    obtain ⟨t, ht, rfl⟩ := Option.map_eq_some_iff.mp hset
    have hid : (s.conns.liveIx c).isSome = true := by simp [ConnTable.liveIx, hp.gens c hc]
    obtain ⟨t', ht', hok'⟩ := hok.conns.setOutput (fun _ hc => hc) hid
    obtain rfl := Option.some.inj (ht.symm.trans ht')
    exact ih.putConns hs ⟨hok.holds.of_indexes rfl rfl, hok'⟩ rfl (hp.setOutput hc ht) fun i _ => rfl
  | @destroy w held id s c _ hs ih =>
    obtain ⟨l, ⟨C, hok⟩, -, hp⟩ := ih.sound id s hs
    refine ih.putConns hs ⟨hok.holds.of_indexes rfl rfl, hok.conns.destroy (fun _ hc => hc) c⟩ rfl ?_ fun i hi => Function.update_of_ne hi ..
    rw [Function.update_self]
    exact hp.destroy c
  | @fetch w w' held r s _ hs hix hf ih =>
    obtain ⟨l, hold⟩ := ih.sound r.1 s hs
    obtain ⟨rows, s', hfetch, hg, hold'⟩ := hold.fetch hix r.2.2
    simp only [fetchFrom, hs, Option.bind_eq_bind, Option.bind_some, hfetch] at hf
    rw [← Option.some.inj hf]
    exact ih.moved (Moved.put hs hg.steady) (ih.sound.put hold') rfl
  | track _ hown ht ih => exact ih.track hown ht
  | @forget w held table _ ih =>
    have hsub : List.Sublist (w.forget table).tables w.tables := List.filter_sublist
    exact ⟨ih.sound, ih.names.sublist (hsub.map _), ih.owners.sublist (hsub.map _), fun t ht => ih.tables t (hsub.subset ht)⟩
  | @write w held id s change strict d o _ hl hs ho ih =>
    obtain ⟨o', ho', hsound, hm, htab⟩ := @pushAny w held d id s strict ih.sound hl hs change
    obtain rfl := Option.some.inj (ho.symm.trans ho')
    exact ih.moved hm hsound htab
  | @rewind w held strict d ident deltas r _ hl hrew ih =>
    obtain ⟨r', hr', hok⟩ := @rewind_spec w held strict d ih hl ident deltas
    obtain rfl := Option.some.inj (hrew.symm.trans hr')
    exact hok

theorem rewind_exact (hr : Reach w held) {d : String → Nat → Downstream} (hl : ∀ t n, Live (d t n) w) (strict : Bool)
    (ident : String → Identity Row) (deltas : Deltas) :
    ∃ r, rewind strict d ident deltas w = some r ∧
      ((∃ e ∈ deltas, w.isTracked e.1 = false) → r.db = w ∧ r.sent = [] ∧ ∃ e ∈ deltas, w.isTracked e.1 = false ∧
        r.result = .error (.schemaViolation s!"server delta for untracked (local-only or unknown) table {e.1.quote}")) ∧
      ((∀ e ∈ deltas, w.isTracked e.1 = true) →
        ((∀ t n, (d t n).fault = none) → r.result = .ok ()) ∧
        (r.result = .ok () → ∀ t ∈ w.tables, ∃ s head live, Settled deltas w r.db (sentBy t.2.source r.sent) t s head live)) := by
  have h := hr.ok
  unfold rewind
  cases hf : deltas.find? fun e => !w.isTracked e.1 with
  | some e =>
    have hmem := List.mem_of_find?_eq_some hf
    have hno : w.isTracked e.1 = false := by simpa using List.find?_some hf
    refine ⟨_, rfl, fun _ => ⟨rfl, rfl, e, hmem, hno, rfl⟩, ?_⟩
    intro hall
    rw [hall e hmem] at hno
    cases hno
  | none =>
    obtain ⟨r, hrew, -, -, -, -, hfree, hdone⟩ :=
      @rewindTables_spec held strict d ident deltas w.tables w h hl (fun t ht => ht) h.names h.owners
    refine ⟨r, hrew, ?_, fun _ => ⟨hfree, hdone⟩⟩
    intro hun
    obtain ⟨e, he, hno⟩ := hun
    have hall := List.find?_eq_none.mp hf e he
    simp [hno] at hall

/-- A table of two rows, tracked; the first row edited locally; the server edits it otherwise and removes the second. -/
theorem rewind_exact_pending : ∃ s w o, tryNew 2 [0] [[.int 1, .int 5], [.int 2, .int 3]] = .ok s ∧
    Db.track (Db.put {} ⟨0, 0⟩ s) "t" ⟨0, 0⟩ = some (.ok w) ∧
      trySourcePush true {} w ⟨0, 0⟩ (.edit [.int 1, .int 5] [.int 1, .int 6]) = some o ∧
        ∃ r, rewind true (fun _ _ => {}) (fun _ => Identity.mk (fun _ _ => false) (fun _ _ => false) (by simp) (by simp))
            [("t", [.edit [.int 1, .int 5] [.int 1, .int 7], .remove [.int 2, .int 3]])] o.db = some r ∧ r.result = .ok () ∧
          ∀ t ∈ o.db.tables, ∃ s' head live, Settled [("t", [.edit [.int 1, .int 5] [.int 1, .int 7], .remove [.int 2, .int 3]])] o.db r.db
            (sentBy t.2.source r.sent) t s' head live := by
  have hlive : ∀ w, Live {} w := by
    intro w
    refine ⟨?_, ?_⟩
    · intro id s _ n c r hr
      cases hr
    · intro id r hr
      cases hr
  obtain ⟨s, hnew⟩ : ∃ s, tryNew 2 [0] [[.int 1, .int 5], [.int 2, .int 3]] = .ok s := ⟨_, rfl⟩
  have hadd := @Reach.addSource {} _ ⟨0, 0⟩ _ _ _ s Reach.empty rfl hnew (by decide +kernel)
  have hput : (Db.put {} ⟨0, 0⟩ s).sources ⟨0, 0⟩ = some s := put_self ..
  obtain ⟨w, htrack⟩ : ∃ w, Db.track (Db.put {} ⟨0, 0⟩ s) "t" ⟨0, 0⟩ = some (.ok w) := by
    rw [← Except.ok.inj hnew]
    exact ⟨_, rfl⟩
  have hw := Reach.track hadd (fun _ t ht => by cases ht) htrack
  have hname : w.isTracked "t" = true ∧ w.sources = (Db.put {} ⟨0, 0⟩ s).sources := by
    rw [← Except.ok.inj hnew] at htrack
    rw [← Except.ok.inj (Option.some.inj htrack), ← Except.ok.inj hnew]
    exact ⟨by decide, rfl⟩
  have hsrc : w.sources ⟨0, 0⟩ = some s := by rw [hname.2, hput]
  obtain ⟨o, ho, -, -, htab⟩ := @pushAny w _ {} ⟨0, 0⟩ s true hw.ok.sound (hlive w) hsrc (.edit [.int 1, .int 5] [.int 1, .int 6])
  have hreach := Reach.write hw (hlive w) hsrc ho
  obtain ⟨r, hrew, -, hdone⟩ := rewind_exact hreach (fun _ _ => hlive o.db) true
    (fun _ => Identity.mk (fun _ _ => false) (fun _ _ => false) (by simp) (by simp))
    [("t", [.edit [.int 1, .int 5] [.int 1, .int 7], .remove [.int 2, .int 3]])]
  have hknown : ∀ e ∈ [("t", [SList.Delta.edit [Value.int 1, .int 5] [.int 1, .int 7], .remove [.int 2, .int 3]])],
      o.db.isTracked e.1 = true := by
    intro e he
    rw [List.mem_singleton.mp he, isTracked, htab]
    exact hname.1
  obtain ⟨hfree, hset⟩ := hdone hknown
  have hok := hfree fun _ _ => rfl
  exact ⟨s, w, o, hnew, htrack, ho, r, hrew, hok, hset hok⟩

end Db

end Rindle.Optimistic
