/-
  Rindle.Source.Push — the steps of a push.

  `Visited` says what visiting candidate slots changes: the wired ones are stamped with the
  push's epoch, the change becomes the overlay, an index may be added. The table itself is
  written once, when the fan-out is over (`Ok.pushOnce`); a rejected change writes nothing
  and sends nothing.
-/

import Rindle.Source.Fetch

set_option linter.dupNamespace false

namespace Rindle

namespace MemorySource

/-- The indexes hold `C` and every connection's order determines the row. -/
structure Ok (s : MemorySource) (C : SortSpec → Set Row) : Prop where
  holds : s.Holds C
  conns : s.conns.Ok fun c => SortSpec.Covers c.sort s.primaryKey

/-- Downstream reads live connections. -/
def ReadsLive (s : MemorySource) (reads : Reads) : Prop :=
  ∀ slot sc, ∀ r ∈ reads slot sc, (s.conns.liveIx r.1).isSome = true

variable {s : MemorySource} {C : SortSpec → Set Row} {R : Set Row}

theorem Ok.grown (h : s.Ok C) {s' : MemorySource} (hg : Grown s s') (hh : s'.Holds C) : s'.Ok C := by
  refine ⟨hh, ?_⟩
  obtain ⟨more, rfl⟩ := hg
  exact h.conns

/-- The indexes these fetches need. -/
def readSorts (s : MemorySource) (reqs : List (ConnId × FetchRequest)) : List SortSpec :=
  reqs.flatMap fun r => ((s.conns.live r.1).map fun conn => requestSorts s.primaryKey conn r.2).getD []

/-- A fetch on a live connection. -/
theorem Ok.fetch (h : s.Ok C) {id : ConnId} (hid : (s.conns.liveIx id).isSome = true) (req : FetchRequest) :
    ∃ conn rows s', s.conns.conns[id.idx]? = some conn ∧ s.conns.live id = some conn ∧
      s.fetch id req = some (rows, s') ∧ s'.Ok C ∧ Grown s s' ∧
      (∀ o, s'.Live o ↔ s.Live o ∨ o ∈ requestSorts s.primaryKey conn req) ∧
      FetchedOn s.primaryKey C s.overlay conn req rows := by
  obtain ⟨conn, hlive, hget, hgood⟩ := h.conns.live hid
  obtain ⟨rows, s', heq, hh, hg, hl, hf⟩ := h.holds.fetchOn hgood req
  exact ⟨conn, rows, s', hget, hlive, by simp [MemorySource.fetch, hlive, heq], h.grown hg hh, hg, hl, hf⟩

theorem Ok.readAll (reqs : List (ConnId × FetchRequest)) : ∀ {s : MemorySource}, s.Ok C →
    (∀ r ∈ reqs, (s.conns.liveIx r.1).isSome = true) →
    ∃ s', s.readAll reqs = some s' ∧ s'.Ok C ∧ Grown s s' ∧ ∀ o, s'.Live o ↔ s.Live o ∨ o ∈ s.readSorts reqs := by
  induction reqs with
  | nil => intro s h _; exact ⟨s, rfl, h, Grown.refl s, by simp [readSorts]⟩
  | cons r reqs ih =>
    intro s h hlive
    obtain ⟨conn, rows, s1, -, hconn, h1, hok1, hg1, hl1, -⟩ := h.fetch (hlive r List.mem_cons_self) r.2
    have hconns : s1.conns = s.conns := by
      obtain ⟨more, rfl⟩ := hg1
      rfl
    obtain ⟨s2, h2, hok2, hg2, hl2⟩ := ih hok1 fun q hq => hconns ▸ hlive q (List.mem_cons_of_mem _ hq)
    refine ⟨s2, ?_, hok2, hg1.trans hg2, fun o => ?_⟩
    · simp only [MemorySource.readAll, List.foldlM_cons, h1, Option.map_some, Option.bind_eq_bind, Option.bind_some]
      exact h2
    · rw [hl2, hl1, or_assoc]
      simp [readSorts, hconns, hg1.key, hconn]

/-! ## Visiting slots -/

/-- The stamp a visit leaves on the connection in slot `i`. -/
@[grind] def stampIf (slots : List Nat) (epoch i : Nat) (c : Connection) : Connection :=
  if i ∈ slots ∧ c.output = true then { c with lastPushedEpoch := epoch } else c

/-- Some slot of the list is wired. -/
def anyWired (s : MemorySource) (slots : List Nat) : Bool := slots.any fun i => s.conns.conns[i]?.any fun c => c.output

/-- What visiting `slots` changes. -/
structure Visited (change : SourceChange Row) (epoch : Nat) (slots : List Nat) (s s' : MemorySource) : Prop where
  key : s'.primaryKey = s.primaryKey
  counter : s'.epoch = s.epoch
  gens : s'.conns.gens = s.conns.gens
  index : s'.conns.index = s.conns.index
  conns : ∀ i, s'.conns.conns[i]? = (s.conns.conns[i]?).map (stampIf slots epoch i)
  overlay : s'.overlay = if s.anyWired slots then some ⟨epoch, change⟩ else s.overlay
  indexes : ∃ more, s'.indexes = s.indexes ++ more

variable {change : SourceChange Row} {epoch : Nat} {slots : List Nat} {s' s'' : MemorySource}

theorem stampIf_output (slots : List Nat) (epoch i : Nat) (c : Connection) : (stampIf slots epoch i c).output = c.output := by
  unfold stampIf
  split <;> rfl

theorem stampIf_of_not_mem {i : Nat} (h : i ∉ slots) (epoch : Nat) : stampIf slots epoch i = id := by
  funext c
  simp [stampIf, h]

theorem Visited.nil (s : MemorySource) : Visited change epoch [] s s := by
  refine ⟨rfl, rfl, rfl, rfl, fun i => ?_, rfl, ⟨[], by simp⟩⟩
  rw [stampIf_of_not_mem List.not_mem_nil, Option.map_id_fun, id]

theorem Visited.wired (h : Visited change epoch slots s s') (more : List Nat) : s'.anyWired more = s.anyWired more := by
  unfold anyWired
  congr 1
  funext i
  rw [h.conns i, Option.any_map]
  congr 1
  funext c
  exact stampIf_output slots epoch i c

theorem Visited.trans {more : List Nat} (h : Visited change epoch slots s s') (h' : Visited change epoch more s' s'') :
    Visited change epoch (slots ++ more) s s'' := by
  refine ⟨h'.key.trans h.key, h'.counter.trans h.counter, h'.gens.trans h.gens, h'.index.trans h.index, fun i => ?_, ?_, ?_⟩
  · rw [h'.conns i, h.conns i, Option.map_map]
    congr 1
    funext c
    simp only [Function.comp, stampIf, List.mem_append]
    by_cases h1 : i ∈ slots <;> by_cases h2 : i ∈ more <;> by_cases h3 : c.output = true <;> simp [h1, h2, h3]
  · rw [h'.overlay, h.overlay, h.wired more]
    simp only [anyWired, List.any_append, Bool.or_eq_true]
    by_cases h1 : (slots.any fun i => s.conns.conns[i]?.any fun c => c.output) = true <;>
      by_cases h2 : (more.any fun i => s.conns.conns[i]?.any fun c => c.output) = true <;> simp [h1, h2]
  · obtain ⟨m, hm⟩ := h.indexes
    obtain ⟨m', hm'⟩ := h'.indexes
    exact ⟨m ++ m', by rw [hm', hm, List.append_assoc]⟩

/-- What the connection in a slot is sent. -/
def sentTo (s : MemorySource) (change : SourceChange Row) (slot : Nat) : Option (SourceChange Row) :=
  (s.conns.conns[slot]?).bind fun c =>
    if c.output then filterPush change (c.filters.map fun f => f.predicate) else none

/-- What the connections in these slots are sent. -/
def deliveries (s : MemorySource) (change : SourceChange Row) (slots : List Nat) : List Delivery :=
  slots.filterMap fun slot => (s.sentTo change slot).map fun sc => (slot, sc)

/-- The indexes downstream needs while these slots are visited. -/
def builtSorts (s : MemorySource) (change : SourceChange Row) (reads : Reads) (slots : List Nat) : List SortSpec :=
  slots.flatMap fun slot => ((s.sentTo change slot).map fun sc => s.readSorts (reads slot sc)).getD []

theorem liveIx_congr {t t' : ConnTable} (h : t'.gens = t.gens) (id : ConnId) : t'.liveIx id = t.liveIx id := by
  unfold ConnTable.liveIx
  rw [h]

theorem Visited.readsLive (h : Visited change epoch slots s s') {reads : Reads} (hr : s.ReadsLive reads) :
    s'.ReadsLive reads := by
  intro slot sc r hmem
  rw [liveIx_congr h.gens]
  exact hr slot sc r hmem

/-- A stamp changes neither what a connection fetches nor what it is sent. -/
theorem stampIf_sorts (slots : List Nat) (epoch i : Nat) (pk : List Nat) (c : Connection) (req : FetchRequest) :
    requestSorts pk (stampIf slots epoch i c) req = requestSorts pk c req := by
  unfold stampIf
  split <;> rfl

theorem Visited.live (h : Visited change epoch slots s s') (id : ConnId) :
    s'.conns.live id = (s.conns.live id).map (stampIf slots epoch id.idx) := by
  unfold ConnTable.live ConnTable.liveIx
  rw [h.gens]
  split
  · simp [h.conns]
  · rfl

theorem Visited.readSorts (h : Visited change epoch slots s s') (reqs : List (ConnId × FetchRequest)) :
    s'.readSorts reqs = s.readSorts reqs := by
  unfold MemorySource.readSorts
  congr 1
  funext r
  rw [h.live, h.key, Option.map_map]
  congr 2
  funext c
  exact stampIf_sorts slots epoch r.1.idx s.primaryKey c r.2

theorem Visited.sentTo (h : Visited change epoch slots s s') (slot : Nat) : s'.sentTo change slot = s.sentTo change slot := by
  unfold MemorySource.sentTo
  rw [h.conns slot, Option.bind_map]
  congr 1
  funext c
  simp only [Function.comp, stampIf]
  split <;> rfl

theorem Visited.deliveries (h : Visited change epoch slots s s') (more : List Nat) :
    s'.deliveries change more = s.deliveries change more := by
  unfold MemorySource.deliveries
  congr 1
  funext slot
  rw [h.sentTo]

theorem Visited.builtSorts (h : Visited change epoch slots s s') (reads : Reads) (more : List Nat) :
    s'.builtSorts change reads more = s.builtSorts change reads more := by
  unfold MemorySource.builtSorts
  congr 1
  funext slot
  rw [h.sentTo]
  congr 2
  funext sc
  exact h.readSorts _

/-- Only the indexes and the key matter to what the indexes hold. -/
theorem Holds.of_indexes (h : s.Holds C) (hi : s'.indexes = s.indexes) (hk : s'.primaryKey = s.primaryKey) : s'.Holds C := by
  have hlive : ∀ o, s'.Live o ↔ s.Live o := fun o => by rw [Live, Live, hi]
  have hsort : s'.primaryIndexSort = s.primaryIndexSort := by rw [primaryIndexSort, primaryIndexSort, hk]
  exact ⟨by rw [hlive, hsort]; exact h.primary, hi ▸ h.valid, by rw [hi, hk]; exact h.covers, hi ▸ h.rows,
    fun o ho => by rw [hsort]; exact h.fresh o fun hl => ho ((hlive o).mpr hl)⟩

/-- Stamping a slot and setting the overlay. -/
theorem Ok.stamped (h : s.Ok C) (slot epoch : Nat) (o : Option Overlay) :
    ({ s with conns := s.conns.stamp slot epoch, overlay := o } : MemorySource).Ok C :=
  ⟨h.holds.of_indexes rfl rfl, h.conns.stamp (fun _ _ hc => hc) slot epoch⟩

theorem visited_stamp {conn : Connection} {slot : Nat} (hget : s.conns.conns[slot]? = some conn) (hout : conn.output = true)
    (change : SourceChange Row) (epoch : Nat) :
    Visited change epoch [slot] s
      { s with conns := s.conns.stamp slot epoch, overlay := some ⟨epoch, change⟩ } := by
  refine ⟨rfl, rfl, rfl, rfl, fun i => ?_, ?_, ⟨[], by simp⟩⟩
  · show (s.conns.conns.modify slot _)[i]? = _
    rw [List.getElem?_modify]
    by_cases hi : slot = i
    · subst hi
      simp [hget, stampIf, hout]
    · rw [stampIf_of_not_mem (by simpa using Ne.symm hi)]
      simp [hi]
  · simp [anyWired, hget, hout]

theorem Visited.grown (h : Visited change epoch slots s s') (hg : Grown s' s'') : Visited change epoch slots s s'' := by
  obtain ⟨more, rfl⟩ := hg
  obtain ⟨m, hm⟩ := h.indexes
  exact ⟨h.key, h.counter, h.gens, h.index, h.conns, h.overlay, ⟨m ++ more, by simp [hm]⟩⟩

theorem Ok.visit (h : s.Ok C) {reads : Reads} (hr : s.ReadsLive reads) {slot : Nat} (hs : slot < s.conns.conns.length)
    (change : SourceChange Row) (epoch : Nat) :
    ∃ s' sent, visit change epoch reads s slot = some (s', sent) ∧ s'.Ok C ∧ Visited change epoch [slot] s s' ∧
      (∀ o, s'.Live o ↔ s.Live o ∨ o ∈ s.builtSorts change reads [slot]) ∧ sent = s.deliveries change [slot] := by
  have hget : s.conns.conns[slot]? = some s.conns.conns[slot] := List.getElem?_eq_getElem hs
  unfold MemorySource.visit
  simp only [hget, Option.bind_eq_bind, Option.bind_some]
  by_cases hout : (s.conns.conns[slot]).output = true
  · rw [if_pos hout]
    have hvis := visited_stamp hget hout change epoch
    have hok := h.stamped slot epoch (some ⟨epoch, change⟩)
    cases hf : filterPush change ((s.conns.conns[slot]).filters.map fun f => f.predicate) with
    | none =>
      refine ⟨_, [], rfl, hok, hvis, fun o => ?_, ?_⟩
      · simp [MemorySource.builtSorts, MemorySource.sentTo, hget, hout, hf, Live]
      · simp [deliveries, MemorySource.sentTo, hget, hout, hf]
    | some sc =>
      obtain ⟨s', hread, hok', hg, hl⟩ := Ok.readAll (reads slot sc) hok fun r hmem => hr slot sc r hmem
      refine ⟨s', [(slot, sc)], by simp [hread], hok', hvis.grown hg, fun o => ?_, ?_⟩
      · rw [hl, hvis.readSorts]
        simp [MemorySource.builtSorts, MemorySource.sentTo, hget, hout, hf, Live]
      · simp [deliveries, MemorySource.sentTo, hget, hout, hf]
  · rw [if_neg hout]
    refine ⟨s, [], rfl, h, ?_, fun o => ?_, ?_⟩
    · refine ⟨rfl, rfl, rfl, rfl, fun i => ?_, by simp [anyWired, hget, hout], ⟨[], by simp⟩⟩
      by_cases hi : i = slot
      · subst hi
        simp [hget, stampIf, hout]
      · rw [stampIf_of_not_mem (by simpa using hi), Option.map_id_fun, id]
    · simp [MemorySource.builtSorts, MemorySource.sentTo, hget, hout]
    · simp [deliveries, MemorySource.sentTo, hget, hout]

theorem Ok.fanOut {reads : Reads} (change : SourceChange Row) (epoch : Nat) (slots : List Nat) :
    ∀ {s : MemorySource}, s.Ok C → s.ReadsLive reads → (∀ i ∈ slots, i < s.conns.conns.length) →
      ∃ s' sent, fanOut change epoch reads slots s = some (s', sent) ∧ s'.Ok C ∧ Visited change epoch slots s s' ∧
        (∀ o, s'.Live o ↔ s.Live o ∨ o ∈ s.builtSorts change reads slots) ∧ sent = s.deliveries change slots := by
  induction slots with
  | nil => intro s h _ _; exact ⟨s, [], rfl, h, Visited.nil s, by simp [MemorySource.builtSorts], rfl⟩
  | cons slot slots ih =>
    intro s h hr hs
    obtain ⟨s1, sent1, h1, hok1, hv1, hl1, hs1⟩ := h.visit hr (hs slot List.mem_cons_self) change epoch
    have hlen : s1.conns.conns.length = s.conns.conns.length := by
      rw [← hok1.conns.gens, ← h.conns.gens, hv1.gens]
    obtain ⟨s2, sent2, h2, hok2, hv2, hl2, hs2⟩ :=
      ih hok1 (hv1.readsLive hr) fun i hi => hlen ▸ hs i (List.mem_cons_of_mem _ hi)
    refine ⟨s2, sent1 ++ sent2, ?_, hok2, hv1.trans hv2, fun o => ?_, ?_⟩
    · simp only [MemorySource.fanOut, h1, h2, Option.bind_eq_bind, Option.bind_some]
    · rw [hl2, hl1, hv1.builtSorts, or_assoc, ← List.mem_append]
      simp [MemorySource.builtSorts]
    · rw [hs1, hs2, hv1.deliveries, deliveries, deliveries, deliveries, ← List.filterMap_append]
      rfl

/-! ## One push -/

theorem Ok.nextEpoch (h : s.Ok C) : s.nextEpoch.Ok C := ⟨h.holds.of_indexes rfl rfl, h.conns⟩

/-- The indexes downstream needs while a change is pushed. -/
def pushSorts (s : MemorySource) (change : SourceChange Row) (reads : Reads) : List SortSpec :=
  s.builtSorts change reads (s.conns.index.pushCandidates change)

/-- A rejected push: nothing is written, nothing sent. -/
theorem pushOnce_rejected {reads : Reads} {strict : Bool} {e : RindleError}
    (hc : assertChangeExistenceChecked change s.present strict = .error e) :
    s.pushOnce change reads strict = some ⟨s.nextEpoch, [], .error e⟩ := by
  have hc' : assertChangeExistenceChecked change s.nextEpoch.present strict = .error e := hc
  simp [pushOnce, tryGenPushAndWrite, hc']

/-- An accepted push: the fan-out, then the write. -/
theorem Ok.pushOnce (h : s.Ok C) {reads : Reads} (hr : s.ReadsLive reads) {strict : Bool}
    (hc : assertChangeExistenceChecked change s.present strict = .ok ()) :
    ∃ s' sent, s.pushOnce change reads strict = some ⟨{ s' with overlay := none }.writeChange change, sent, .ok ()⟩ ∧
      s'.Ok C ∧ Visited change s.nextEpoch.epoch (s.conns.index.pushCandidates change) s.nextEpoch s' ∧
      ∀ o, s'.Live o ↔ s.Live o ∨ o ∈ s.pushSorts change reads := by
  obtain ⟨s', sent, hf, hok, hv, hl, -⟩ := Ok.fanOut change s.nextEpoch.epoch _ h.nextEpoch hr
    (PushIndex.pushCandidates_below h.conns.index change)
  refine ⟨s', sent, ?_, hok, hv, hl⟩
  have hc' : assertChangeExistenceChecked change s.nextEpoch.present strict = .ok () := hc
  simp only [MemorySource.pushOnce, tryGenPushAndWrite, hc']
  rw [show MemorySource.fanOut change s.nextEpoch.epoch reads (s.nextEpoch.conns.index.pushCandidates change) s.nextEpoch =
    some (s', sent) from hf]
  rfl

theorem Ok.written (h : s.Ok (same R)) (hv : ValidChange s.primaryKey R change) :
    ({ s with overlay := none }.writeChange change).Ok (same (applyChange R change)) := by
  have hh : ({ s with overlay := none } : MemorySource).Holds (same R) := h.holds.of_indexes rfl rfl
  exact ⟨hh.write hv, h.conns⟩

/-- A valid change passes the check. -/
theorem ValidChange.accepted (hh : s.Holds (same R)) (hv : ValidChange s.primaryKey R change) (strict : Bool) :
    assertChangeExistenceChecked change s.present strict = .ok () := by
  have hself : ∀ r : Row, keyCmp s.primaryKey r r = .eq := fun r => Std.ReflCmp.compare_self
  cases change with
  | add r =>
    have : s.present r = false := by
      rw [Bool.eq_false_iff, Ne, hh.present_iff]
      rintro ⟨x, hx, hxr⟩
      exact hv x hx hxr
    simp [assertChangeExistenceChecked, this]
  | remove r =>
    have : s.present r = true := (hh.present_iff r).mpr ⟨r, hv, hself r⟩
    simp [assertChangeExistenceChecked, this]
  | edit old row =>
    have : s.present old = true := (hh.present_iff old).mpr ⟨old, hv.1, hself old⟩
    simp [assertChangeExistenceChecked, this]

end MemorySource

end Rindle
