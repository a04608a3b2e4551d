/-
  Rindle.Op.Fed — an operator on a connection of a source, over whole histories.

  A push at the source reaches the operator as a change of the connection's rows; while it is
  handled the operator's fetches see those rows as they will be (`Fed.pushOnce`). Between pushes
  the operator is fetched from, or told to drop state; it then sees the rows as they are. What
  one change and one such action preserve, a history preserves (`Fed.run_keeps`).
-/

import Rindle.Source.Feed
import Rindle.Source.Postings
import Rindle.Op.Take

set_option linter.dupNamespace false

namespace Rindle

/-! ## What an input shows -/

/-- The row is past the request's start and within its constraint. -/
@[grind] def asks (sort : SortSpec) (req : FetchRequest) (r : Row) : Bool :=
  (req.start.all fun start => startReached start sort req.reverse r) && constraintHolds req.constraint r

/-- To this request the input shows the rows `U`, in the order of `sort`. -/
def Shows (sort : SortSpec) (up : Upstream) (U : Set Row) (req : FetchRequest) : Prop :=
  ∃ rows : List Row, up req = some (rows.map Node.leaf) ∧ SList.Sorted (compareRowsRev sort req.reverse) rows ∧
    ∀ r, r ∈ rows ↔ r ∈ U ∧ asks sort req r = true

/-- A request an operator may make while a change to the rows `U` is pushed: if it has a start row, that
    and some row of `U` are within its constraint. -/
def Anchored (U : Set Row) (req : FetchRequest) : Prop :=
  req.multiConstraints = [] ∧ ∀ start, req.start = some start → constraintHolds req.constraint start.row = true ∧
    ∃ x ∈ U, constraintHolds req.constraint x = true

/-! ## Operators -/

/-- An operator with state `σ`: what it makes of a change from its input, and of a fetch or another
    action `α` between two changes. -/
structure Operator (σ α : Type) where
  push : Upstream → σ → Change → Option (σ × List Change)
  act : Upstream → σ → α → Option σ

/-- The connection as an operator's input. -/
def MemorySource.upstream (s : MemorySource) (id : ConnId) : Upstream := fun req => (s.fetch id req).map fun r => r.1.map Node.leaf

/-- A source and the state of an operator on one of its connections. -/
structure Fed (σ : Type) where
  source : MemorySource
  state : σ

/-- After a push: the two states, what the operator sent, and what the source returned. -/
structure Fed.Pushed (σ : Type) where
  fed : Fed σ
  sent : List Change
  result : Except RindleError Unit

inductive Fed.Event (α : Type) where
  | push (change : SourceChange Row) (reads : MemorySource.Reads) (strict : Bool)
  | act (a : α)

namespace Fed

variable {σ α : Type}

/-- A single push at the source, with what the operator makes of its delivery. -/
def pushOnce (op : Operator σ α) (id : ConnId) (f : Fed σ) (change : SourceChange Row) (reads : MemorySource.Reads) (strict : Bool) :
    Option (Pushed σ) := do
  let p ← f.source.pushOnce change reads strict
  match p.result with
  | .error e => some ⟨⟨p.source, f.state⟩, [], .error e⟩
  | .ok () => do
    let (inFlight, delivered) ← f.source.deliver change reads id
    match delivered with
    | none => some ⟨⟨p.source, f.state⟩, [], .ok ()⟩
    | some δ => do
      let (state, sent) ← op.push (inFlight.upstream id) f.state (.ofSource δ)
      some ⟨⟨p.source, state⟩, sent, .ok ()⟩

/-- A push at the source; an edit may come in two halves. -/
def tryPush (op : Operator σ α) (id : ConnId) (f : Fed σ) (change : SourceChange Row) (reads : MemorySource.Reads) (strict : Bool) :
    Option (Pushed σ) :=
  match change with
  | .edit old row =>
    if f.source.conns.shouldSplitEdit row old then do
      let removed ← pushOnce op id f (.remove old) reads strict
      match removed.result with
      | .error e => some { removed with result := .error e }
      | .ok () => do
        let added ← pushOnce op id removed.fed (.add row) reads strict
        some { added with sent := removed.sent ++ added.sent }
    else pushOnce op id f change reads strict
  | change => pushOnce op id f change reads strict

/-- One event, and what the operator sends. -/
def step (op : Operator σ α) (id : ConnId) (f : Fed σ) : Event α → Option (Fed σ × List Change)
  | .push change reads strict => (tryPush op id f change reads strict).map fun p => (p.fed, p.sent)
  | .act a => (op.act (f.source.upstream id) f.state a).map fun state => (⟨f.source, state⟩, [])

/-- A history, and all the operator sends. -/
def run (op : Operator σ α) (id : ConnId) : Fed σ → List (Event α) → Option (Fed σ × List Change)
  | f, [] => some (f, [])
  | f, e :: events => do
    let (f, sent) ← step op id f e
    let (f, sent') ← run op id f events
    some (f, sent ++ sent')

/-- The table after an event. -/
def Event.apply (R : Set Row) : Event α → Set Row
  | .push change _ _ => applyChange R change
  | .act _ => R

/-! ## One push -/

/-- The source is at rest with the rows `R`, and the connection is wired. -/
structure AtRest (s : MemorySource) (id : ConnId) (conn : Connection) (R : Set Row) : Prop where
  ok : s.Ok (MemorySource.same R)
  quiet : s.overlay = none
  feeds : s.Feeds id conn

variable {s : MemorySource} {id : ConnId} {conn : Connection} {R : Set Row} {change : SourceChange Row} {reads : MemorySource.Reads}

open MemorySource in
/-- One connection, wired, on a new source; edits are split on the columns `keys`. -/
theorem atRest_connect {width : Nat} {pk : List Nat} {initial : List Row} {s0 : MemorySource} (sort : SortSpec) (keys : List Nat)
    (hnew : tryNew width pk initial = .ok s0) (hkeys : initial.Pairwise fun a b => keyCmp pk a b ≠ .eq)
    (hsort : orderingIncludesPk sort pk = true) :
    ∃ s, [Op.connect (some sort) none keys, .setConnOutput ⟨0, 0⟩].foldlM Op.run s0 = some s ∧
      AtRest s ⟨0, 0⟩ { sort, splitEditKeys := keys, output := true } {r | r ∈ initial} ∧ s.primaryKey = pk ∧
      s.conns.splitEditKeys = (ConnTable.connect {} { sort, splitEditKeys := keys }).1.splitEditKeys := by
  obtain ⟨s, hrun, hok, hkey, hover, -, hconns⟩ := connect_new sort keys hnew hkeys hsort
  refine ⟨s, hrun, ⟨hok, hover, ⟨0, by rw [hconns]; rfl⟩, rfl, rfl, fun change _ => ?_⟩, hkey, by rw [hconns]; rfl⟩
  rw [hconns]
  exact PushIndex.mem_pushCandidates.mpr (Or.inl List.mem_cons_self)

open MemorySource in
/-- One connection, wired, on a new source. -/
theorem atRest_new {width : Nat} {pk : List Nat} {initial : List Row} {s0 : MemorySource} (sort : SortSpec)
    (hnew : tryNew width pk initial = .ok s0) (hkeys : initial.Pairwise fun a b => keyCmp pk a b ≠ .eq)
    (hsort : orderingIncludesPk sort pk = true) :
    ∃ s, [Op.connect (some sort) none [], .setConnOutput ⟨0, 0⟩].foldlM Op.run s0 = some s ∧
      AtRest s ⟨0, 0⟩ { sort, output := true } {r | r ∈ initial} ∧ s.primaryKey = pk := by
  obtain ⟨s, hrun, hrest, hkey, -⟩ := atRest_connect sort [] hnew hkeys hsort
  exact ⟨s, hrun, hrest, hkey⟩

theorem mem_connRows_asks (req : FetchRequest) (r : Row) :
    r ∈ R ∧ MemorySource.wanted conn req r = true ↔ r ∈ MemorySource.connRows conn R ∧ asks conn.sort req r = true := by
  simp only [MemorySource.wanted, MemorySource.pastStart, MemorySource.connRows, asks, Bool.and_eq_true, Set.mem_ofPred_eq]
  tauto

theorem AtRest.covers (h : AtRest s id conn R) : SortSpec.Covers conn.sort s.primaryKey := by
  obtain ⟨epoch, hslot⟩ := h.feeds.slot
  have hgood : SortSpec.Covers ({ conn with lastPushedEpoch := epoch } : Connection).sort s.primaryKey :=
    h.ok.conns.good _ (List.mem_of_getElem? hslot)
  exact hgood

theorem AtRest.unique (h : AtRest s id conn R) : KeyUnique s.primaryKey (MemorySource.connRows conn R) :=
  MemorySource.KeyUnique.connRows h.ok.holds.unique

/-- At rest a connection shows its rows. -/
theorem AtRest.shows (h : AtRest s id conn R) {req : FetchRequest} (hreq : req.multiConstraints = []) :
    Shows conn.sort (s.upstream id) (MemorySource.connRows conn R) req := by
  obtain ⟨epoch, hlive⟩ := h.feeds.live
  obtain ⟨rows, s', hfetch, hrows, -, -⟩ := h.ok.fetch_live hlive req
  have hbatches : MemorySource.batches req = [] := by simp [MemorySource.batches, hreq]
  unfold MemorySource.FetchedOn at hrows
  rw [hbatches, h.quiet] at hrows
  have hrows : MemorySource.Fetched s.primaryKey (MemorySource.same R) none { conn with lastPushedEpoch := epoch } req rows := hrows
  have hplain : ({ conn with lastPushedEpoch := epoch } : Connection).pkConstraint = none := h.feeds.plain
  obtain ⟨hsorted, hmem⟩ := hrows.settled hplain rfl
  exact ⟨rows, by simp [MemorySource.upstream, hfetch], hsorted, fun r => (hmem r).trans (mem_connRows_asks req r)⟩

/-- A push leaves the source at rest with the new rows. Meanwhile the connection is sent the change cut
    to its filter, and shows its rows as they will be. -/
theorem AtRest.pushOnce (h : AtRest s id conn R) (hv : ValidChange s.primaryKey R change) (hr : s.ReadsLive reads) (strict : Bool) :
    ∃ p inFlight, s.pushOnce change reads strict = some p ∧ p.result = .ok () ∧ AtRest p.source id conn (applyChange R change) ∧
      p.source.primaryKey = s.primaryKey ∧ p.source.conns.gens = s.conns.gens ∧
      s.deliver change reads id = some (inFlight, filterPush change (conn.filters.map fun f => f.predicate)) ∧
      ((filterPush change (conn.filters.map fun f => f.predicate)).isSome = true →
        ∀ req, Anchored (MemorySource.connRows conn R) req →
          Shows conn.sort (inFlight.upstream id) (MemorySource.connRows conn (applyChange R change)) req) := by
  obtain ⟨s', sent, hpush, hok, hvis, -⟩ := h.ok.pushOnce hr (MemorySource.ValidChange.accepted h.ok.holds hv strict)
  have hkey : s'.primaryKey = s.primaryKey := hvis.key
  have hok' := hok.written (hkey ▸ hv)
  obtain ⟨inFlight, hdel, hok1, hvis1⟩ := h.feeds.deliver h.ok hr change
  refine ⟨_, inFlight, hpush, rfl, ⟨hok', rfl, ?_⟩, hkey, hvis.gens, hdel, fun hsent req hreq => ?_⟩
  · obtain ⟨epoch, hlive⟩ := h.feeds.live
    refine ⟨?_, h.feeds.output, h.feeds.plain, fun c hc => ?_⟩
    · have hlive' : s'.conns.live id = some (MemorySource.stampIf (s.conns.index.pushCandidates change) s.nextEpoch.epoch id.idx
          { conn with lastPushedEpoch := epoch }) := by
        rw [hvis.live, show s.nextEpoch.conns.live id = some { conn with lastPushedEpoch := epoch } from hlive]
        rfl
      unfold MemorySource.stampIf at hlive'
      split at hlive'
      · exact ⟨_, hlive'⟩
      · exact ⟨_, hlive'⟩
    · show id.idx ∈ s'.conns.index.pushCandidates c
      rw [hvis.index]
      exact h.feeds.reach c hc
  · have hset := MemorySource.settles_within h.feeds.plain h.ok.holds.unique h.covers hv hreq.2 fun _ => true
    have hbatches : MemorySource.batches req = [] := by simp [MemorySource.batches, hreq.1]
    obtain ⟨rows, s2, hfetch, hsorted, hmem⟩ :=
      h.feeds.fetch_inFlight h.ok hv hok1 hvis1 (h.feeds.reach change hsent) hbatches hset
    exact ⟨rows, by simp [MemorySource.upstream, hfetch], hsorted, fun r => (hmem r).trans (mem_connRows_asks req r)⟩

theorem AtRest.pushOnce_index (h : AtRest s id conn R) (hv : ValidChange s.primaryKey R change) (hr : s.ReadsLive reads) {strict : Bool}
    {p : MemorySource.Pushed} (hp : s.pushOnce change reads strict = some p) : p.source.conns.index = s.conns.index := by
  obtain ⟨s', sent, hpush, -, hvis, -⟩ := h.ok.pushOnce hr (MemorySource.ValidChange.accepted h.ok.holds hv strict)
  rw [← Option.some.inj (hpush.symm.trans hp)]
  exact hvis.index

/-! ## Histories -/

/-- What every operator step preserves: `inv` of the connection's rows, the state and what downstream
    holds (`hold` applies a change to it), with `room` between any two changes sent. `admits` and
    `allows` are what is asked of the changes and the actions. -/
structure Keeps {η : Type} (op : Operator σ α) (sort : SortSpec) (pk : List Nat) (hold : η → Change → Option η)
    (inv : Set Row → σ → η → Prop) (room : η → Prop) (admits : Set Row → σ → SourceChange Row → Prop)
    (allows : Set Row → σ → α → Prop) : Prop where
  push : ∀ U state held δ up, KeyUnique pk U → ValidChange pk U δ → inv U state held → admits U state δ →
    (∀ req, Anchored U req → Shows sort up (applyChange U δ) req) →
    ∃ state' sent held', op.push up state (.ofSource δ) = some (state', sent) ∧ sent.foldlM hold held = some held' ∧
      inv (applyChange U δ) state' held' ∧ ∀ i, ∃ h, (sent.take i).foldlM hold held = some h ∧ room h
  act : ∀ U state held a up, KeyUnique pk U → inv U state held → allows U state a →
    (∀ req, req.multiConstraints = [] → Shows sort up U req) → ∃ state', op.act up state a = some state' ∧ inv U state' held

/-- What the connection is sent of a change is admitted. -/
def AdmitsOnce (conn : Connection) (admits : Set Row → σ → SourceChange Row → Prop) (R : Set Row) (state : σ) (change : SourceChange Row) :
    Prop :=
  ∀ δ, filterPush change (conn.filters.map fun f => f.predicate) = some δ → admits (MemorySource.connRows conn R) state δ

/-- A push is admitted; of a split edit, both halves. -/
def Admits (op : Operator σ α) (id : ConnId) (conn : Connection) (admits : Set Row → σ → SourceChange Row → Prop) (f : Fed σ) (R : Set Row)
    (reads : MemorySource.Reads) (strict : Bool) : SourceChange Row → Prop
  | .edit old row =>
    if f.source.conns.shouldSplitEdit row old then
      AdmitsOnce conn admits R f.state (.remove old) ∧ ∀ p, pushOnce op id f (.remove old) reads strict = some p →
        AdmitsOnce conn admits (applyChange R (.remove old)) p.fed.state (.add row)
    else AdmitsOnce conn admits R f.state (.edit old row)
  | change => AdmitsOnce conn admits R f.state change

/-- Every event fits the rows and the state it meets. -/
def ValidRun (op : Operator σ α) (id : ConnId) (conn : Connection) (admits : Set Row → σ → SourceChange Row → Prop)
    (allows : Set Row → σ → α → Prop) : Fed σ → Set Row → List (Event α) → Prop
  | _, _, [] => True
  | f, R, e :: events =>
    (match e with
      | .push change reads strict => ValidChange f.source.primaryKey R change ∧ f.source.ReadsLive reads ∧
          Admits op id conn admits f R reads strict change
      | .act a => allows (MemorySource.connRows conn R) f.state a) ∧
    ∀ next, step op id f e = some next → ValidRun op id conn admits allows next.1 (e.apply R) events

section
variable {η : Type} {op : Operator σ α} {hold : η → Change → Option η} {inv : Set Row → σ → η → Prop} {room : η → Prop}
  {admits : Set Row → σ → SourceChange Row → Prop} {allows : Set Row → σ → α → Prop} {f : Fed σ} {held : η}

/-- What is sent fits what downstream holds, at every point in between too. -/
structure Holds (hold : η → Change → Option η) (room : η → Prop) (held : η) (sent : List Change) (held' : η) : Prop where
  all : sent.foldlM hold held = some held'
  between : ∀ i, ∃ h, (sent.take i).foldlM hold held = some h ∧ room h

theorem Holds.append {held' held'' : η} {sent sent' : List Change} (h : Holds hold room held sent held')
    (h' : Holds hold room held' sent' held'') : Holds hold room held (sent ++ sent') held'' := by
  refine ⟨?_, fun i => ?_⟩
  · rw [List.foldlM_append, h.all]
    exact h'.all
  · rw [List.take_append]
    by_cases hi : i ≤ sent.length
    · rw [Nat.sub_eq_zero_of_le hi, List.take_zero, List.append_nil]
      exact h.between i
    · rw [List.take_of_length_le (by omega), List.foldlM_append, h.all]
      exact h'.between (i - sent.length)

/-- Some events lead from `f` with `held` downstream to `f'` with `held'`; the source keeps its connections,
    and so the columns edits are split on. -/
structure Follows (id : ConnId) (conn : Connection) (hold : η → Change → Option η) (inv : Set Row → σ → η → Prop) (room : η → Prop)
    (f : Fed σ) (held : η) (R : Set Row) (f' : Fed σ) (sent : List Change) (held' : η) : Prop where
  rest : AtRest f'.source id conn R
  key : f'.source.primaryKey = f.source.primaryKey
  index : f'.source.conns.index = f.source.conns.index
  inv : inv (MemorySource.connRows conn R) f'.state held'
  holds : Holds hold room held sent held'

theorem Follows.trans {f1 f2 : Fed σ} {R1 R2 : Set Row} {held1 held2 : η} {sent1 sent2 : List Change}
    (h1 : Follows id conn hold inv room f held R1 f1 sent1 held1) (h2 : Follows id conn hold inv room f1 held1 R2 f2 sent2 held2) :
    Follows id conn hold inv room f held R2 f2 (sent1 ++ sent2) held2 :=
  ⟨h2.rest, h2.key.trans h1.key, h2.index.trans h1.index, h2.inv, h1.holds.append h2.holds⟩

section
variable (hk : Keeps op conn.sort f.source.primaryKey hold inv room admits allows) (h : AtRest f.source id conn R)
  (hroom : ∀ U st h, inv U st h → room h) (hinv : inv (MemorySource.connRows conn R) f.state held)
include hk h hroom hinv

theorem Keeps.pushOnce (hv : ValidChange f.source.primaryKey R change) (hr : f.source.ReadsLive reads) (strict : Bool)
    (hadm : AdmitsOnce conn admits R f.state change) :
    ∃ p held', Fed.pushOnce op id f change reads strict = some p ∧ p.result = .ok () ∧
      p.fed.source.conns.gens = f.source.conns.gens ∧
      Follows id conn hold inv room f held (applyChange R change) p.fed p.sent held' := by
  obtain ⟨p, inFlight, hpush, hres, hrest, hkey, hgens, hdel, hshows⟩ := h.pushOnce hv hr strict
  have hindex := h.pushOnce_index hv hr hpush
  unfold Fed.pushOnce
  simp only [hpush, hres, hdel, Option.bind_eq_bind, Option.bind_some]
  cases hδ : filterPush change (conn.filters.map fun f => f.predicate) with
  | none =>
    refine ⟨_, held, rfl, rfl, hgens, hrest, hkey, hindex, ?_, rfl, fun i => ⟨held, by simp, hroom _ _ _ hinv⟩⟩
    rw [MemorySource.filterPush_none hδ]
    exact hinv
  | some δ =>
    obtain ⟨hvδ, hrows⟩ := MemorySource.filterPush_some hv hδ
    have hshows' : ∀ req, Anchored (MemorySource.connRows conn R) req →
        Shows conn.sort (inFlight.upstream id) (applyChange (MemorySource.connRows conn R) δ) req := by
      intro req hreq
      rw [hrows]
      exact hshows (by rw [hδ]; rfl) req hreq
    obtain ⟨state', sent, held', hsent, hall, hinv', hbetween⟩ :=
      hk.push _ f.state held δ (inFlight.upstream id) h.unique hvδ hinv (hadm δ hδ) hshows'
    rw [hrows] at hinv'
    refine ⟨⟨⟨p.source, state'⟩, sent, .ok ()⟩, held', ?_, rfl, hgens, hrest, hkey, hindex, hinv', hall, hbetween⟩
    simp only [hsent, Option.bind_some]

theorem Keeps.tryPush (hv : ValidChange f.source.primaryKey R change) (hr : f.source.ReadsLive reads) (strict : Bool)
    (hadm : Admits op id conn admits f R reads strict change) :
    ∃ p held', Fed.tryPush op id f change reads strict = some p ∧
      Follows id conn hold inv room f held (applyChange R change) p.fed p.sent held' := by
  have hwhole : AdmitsOnce conn admits R f.state change → ∃ p held', Fed.pushOnce op id f change reads strict = some p ∧
      Follows id conn hold inv room f held (applyChange R change) p.fed p.sent held' := by
    intro hadm
    obtain ⟨p, held', hp, -, -, hfollows⟩ := hk.pushOnce h hroom hinv hv hr strict hadm
    exact ⟨p, held', hp, hfollows⟩
  cases change with
  | add r => exact hwhole hadm
  | remove r => exact hwhole hadm
  | edit old row =>
    unfold Fed.tryPush
    simp only [Admits] at hadm
    by_cases hsplit : f.source.conns.shouldSplitEdit row old = true
    · simp only [hsplit, if_true] at hadm ⊢
      have hremove : ValidChange f.source.primaryKey R (.remove old) := hv.1
      obtain ⟨p, held1, hp, hres, hgens, hremoved⟩ := hk.pushOnce h hroom hinv hremove hr strict hadm.1
      have hadd : ValidChange p.fed.source.primaryKey (applyChange R (.remove old)) (.add row) :=
        hremoved.key ▸ MemorySource.ValidChange.addHalf hv
      have hr' : p.fed.source.ReadsLive reads := fun slot sc r hmem => by
        rw [MemorySource.liveIx_congr hgens]
        exact hr slot sc r hmem
      rw [← hremoved.key] at hk
      obtain ⟨q, held2, hq, -, -, hadded⟩ := hk.pushOnce hremoved.rest hroom hremoved.inv hadd hr' strict (hadm.2 p hp)
      refine ⟨{ q with sent := p.sent ++ q.sent }, held2, ?_, hremoved.trans hadded⟩
      simp only [hp, hres, hq, Option.bind_eq_bind, Option.bind_some]
    · simp only [hsplit, Bool.false_eq_true, if_false] at hadm ⊢
      exact hwhole hadm

theorem Keeps.acted {a : α} (ha : allows (MemorySource.connRows conn R) f.state a) :
    ∃ state', op.act (f.source.upstream id) f.state a = some state' ∧ Follows id conn hold inv room f held R ⟨f.source, state'⟩ [] held := by
  obtain ⟨state', hact, hinv'⟩ := hk.act _ f.state held a (f.source.upstream id) h.unique hinv ha fun req hreq => h.shows hreq
  exact ⟨state', hact, h, rfl, rfl, hinv', rfl, fun i => ⟨held, by simp, hroom _ _ _ hinv⟩⟩

end

/-- What every step preserves, a history preserves. -/
theorem run_keeps (hroom : ∀ U st h, inv U st h → room h) (events : List (Event α)) : ∀ {f : Fed σ} {R : Set Row} (held : η),
    Keeps op conn.sort f.source.primaryKey hold inv room admits allows → AtRest f.source id conn R →
    inv (MemorySource.connRows conn R) f.state held → ValidRun op id conn admits allows f R events →
    ∃ f' sent held', run op id f events = some (f', sent) ∧
      Follows id conn hold inv room f held (events.foldl Event.apply R) f' sent held' := by
  induction events with
  | nil =>
    intro f R held _ h hinv _
    exact ⟨f, [], held, rfl, h, rfl, rfl, hinv, rfl, fun i => ⟨held, by simp, hroom _ _ _ hinv⟩⟩
  | cons e events ih =>
    intro f R held hk h hinv hvalid
    obtain ⟨hfits, hrest⟩ := hvalid
    obtain ⟨f1, sent1, held1, hstep, h1⟩ : ∃ f1 sent1 held1, step op id f e = some (f1, sent1) ∧
        Follows id conn hold inv room f held (e.apply R) f1 sent1 held1 := by
      cases e with
      | push change reads strict =>
        obtain ⟨hv, hr, hadm⟩ := hfits
        obtain ⟨p, held', hp, h'⟩ := hk.tryPush h hroom hinv hv hr strict hadm
        exact ⟨p.fed, p.sent, held', by simp [step, hp], h'⟩
      | act a =>
        obtain ⟨state', hact, h'⟩ := hk.acted h hroom hinv hfits
        exact ⟨⟨f.source, state'⟩, [], held, by simp [step, hact], h'⟩
    obtain ⟨f2, sent2, held2, hrun, h2⟩ := ih held1 (h1.key ▸ hk) h1.rest h1.inv (hrest _ hstep)
    exact ⟨f2, sent1 ++ sent2, held2, by simp [run, hstep, hrun], h1.trans h2⟩

end

/-! ## Columns that edits are split on -/

/-- An edit leaves these columns as they are, and they are not null. -/
def KeepsCols (keys : List Nat) (δ : SourceChange Row) : Prop :=
  ∀ old row, δ = .edit old row → ∀ c ∈ keys, (row.cell c).joinEq (old.cell c) = true

section
variable {η : Type} {op : Operator σ α} {hold : η → Change → Option η} {inv : Set Row → σ → η → Prop} {room : η → Prop}
  {admits admits' : Set Row → σ → SourceChange Row → Prop} {allows : Set Row → σ → α → Prop} {keys : List Nat}

end

end Fed

end Rindle
