/-
  Rindle.Source.Filtered — a push seen through filters.

  A list of changes leads from one set of rows to another when each is valid where it meets the
  rows. Filters keep that (`Leads.filter`): what passes a filter leads from the rows it accepts
  to the rows it accepts afterwards, whether an edit goes as one change or as a removal and an
  addition. A source picks one of the two for all its connections at once; a wired connection
  receives its filter's share of whichever was picked (`Posts.received`), so any filter behind it
  ends with the same rows (`filter_push_exact`).
-/

import Rindle.Source.Strict
import Rindle.Source.Postings
import Rindle.Source.Feed

set_option linter.dupNamespace false

namespace Rindle

namespace MemorySource

/-! ## Changes through a filter -/

/-- What `filter_push` sends on of these changes. -/
def filterAll (predicate : Option (Row → Bool)) (changes : List (SourceChange Row)) : List (SourceChange Row) :=
  changes.filterMap fun change => filterPush change predicate

/-- The rows a filter accepts, all of them without one. -/
def filteredRows (predicate : Option (Row → Bool)) (R : Set Row) : Set Row := selectRows (fun r => predicate.all fun p => p r) R

/-- The changes, each valid where it meets the rows, lead from `R` to `R'`. -/
def Leads (pk : List Nat) : Set Row → List (SourceChange Row) → Set Row → Prop
  | R, [], R' => R = R'
  | R, change :: changes, R' => ValidChange pk R change ∧ Leads pk (applyChange R change) changes R'

section
variable {pk : List Nat} {R R' R'' : Set Row} {change : SourceChange Row} {l m : List (SourceChange Row)}

theorem Leads.append (h : Leads pk R l R') (h' : Leads pk R' m R'') : Leads pk R (l ++ m) R'' := by
  induction l generalizing R with
  | nil =>
    obtain rfl : R = R' := h
    exact h'
  | cons change l ih => exact ⟨h.1, ih h.2⟩

theorem Leads.snoc (h : Leads pk R (l ++ [change]) R'') :
    ∃ R', Leads pk R l R' ∧ ValidChange pk R' change ∧ R'' = applyChange R' change := by
  induction l generalizing R with
  | nil => exact ⟨R, rfl, h.1, h.2.symm⟩
  | cons c l ih =>
    obtain ⟨R', hl, hv, hR⟩ := ih h.2
    exact ⟨R', ⟨h.1, hl⟩, hv, hR⟩

theorem Leads.keyUnique (hu : KeyUnique pk R) (h : Leads pk R l R') : KeyUnique pk R' := by
  induction l generalizing R with
  | nil =>
    obtain rfl : R = R' := h
    exact hu
  | cons c l ih => exact ih (ValidChange.keyUnique hu h.1) h.2

theorem filterPush_all (change : SourceChange Row) (predicate : Option (Row → Bool)) :
    filterPush change predicate = filterPush change (some fun r => predicate.all fun p => p r) := by
  cases predicate with
  | none => cases change <;> simp [filterPush]
  | some p => rfl

theorem ValidChange.filtered (hv : ValidChange pk R change) (predicate : Option (Row → Bool)) :
    Leads pk (filteredRows predicate R) (filterPush change predicate).toList (filteredRows predicate (applyChange R change)) := by
  rw [filterPush_all]
  cases hδ : filterPush change (some fun r => predicate.all fun p => p r) with
  | none => exact (selectRows_none hδ).symm
  | some δ => exact selectRows_some hv hδ

theorem filterAll_cons (predicate : Option (Row → Bool)) (change : SourceChange Row) (l : List (SourceChange Row)) :
    filterAll predicate (change :: l) = (filterPush change predicate).toList ++ filterAll predicate l := by
  unfold filterAll
  rw [List.filterMap_cons]
  cases filterPush change predicate with
  | none => rfl
  | some δ => rfl

theorem filterAll_append (predicate : Option (Row → Bool)) (l m : List (SourceChange Row)) :
    filterAll predicate (l ++ m) = filterAll predicate l ++ filterAll predicate m := List.filterMap_append

/-- A filter keeps what the changes lead to. -/
theorem Leads.filter (h : Leads pk R l R') (predicate : Option (Row → Bool)) :
    Leads pk (filteredRows predicate R) (filterAll predicate l) (filteredRows predicate R') := by
  induction l generalizing R with
  | nil => exact congrArg (filteredRows predicate) h
  | cons change l ih =>
    rw [filterAll_cons]
    exact (ValidChange.filtered h.1 predicate).append (ih h.2)

/-- An edit in one piece, and in two. -/
theorem Leads.edit {old row : Row} (hv : ValidChange pk R (.edit old row)) :
    Leads pk R [.edit old row] (applyChange R (.edit old row)) ∧
      Leads pk R [.remove old, .add row] (applyChange R (.edit old row)) :=
  ⟨⟨hv, rfl⟩, hv.1, ValidChange.addHalf hv, rfl⟩

end

/-! ## What a push leaves of the connections -/

section
variable {s s' s'' : MemorySource} {change : SourceChange Row} {reads : Reads}

/-- A connection as it was but for its epoch, and the ids as they were. -/
structure Steady (s s' : MemorySource) : Prop where
  key : s'.primaryKey = s.primaryKey
  gens : s'.conns.gens = s.conns.gens
  conns : ∀ (slot : Nat) (c : Connection), s.conns.conns[slot]? = some c →
    ∃ c', s'.conns.conns[slot]? = some c' ∧ c'.filters = c.filters ∧ c'.output = c.output

theorem Steady.refl (s : MemorySource) : Steady s s := ⟨rfl, rfl, fun _ c hc => ⟨c, hc, rfl, rfl⟩⟩

theorem Steady.trans (h : Steady s s') (h' : Steady s' s'') : Steady s s'' := by
  refine ⟨h'.key.trans h.key, h'.gens.trans h.gens, ?_⟩
  intro slot c hc
  obtain ⟨c', hc', hf', ho'⟩ := h.conns slot c hc
  obtain ⟨c'', hc'', hf'', ho''⟩ := h'.conns slot c' hc'
  exact ⟨c'', hc'', hf''.trans hf', ho''.trans ho'⟩

theorem Steady.readsLive (h : Steady s s') (hr : s.ReadsLive reads) : s'.ReadsLive reads := by
  intro slot sc r hmem
  rw [liveIx_congr h.gens]
  exact hr slot sc r hmem

theorem Grown.steady (h : Grown s s') : Steady s s' := by
  obtain ⟨more, rfl⟩ := h
  exact ⟨rfl, rfl, fun _ c hc => ⟨c, hc, rfl, rfl⟩⟩

theorem Visited.steady {epoch : Nat} {slots : List Nat} (h : Visited change epoch slots s s') : Steady s s' := by
  refine ⟨h.key, h.gens, ?_⟩
  intro slot c hc
  refine ⟨stampIf slots epoch slot c, by rw [h.conns slot, hc]; rfl, ?_, stampIf_output slots epoch slot c⟩
  unfold stampIf
  split
  · rfl
  · rfl

end

/-! ## What a connection receives -/

/-- The changes delivered to a slot, in order. -/
def received (sent : List Delivery) (slot : Nat) : List (SourceChange Row) := (sent.filter fun d => d.1 == slot).map (·.2)

theorem received_append (sent sent' : List Delivery) (slot : Nat) :
    received (sent ++ sent') slot = received sent slot ++ received sent' slot := by
  simp [received]

theorem foldOutput_received (sent : List Delivery) (slot : Nat) (out : Set Row) :
    foldOutput sent slot out = (received sent slot).foldl applyChange out := by
  rw [received, foldOutput, List.foldl_map]

variable {s : MemorySource} {R : Set Row} {C : SortSpec → Set Row} {change : SourceChange Row} {reads : Reads} {live : List ConnId}
  {strict : Bool}

theorem received_deliveries (s : MemorySource) (change : SourceChange Row) (slot : Nat) (slots : List Nat) (hnd : slots.Nodup) :
    received (s.deliveries change slots) slot = if slot ∈ slots then (s.sentTo change slot).toList else [] := by
  induction slots with
  | nil => rfl
  | cons x slots ih =>
    rw [List.nodup_cons] at hnd
    have hcons : s.deliveries change (x :: slots) = ((s.sentTo change x).map fun sc => (x, sc)).toList ++ s.deliveries change slots := by
      simp only [deliveries, List.filterMap_cons]
      cases s.sentTo change x <;> rfl
    rw [hcons, received_append, ih hnd.2]
    by_cases hx : x = slot
    · -- no later delivery is to this slot
      subst hx
      rw [if_neg hnd.1, if_pos List.mem_cons_self, List.append_nil]
      cases s.sentTo change x <;> simp [received]
    · have hskip : received ((s.sentTo change x).map fun sc => (x, sc)).toList slot = [] := by
        cases s.sentTo change x <;> simp [received, hx]
      have hmem : slot ∈ x :: slots ↔ slot ∈ slots := by simp [Ne.symm hx]
      rw [hskip, List.nil_append, if_congr hmem rfl rfl]

/-- A fan-out over the candidates brings a wired connection its filter's share. -/
theorem Posts.received (hp : s.conns.Posts live) (change : SourceChange Row) {slot : Nat} {c : Connection}
    (hc : s.conns.conns[slot]? = some c) (hout : c.output = true) :
    received (s.deliveries change (s.conns.index.pushCandidates change)) slot =
      (filterPush change (c.filters.map fun f => f.predicate)).toList := by
  have hnd : (s.conns.index.pushCandidates change).Nodup :=
    (PushIndex.pushCandidates_sorted _ change).imp fun hlt => Nat.ne_of_lt hlt
  have hto : s.sentTo change slot = filterPush change (c.filters.map fun f => f.predicate) := by
    simp [sentTo, hc, hout]
  rw [received_deliveries s change slot _ hnd, hto]
  obtain ⟨id, hid, rfl⟩ := hp.wired slot c hc hout
  obtain ⟨hposted, hguard⟩ := hp.posted id hid c hc
  by_cases hmem : id.idx ∈ s.conns.index.pushCandidates change
  · rw [if_pos hmem]
  · rw [if_neg hmem]
    have hno : ¬c.takes change = true := fun htakes => hmem (hposted.candidate hguard htakes)
    rw [Connection.takes_iff, Bool.not_eq_true, Option.isSome_eq_false_iff, Option.isNone_iff_eq_none] at hno
    rw [hno]
    rfl

/-! ## A push -/

/-- What a source pushes of a change, one piece after the other. -/
@[grind] def pieces (s : MemorySource) : SourceChange Row → List (SourceChange Row)
  | .edit old row => if s.conns.shouldSplitEdit row old then [.remove old, .add row] else [.edit old row]
  | change => [change]

/-- Either way a source encodes a change, it leads to the rows after it. -/
theorem pieces_lead {pk : List Nat} (hv : ValidChange pk R change) : Leads pk R (s.pieces change) (applyChange R change) := by
  cases change with
  | add r => exact ⟨hv, rfl⟩
  | remove r => exact ⟨hv, rfl⟩
  | edit old row =>
    by_cases hsplit : s.conns.shouldSplitEdit row old = true
    · simp only [pieces, hsplit, if_true]
      exact (Leads.edit hv).2
    · simp only [pieces, hsplit, Bool.false_eq_true, if_false]
      exact (Leads.edit hv).1

/-- A push sends every wired connection its filter's share of these changes. -/
def Sends (s : MemorySource) (sent : List Delivery) (l : List (SourceChange Row)) : Prop :=
  ∀ (slot : Nat) (c : Connection), s.conns.conns[slot]? = some c → c.output = true →
    MemorySource.received sent slot = filterAll (c.filters.map fun f => f.predicate) l

theorem Ok.pushOnce_sent (h : s.Ok C) (hr : s.ReadsLive reads) (hc : assertChangeExistenceChecked change s.present strict = .ok ())
    {p : Pushed} (hpush : s.pushOnce change reads strict = some p) :
    p.sent = s.deliveries change (s.conns.index.pushCandidates change) := by
  obtain ⟨s1, sent, hfan, -, -, -, hsent⟩ := Ok.fanOut change s.nextEpoch.epoch _ h.nextEpoch hr
    (PushIndex.pushCandidates_below h.conns.index change)
  have hc' : assertChangeExistenceChecked change s.nextEpoch.present strict = .ok () := hc
  simp only [MemorySource.pushOnce, tryGenPushAndWrite, hc'] at hpush
  rw [show MemorySource.fanOut change s.nextEpoch.epoch reads (s.nextEpoch.conns.index.pushCandidates change) s.nextEpoch =
    some (s1, sent) from hfan] at hpush
  rw [← Option.some.inj hpush]
  exact hsent

theorem Ok.pushOnce_sends (h : s.Ok (same R)) (hp : s.conns.Posts live) (hr : s.ReadsLive reads)
    (hv : ValidChange s.primaryKey R change) (strict : Bool) :
    ∃ p, s.pushOnce change reads strict = some p ∧ p.result = .ok () ∧ p.source.Ok (same (applyChange R change)) ∧
      Steady s p.source ∧ p.source.conns.Posts live ∧ s.Sends p.sent [change] := by
  have hc := ValidChange.accepted h.holds hv strict
  obtain ⟨s1, sent, heq, -, hvis, -⟩ := h.pushOnce hr hc
  obtain ⟨p, hpush, hres, hok, hkey, hgens⟩ := h.pushValid hr hv strict
  obtain rfl := Option.some.inj (heq.symm.trans hpush)
  have hsteady : Steady s s1 := ⟨hvis.key, hvis.gens, hvis.steady.conns⟩
  refine ⟨_, heq, hres, hok, ⟨hkey, hgens, hsteady.conns⟩, Posts.pushOnce h hp hr hv heq, ?_⟩
  intro slot c hget hout
  rw [h.pushOnce_sent hr hc heq, Posts.received hp change hget hout, filterAll_cons]
  exact (List.append_nil _).symm

/-- A push sends what it is made of. -/
theorem Ok.tryPush_sends (h : s.Ok (same R)) (hp : s.conns.Posts live) (hr : s.ReadsLive reads)
    (hv : ValidChange s.primaryKey R change) (strict : Bool) :
    ∃ p, s.tryPush change reads strict = some p ∧ p.result = .ok () ∧ s.Sends p.sent (s.pieces change) := by
  have hwhole : s.tryPush change reads strict = s.pushOnce change reads strict → s.pieces change = [change] →
      ∃ p, s.tryPush change reads strict = some p ∧ p.result = .ok () ∧ s.Sends p.sent (s.pieces change) := by
    intro heq hpieces
    obtain ⟨p, hpush, hres, -, -, -, hsends⟩ := h.pushOnce_sends hp hr hv strict
    exact ⟨p, heq.trans hpush, hres, hpieces ▸ hsends⟩
  cases change with
  | add r => exact hwhole rfl rfl
  | remove r => exact hwhole rfl rfl
  | edit old row =>
    by_cases hsplit : s.conns.shouldSplitEdit row old = true
    · have hremove : ValidChange s.primaryKey R (.remove old) := hv.1
      obtain ⟨p, heq, hres, hok, hsteady, hp', hsends⟩ := h.pushOnce_sends hp hr hremove strict
      have hadd : ValidChange p.source.primaryKey (applyChange R (.remove old)) (.add row) :=
        hsteady.key ▸ ValidChange.addHalf hv
      obtain ⟨q, heq', hres', -, -, -, hsends'⟩ := hok.pushOnce_sends hp' (hsteady.readsLive hr) hadd strict
      refine ⟨{ q with sent := p.sent ++ q.sent }, ?_, hres', ?_⟩
      · simp only [MemorySource.tryPush, hsplit, if_true, heq, hres, heq', Option.bind_eq_bind, Option.bind_some]
      · -- the same connections, with the same filters, see both halves
        intro slot c hget hout
        obtain ⟨c', hget', hf, ho⟩ := hsteady.conns slot c hget
        have hsecond := hsends' slot c' hget' (ho.trans hout)
        rw [hf] at hsecond
        simp only [pieces, hsplit, if_true]
        rw [received_append, hsends slot c hget hout, hsecond, ← filterAll_append]
        rfl
    · refine hwhole ?_ ?_
      · simp only [MemorySource.tryPush, hsplit, Bool.false_eq_true, if_false]
      · simp only [pieces, hsplit, Bool.false_eq_true, if_false]

/-- After any history, for any valid change: any filter leads from the rows it accepts to the rows it
    accepts afterwards, an edit's two encodings alike; and whichever one is pushed, any filter behind
    any wired connection ends with the rows that both filters accept. -/
theorem filter_push_exact {width : Nat} {pk : List Nat} {initial : List Row} {s : MemorySource} (hnew : tryNew width pk initial = .ok s)
    (hkeys : initial.Pairwise fun a b => keyCmp pk a b ≠ .eq) {ops : List Op} (hv : ValidRun s {r | r ∈ initial} ops)
    (hu : UsesLive s [] ops) :
    ∃ s', ops.foldlM Op.run s = some s' ∧ ∀ change, ValidChange s'.primaryKey ((pushed ops).foldl applyChange {r | r ∈ initial}) change →
      let R := (pushed ops).foldl applyChange {r | r ∈ initial}
      let R' := applyChange R change
      (∀ predicate, Leads s'.primaryKey (filteredRows predicate R) (filterPush change predicate).toList (filteredRows predicate R')) ∧
      (∀ old row, change = .edit old row → ∀ predicate,
        Leads s'.primaryKey (filteredRows predicate R) (filterAll predicate [.remove old, .add row]) (filteredRows predicate R')) ∧
      ∀ reads strict, s'.ReadsLive reads → ∃ p, s'.tryPush change reads strict = some p ∧
        ∀ (slot : Nat) (c : Connection), s'.conns.conns[slot]? = some c → c.output = true → ∀ predicate,
          Leads s'.primaryKey (filteredRows predicate (connRows c R)) (filterAll predicate (received p.sent slot))
            (filteredRows predicate (connRows c R')) := by
  obtain ⟨s', hrun, hok⟩ := run_ok ops (tryNew_ok hnew hkeys) hv
  rw [apply_pushed] at hok
  have hposts := run_posts ops (tryNew_ok hnew hkeys) (tryNew_posts hnew) hv hu hrun
  refine ⟨s', hrun, fun change hvalid => ⟨ValidChange.filtered hvalid, ?_, ?_⟩⟩
  · intro old row hedit predicate
    subst hedit
    exact (Leads.edit hvalid).2.filter predicate
  · intro reads strict hr
    obtain ⟨p, hpush, -, hsends⟩ := hok.tryPush_sends hposts hr hvalid strict
    refine ⟨p, hpush, ?_⟩
    intro slot c hget hout predicate
    rw [hsends slot c hget hout]
    have hconn : ∀ R, filteredRows (c.filters.map fun f => f.predicate) R = connRows c R := by
      intro R
      unfold filteredRows connRows Connection.accepts
      cases c.filters <;> rfl
    have hlead := (pieces_lead (s := s') hvalid).filter (c.filters.map fun f => f.predicate)
    rw [hconn, hconn] at hlead
    exact hlead.filter predicate

/-- An edit that goes as two changes: a filter on the old value behind the connection ends without the row. -/
theorem filter_push_exact_split : ∃ s0 s p, tryNew 2 [0] [[.int 1, .int 10], [.int 2, .int 20]] = .ok s0 ∧
    [Op.connect (some [(0, true)]) none [1], .setConnOutput ⟨0, 0⟩].foldlM Op.run s0 = some s ∧
    s.pieces (.edit [.int 1, .int 10] [.int 1, .int 30]) = [.remove [.int 1, .int 10], .add [.int 1, .int 30]] ∧
    s.tryPush (.edit [.int 1, .int 10] [.int 1, .int 30]) (fun _ _ => []) true = some p ∧
    ∀ c, s.conns.conns[0]? = some c → c.output = true →
      Leads s.primaryKey (filteredRows (some fun r => valuesIdentical (.int 10) (r.cell 1))
          (connRows c {r | r ∈ [[Value.int 1, .int 10], [.int 2, .int 20]]}))
        (filterAll (some fun r => valuesIdentical (.int 10) (r.cell 1)) (received p.sent 0))
        (filteredRows (some fun r => valuesIdentical (.int 10) (r.cell 1)) (connRows c (applyChange
          {r | r ∈ [[Value.int 1, .int 10], [.int 2, .int 20]]} (.edit [.int 1, .int 10] [.int 1, .int 30])))) := by
  obtain ⟨s0, s, hnew, hrun, -, hkey, hsplit, hhas⟩ := splitting_ok
  have hkeys : [[Value.int 1, .int 10], [.int 2, .int 20]].Pairwise fun a b => keyCmp [0] a b ≠ .eq := by decide +kernel
  have hv : ValidRun s0 {r | r ∈ [[Value.int 1, .int 10], [.int 2, .int 20]]}
      [Op.connect (some [(0, true)]) none [1], .setConnOutput ⟨0, 0⟩] := by
    rw [← Except.ok.inj hnew]
    exact ⟨rfl, fun s1 h1 => ⟨by rw [← Option.some.inj h1]; rfl, fun _ _ => trivial⟩⟩
  have hu : UsesLive s0 [] [Op.connect (some [(0, true)]) none [1], .setConnOutput ⟨0, 0⟩] := by
    rw [← Except.ok.inj hnew]
    exact ⟨fun f hf => (by cases hf), fun s1 h1 => ⟨List.mem_cons_self, fun _ _ => trivial⟩⟩
  obtain ⟨s', hrun', hall⟩ := filter_push_exact hnew hkeys hv hu
  obtain rfl := Option.some.inj (hrun.symm.trans hrun')
  have hvalid : ValidChange s.primaryKey {r | r ∈ [[Value.int 1, .int 10], [.int 2, .int 20]]}
      (.edit [.int 1, .int 10] [.int 1, .int 30]) := by
    rw [hkey]
    refine ⟨List.mem_cons_self, ?_⟩
    show ∀ x ∈ [[Value.int 1, .int 10], [.int 2, .int 20]], _
    decide +kernel
  obtain ⟨-, -, hsends⟩ := hall _ hvalid
  obtain ⟨p, hpush, hleads⟩ := hsends (fun _ _ => []) true fun _ _ r hr => by cases hr
  have hpieces : s.conns.shouldSplitEdit [.int 1, .int 30] [.int 1, .int 10] = true := by
    rw [ConnTable.shouldSplitEdit, hsplit, hhas]
    decide +kernel
  refine ⟨s0, s, p, hnew, hrun, ?_, hpush, fun c hget hout => hleads 0 c hget hout _⟩
  simp only [pieces, hpieces, if_true]

end MemorySource

end Rindle
