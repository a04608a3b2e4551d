/-
  Rindle.Streams.SingleFlight — when a message row has one producer at a time.

  The open write re-checks the row's status but not its length, and a compaction checks nothing.
  While neither comes late (`Fit`) the row is empty, or it holds the text of its host alone: of
  the other producers each has not opened the row yet or has closed it with nothing on it
  (`Rests`). So no open succeeds on a row with characters, what a producer has counted as durable
  is its own, and the stored text only grows.

  - `opens_single_flight`: over every run whose open writes and compactions come in time.
  - `late_open_lands`: a producer that has probed the empty row opens it after another's close.
-/

import Rindle.Streams.Open

set_option linter.dupNamespace false

namespace Rindle.Streams

open Rindle.Slices

variable {opts : PlaneOpts}

/-- Nothing is on the row. -/
structure Store.Empty (st : Store) : Prop where
  body : st.message.body = []
  seq : st.message.seq = 0
  chunks : st.chunks = []

/-! ## A producer that closed with nothing -/

/-- Nothing was produced and nothing more can be: only empty compactions are in flight. -/
structure World.Spent (w : World) : Prop where
  kept : w.stream.Kept
  untrimmed : w.stream.bufFrom = 0
  produced : w.stream.produced = []
  sealing : w.stream.sealing.isSome
  flights : ∀ f ∈ w.flights, ∃ status error, f.batch = .compact [] status error

namespace World

variable {w w' : World}

theorem Spent.moved (h : Spent w) {s' : LiveStream} {stage : Option Stage} (hkept : s'.Kept) (hm : Moves w.stream s') :
    Spent { w with stream := s', stage := stage } := by
  obtain ⟨hsealing, hsame⟩ := hm.sealed h.sealing
  exact ⟨hkept, hm.untrimmed h.untrimmed, hsame.trans h.produced, hsealing, h.flights⟩

theorem Spent.no_tail (h : Spent w) {i j : Nat} {text : Text} (hround : w.stream.round = some (.tail i j text)) : False := by
  obtain ⟨hlt, hle, -⟩ := h.kept.tail i j text hround
  rw [h.produced] at hle
  exact absurd (Nat.lt_of_lt_of_le hlt hle) (Nat.not_lt_zero _)

theorem Spent.failAttempt (h : Spent w) (k : Nat) : Spent (w.failAttempt opts k) := by
  unfold World.failAttempt
  split
  · exact h.moved h.kept (Moves.refl _)
  split
  · exact h.moved h.kept.sealDone (sealDone_moves h.kept false).1
  · exact h.moved h.kept (Moves.refl _)

/-- Whatever the row holds. -/
theorem Spent.step (h : Spent w) (hstep : Step opts w w') : Spent w' := by
  cases hstep with
  | outside he hs => exact h.moved (h.kept.step hs) (outside_moves he hs).1
  | tailRound hs =>
    cases hs with
    | commitTail _ hnone _ _ =>
      have hsome := h.sealing
      rw [hnone] at hsome
      cases hsome
  | closeRound hs =>
    have hkept := h.kept.step hs
    cases hs with
    | commitSeal _ _ _ => exact h.moved hkept (moves_of_same rfl rfl (fun h => h) rfl (Nat.le_refl _))
  | issue _ hb =>
    refine ⟨h.kept, h.untrimmed, h.produced, h.sealing, ?_⟩
    intro f hf
    rcases List.mem_append.mp hf with hf | hf
    · exact h.flights f hf
    · rw [List.mem_singleton.mp hf]
      unfold LiveStream.batch? at hb
      split at hb
      · cases hb
      · rename_i hround
        exact (h.no_tail hround).elim
      · obtain ⟨sealing, -, rfl⟩ := Option.map_eq_some_iff.mp hb
        refine ⟨sealing.status, sealing.error, ?_⟩
        rw [h.kept.buf, h.produced, List.drop_nil]
  | commits hf =>
    refine ⟨h.kept, h.untrimmed, h.produced, h.sealing, ?_⟩
    intro f hmem
    rcases List.mem_or_eq_of_mem_set hmem with hmem | rfl
    · exact h.flights f hmem
    · exact h.flights ⟨_, false⟩ (List.mem_of_getElem? hf)
  | appendAcked _ _ => exact h.moved h.kept (Moves.refl _)
  | appendThrew _ _ => exact h.moved h.kept (Moves.refl _)
  | closeAcked _ _ _ => exact h.moved h.kept.sealDone (sealDone_moves h.kept true).1
  | closeThrew _ _ => exact h.failAttempt _
  | confirmRead _ => exact h.moved h.kept (Moves.refl _)
  | recheckRead _ => exact h.moved h.kept (Moves.refl _)
  | probeRead _ => exact h.moved h.kept (Moves.refl _)
  | confirmed _ hround => exact (h.no_tail hround).elim
  | rechecked _ hround _ => exact (h.no_tail hround).elim
  | recheckShort _ hround _ => exact (h.no_tail hround).elim
  | confirmThrew _ => exact h.failAttempt _
  | recheckThrew _ => exact h.failAttempt _
  | probed _ hround => exact (h.no_tail hround).elim
  | probeThrew _ hround => exact (h.no_tail hround).elim

/-- A row that its producer has compacted, and that is empty, has left it spent. -/
theorem Ok.spent (h : Ok w) (hdone : Compacted w) (hempty : w.store.message.seq = 0) : Spent w := by
  have hproduced : w.stream.produced = [] := by
    rw [← List.length_eq_zero_iff, ← hdone.seq, hempty]
  refine ⟨h.kept, h.untrimmed, hproduced, hdone.sealing, ?_⟩
  intro f hf
  have hok := h.flights f hf
  obtain ⟨b, committed⟩ := f
  cases b with
  | append i j text =>
    obtain ⟨hlt, hle, -⟩ := hok
    rw [hproduced] at hle
    exact absurd (Nat.lt_of_lt_of_le hlt hle) (Nat.not_lt_zero _)
  | compact body status error =>
    obtain ⟨-, hbody⟩ := hok
    rw [hproduced] at hbody
    exact ⟨status, error, by rw [hbody]⟩

end World

/-! ## The invariant -/

namespace Plane

variable {ι : Type}

/-- A producer that is not the host: it closed with nothing, or has not opened the row. -/
def Rests (p : Plane ι) (i : ι) : Prop :=
  (p.world i).Spent ∨
    (∃ streamId, (p.producers i).stream = { streamId := streamId }) ∧ (p.producers i).flights = [] ∧ (p.producers i).stage = none ∧
      (p.producers i).phase ≠ .opened ∧ p.landed i = none

/-- The row is empty and nobody writes to it, or it is its host's. -/
def Owned (p : Plane ι) : Prop :=
  p.store.Empty ∧ (∀ i, p.Rests i) ∨
    ∃ i, p.host = some i ∧ (p.world i).Ok ∧ (p.streaming = false → (p.world i).Compacted) ∧ ∀ j, j ≠ i → p.Rests j

/-- The producer has probed the row, and its open write may be on its way. -/
def Past (producer : Producer ι) : Prop := producer.phase ≠ .idle ∧ producer.phase ≠ .refused ∨ producer.marks ≠ []

structure Kept (p : Plane ι) : Prop where
  owned : p.Owned
  landed : ∀ i x, p.landed i = some x → x = (0, false)
  host : ∀ i, p.host = some i → (p.landed i).isSome
  seen : ∀ i k, (p.producers i).phase = .verifying k (some (some i)) → (p.landed i).isSome
  opened : ∀ i, (p.producers i).phase = .opened → (p.landed i).isSome
  /-- A row that is not streaming is as empty as it was when it was probed, unless that is said. -/
  past : ∀ i, Past (p.producers i) → p.stale i = true ∨ p.host = some i ∨ p.streaming = true ∨ p.store.message.seq = 0
  stale : ∀ i, p.stale i = true → p.store.message.seq ≠ 0

variable {i : ι} {b : Batch} {p : Plane ι} {p p' : Plane ι}

/-- Whether a producer rests does not depend on the row. -/
theorem Rests.of_same {j : ι} (hproducer : p'.producers j = p.producers j) (hlanded : p'.landed j = p.landed j) (h : p.Rests j) :
    p'.Rests j := by
  rcases h with hspent | hfresh
  · refine .inl ⟨?_, ?_, ?_, ?_, ?_⟩
    all_goals simp only [world, hproducer]
    · exact hspent.kept
    · exact hspent.untrimmed
    · exact hspent.produced
    · exact hspent.sealing
    · exact hspent.flights
  · refine .inr ?_
    rw [hproducer, hlanded]
    exact hfresh

/-- A producer that is open and rests has closed with nothing. -/
theorem Rests.spent (h : p.Rests i) (hwhy : (p.producers i).phase = .opened ∨ (p.producers i).flights ≠ []) :
    (p.world i).Spent := by
  rcases h with hspent | ⟨-, hflights, -, hphase, -⟩
  · exact hspent
  · rcases hwhy with ho | hf
    · exact absurd ho hphase
    · exact absurd hflights hf

theorem kept_written (streamId : String) : (written streamId : Plane ι).Kept := by
  refine ⟨.inl ⟨⟨rfl, rfl, rfl⟩, fun i => .inr ⟨⟨streamId, rfl⟩, rfl, rfl, by simp [written], rfl⟩⟩, ?_, ?_, ?_, ?_, ?_, ?_⟩
  · intro i x h
    cases h
  · intro i h
    cases h
  · intro i k h
    cases h
  · intro i h
    cases h
  · intro i _
    exact .inr (.inr (.inr rfl))
  · intro i h
    cases h

/-- What a client reads of the row. -/
def stored (p : Plane ι) : Text := assembleDurableText p.store.message p.store.chunks

theorem stored_empty (h : p.store.Empty) : p.stored = [] := by
  simp [stored, assembleDurableText, h.body, h.chunks]

/-- Past the compaction an append changes nothing. -/
theorem apply_stale (hok : (p.world i).Ok) (hdone : (p.world i).Compacted) {fromSeq seq : Nat} {text : Text}
    (hf : ⟨.append fromSeq seq text, false⟩ ∈ (p.producers i).flights) :
    p.store.apply (p.producers i).stream.streamId (.append fromSeq seq text) = p.store := by
  obtain ⟨hlt, hle, -⟩ := hok.flights _ hf
  refine World.apply_append_stale ?_
  intro heq
  have hseq : p.store.message.seq = (p.producers i).stream.produced.length := hdone.seq
  have hle : seq ≤ (p.producers i).stream.produced.length := hle
  omega

variable [DecidableEq ι]

@[simp] theorem set_self (p : Plane ι) (i : ι) (producer : Producer ι) : (p.set i producer).producers i = producer :=
  Function.update_self ..

theorem set_other (p : Plane ι) {i j : ι} (h : j ≠ i) (producer : Producer ι) : (p.set i producer).producers j = p.producers j :=
  Function.update_of_ne h ..

theorem set_world_other (p : Plane ι) {i j : ι} (h : j ≠ i) (producer : Producer ι) : (p.set i producer).world j = p.world j := by
  simp [world, set, Function.update_of_ne h]

theorem Rests.set_other {i j : ι} (hj : j ≠ i) (producer : Producer ι) (h : p.Rests j) : (p.set i producer).Rests j := by
  unfold Rests
  rw [set_world_other p hj, Plane.set_other p hj]
  exact h

/-- A step of an open alone. -/
theorem Kept.phase (h : p.Kept) {producer : Producer ι} (hstream : producer.stream = (p.producers i).stream)
    (hflights : producer.flights = (p.producers i).flights) (hstage : producer.stage = (p.producers i).stage)
    (hseen : ∀ k, producer.phase = .verifying k (some (some i)) → (p.landed i).isSome)
    (hopened : producer.phase = .opened → (p.landed i).isSome) (hpast : Past producer → Past (p.producers i) ∨ p.store.message.seq = 0) :
    (p.set i producer).Kept := by
  have hworld : ∀ j, (p.set i producer).world j = p.world j := by
    intro j
    by_cases hj : j = i
    · subst hj
      simp [world, hstream, hflights, hstage, Plane.set]
    · exact set_world_other p hj producer
  have hrests : ∀ j, p.Rests j → (p.set i producer).Rests j := by
    intro j hrest
    by_cases hj : j = i
    · subst hj
      rcases hrest with hspent | ⟨hid, hf, hst, hphase, hlanded⟩
      · exact .inl (hworld j ▸ hspent)
      refine .inr ⟨?_, ?_, ?_, ?_, hlanded⟩
      · rw [set_self, hstream]
        exact hid
      · rw [set_self, hflights]
        exact hf
      · rw [set_self, hstage]
        exact hst
      · rw [set_self]
        intro ho
        have hsome := hopened ho
        rw [hlanded] at hsome
        cases hsome
    · exact hrest.set_other hj producer
  refine ⟨?_, h.landed, h.host, ?_, ?_, ?_, h.stale⟩
  · rcases h.owned with ⟨hempty, hall⟩ | ⟨j, hhost, hok, hdone, hothers⟩
    · exact .inl ⟨hempty, fun j => hrests j (hall j)⟩
    · refine .inr ⟨j, hhost, ?_, ?_, fun j' hj' => hrests j' (hothers j' hj')⟩
      · rw [hworld]
        exact hok
      · rw [hworld]
        exact hdone
  · intro j k hphase
    by_cases hj : j = i
    · subst hj
      rw [set_self] at hphase
      exact hseen k hphase
    · rw [Plane.set_other p hj] at hphase
      exact h.seen j k hphase
  · intro j hphase
    by_cases hj : j = i
    · subst hj
      rw [set_self] at hphase
      exact hopened hphase
    · rw [Plane.set_other p hj] at hphase
      exact h.opened j hphase
  · intro j hp
    by_cases hj : j = i
    · subst hj
      rw [set_self] at hp
      rcases hpast hp with hp | hseq
      · exact h.past j hp
      · exact .inr (.inr (.inr hseq))
    · rw [Plane.set_other p hj] at hp
      exact h.past j hp

/-! ## Open writes -/

theorem Empty.marked {st : Store} (h : st.Empty) : ({ st with message := { st.message with status := none } } : Store).Empty :=
  ⟨h.body, h.seq, h.chunks⟩

/-- The row is empty when another producer's open write takes effect. -/
theorem Kept.empty (h : p.Kept) (hrow : p.streaming = false) (hseq : p.store.message.seq = 0) :
    p.store.Empty ∧ ∀ j, p.Rests j := by
  rcases h.owned with hfree | ⟨j, hj, hok, hdone, hothers⟩
  · exact hfree
  · have hdone := hdone hrow
    have hspent := hok.spent hdone hseq
    refine ⟨⟨hdone.body.trans hspent.produced, hseq, hdone.chunks⟩, ?_⟩
    intro j'
    by_cases hj' : j' = j
    · subst hj'
      exact .inl hspent
    · exact hothers j' hj'

/-- A producer that has not opened the row has it to itself. -/
theorem ok_fresh {w : World} {streamId : String} (hempty : w.store.Empty) (hstream : w.stream = { streamId := streamId }) (hflights : w.flights = [])
    (hstage : w.stage = none) : w.Ok := by
  obtain ⟨stream, store, flights, stage⟩ := w
  subst hstream
  subst hflights
  subst hstage
  have hseq : store.message.seq = 0 := hempty.seq
  refine ⟨LiveStream.kept_init streamId, rfl, by simp, .inl ⟨hempty.body, ?_, ?_⟩, by simp, Nat.zero_le _, by simp, by simp⟩
  · show Tiles [] 0 (store.chunks.map ChunkRow.slice) store.message.seq
    rw [hempty.chunks, hseq]
    exact Tiles.none (Nat.le_refl 0)
  · intro row hrow
    rw [show store.chunks = [] from hempty.chunks] at hrow
    cases hrow

theorem Ok.restatused {w : World} (h : w.Ok) (status : Option StreamStatus) :
    World.Ok { w with store := { w.store with message := { w.store.message with status := status } } } := by
  have hdone : w.Compacted → World.Compacted { w with store := { w.store with message := { w.store.message with status := status } } } :=
    fun c => ⟨c.sealing, c.body, c.seq, c.chunks⟩
  refine ⟨h.kept, h.untrimmed, h.flights, ?_, fun b st e hf => hdone (h.compacted b st e hf), h.durable, h.seen, fun hs => hdone (h.sealed hs)⟩
  exact h.store.imp (fun a => ⟨a.body, a.tiles, a.ids⟩) hdone

/-- What an open write that takes effect leaves. -/
structure Marks (p : Plane ι) (i : ι) (p' : Plane ι) : Prop where
  world : ∀ j, p'.world j = { p.world j with store := { p.store with message := { p.store.message with status := none } } }
  store : p'.store = { p.store with message := { p.store.message with status := none } }
  producers : p'.producers = p.producers
  host : p'.host = some i
  streaming : p'.streaming = true
  landed : p'.landed = Function.update p.landed i ((p.landed i).or (some (p.store.message.seq, false)))
  stale : p'.stale = p.stale

theorem marks_markStreaming (hrow : p.streaming = false) : p.Marks i (p.markStreaming i) := by
  rw [Plane.markStreaming, if_neg (by simp [hrow]), hrow]
  exact ⟨fun _ => rfl, rfl, rfl, rfl, rfl, rfl, rfl⟩

theorem Marks.landed_mono (h : p.Marks i p') {j : ι} (hj : (p.landed j).isSome) : (p'.landed j).isSome := by
  rw [h.landed]
  by_cases hji : j = i
  · subst hji
    simp
  · rw [Function.update_of_ne hji]
    exact hj

theorem Marks.rests (h : p.Marks i p') {j : ι} (hrest : p.Rests j) (hwhy : (p.world j).Spent ∨ j ≠ i) : p'.Rests j := by
  have hspend : (p.world j).Spent → p'.Rests j := by
    intro hspent
    refine .inl ?_
    rw [h.world j]
    exact ⟨hspent.kept, hspent.untrimmed, hspent.produced, hspent.sealing, hspent.flights⟩
  rcases hrest with hspent | ⟨hid, hf, hst, hphase, hnone⟩
  · exact hspend hspent
  · rcases hwhy with hspent | hji
    · exact hspend hspent
    · unfold Rests
      rw [h.producers, h.landed, Function.update_of_ne hji]
      exact .inr ⟨hid, hf, hst, hphase, hnone⟩

/-- The row is empty, and the writer has it to itself; or it is the writer's already. -/
theorem Marks.owned (h : p.Marks i p') (hkept : p.Kept) (hrow : p.streaming = false)
    (hcase : p.store.message.seq = 0 ∨ p.host = some i ∧ p.store.message.seq ≠ 0) : p'.Owned := by
  have hstreaming : p'.streaming = false → (p'.world i).Compacted := by
    intro hno
    rw [h.streaming] at hno
    cases hno
  rcases hcase with hseq | ⟨hi, hseq⟩
  · obtain ⟨hempty, hall⟩ := hkept.empty hrow hseq
    rcases hall i with hspent | ⟨⟨streamId, hid⟩, hf, hst, -, -⟩
    · refine .inl ⟨by rw [h.store]; exact Empty.marked hempty, ?_⟩
      intro j
      refine h.rests (hall j) ?_
      by_cases hji : j = i
      · subst hji
        exact .inl hspent
      · exact .inr hji
    · refine .inr ⟨i, h.host, ?_, hstreaming, fun j hji => h.rests (hall j) (.inr hji)⟩
      rw [h.world i]
      exact ok_fresh (Empty.marked hempty) hid hf hst
  · rcases hkept.owned with ⟨hempty, -⟩ | ⟨j, hj, hok, -, hothers⟩
    · exact absurd hempty.seq hseq
    · cases hi.symm.trans hj
      refine .inr ⟨i, h.host, ?_, hstreaming, fun j hji => h.rests (hothers j hji) (.inr hji)⟩
      rw [h.world i]
      exact Ok.restatused hok none

theorem Kept.markStreaming (h : p.Kept) (hpast : Past (p.producers i)) (hfit : p.streaming = false → p.stale i = false) :
    (p.markStreaming i).Kept := by
  cases hrow : p.streaming with
  | true =>
    rw [Plane.markStreaming, if_pos hrow]
    exact h
  | false =>
    have hmarks := marks_markStreaming (i := i) hrow
    have hcase : p.store.message.seq = 0 ∨ p.host = some i ∧ p.store.message.seq ≠ 0 := by
      by_cases hseq : p.store.message.seq = 0
      · exact .inl hseq
      rcases h.past i hpast with hs | hi | hst | hz
      · rw [hfit hrow] at hs
        cases hs
      · exact .inr ⟨hi, hseq⟩
      · rw [hrow] at hst
        cases hst
      · exact .inl hz
    refine ⟨hmarks.owned h hrow hcase, ?_, ?_, ?_, ?_, fun j _ => .inr (.inr (.inl hmarks.streaming)), ?_⟩
    · intro j x hx
      rw [hmarks.landed] at hx
      by_cases hji : j = i
      · subst hji
        rw [Function.update_self] at hx
        cases hl : p.landed j with
        | some y =>
          rw [hl] at hx
          cases hx
          exact h.landed j _ hl
        | none =>
          rw [hl] at hx
          cases hx
          rcases hcase with hseq | ⟨hi, -⟩
          · rw [hseq]
          · have hsome := h.host j hi
            rw [hl] at hsome
            cases hsome
      · rw [Function.update_of_ne hji] at hx
        exact h.landed j x hx
    · intro j hj
      cases hmarks.host.symm.trans hj
      rw [hmarks.landed]
      simp
    · intro j k hphase
      rw [hmarks.producers] at hphase
      exact hmarks.landed_mono (h.seen j k hphase)
    · intro j hphase
      rw [hmarks.producers] at hphase
      exact hmarks.landed_mono (h.opened j hphase)
    · intro j hj
      rw [hmarks.stale] at hj
      rw [hmarks.store]
      exact h.stale j hj

/-! ## The streams -/

theorem Kept.moves (hr : opts.retainChars = none) (h : p.Kept) (hopen : (p.producers i).phase = .opened) {w : World}
    (hstep : World.Step opts (p.world i) w) (hstore : w.store = p.store) :
    (p.set i { p.producers i with stream := w.stream, flights := w.flights, stage := w.stage }).Kept := by
  have hself : (p.set i { p.producers i with stream := w.stream, flights := w.flights, stage := w.stage }).world i = w := by
    simp only [world, set_self]
    rw [show (p.set i { p.producers i with stream := w.stream, flights := w.flights, stage := w.stage }).store = w.store from hstore.symm]
  have hphase : ∀ j, ((p.set i { p.producers i with stream := w.stream, flights := w.flights, stage := w.stage }).producers j).phase =
      (p.producers j).phase ∧ ((p.set i { p.producers i with stream := w.stream, flights := w.flights, stage := w.stage }).producers j).marks =
      (p.producers j).marks := by
    intro j
    by_cases hji : j = i
    · subst hji
      rw [set_self]
      exact ⟨rfl, rfl⟩
    · rw [Plane.set_other p hji]
      exact ⟨rfl, rfl⟩
  have hothers : ∀ j, j ≠ i → p.Rests j →
      (p.set i { p.producers i with stream := w.stream, flights := w.flights, stage := w.stage }).Rests j :=
    fun j hji hrest => hrest.of_same (Plane.set_other p hji _) rfl
  have hspend : (p.world i).Spent → (p.set i { p.producers i with stream := w.stream, flights := w.flights, stage := w.stage }).Rests i := by
    intro hspent
    refine .inl ?_
    rw [hself]
    exact hspent.step hstep
  refine ⟨?_, h.landed, h.host, ?_, ?_, ?_, h.stale⟩
  · rcases h.owned with ⟨hempty, hall⟩ | ⟨j, hj, hok, hdone, hrest⟩
    · refine .inl ⟨hempty, ?_⟩
      intro j
      by_cases hji : j = i
      · subst hji
        exact hspend ((hall j).spent (.inl hopen))
      · exact hothers j hji (hall j)
    · refine .inr ⟨j, hj, ?_⟩
      by_cases hji : j = i
      · subst hji
        obtain ⟨hok', hm⟩ := World.Ok.step hr hok hstep
        rw [hself]
        refine ⟨hok', ?_, fun j' hj' => hothers j' hj' (hrest j' hj')⟩
        intro hrow
        have hc := hdone hrow
        obtain ⟨hsealing, hsame⟩ := hm.sealed hc.sealing
        refine ⟨hsealing, ?_, ?_, ?_⟩
        · rw [hstore, hsame]
          exact hc.body
        · rw [hstore, hsame]
          exact hc.seq
        · rw [hstore]
          exact hc.chunks
      · rw [set_world_other p hji]
        refine ⟨hok, hdone, ?_⟩
        intro j' hj'
        by_cases hj'i : j' = i
        · subst hj'i
          exact hspend ((hrest j' hj').spent (.inl hopen))
        · exact hothers j' hj'i (hrest j' hj')
  · intro j k hp
    rw [(hphase j).1] at hp
    exact h.seen j k hp
  · intro j hp
    rw [(hphase j).1] at hp
    exact h.opened j hp
  · intro j hp
    refine h.past j ?_
    unfold Past at hp ⊢
    rw [(hphase j).1, (hphase j).2] at hp
    exact hp

/-! ## Batches -/

/-- A batch that commits comes in time: a compaction's producer still holds the row. -/
def Fit (p : Plane ι) : Label ι → Prop
  | .quiet => True
  | .lands i => p.streaming = false → p.stale i = false
  | .commits _ (.append _ _ _) => True
  | .commits i (.compact _ _ _) => p.host = some i

/-- What a batch that commits leaves. -/
structure Commits (p : Plane ι) (i : ι) (k : Nat) (b : Batch) (p' : Plane ι) : Prop where
  self : p'.world i = { p.world i with
    store := p.store.apply (p.producers i).stream.streamId b, flights := (p.producers i).flights.set k ⟨b, true⟩ }
  others : ∀ j, j ≠ i → p'.producers j = p.producers j
  store : p'.store = p.store.apply (p.producers i).stream.streamId b
  phase : ∀ j, (p'.producers j).phase = (p.producers j).phase ∧ (p'.producers j).marks = (p.producers j).marks
  host : p'.host = p.host
  pending : p'.pending = p.pending
  landed : p'.landed = p.landed
  stale : ∀ j, p'.stale j = (p.stale j || (b.leaves && j ≠ i))

theorem commits_commit (p : Plane ι) (i : ι) (k : Nat) (b : Batch) : p.Commits i k b (p.commit i k b) := by
  refine ⟨?_, fun j hji => Function.update_of_ne hji _ _, rfl, ?_, rfl, rfl, rfl, fun _ => rfl⟩
  · simp [world, commit]
  · intro j
    by_cases hji : j = i
    · subst hji
      simp [commit]
    · simp [commit, Function.update_of_ne hji]

/-- What a compaction stores. -/
theorem apply_compact (st : Store) (streamId : String) (body : Text) (status : StreamStatus) (error : Option String) :
    st.apply streamId (.compact body status error) = { message := ⟨body, body.length, some status, error⟩, chunks := [] } := rfl

/-- An append leaves the row's status. -/
theorem apply_append_status (st : Store) (streamId : String) (i j : Nat) (text : Text) :
    (st.apply streamId (.append i j text)).message.status = st.message.status := by
  simp only [Store.apply, Store.advance, Store.insertChunk]
  split <;> split <;> rfl

/-- The stored length never goes back. -/
theorem Ok.stored_mono {w : World} (h : w.Ok) (hf : ⟨b, false⟩ ∈ w.flights) :
    w.store.message.seq ≤ (w.store.apply w.stream.streamId b).message.seq := by
  have hok := h.flights _ hf
  cases b with
  | append i j text =>
    obtain ⟨hlt, -, -⟩ := hok
    by_cases hnext : w.store.message.seq = i
    · have hinsert : (w.store.insertChunk w.stream.streamId i j text).message = w.store.message := by
        unfold Store.insertChunk
        dsimp only
        split <;> rfl
      rw [Store.apply, Store.advance, hinsert, if_pos hnext]
      show w.store.message.seq ≤ j
      omega
    · rw [World.apply_append_stale hnext]
  | compact body status error =>
    obtain ⟨-, hbody⟩ := hok
    rw [apply_compact, hbody]
    exact World.Ok.stored_le h

/-- A resting producer's compaction of nothing. -/
theorem Commits.owned_empty {k : Nat} (h : p.Commits i k b p') (hspent : (p.world i).Spent)
    (hf : (p.producers i).flights[k]? = some ⟨b, false⟩) (hall : ∀ j, p.Rests j) :
    p'.store.Empty ∧ ∀ j, p'.Rests j := by
  obtain ⟨status, error, hb⟩ := hspent.flights ⟨b, false⟩ (List.mem_of_getElem? hf)
  have hb : b = .compact [] status error := hb
  subst hb
  refine ⟨by rw [h.store]; exact ⟨rfl, rfl, rfl⟩, ?_⟩
  intro j
  by_cases hji : j = i
  · subst hji
    refine .inl ?_
    rw [h.self]
    refine ⟨hspent.kept, hspent.untrimmed, hspent.produced, hspent.sealing, ?_⟩
    intro f hmem
    rcases List.mem_or_eq_of_mem_set hmem with hmem | rfl
    · exact hspent.flights f hmem
    · exact ⟨status, error, rfl⟩
  · exact (hall j).of_same (h.others j hji) (by rw [h.landed])

/-- The host's own batch. -/
theorem Commits.host_ok (hr : opts.retainChars = none) {k : Nat} (h : p.Commits i k b p')
    (hf : (p.producers i).flights[k]? = some ⟨b, false⟩) (hok : (p.world i).Ok) (hdone : p.streaming = false → (p.world i).Compacted) :
    (p'.world i).Ok ∧ (p'.streaming = false → (p'.world i).Compacted) := by
  have hstep : World.Step opts (p.world i) _ := .commits hf
  have hok' : (p'.world i).Ok := by
    rw [h.self]
    exact (World.Ok.step hr hok hstep).1
  refine ⟨hok', ?_⟩
  intro hrow
  cases b with
  | compact body status error =>
    refine hok'.compacted body status error ?_
    rw [h.self]
    exact List.mem_set (List.getElem?_eq_some_iff.mp hf).1 _
  | append fromSeq seq text =>
    have hstatus : p'.store.message.status = p.store.message.status := by rw [h.store, apply_append_status]
    have hrow : p.streaming = false := by
      rw [streaming, h.pending, hstatus] at hrow
      exact hrow
    have hc := hdone hrow
    rw [h.self, apply_stale hok hc (List.mem_of_getElem? hf)]
    exact ⟨hc.sealing, hc.body, hc.seq, hc.chunks⟩

/-- The host's batch leaves a row that is streaming, or as it was, or outdated, or empty. -/
theorem Commits.past {k : Nat} (h : p.Commits i k b p') (hok : (p.world i).Ok)
    (hf : (p.producers i).flights[k]? = some ⟨b, false⟩) (hdone : p.streaming = false → (p.world i).Compacted) {j : ι}
    (hpast : p.stale j = true ∨ p.host = some j ∨ p.streaming = true ∨ p.store.message.seq = 0) (hhost : p.host = some i) :
    p'.stale j = true ∨ p'.host = some j ∨ p'.streaming = true ∨ p'.store.message.seq = 0 := by
  cases b with
  | append fromSeq seq text =>
    have hstreaming : p'.streaming = p.streaming := by
      rw [streaming, streaming, h.pending, h.store, apply_append_status]
    rw [h.stale, h.host, hstreaming, h.store]
    cases hrow : p.streaming with
    | true => exact .inr (.inr (.inl rfl))
    | false =>
      rw [apply_stale hok (hdone hrow) (List.mem_of_getElem? hf)]
      simpa [hrow, Batch.leaves] using hpast
  | compact body status error =>
    by_cases hbody : body = []
    · refine .inr (.inr (.inr ?_))
      rw [h.store, apply_compact, hbody]
      rfl
    · by_cases hji : j = i
      · refine .inr (.inl ?_)
        rw [h.host, hji, hhost]
      · refine .inl ?_
        simp [h.stale, Batch.leaves, hbody, hji]

/-- The row is empty, or the batch is the host's own: another one's would be a late compaction. -/
theorem Kept.committer (h : p.Kept) {k : Nat} (hf : (p.producers i).flights[k]? = some ⟨b, false⟩) (hfit : p.Fit (.commits i b)) :
    (p.store.Empty ∧ ∀ j, p.Rests j) ∨
      (p.host = some i ∧ (p.world i).Ok ∧ (p.streaming = false → (p.world i).Compacted) ∧ ∀ j, j ≠ i → p.Rests j) := by
  have hflights : (p.producers i).flights ≠ [] := by
    intro hnil
    rw [hnil] at hf
    cases hf
  rcases h.owned with hfree | ⟨j, hj, hok, hdone, hrest⟩
  · exact .inl hfree
  · by_cases hji : i = j
    · subst hji
      exact .inr ⟨hj, hok, hdone, hrest⟩
    · have hspent := (hrest i hji).spent (.inr hflights)
      obtain ⟨status, error, hb⟩ := hspent.flights ⟨b, false⟩ (List.mem_of_getElem? hf)
      have hb : b = .compact [] status error := hb
      subst hb
      have hfit : p.host = some i := hfit
      rw [hj] at hfit
      exact absurd (Option.some.inj hfit).symm hji

theorem Kept.commit (hr : opts.retainChars = none) (h : p.Kept) {k : Nat} (hcommits : p.Commits i k b p')
    (hf : (p.producers i).flights[k]? = some ⟨b, false⟩) (hfit : p.Fit (.commits i b)) : p'.Kept := by
  have hflights : (p.producers i).flights ≠ [] := by
    intro hnil
    rw [hnil] at hf
    cases hf
  have hseen : ∀ j n, (p'.producers j).phase = .verifying n (some (some j)) → (p'.landed j).isSome := by
    intro j n hp
    rw [(hcommits.phase j).1] at hp
    rw [hcommits.landed]
    exact h.seen j n hp
  have hopened : ∀ j, (p'.producers j).phase = .opened → (p'.landed j).isSome := by
    intro j hp
    rw [(hcommits.phase j).1] at hp
    rw [hcommits.landed]
    exact h.opened j hp
  have hpast : ∀ j, Past (p'.producers j) → Past (p.producers j) := by
    intro j hp
    unfold Past at hp ⊢
    rw [(hcommits.phase j).1, (hcommits.phase j).2] at hp
    exact hp
  have hhost : ∀ j, p'.host = some j → (p'.landed j).isSome := by
    rw [hcommits.host, hcommits.landed]
    exact h.host
  have hlanded : ∀ j x, p'.landed j = some x → x = (0, false) := by
    rw [hcommits.landed]
    exact h.landed
  -- An empty row stays empty, and nothing outdates a probe.
  have hfree : p.store.Empty → (∀ j, p.Rests j) → p'.Kept := by
    intro hempty hall
    have hspent := (hall i).spent (.inr hflights)
    obtain ⟨hempty', hall'⟩ := hcommits.owned_empty hspent hf hall
    refine ⟨.inl ⟨hempty', hall'⟩, hlanded, hhost, hseen, hopened, fun j _ => .inr (.inr (.inr hempty'.seq)), ?_⟩
    intro j hj
    obtain ⟨status, error, hb⟩ := hspent.flights ⟨b, false⟩ (List.mem_of_getElem? hf)
    have hb : b = .compact [] status error := hb
    have hj : p.stale j = true := by simpa [hcommits.stale, hb, Batch.leaves] using hj
    exact absurd hempty.seq (h.stale j hj)
  rcases h.committer hf hfit with ⟨hempty, hall⟩ | ⟨hi, hok, hdone, hrest⟩
  · exact hfree hempty hall
  obtain ⟨hok', hdone'⟩ := hcommits.host_ok hr hf hok hdone
  have hmono := Ok.stored_mono hok (List.mem_of_getElem? hf)
  have hmono : p.store.message.seq ≤ p'.store.message.seq := by
    rw [hcommits.store]
    exact hmono
  refine ⟨.inr ⟨i, hcommits.host.trans hi, hok', hdone', fun j' hj' => (hrest j' hj').of_same (hcommits.others j' hj') (by rw [hcommits.landed])⟩,
    hlanded, hhost, hseen, hopened, ?_, ?_⟩
  · intro j' hp
    exact hcommits.past hok hf hdone (h.past j' (hpast j' hp)) hi
  · intro j' hj'
    rw [hcommits.stale, Bool.or_eq_true, Bool.and_eq_true] at hj'
    rcases hj' with hj' | ⟨hleaves, -⟩
    · have hne := h.stale j' hj'
      omega
    · cases b with
      | append fromSeq seq text => cases hleaves
      | compact body status error =>
        rw [hcommits.store, apply_compact]
        simpa [Batch.leaves] using hleaves

/-! ## Steps and runs -/

theorem Kept.enter (h : p.Kept) {phase : OpenPhase ι} (hseen : ∀ k, phase = .verifying k (some (some i)) → (p.landed i).isSome)
    (hopened : phase = .opened → (p.landed i).isSome) (hbusy : (p.producers i).phase ≠ .idle ∧ (p.producers i).phase ≠ .refused) :
    (p.enter i phase).Kept :=
  h.phase rfl rfl rfl hseen hopened fun _ => .inl (.inl hbusy)

theorem Kept.failAttempt (h : p.Kept) (k : Nat) (hbusy : (p.producers i).phase ≠ .idle ∧ (p.producers i).phase ≠ .refused) :
    (p.failAttempt opts i k).Kept := by
  unfold Plane.failAttempt
  split
  · exact h.enter (by simp) (by simp) hbusy
  · exact h.enter (by simp) (by simp) hbusy

theorem Kept.probe (h : p.Kept) (hseq : p.store.message.seq = 0) (i : ι) :
    ({ p with stale := Function.update p.stale i false } : Plane ι).Kept := by
  refine ⟨h.owned, h.landed, h.host, h.seen, h.opened, fun j _ => .inr (.inr (.inr hseq)), ?_⟩
  intro j hj
  have hj : Function.update p.stale i false j = true := hj
  by_cases hji : j = i
  · subst hji
    rw [Function.update_self] at hj
    cases hj
  · rw [Function.update_of_ne hji] at hj
    exact h.stale j hj

theorem Kept.step (hr : opts.retainChars = none) (h : p.Kept) {label : Label ι} (hfit : p.Fit label) (hstep : Step opts p label p') :
    p'.Kept := by
  cases hstep with
  | probe hidle hseq hrow => exact (h.probe hseq _).phase rfl rfl rfl (by simp) (by simp) fun _ => .inr hseq
  | probeRefused hidle =>
    refine h.phase rfl rfl rfl (by simp) (by simp) ?_
    intro hpast
    rcases hpast with ⟨-, hrefused⟩ | hmarks
    · exact absurd rfl hrefused
    · exact .inl (.inr hmarks)
  | issue hready => exact h.phase rfl rfl rfl (by simp) (by simp) fun _ => .inl (.inl (by simp [hready]))
  | @lands i m hmark =>
    have hmarks : (p.producers i).marks ≠ [] := by
      intro hnil
      rw [hnil] at hmark
      cases hmark
    have hset : (p.set i { p.producers i with marks := (p.producers i).marks.set m true }).Kept :=
      h.phase rfl rfl rfl (h.seen i) (h.opened i) fun _ => .inl (.inr hmarks)
    refine hset.markStreaming ?_ hfit
    rw [set_self]
    exact .inr (by simpa using hmarks)
  | acked hwriting _ => exact h.enter (by simp) (by simp) (by simp [hwriting])
  | threw hwriting => exact h.failAttempt _ (by simp [hwriting])
  | @readHost i k hverifying =>
    refine h.enter ?_ (by simp) (by simp [hverifying])
    intro n heq
    simp only [OpenPhase.verifying.injEq, Option.some.injEq] at heq
    exact h.host i heq.2
  | readThrew hverifying => exact h.failAttempt _ (by simp [hverifying])
  | @won i k hverifying => exact h.enter (by simp) (fun _ => h.seen i k hverifying) (by simp [hverifying])
  | lost hverifying _ => exact h.enter (by simp) (by simp) (by simp [hverifying])
  | moves hopen hmoves hstore => exact h.moves hr hopen hmoves hstore
  | commits hf => exact h.commit hr (commits_commit p _ _ _) hf hfit

/-- The stored text only grows. -/
theorem Kept.stored_step (hr : opts.retainChars = none) (h : p.Kept) {label : Label ι} (hfit : p.Fit label)
    (hstep : Step opts p label p') : p.stored <+: p'.stored := by
  cases hstep with
  | @lands i m hmark =>
    simp only [Plane.markStreaming]
    split
    · exact List.prefix_refl _
    · exact List.prefix_refl _
  | @commits i k b hf =>
    have hcommits := commits_commit p i k b
    rcases h.committer hf hfit with ⟨hempty, -⟩ | ⟨-, hok, hdone, -⟩
    · rw [stored_empty hempty]
      exact List.nil_prefix
    have hok' := (hcommits.host_ok hr hf hok hdone).1
    have hold := (World.Ok.durably hok).stored
    have hnew := (World.Ok.durably hok').stored
    have hmono := Ok.stored_mono hok (List.mem_of_getElem? hf)
    rw [hcommits.self] at hnew
    have hold : p.stored = (p.producers i).stream.produced.take p.store.message.seq := hold
    have hnew : (p.commit i k b).stored = (p.producers i).stream.produced.take
        (p.store.apply (p.producers i).stream.streamId b).message.seq := by
      rw [stored, hcommits.store]
      exact hnew
    rw [hold, hnew]
    exact List.take_prefix_take_left hmono
  | _ => exact List.prefix_refl _

/-- Any number of steps that all meet `P`. -/
inductive Steps (P : Plane ι → Label ι → Prop) (opts : PlaneOpts) : Plane ι → Plane ι → Prop
  | refl (p : Plane ι) : Steps P opts p p
  | step {p p' p'' : Plane ι} {label : Label ι} : Steps P opts p p' → Step opts p' label p'' → P p' label → Steps P opts p p''

theorem Kept.steps (hr : opts.retainChars = none) (h : p.Kept) (hs : Steps Fit opts p p') : p'.Kept ∧ p.stored <+: p'.stored := by
  induction hs with
  | refl => exact ⟨h, List.prefix_refl _⟩
  | step _ hstep hfit ih =>
    obtain ⟨hkept, hgrows⟩ := ih
    exact ⟨hkept.step hr hfit hstep, hgrows.trans (hkept.stored_step hr hfit hstep)⟩

/-- What the single flight promises of one moment. -/
structure SingleFlight (p : Plane ι) : Prop where
  /-- An open that succeeded found the row empty and not streaming. -/
  landed : ∀ i, (p.producers i).phase = .opened → p.landed i = some (0, false)
  /-- What a producer counts as durable is stored, and is its own. -/
  own : ∀ i, (p.producers i).phase = .opened → (p.producers i).stream.durableSeq ≤ p.stored.length ∧
    p.stored.take (p.producers i).stream.durableSeq = (p.producers i).stream.produced.take (p.producers i).stream.durableSeq

theorem Kept.singleFlight (h : p.Kept) : p.SingleFlight := by
  have hspent : ∀ i, (p.world i).Spent → (p.producers i).stream.durableSeq ≤ p.stored.length ∧
      p.stored.take (p.producers i).stream.durableSeq = (p.producers i).stream.produced.take (p.producers i).stream.durableSeq := by
    intro i hi
    have hproduced : (p.producers i).stream.produced = [] := hi.produced
    have hdurable : (p.producers i).stream.durableSeq ≤ (p.producers i).stream.produced.length := hi.kept.durable
    have hzero : (p.producers i).stream.durableSeq = 0 := by
      rw [hproduced] at hdurable
      exact Nat.le_zero.mp hdurable
    rw [hzero]
    exact ⟨Nat.zero_le _, rfl⟩
  refine ⟨?_, ?_⟩
  · intro i ho
    obtain ⟨x, hx⟩ := Option.isSome_iff_exists.mp (h.opened i ho)
    rw [hx, h.landed i x hx]
  · intro i ho
    rcases h.owned with ⟨-, hall⟩ | ⟨j, -, hok, -, hrest⟩
    · exact hspent i ((hall i).spent (.inl ho))
    · by_cases hij : i = j
      · subst hij
        have hdurably := World.Ok.durably hok
        have hstored : p.stored = (p.producers i).stream.produced.take p.store.message.seq := hdurably.stored
        have hbehind : (p.producers i).stream.durableSeq ≤ p.store.message.seq := hdurably.behind.1
        have hwithin : p.store.message.seq ≤ (p.producers i).stream.produced.length := hdurably.within
        rw [hstored, List.length_take, List.take_take]
        exact ⟨by omega, by rw [Nat.min_eq_left hbehind]⟩
      · exact hspent i ((hrest i hij).spent (.inl ho))

/-- At every moment of every run in time each open that succeeded found the row empty, each
    producer's durable characters are its own, and the stored text only grows. An open write
    that comes late finds characters. -/
theorem opens_single_flight (maxQueuedFrames retries : Nat) (streamId : String) (p : Plane ι)
    (h : Steps Fit (mappedOpts maxQueuedFrames retries) (written streamId) p) :
    p.SingleFlight ∧ (∀ p', Steps Fit (mappedOpts maxQueuedFrames retries) p p' → p.stored <+: p'.stored) ∧
      ∀ i, ¬p.Fit (.lands i) → p.store.message.seq ≠ 0 := by
  have hkept := ((kept_written streamId).steps rfl h).1
  refine ⟨hkept.singleFlight, fun p' h' => (hkept.steps rfl h').2, ?_⟩
  intro i hlate
  refine hkept.stale i ?_
  by_contra hfresh
  exact hlate fun _ => by simpa using hfresh

/-- One producer opens the row and closes it with two characters. -/
theorem opens_single_flight_closed :
    ∃ p : Plane Bool, p.stored = [104, 105] ∧ p.landed false = some (0, false) ∧ p.SingleFlight := by
  have h₀ : Steps Fit (mappedOpts 8 3) (written "m1" : Plane Bool) _ := .refl _
  have h₁ := h₀.step (.probe (i := false) rfl rfl rfl) trivial
  have h₂ := h₁.step (.issue (i := false) rfl) trivial
  have h₃ := h₂.step (.lands (i := false) (m := 0) rfl) fun _ => rfl
  have h₄ := h₃.step (.acked (i := false) rfl rfl) trivial
  have h₅ := h₄.step (.readHost (i := false) rfl) trivial
  have h₆ := h₅.step (.won (i := false) rfl) trivial
  have h₇ := h₆.step (.moves (i := false) rfl (.outside rfl (@Streams.Step.push _ _ [104, 105] _ rfl)) rfl) trivial
  have h₈ := h₇.step (.moves (i := false) rfl (.outside rfl (@Streams.Step.seal _ _ .complete none)) rfl) trivial
  have h₉ := h₈.step (.moves (i := false) rfl (.closeRound (.commitSeal rfl rfl rfl)) rfl) trivial
  have h₁₀ := h₉.step (.moves (i := false) rfl (.issue rfl rfl) rfl) trivial
  have h₁₁ := h₁₀.step (.commits (i := false) (k := 0) rfl) rfl
  exact ⟨_, by decide +kernel, rfl, (opens_single_flight 8 3 "m1" _ h₁₁).1⟩

/-- A second producer has probed the row before the first one opens it, and its write passes
    when the first one has closed: it opens a row with two characters. -/
theorem late_open_lands :
    ¬∀ p : Plane Bool, Steps (fun _ _ => True) (mappedOpts 8 3) (written "m1") p → p.SingleFlight := by
  intro h
  have h₀ : Steps (fun _ _ => True) (mappedOpts 8 3) (written "m1" : Plane Bool) _ := .refl _
  have hslow := h₀.step (.probe (i := true) rfl rfl rfl) trivial
  have h₁ := hslow.step (.probe (i := false) rfl rfl rfl) trivial
  have h₂ := h₁.step (.issue (i := false) rfl) trivial
  have h₃ := h₂.step (.lands (i := false) (m := 0) rfl) trivial
  have h₄ := h₃.step (.acked (i := false) rfl rfl) trivial
  have h₅ := h₄.step (.readHost (i := false) rfl) trivial
  have h₆ := h₅.step (.won (i := false) rfl) trivial
  have h₇ := h₆.step (.moves (i := false) rfl (.outside rfl (@Streams.Step.push _ _ [104, 105] _ rfl)) rfl) trivial
  have h₈ := h₇.step (.moves (i := false) rfl (.outside rfl (@Streams.Step.seal _ _ .complete none)) rfl) trivial
  have h₉ := h₈.step (.moves (i := false) rfl (.closeRound (.commitSeal rfl rfl rfl)) rfl) trivial
  have h₁₀ := h₉.step (.moves (i := false) rfl (.issue rfl rfl) rfl) trivial
  have hclosed := h₁₀.step (.commits (i := false) (k := 0) rfl) trivial
  have hwrite := hclosed.step (.issue (i := true) rfl) trivial
  have hlands := hwrite.step (.lands (i := true) (m := 0) rfl) trivial
  have hread := (hlands.step (.acked (i := true) rfl rfl) trivial).step (.readHost (i := true) rfl) trivial
  have hopened := hread.step (.won (i := true) rfl) trivial
  have hlanded := (h _ hopened).landed true rfl
  exact absurd hlanded (by decide)

end Plane

end Rindle.Streams
