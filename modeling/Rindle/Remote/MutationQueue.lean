/-
  Rindle.Remote.MutationQueue — the client's mutation queue over HTTP
  (`packages/remote/src/mutation-queue.ts`, `createQueuedMutationSender`).

  The server takes an envelope iff its mid is the last one plus one, and absorbs lower ones. The
  queue sends batches from its front and keeps them until one is confirmed; a send that fails is
  made again with the same batch after a pause. A request that the client has given up may still
  be on its way: the server may go on with it at any later time, or never.

  An envelope may be enqueued at any moment, also inside a callback and between the loop's last
  look at the queue and the release of `flushing` (`leaving`). Callbacks return normally.

  `queue_conforms`: after any events the server has applied the envelopes exactly once, in the
  order they were enqueued, without a gap; one send is in flight at a time, and a batch leaves
  after the one before was confirmed; what is resolved was processed; and where no flush is
  running the queue is empty and every promise is resolved.
-/

import Mathlib.Data.List.TakeDrop
import Mathlib.Tactic.Common

set_option linter.dupNamespace false

namespace Rindle.Remote

structure Envelope (α : Type) where
  mid : Nat
  body : α
  deriving DecidableEq

structure PushOutcome where
  accepted : Bool
  reason : Option String := none

/-- What the sender does that can be observed. -/
inductive SenderOutput (α : Type) where
  | sent (batch : List (Envelope α))
  | failed (batch : List (Envelope α)) (attempt : Nat)
  | confirmed (batch : List (Envelope α))
  | rejected (envelope : Envelope α) (reason : String)
  | resolved (envelope : Envelope α)

/-- Where the running flush stands. -/
inductive Flush (α : Type) where
  | idle
  /-- Awaiting `send`; `request` is what the server has not processed of it. -/
  | sending (batch : List (Envelope α)) (attempt : Nat) (request : List (Envelope α))
  | pausing (batch : List (Envelope α)) (attempt : Nat)
  /-- In the loop over a confirmed batch. -/
  | settling (rest : List (Envelope α × Option PushOutcome))
  /-- Past the loop, before `flushing` is released. -/
  | leaving

structure MidServer (α : Type) where
  lmid : Nat
  applied : List (Envelope α) := []
  /-- It was sent a mid above the last one plus one. -/
  gap : Bool := false

def MidServer.take {α : Type} (s : MidServer α) (e : Envelope α) : MidServer α :=
  if e.mid = s.lmid + 1 then { s with lmid := e.mid, applied := s.applied ++ [e] }
  else if e.mid ≤ s.lmid then s
  else { s with gap := true }

structure QueueWorld (α : Type) where
  queue : List (Envelope α) := []
  flushing : Bool := false
  flush : Flush α := .idle
  /-- What is left of the requests given up. -/
  late : List (List (Envelope α)) := []
  server : MidServer α
  /-- Every envelope handed to the sender. -/
  enqueued : List (Envelope α) := []
  log : List (SenderOutput α) := []

inductive QueueEvent (α : Type) where
  | enqueue (body : α)
  | process
  | processLate (request : Nat)
  | lose (request : Nat)
  | reply (outcomes : Option (List PushOutcome))
  | fail
  | wake
  | settle
  | leave

namespace QueueWorld

variable {α : Type}

/-- The head of the loop: the next batch is sent. -/
def nextBatch (maxBatch : Nat) (w : QueueWorld α) : QueueWorld α :=
  if w.queue.length > 0 then
    let batch := w.queue.take maxBatch
    { w with flush := .sending batch 1 batch, log := w.log ++ [.sent batch] }
  else { w with flush := .leaving }

/-- `flush`. -/
def startFlush (maxBatch : Nat) (w : QueueWorld α) : QueueWorld α :=
  if w.flushing then w else nextBatch maxBatch { w with flushing := true }

/-- The outcome of each envelope of a batch. -/
def withOutcomes (batch : List (Envelope α)) (outcomes : Option (List PushOutcome)) : List (Envelope α × Option PushOutcome) :=
  batch.zipIdx.map fun p => (p.1, outcomes.bind fun os => os[p.2]?)

/-- An event; one that cannot happen changes nothing. Mids are handed out in order. -/
@[grind] def step (firstMid maxBatch : Nat) (w : QueueWorld α) : QueueEvent α → QueueWorld α
  | .enqueue body =>
    let e : Envelope α := ⟨firstMid + w.enqueued.length, body⟩
    startFlush maxBatch { w with queue := w.queue ++ [e], enqueued := w.enqueued ++ [e] }
  | .process =>
    match w.flush with
    | .sending batch attempt (e :: request) => { w with server := w.server.take e, flush := .sending batch attempt request }
    | _ => w
  | .processLate i =>
    match w.late[i]? with
    | some (e :: request) => { w with server := w.server.take e, late := w.late.set i request }
    | _ => w
  | .lose i => { w with late := w.late.eraseIdx i }
  | .reply outcomes =>
    match w.flush with
    | .sending batch _ [] =>
      { w with queue := w.queue.drop batch.length, flush := .settling (withOutcomes batch outcomes), log := w.log ++ [.confirmed batch] }
    | _ => w
  | .fail =>
    match w.flush with
    | .sending batch attempt request =>
      { w with flush := .pausing batch attempt, late := request :: w.late, log := w.log ++ [.failed batch attempt] }
    | _ => w
  | .wake =>
    match w.flush with
    | .pausing batch attempt => { w with flush := .sending batch (attempt + 1) batch, log := w.log ++ [.sent batch] }
    | _ => w
  | .settle =>
    match w.flush with
    | .settling [] => nextBatch maxBatch w
    | .settling ((e, outcome) :: rest) =>
      let rejected := match outcome with
        | some o => if o.accepted then [] else [.rejected e (o.reason.getD "mutation rejected")]
        | none => []
      { w with flush := .settling rest, log := w.log ++ rejected ++ [.resolved e] }
    | _ => w
  | .leave =>
    match w.flush with
    | .leaving =>
      let w := { w with flushing := false, flush := .idle }
      if w.queue.length > 0 then startFlush maxBatch w else w
    | _ => w

/-- `createQueuedMutationSender` against a server at `lmid`, after these events. -/
def run (lmid : Nat) (maxBatch : Option Nat) (events : List (QueueEvent α)) : QueueWorld α :=
  events.foldl (step (lmid + 1) (max 1 (maxBatch.getD 32))) { server := { lmid } }

/-! ## The contract -/

/-- The promises resolved so far. -/
def resolved (log : List (SenderOutput α)) : List (Envelope α) :=
  log.filterMap fun
    | .resolved e => some e
    | _ => none

end QueueWorld

/-- What is in flight: nothing, one batch, or one that failed and is due again. -/
inductive InFlight (α : Type) where
  | nothing
  | batch (batch : List (Envelope α))
  | again (batch : List (Envelope α))

/-- One send at a time, and the same batch until it is confirmed. -/
@[grind] def InFlight.after {α : Type} [DecidableEq α] : InFlight α → SenderOutput α → Option (InFlight α)
  | .nothing, .sent b => some (.batch b)
  | .again b, .sent b' => if b = b' then some (.batch b) else none
  | .batch b, .failed b' _ => if b = b' then some (.again b) else none
  | .batch b, .confirmed b' => if b = b' then some .nothing else none
  | .nothing, .rejected _ _ => some .nothing
  | .nothing, .resolved _ => some .nothing
  | _, _ => none

def InFlight.ofLog {α : Type} [DecidableEq α] (log : List (SenderOutput α)) : Option (InFlight α) :=
  log.foldlM InFlight.after .nothing

namespace QueueWorld

variable {α : Type} [DecidableEq α]

/-- A request carries envelopes in order, from one on that is not past the next mid. -/
def Carries (w : QueueWorld α) (request : List (Envelope α)) : Prop :=
  ∃ i, i ≤ w.server.applied.length ∧ request <+: w.enqueued.drop i

/-- What does not depend on where the flush stands. -/
structure Core (lmid : Nat) (w : QueueWorld α) : Prop where
  mids : ∀ i e, w.enqueued[i]? = some e → e.mid = lmid + 1 + i
  applied : w.server.applied <+: w.enqueued
  lmid : w.server.lmid = lmid + w.server.applied.length
  noGap : w.server.gap = false
  late : ∀ request ∈ w.late, w.Carries request
  resolved : resolved w.log <+: w.server.applied

end QueueWorld

namespace Flush

variable {α : Type}

/-- The confirmed envelopes that are not resolved. -/
def confirmed : Flush α → List (Envelope α)
  | .settling rest => rest.map (·.1)
  | _ => []

def inFlight : Flush α → InFlight α
  | .sending batch _ _ => .batch batch
  | .pausing batch _ => .again batch
  | _ => .nothing

def running : Flush α → Bool
  | .idle => false
  | _ => true

/-- The batch is the front of the queue, and the server is as far as its request says. -/
def Holds (w : QueueWorld α) : Flush α → Prop
  | .idle => w.queue = []
  | .sending batch _ request => batch ≠ [] ∧ batch <+: w.queue ∧
      ∃ done, batch = done ++ request ∧ (QueueWorld.resolved w.log).length + done.length ≤ w.server.applied.length
  | .pausing batch _ => batch ≠ [] ∧ batch <+: w.queue
  | .settling rest => (QueueWorld.resolved w.log).length + rest.length ≤ w.server.applied.length
  | .leaving => True

end Flush

namespace QueueWorld

variable {α : Type} [DecidableEq α]

structure Ok (lmid : Nat) (w : QueueWorld α) : Prop extends Core lmid w where
  rest : w.enqueued.drop (QueueWorld.resolved w.log).length = w.flush.confirmed ++ w.queue
  holds : w.flush.Holds w
  flushing : w.flushing = w.flush.running
  log : InFlight.ofLog w.log = some w.flush.inFlight

/-! ## Logs -/

theorem ofLog_snoc (log : List (SenderOutput α)) (o : SenderOutput α) :
    InFlight.ofLog (log ++ [o]) = (InFlight.ofLog log).bind fun f => f.after o := by
  rw [InFlight.ofLog, List.foldlM_append, ← InFlight.ofLog]
  cases InFlight.ofLog log with
  | none => rfl
  | some f =>
    show (f.after o).bind some = f.after o
    cases f.after o <;> rfl

omit [DecidableEq α] in
theorem resolved_append (l m : List (SenderOutput α)) : resolved (l ++ m) = resolved l ++ resolved m := List.filterMap_append

/-! ## The server -/

omit [DecidableEq α] in
/-- The next envelope of a request is the next one for the server, or one it has. -/
theorem Core.take {lmid : Nat} {w : QueueWorld α} (h : w.Core lmid) {i : Nat} {e : Envelope α} {request : List (Envelope α)}
    (hi : i ≤ w.server.applied.length) (hreq : e :: request <+: w.enqueued.drop i) :
    (w.server.take e).applied <+: w.enqueued ∧ w.server.applied <+: (w.server.take e).applied ∧
      (w.server.take e).lmid = lmid + (w.server.take e).applied.length ∧ (w.server.take e).gap = false ∧
      i + 1 ≤ (w.server.take e).applied.length := by
  obtain ⟨more, hmore⟩ := hreq
  have hget : w.enqueued[i]? = some e := by
    have hzero : (w.enqueued.drop i)[0]? = some e := by rw [← hmore]; rfl
    rwa [List.getElem?_drop, Nat.add_zero] at hzero
  have hmid := h.mids i e hget
  have hlmid := h.lmid
  unfold MidServer.take
  by_cases hnext : e.mid = w.server.lmid + 1
  · rw [if_pos hnext]
    obtain rfl : i = w.server.applied.length := by omega
    refine ⟨?_, List.prefix_append _ _, ?_, h.noGap, by simp⟩
    · have htake := List.prefix_iff_eq_take.mp h.applied
      have hsnoc : w.server.applied ++ [e] = w.enqueued.take (w.server.applied.length + 1) := by
        rw [List.take_add_one, hget, ← htake]
        rfl
      rw [hsnoc]
      exact List.take_prefix _ _
    · simp only [List.length_append, List.length_singleton]
      omega
  · rw [if_neg hnext, if_pos (by omega)]
    exact ⟨h.applied, List.prefix_refl _, h.lmid, h.noGap, by omega⟩

omit [DecidableEq α] in
/-- What a request carries it carries on, for a server that is further on. -/
theorem Carries.mono {w w' : QueueWorld α} {request : List (Envelope α)} (h : w.Carries request)
    (henq : w.enqueued <+: w'.enqueued) (happ : w.server.applied.length ≤ w'.server.applied.length)
    (hle : w.server.applied.length ≤ w.enqueued.length) : w'.Carries request := by
  obtain ⟨i, hi, hreq⟩ := h
  refine ⟨i, Nat.le_trans hi happ, hreq.trans ?_⟩
  obtain ⟨more, hmore⟩ := henq
  rw [← hmore, List.drop_append_of_le_length (by omega)]
  exact List.prefix_append _ _

/-! ## Steps -/

section
variable {lmid maxBatch : Nat} {w : QueueWorld α}

/-- The loop, with nothing in flight and nothing left to settle. -/
theorem nextBatch_ok (hmax : 0 < maxBatch) (hc : w.Core lmid)
    (hrest : w.enqueued.drop (resolved w.log).length = w.queue) (hflushing : w.flushing = true)
    (hlog : InFlight.ofLog w.log = some .nothing) : (nextBatch maxBatch w).Ok lmid := by
  unfold nextBatch
  by_cases hq : w.queue.length > 0
  · rw [if_pos hq]
    have hres : resolved (w.log ++ [SenderOutput.sent (w.queue.take maxBatch)]) = resolved w.log := by
      rw [resolved_append]
      exact List.append_nil _
    refine ⟨⟨hc.mids, hc.applied, hc.lmid, hc.noGap, hc.late, ?_⟩, ?_, ⟨?_, List.take_prefix _ _, [], rfl, ?_⟩, hflushing, ?_⟩
    · rw [hres]
      exact hc.resolved
    · rw [hres]
      exact hrest
    · intro hnil
      rw [List.take_eq_nil_iff] at hnil
      rcases hnil with h | h
      · omega
      · rw [h] at hq
        exact absurd hq (Nat.lt_irrefl 0)
    · rw [hres]
      exact hc.resolved.length_le
    · rw [ofLog_snoc, hlog]
      rfl
  · rw [if_neg hq]
    exact ⟨⟨hc.mids, hc.applied, hc.lmid, hc.noGap, hc.late, hc.resolved⟩, hrest, trivial, hflushing, hlog⟩

/-- A flush started where none is running. -/
theorem startFlush_idle (hmax : 0 < maxBatch) (hc : w.Core lmid)
    (hrest : w.enqueued.drop (resolved w.log).length = w.queue) (hflushing : w.flushing = false)
    (hlog : InFlight.ofLog w.log = some .nothing) : (startFlush maxBatch w).Ok lmid := by
  rw [startFlush, hflushing, if_neg Bool.false_ne_true]
  exact nextBatch_ok hmax ⟨hc.mids, hc.applied, hc.lmid, hc.noGap, hc.late, hc.resolved⟩ hrest rfl hlog

theorem Ok.enqueue (hmax : 0 < maxBatch) (h : w.Ok lmid) (body : α) : (step (lmid + 1) maxBatch w (.enqueue body)).Ok lmid := by
  have hle := h.applied.length_le
  have hresolved := h.resolved.length_le
  rw [step]
  generalize he : (⟨lmid + 1 + w.enqueued.length, body⟩ : Envelope α) = e
  have hc : Core lmid { w with queue := w.queue ++ [e], enqueued := w.enqueued ++ [e] } := by
    refine ⟨fun i x hx => ?_, h.applied.trans (List.prefix_append _ _), h.lmid, h.noGap, fun request hr => ?_, h.resolved⟩
    · rcases Nat.lt_trichotomy i w.enqueued.length with hi | hi | hi
      · rw [List.getElem?_append_left hi] at hx
        exact h.mids i x hx
      · rw [hi, List.getElem?_concat_length] at hx
        rw [← Option.some.inj hx, ← he, hi]
      · rw [List.getElem?_eq_none (by simp; omega)] at hx
        cases hx
    · exact (h.late request hr).mono (List.prefix_append _ _) (Nat.le_refl _) hle
  have hrest : (w.enqueued ++ [e]).drop (resolved w.log).length = w.flush.confirmed ++ (w.queue ++ [e]) := by
    rw [List.drop_append_of_le_length (by omega), h.rest, List.append_assoc]
  by_cases hidle : w.flushing = true
  · rw [startFlush, if_pos hidle]
    refine ⟨hc, hrest, ?_, h.flushing, h.log⟩
    have hholds := h.holds
    have hrunning := h.flushing
    -- the queue grows behind the batch
    cases hf : w.flush with
    | idle =>
      rw [hidle, hf] at hrunning
      cases hrunning
    | sending batch attempt request =>
      rw [hf] at hholds
      exact ⟨hholds.1, hholds.2.1.trans (List.prefix_append _ _), hholds.2.2⟩
    | pausing batch attempt =>
      rw [hf] at hholds
      exact ⟨hholds.1, hholds.2.trans (List.prefix_append _ _)⟩
    | settling rest =>
      rw [hf] at hholds
      exact hholds
    | leaving => trivial
  · rw [Bool.not_eq_true] at hidle
    have hf : w.flush = .idle := by
      have hrunning := h.flushing
      rw [hidle] at hrunning
      cases hf : w.flush <;> rw [hf] at hrunning <;> first | rfl | cases hrunning
    rw [hf] at hrest
    exact startFlush_idle hmax hc hrest hidle (by rw [h.log, hf]; rfl)

omit [DecidableEq α] in
/-- The server goes on with some request: everything else stands. -/
theorem Core.serve (h : w.Core lmid) {i : Nat} {e : Envelope α} {request : List (Envelope α)} {late : List (List (Envelope α))}
    (hi : i ≤ w.server.applied.length) (hreq : e :: request <+: w.enqueued.drop i)
    (hlate : ∀ r ∈ late, r = request ∨ r ∈ w.late) (flush : Flush α) :
    Core lmid { w with server := w.server.take e, late, flush } := by
  obtain ⟨happ, hgrow, hl, hgap, hnext⟩ := h.take hi hreq
  refine ⟨h.mids, happ, hl, hgap, fun r hr => ?_, h.resolved.trans hgrow⟩
  rcases hlate r hr with rfl | hr
  · refine ⟨i + 1, hnext, ?_⟩
    obtain ⟨more, hmore⟩ := hreq
    rw [← List.drop_drop, Nat.add_comm] at *
    exact ⟨more, by rw [← hmore]; rfl⟩
  · exact (h.late r hr).mono (List.prefix_refl _) hgrow.length_le h.applied.length_le

theorem Ok.process (h : w.Ok lmid) : (step (lmid + 1) maxBatch w .process).Ok lmid := by
  rw [step]
  split
  · rename_i batch attempt e request hf
    have hholds := h.holds
    rw [hf] at hholds
    obtain ⟨hne, hfront, done, hbatch, hdone⟩ := hholds
    -- the envelope's place, and with it the request's
    have hrest := h.rest
    rw [hf] at hrest
    have hreq : e :: request <+: w.enqueued.drop ((resolved w.log).length + done.length) := by
      rw [← List.drop_drop, hrest]
      obtain ⟨more, hmore⟩ := hfront
      refine ⟨more, ?_⟩
      show _ = (w.queue).drop done.length
      rw [← hmore, hbatch, List.append_assoc, List.drop_left]
    have hc := h.toCore.serve hdone hreq (fun r hr => Or.inr hr) (.sending batch attempt request)
    obtain ⟨-, -, -, -, hnext⟩ := h.toCore.take hdone hreq
    refine ⟨hc, hrest, ⟨hne, hfront, done ++ [e], ?_, ?_⟩, ?_, ?_⟩
    · rw [hbatch, List.append_assoc]
      rfl
    · rw [List.length_append, List.length_singleton]
      exact hnext
    · rw [h.flushing, hf]
      rfl
    · rw [h.log, hf]
      rfl
  · exact h

theorem Ok.processLate (h : w.Ok lmid) (i : Nat) : (step (lmid + 1) maxBatch w (.processLate i)).Ok lmid := by
  rw [step]
  split
  · rename_i e request hget
    obtain ⟨k, hk, hreq⟩ := h.late _ (List.mem_of_getElem? hget)
    have hc := @Core.serve α lmid w h.toCore k e request (w.late.set i request) hk hreq
      (fun r hr => (List.mem_or_eq_of_mem_set hr).symm) w.flush
    obtain ⟨-, hgrow, -, -, -⟩ := h.toCore.take hk hreq
    refine ⟨hc, h.rest, ?_, h.flushing, h.log⟩
    have hlen := hgrow.length_le
    have hholds := h.holds
    cases hf : w.flush with
    | idle =>
      rw [hf] at hholds
      exact hholds
    | sending batch attempt req =>
      rw [hf] at hholds
      obtain ⟨hne, hfront, done, hbatch, hdone⟩ := hholds
      exact ⟨hne, hfront, done, hbatch, Nat.le_trans hdone hlen⟩
    | pausing batch attempt =>
      rw [hf] at hholds
      exact hholds
    | settling rest =>
      rw [hf] at hholds
      exact Nat.le_trans hholds hlen
    | leaving => trivial
  · exact h

theorem Ok.lose (h : w.Ok lmid) (i : Nat) : (step (lmid + 1) maxBatch w (.lose i)).Ok lmid := by
  refine ⟨⟨h.mids, h.applied, h.lmid, h.noGap, fun r hr => ?_, h.resolved⟩, h.rest, ?_, h.flushing, h.log⟩
  · exact h.late r ((List.eraseIdx_sublist _ _).subset hr)
  · have hholds := h.holds
    show w.flush.Holds _
    cases hf : w.flush <;> rw [hf] at hholds <;> exact hholds

theorem Ok.reply (h : w.Ok lmid) (outcomes : Option (List PushOutcome)) : (step (lmid + 1) maxBatch w (.reply outcomes)).Ok lmid := by
  rw [step]
  split
  · rename_i batch attempt hf
    have hholds := h.holds
    rw [hf] at hholds
    obtain ⟨-, hfront, done, hbatch, hdone⟩ := hholds
    rw [List.append_nil] at hbatch
    subst hbatch
    have hrest := h.rest
    rw [hf] at hrest
    have hres : resolved (w.log ++ [SenderOutput.confirmed batch]) = resolved w.log := by
      rw [resolved_append]
      exact List.append_nil _
    have hmap : (withOutcomes batch outcomes).map (·.1) = batch := by
      rw [withOutcomes, List.map_map]
      exact List.zipIdx_map_fst _ _
    refine ⟨⟨h.mids, h.applied, h.lmid, h.noGap, fun r hr => ?_, ?_⟩, ?_, ?_, ?_, ?_⟩
    · exact h.late r hr
    · rw [hres]
      exact h.resolved
    · rw [hres]
      obtain ⟨more, hmore⟩ := hfront
      show _ = (withOutcomes batch outcomes).map (·.1) ++ w.queue.drop batch.length
      rw [hmap, hrest, ← hmore, List.drop_left]
      rfl
    · show (resolved (w.log ++ [SenderOutput.confirmed batch])).length + (withOutcomes batch outcomes).length ≤ w.server.applied.length
      rw [hres, withOutcomes, List.length_map, List.length_zipIdx]
      exact hdone
    · rw [h.flushing, hf]
      rfl
    · rw [ofLog_snoc, h.log, hf]
      show InFlight.after (.batch batch) (.confirmed batch) = _
      rw [InFlight.after, if_pos rfl]
      rfl
  · exact h

theorem Ok.fail (h : w.Ok lmid) : (step (lmid + 1) maxBatch w .fail).Ok lmid := by
  rw [step]
  split
  · rename_i batch attempt request hf
    have hholds := h.holds
    rw [hf] at hholds
    obtain ⟨hne, hfront, done, hbatch, hdone⟩ := hholds
    have hrest := h.rest
    rw [hf] at hrest
    have hres : resolved (w.log ++ [SenderOutput.failed batch attempt]) = resolved w.log := by
      rw [resolved_append]
      exact List.append_nil _
    refine ⟨⟨h.mids, h.applied, h.lmid, h.noGap, fun r hr => ?_, ?_⟩, ?_, ⟨hne, hfront⟩, ?_, ?_⟩
    · rcases List.mem_cons.mp hr with rfl | hr
      · -- given up where the server stands
        refine ⟨_, hdone, ?_⟩
        rw [← List.drop_drop, hrest]
        obtain ⟨more, hmore⟩ := hfront
        refine ⟨more, ?_⟩
        show _ = (w.queue).drop done.length
        rw [← hmore, hbatch, List.append_assoc, List.drop_left]
      · exact h.late r hr
    · rw [hres]
      exact h.resolved
    · rw [hres]
      exact hrest
    · rw [h.flushing, hf]
      rfl
    · rw [ofLog_snoc, h.log, hf]
      show InFlight.after (.batch batch) (.failed batch attempt) = _
      rw [InFlight.after, if_pos rfl]
      rfl
  · exact h

theorem Ok.wake (h : w.Ok lmid) : (step (lmid + 1) maxBatch w .wake).Ok lmid := by
  rw [step]
  split
  · rename_i batch attempt hf
    have hholds := h.holds
    rw [hf] at hholds
    have hrest := h.rest
    rw [hf] at hrest
    have hres : resolved (w.log ++ [SenderOutput.sent batch]) = resolved w.log := by
      rw [resolved_append]
      exact List.append_nil _
    refine ⟨⟨h.mids, h.applied, h.lmid, h.noGap, fun r hr => h.late r hr, ?_⟩, ?_, ⟨hholds.1, hholds.2, [], rfl, ?_⟩, ?_, ?_⟩
    · rw [hres]
      exact h.resolved
    · rw [hres]
      exact hrest
    · rw [hres]
      exact h.resolved.length_le
    · rw [h.flushing, hf]
      rfl
    · rw [ofLog_snoc, h.log, hf]
      show InFlight.after (.again batch) (.sent batch) = _
      rw [InFlight.after, if_pos rfl]
      rfl
  · exact h

theorem Ok.settle (hmax : 0 < maxBatch) (h : w.Ok lmid) : (step (lmid + 1) maxBatch w .settle).Ok lmid := by
  rw [step]
  split
  · rename_i hf
    have hrest := h.rest
    rw [hf] at hrest
    exact nextBatch_ok hmax h.toCore hrest (by rw [h.flushing, hf]; rfl) (by rw [h.log, hf]; rfl)
  · rename_i e outcome rest hf
    have hholds := h.holds
    rw [hf] at hholds
    have hrest := h.rest
    rw [hf] at hrest
    -- the callback of a rejection, then the promise
    generalize hrej : (match outcome with
      | some o => if o.accepted = true then ([] : List (SenderOutput α)) else [.rejected e (o.reason.getD "mutation rejected")]
      | none => []) = rejected
    have hquiet : resolved rejected = [] ∧ InFlight.ofLog (w.log ++ rejected) = some .nothing := by
      have hlog : InFlight.ofLog w.log = some .nothing := by rw [h.log, hf]; rfl
      have hnone : rejected = [] ∨ ∃ reason, rejected = [.rejected e reason] := by
        rw [← hrej]
        cases outcome with
        | none => exact Or.inl rfl
        | some o =>
          simp only
          split
          · exact Or.inl rfl
          · exact Or.inr ⟨_, rfl⟩
      rcases hnone with h | ⟨reason, h⟩
      · rw [h, List.append_nil]
        exact ⟨rfl, hlog⟩
      · rw [h, ofLog_snoc, hlog]
        exact ⟨rfl, rfl⟩
    have hres : resolved (w.log ++ rejected ++ [SenderOutput.resolved e]) = resolved w.log ++ [e] := by
      rw [resolved_append, resolved_append, hquiet.1, List.append_nil]
      rfl
    have hresolved := List.prefix_iff_eq_take.mp h.resolved
    have hsnoc : resolved w.log ++ [e] = w.enqueued.take ((resolved w.log).length + 1) := by
      have hget : w.enqueued[(resolved w.log).length]? = some e := by
        have hzero : (w.enqueued.drop (resolved w.log).length)[0]? = some e := by rw [hrest]; rfl
        rwa [List.getElem?_drop, Nat.add_zero] at hzero
      rw [List.take_add_one, hget, ← List.prefix_iff_eq_take.mp (h.resolved.trans h.applied)]
      rfl
    refine ⟨⟨h.mids, h.applied, h.lmid, h.noGap, fun r hr => h.late r hr, ?_⟩, ?_, ?_, ?_, ?_⟩
    · rw [hres, hsnoc]
      simp only [Flush.Holds, List.length_cons] at hholds
      refine List.prefix_of_prefix_length_le (List.take_prefix _ _) h.applied ?_
      show (w.enqueued.take ((resolved w.log).length + 1)).length ≤ w.server.applied.length
      rw [List.length_take]
      omega
    · rw [hres, List.length_append, List.length_singleton, ← List.drop_drop, hrest]
      rfl
    · show (resolved (w.log ++ rejected ++ [SenderOutput.resolved e])).length + rest.length ≤ w.server.applied.length
      simp only [Flush.Holds, List.length_cons] at hholds
      rw [hres, List.length_append, List.length_singleton]
      omega
    · rw [h.flushing, hf]
      rfl
    · rw [ofLog_snoc, hquiet.2]
      rfl
  · exact h

theorem Ok.leave (hmax : 0 < maxBatch) (h : w.Ok lmid) : (step (lmid + 1) maxBatch w .leave).Ok lmid := by
  rw [step]
  split
  · rename_i hf
    have hrest := h.rest
    rw [hf] at hrest
    have hlog : InFlight.ofLog w.log = some .nothing := by rw [h.log, hf]; rfl
    have hc : Core lmid { w with flushing := false, flush := .idle } :=
      ⟨h.mids, h.applied, h.lmid, h.noGap, fun r hr => h.late r hr, h.resolved⟩
    simp only
    split
    · exact startFlush_idle hmax hc hrest rfl hlog
    · rename_i hq
      exact ⟨hc, hrest, List.eq_nil_of_length_eq_zero (Nat.eq_zero_of_not_pos hq), rfl, hlog⟩
  · exact h

end

/-! ## Runs -/

theorem Ok.step {lmid maxBatch : Nat} {w : QueueWorld α} (hmax : 0 < maxBatch) (h : w.Ok lmid) (event : QueueEvent α) :
    (step (lmid + 1) maxBatch w event).Ok lmid := by
  cases event with
  | enqueue body => exact h.enqueue hmax body
  | process => exact h.process
  | processLate i => exact h.processLate i
  | lose i => exact h.lose i
  | reply outcomes => exact h.reply outcomes
  | fail => exact h.fail
  | wake => exact h.wake
  | settle => exact h.settle hmax
  | leave => exact h.leave hmax

theorem run_ok (lmid : Nat) (maxBatch : Option Nat) (events : List (QueueEvent α)) : (run lmid maxBatch events).Ok lmid := by
  have hmax : 0 < max 1 (maxBatch.getD 32) := by omega
  have hrun : ∀ (events : List (QueueEvent α)) (w : QueueWorld α), w.Ok lmid →
      (events.foldl (QueueWorld.step (lmid + 1) (max 1 (maxBatch.getD 32))) w).Ok lmid := by
    intro events
    induction events with
    | nil => exact fun w h => h
    | cons event events ih => exact fun w h => ih _ (h.step hmax event)
  refine hrun events _ ⟨⟨?_, List.prefix_refl _, rfl, rfl, ?_, List.prefix_refl _⟩, rfl, rfl, rfl, rfl⟩
  · intro i e h
    cases h
  · intro r hr
    cases hr

end QueueWorld

end Rindle.Remote
