/-
  Rindle.Streams.Live — the live plane of a model response (`LiveStream`, `Subscriber`).

  A response is produced as deltas. Every delta goes straight to the attached subscribers and
  into a retained buffer; a checkpoint now and then moves `durableSeq`, after which the
  buffer may be trimmed; a seal ends the stream. A subscriber is a bounded queue: a frame it
  has no room for ends it with `stale`. Texts are lists of UTF-16 code units.

  The drive loop runs one round at a time (`round`): either a tail slice is being committed
  or the seal is. When a round starts is the cadence's business (thresholds, the interval,
  a forced flush); here it may start at any moment.
-/

import Mathlib.Data.Rat.Floor
import Rindle.Lib.Slices

set_option linter.dupNamespace false

namespace Rindle.Streams

open Rindle.Slices

abbrev Text := List UInt16

inductive StreamStatus where
  | complete | cancelled | error | interrupted
deriving DecidableEq

inductive StreamFrame where
  | «open» (streamId : String) (fromSeq seq durableSeq : Nat) (ended : Bool)
  | chunk (fromSeq seq : Nat) (text : Text)
  | durable (seq : Nat)
  | «end» (seq : Nat) (status : StreamStatus) (error : Option String)
  | stale (floorSeq durableSeq : Nat)
  | absent

/-! ## Subscribers -/

/-- One attached reader's queue. `received` is what `next` has handed over so far. -/
structure Subscriber where
  cap : Nat
  queue : List StreamFrame := []
  waiter : Bool := false
  done : Bool := false
  received : List StreamFrame := []

namespace Subscriber

variable (s : Subscriber)

/-- `false` when the queue overflowed. -/
def offer (frame : StreamFrame) : Bool × Subscriber :=
  if s.done then (true, s)
  else if s.waiter then (true, { s with waiter := false, received := s.received ++ [frame] })
  else if s.cap ≤ s.queue.length then (false, s)
  else (true, { s with queue := s.queue ++ [frame] })

/-- A terminal frame bypasses the cap. -/
def finish (frame : StreamFrame) : Subscriber :=
  if s.done then s
  else if s.waiter then { s with waiter := false, done := true, received := s.received ++ [frame] }
  else { s with queue := s.queue ++ [frame], done := true }

def close : Subscriber :=
  { s with done := true, queue := [], waiter := false }

def next (s : Subscriber) : Subscriber :=
  match s.queue with
  | frame :: rest => { s with queue := rest, received := s.received ++ [frame] }
  | [] => if s.done then s else { s with waiter := true }

/-- Everything the reader has got or will get without another frame being offered. -/
def frames : List StreamFrame :=
  s.received ++ s.queue

end Subscriber

/-- `Math.min(Math.max(Math.floor(from), 0), seq)`. -/
def clampOffset (asked : ℚ) (seq : Nat) : Nat :=
  min (max ⌊asked⌋ 0).toNat seq

theorem clampOffset_le (asked : ℚ) (seq : Nat) : clampOffset asked seq ≤ seq := by
  rw [clampOffset]
  omega

/-- An offset the producer has reached is taken as it is. -/
theorem clampOffset_of_le {n seq : Nat} (h : n ≤ seq) : clampOffset n seq = n := by
  rw [clampOffset, show ⌊(n : ℚ)⌋ = (n : Int) from Int.floor_natCast n]
  omega

/-- A subscription: its queue, whether the stream's `subs` still hold it, and how it joined
    (the offset it asked for and how much had been produced then). -/
structure Reader where
  sub : Subscriber
  attached : Bool
  asked : ℚ
  length : Nat

def Reader.joined (r : Reader) : Nat :=
  clampOffset r.asked r.length

/-! ## The stream -/

structure PlaneOpts where
  /-- `none` is `Infinity`. -/
  retainChars : Option Nat
  maxQueuedFrames : Nat
  retries : Nat

structure Seal where
  status : StreamStatus
  error : Option String

/-- The checkpoint the drive loop is awaiting. -/
inductive Round where
  | tail (fromSeq toSeq : Nat) (text : Text)
  | close

structure LiveStream where
  streamId : String
  buf : Text := []
  bufFrom : Nat := 0
  seq : Nat := 0
  durableSeq : Nat := 0
  ended : Bool := false
  cancelled : Bool := false
  sealing : Option Seal := none
  round : Option Round := none
  /-- The plane still holds the stream; a sealed one is evicted after its linger. -/
  hosted : Bool := true
  /-- The offsets the pending flushes wait for. -/
  waiters : List Nat := []
  readers : List Reader := []
  /-- Everything pushed so far. -/
  produced : Text := []
  /-- The offsets whose flushes resolved. -/
  flushed : List Nat := []
  /-- How the seal's promise settled. -/
  sealed : Option Bool := none

/-- A fanned-out frame reaches one reader; one without room for it is dropped with `stale`. -/
def Reader.offer (r : Reader) (frame stale : StreamFrame) : Reader :=
  if r.attached then
    match r.sub.offer frame with
    | (true, sub) => { r with sub := sub }
    | (false, sub) => { r with sub := sub.finish stale, attached := false }
  else r

namespace LiveStream

variable (opts : PlaneOpts) (s : LiveStream)

def fanout (frame : StreamFrame) : LiveStream :=
  { s with readers := s.readers.map (·.offer frame (.stale s.bufFrom s.durableSeq)) }

/-! ### The producer's side -/

def push (s : LiveStream) (text : Text) : Except String LiveStream :=
  if s.sealing.isSome || s.ended then .error ("stream " ++ s.streamId ++ " is closed")
  else if text.length = 0 then .ok s
  else
    let seq := s.seq + text.length
    .ok (fanout { s with buf := s.buf ++ text, seq := seq, produced := s.produced ++ text } (.chunk s.seq seq text))

/-- A flush past the end of a stream that ended short is rejected. -/
def flush : LiveStream :=
  if s.seq ≤ s.durableSeq then { s with flushed := s.flushed ++ [s.seq] }
  else if s.ended then s
  else { s with waiters := s.waiters ++ [s.seq] }

/-- Named for `LiveStream.seal`; a stream that is sealing or ended keeps its first seal. -/
def «seal» (status : StreamStatus) (error : Option String) : LiveStream :=
  if s.ended || s.sealing.isSome then s
  else { s with sealing := some ⟨status, error⟩ }

/-! ### Durable progress -/

def trim : LiveStream :=
  match opts.retainChars with
  | none => s
  | some retainChars =>
    let floor := s.durableSeq - retainChars
    if floor ≤ s.bufFrom then s
    else { s with buf := s.buf.drop (floor - s.bufFrom), bufFrom := floor }

def resolveWaiters : LiveStream :=
  { s with
    flushed := s.flushed ++ s.waiters.filter (· ≤ s.durableSeq)
    waiters := s.waiters.filter (¬ · ≤ s.durableSeq) }

/-- `none` is `Number.POSITIVE_INFINITY`. -/
def rejectWaiters (s : LiveStream) (upTo : Option Nat) : LiveStream :=
  { s with waiters := s.waiters.filter fun w => ¬ ((∀ n ∈ upTo, w ≤ n) ∧ s.durableSeq < w) }

def advanceDurable (opts : PlaneOpts) (s : LiveStream) (seq : Nat) : LiveStream :=
  ((fanout { s with durableSeq := seq } (.durable seq)).trim opts).resolveWaiters

/-- What the plane's `commit` reports of an append. -/
structure CommitOut where
  cancelRequested : Bool := false
  seq : Option Nat := none

/-- `commitTail` up to the commit it awaits. -/
def commitTail : LiveStream :=
  { s with round := some (.tail s.durableSeq s.seq ((s.buf.drop (s.durableSeq - s.bufFrom)).take (s.seq - s.durableSeq))) }

/-- `commitTail` after a commit that returned. -/
def tailCommitted (toSeq : Nat) (out : CommitOut) : LiveStream :=
  let s := { s with round := none, cancelled := s.cancelled || out.cancelRequested }
  let confirmed := out.seq.getD toSeq
  let s := if s.durableSeq < confirmed then s.advanceDurable opts confirmed else s
  if confirmed < toSeq then s.rejectWaiters (some toSeq) else s

/-- `commitTail` after a commit that threw; `truth` is what the read-back then said. -/
def tailFailed (toSeq : Nat) (truth : Option Nat) : LiveStream :=
  let s := { s with round := none }
  let s :=
    match truth with
    | none => s
    | some t => if s.durableSeq < t then s.advanceDurable opts t else s
  s.rejectWaiters (some toSeq)

/-- `commitSeal` up to the commit it awaits. -/
def commitSeal : LiveStream :=
  { s with round := some .close }

/-- `commitSeal` after its commit returned (`ok`) or threw. -/
def sealDone (ok : Bool) : LiveStream :=
  match s.sealing with
  | none => s
  | some sealing =>
    let s := if ok then { s with durableSeq := s.seq } else s
    let s := { s with round := none, ended := true }
    let s := (s.rejectWaiters none).resolveWaiters
    let frame := StreamFrame.end s.durableSeq sealing.status sealing.error
    { s with
      readers := s.readers.map fun r => if r.attached then { r with sub := r.sub.finish frame } else r
      sealed := some ok }

/-! ### The subscriber's side -/

/-- What a join at `start` is offered at once. Whether there was room is not looked at. -/
def replay (start : Nat) : Subscriber :=
  let sub : Subscriber := { cap := opts.maxQueuedFrames }
  let sub := (sub.offer (.open s.streamId start s.seq s.durableSeq s.ended)).2
  let sub := if start < s.seq then (sub.offer (.chunk start s.seq (s.buf.drop (start - s.bufFrom)))).2 else sub
  if start < s.durableSeq then (sub.offer (.durable s.durableSeq)).2 else sub

/-- Snapshot, replay and registration in one synchronous block. -/
def subscribe (opts : PlaneOpts) (s : LiveStream) (asked : ℚ) : LiveStream :=
  let start := clampOffset asked s.seq
  let join (sub : Subscriber) (attached : Bool) : LiveStream :=
    { s with readers := s.readers ++ [⟨sub, attached, asked, s.seq⟩] }
  if start < s.bufFrom then
    let sub : Subscriber := { cap := opts.maxQueuedFrames }
    join (sub.finish (.stale s.bufFrom s.durableSeq)) false
  else if s.ended then
    let sealing := s.sealing.getD ⟨.interrupted, none⟩
    join ((s.replay opts start).finish (.end s.durableSeq sealing.status sealing.error)) false
  else join (s.replay opts start) true

/-- `StreamPlane.subscribe` past its authorization; with no stream and no relay the answer is `absent`. -/
def subscribePlane (asked : ℚ) : LiveStream :=
  if s.hosted then s.subscribe opts asked
  else
    let sub : Subscriber := { cap := opts.maxQueuedFrames, queue := [.absent], done := true }
    { s with readers := s.readers ++ [⟨sub, false, asked, s.seq⟩] }

def onReader (i : Nat) (f : Reader → Reader) : LiveStream :=
  { s with readers := s.readers.modify i f }

/-- The reader asks for its next frame; a finished one is detached. -/
def next (s : LiveStream) (i : Nat) : LiveStream :=
  s.onReader i fun r => { r with sub := r.sub.next, attached := r.attached && !(r.sub.done && r.sub.queue.isEmpty) }

def close (i : Nat) : LiveStream :=
  s.onReader i fun r => { r with sub := r.sub.close, attached := false }

def detachAll : LiveStream :=
  { s with readers := s.readers.map fun r => if r.attached then { r with sub := r.sub.close, attached := false } else r }

/-- `retire`'s timer. -/
def retire : LiveStream :=
  if s.ended then { s.detachAll with hosted := false } else s

end LiveStream

/-! ## Runs -/

inductive Event where
  | push (text : Text)
  | flush
  | «seal» (status : StreamStatus) (error : Option String)
  | commitTail
  | tailCommitted (out : LiveStream.CommitOut)
  | tailFailed (truth : Option Nat)
  | commitSeal
  | sealDone (ok : Bool)
  | subscribe (asked : ℚ)
  | next (i : Nat)
  | close (i : Nat)
  | detachAll
  | retire

/-- One step of the plane around one stream. What a commit or a read-back reports is a length
    the store holds, so no more than was produced. -/
inductive Step (opts : PlaneOpts) (s : LiveStream) : Event → LiveStream → Prop
  | push {text : Text} {s' : LiveStream} : s.push text = .ok s' → Step opts s (.push text) s'
  | flush : Step opts s .flush s.flush
  | «seal» {status : StreamStatus} {error : Option String} : Step opts s (.«seal» status error) (s.«seal» status error)
  | commitTail : s.round = none → s.sealing = none → s.ended = false → s.durableSeq < s.seq →
      Step opts s .commitTail s.commitTail
  | tailCommitted {i j : Nat} {text : Text} {out : LiveStream.CommitOut} : s.round = some (.tail i j text) →
      (∀ c ∈ out.seq, c ≤ s.seq) → Step opts s (.tailCommitted out) (s.tailCommitted opts j out)
  | tailFailed {i j : Nat} {text : Text} {truth : Option Nat} : s.round = some (.tail i j text) →
      (∀ t ∈ truth, t ≤ s.seq) → Step opts s (.tailFailed truth) (s.tailFailed opts j truth)
  | commitSeal : s.round = none → s.sealing.isSome → s.ended = false → Step opts s .commitSeal s.commitSeal
  | sealDone {ok : Bool} : s.round = some .close → Step opts s (.sealDone ok) (s.sealDone ok)
  | subscribe {asked : ℚ} : Step opts s (.subscribe asked) (s.subscribePlane opts asked)
  | next {i : Nat} : Step opts s (.next i) (s.next i)
  | close {i : Nat} : Step opts s (.close i) (s.close i)
  | detachAll : Step opts s .detachAll s.detachAll
  | retire : Step opts s .retire s.retire

/-- The states of the stream `streamId` in the runs whose joins all meet `join`. -/
inductive Run (opts : PlaneOpts) (streamId : String) (join : LiveStream → ℚ → Prop) : LiveStream → Prop
  | init : Run opts streamId join { streamId := streamId }
  | step {s s' : LiveStream} {e : Event} : Run opts streamId join s → Step opts s e s' →
      (∀ asked, e = .subscribe asked → join s asked) → Run opts streamId join s'

end Rindle.Streams
