/-
  Rindle.Streams.Store — the durable plane in mapped-table mode (`MappedTableSql`, `commit`,
  `commitOnce`, `readAppendState`, `probeDurableSeq`).

  The store holds the message row and the stream's chunk rows. A batch is one transaction:
  it commits as a whole or not at all, and it may commit at any moment after it was issued,
  whether or not its caller has already been told that it failed. What an append did is
  therefore never taken from the batch: it is read back.
-/

import Mathlib.Data.List.Sort
import Rindle.Streams.Kept

namespace Rindle.Streams

open Rindle.Slices

structure MessageRow where
  body : Text := []
  seq : Nat := 0
  /-- `none` is `streaming`. -/
  status : Option StreamStatus := none
  error : Option String := none

structure ChunkRow where
  id : String
  seq : Nat
  text : Text

/-- The row of the stream's message and the chunk rows that name the stream. -/
structure Store where
  message : MessageRow := {}
  chunks : List ChunkRow := []

/-- `${streamId}:${seq}`. -/
def streamChunkId (streamId : String) (seq : Nat) : String :=
  streamId ++ ":" ++ seq.repr

/-- The durable text a client reads: the body, then the chunk rows in `seq` order. -/
def assembleDurableText (message : MessageRow) (chunks : List ChunkRow) : Text :=
  message.body ++ (chunks.mergeSort (fun a b => decide (a.seq ≤ b.seq))).flatMap (·.text)

/-! ## Batches -/

inductive Batch where
  | append (fromSeq seq : Nat) (text : Text)
  | compact (body : Text) (status : StreamStatus) (error : Option String)

namespace Store

/-- `INSERT … SELECT … WHERE EXISTS (… seq = from) ON CONFLICT DO NOTHING`. -/
def insertChunk (st : Store) (streamId : String) (fromSeq seq : Nat) (text : Text) : Store :=
  let id := streamChunkId streamId seq
  if st.message.seq = fromSeq ∧ ¬ st.chunks.any (·.id = id) then { st with chunks := st.chunks ++ [⟨id, seq, text⟩] }
  else st

/-- `UPDATE … SET seq = to WHERE … seq = from`. -/
def advance (st : Store) (fromSeq seq : Nat) : Store :=
  if st.message.seq = fromSeq then { st with message := { st.message with seq := seq } } else st

/-- One transaction. -/
def apply (st : Store) (streamId : String) : Batch → Store
  | .append fromSeq seq text => (st.insertChunk streamId fromSeq seq text).advance fromSeq seq
  | .compact body status error => { message := ⟨body, body.length, some status, error⟩, chunks := [] }

end Store

/-! ## The plane over the store -/

/-- Where the commit of the round in flight stands. `seen` is the length a read-back found,
    once the store has answered it. -/
inductive Stage where
  | ready (attempt : Nat)
  | batch (attempt : Nat) (flight : Nat)
  | confirm (attempt : Nat) (seen : Option Nat)
  | recheck (attempt : Nat) (seen : Option Nat)
  | probe (seen : Option Nat)

@[grind] def Stage.seen : Stage → Option Nat
  | .confirm _ seen | .recheck _ seen | .probe seen => seen
  | _ => none

/-- A batch handed to `sql.batch`, and whether it has committed. -/
structure Flight where
  batch : Batch
  committed : Bool

structure World where
  stream : LiveStream
  store : Store := {}
  flights : List Flight := []
  stage : Option Stage := none

/-- Mapped tables keep the whole text: `retainChars` is refused there. -/
def mappedOpts (maxQueuedFrames retries : Nat) : PlaneOpts :=
  { retainChars := none, maxQueuedFrames := maxQueuedFrames, retries := retries }

/-- The statements of the round in flight. -/
def LiveStream.batch? (s : LiveStream) : Option Batch :=
  match s.round with
  | none => none
  | some (.tail fromSeq seq text) => some (.append fromSeq seq text)
  | some .close => s.sealing.map fun sealing => .compact s.buf sealing.status sealing.error

/-- A failed attempt: the next one after its backoff, or `commit` throws. -/
def World.failAttempt (w : World) (opts : PlaneOpts) (attempt : Nat) : World :=
  if attempt < opts.retries then { w with stage := some (.ready (attempt + 1)) }
  else
    match w.stream.round with
    | some .close => { w with stream := w.stream.sealDone false, stage := none }
    | _ => { w with stage := some (.probe none) }

/-- What the producer, the readers and the clock do, as against the drive loop. -/
def Event.outside : Event → Bool
  | .push _ | .flush | .seal _ _ | .subscribe _ | .next _ | .close _ | .detachAll | .retire => true
  | _ => false

inductive World.Step (opts : PlaneOpts) (w : World) : World → Prop
  | outside {e : Event} {s' : LiveStream} : e.outside → Streams.Step opts w.stream e s' →
      Step opts w { w with stream := s' }
  | tailRound {s' : LiveStream} : Streams.Step opts w.stream .commitTail s' →
      Step opts w { w with stream := s', stage := some (.ready 0) }
  | closeRound {s' : LiveStream} : Streams.Step opts w.stream .commitSeal s' →
      Step opts w { w with stream := s', stage := some (.ready 0) }
  | issue {k : Nat} {b : Batch} : w.stage = some (.ready k) → w.stream.batch? = some b →
      Step opts w { w with flights := w.flights ++ [⟨b, false⟩], stage := some (.batch k w.flights.length) }
  /-- A batch commits, whoever still waits for it. -/
  | commits {i : Nat} {b : Batch} : w.flights[i]? = some ⟨b, false⟩ →
      Step opts w { w with store := w.store.apply w.stream.streamId b, flights := w.flights.set i ⟨b, true⟩ }
  | appendAcked {k i fromSeq seq : Nat} {text : Text} : w.stage = some (.batch k i) →
      w.flights[i]? = some ⟨.append fromSeq seq text, true⟩ → Step opts w { w with stage := some (.confirm k none) }
  | appendThrew {k i fromSeq seq : Nat} {text : Text} {committed : Bool} : w.stage = some (.batch k i) →
      w.flights[i]? = some ⟨.append fromSeq seq text, committed⟩ → Step opts w { w with stage := some (.recheck k none) }
  | closeAcked {k i : Nat} {body : Text} {status : StreamStatus} {error : Option String} : w.stage = some (.batch k i) →
      w.stream.round = some .close → w.flights[i]? = some ⟨.compact body status error, true⟩ →
      Step opts w { w with stream := w.stream.sealDone true, stage := none }
  | closeThrew {k i : Nat} {body : Text} {status : StreamStatus} {error : Option String} {committed : Bool} :
      w.stage = some (.batch k i) → w.flights[i]? = some ⟨.compact body status error, committed⟩ →
      Step opts w (w.failAttempt opts k)
  | confirmRead {k : Nat} : w.stage = some (.confirm k none) →
      Step opts w { w with stage := some (.confirm k (some w.store.message.seq)) }
  | recheckRead {k : Nat} : w.stage = some (.recheck k none) →
      Step opts w { w with stage := some (.recheck k (some w.store.message.seq)) }
  | probeRead : w.stage = some (.probe none) → Step opts w { w with stage := some (.probe (some w.store.message.seq)) }
  /-- The read-back's answer arrives, with the cancel flag if that is mapped. -/
  | confirmed {k v i j : Nat} {text : Text} {cancel : Bool} : w.stage = some (.confirm k (some v)) →
      w.stream.round = some (.tail i j text) →
      Step opts w { w with stream := w.stream.tailCommitted opts j ⟨cancel, some v⟩, stage := none }
  | rechecked {k v i j : Nat} {text : Text} {cancel : Bool} : w.stage = some (.recheck k (some v)) →
      w.stream.round = some (.tail i j text) → j ≤ v →
      Step opts w { w with stream := w.stream.tailCommitted opts j ⟨cancel, some v⟩, stage := none }
  | recheckShort {k v i j : Nat} {text : Text} : w.stage = some (.recheck k (some v)) →
      w.stream.round = some (.tail i j text) → v < j → Step opts w (w.failAttempt opts k)
  | confirmThrew {k : Nat} {seen : Option Nat} : w.stage = some (.confirm k seen) → Step opts w (w.failAttempt opts k)
  | recheckThrew {k : Nat} {seen : Option Nat} : w.stage = some (.recheck k seen) → Step opts w (w.failAttempt opts k)
  | probed {v i j : Nat} {text : Text} : w.stage = some (.probe (some v)) → w.stream.round = some (.tail i j text) →
      Step opts w { w with stream := w.stream.tailFailed opts j (some v), stage := none }
  | probeThrew {i j : Nat} {text : Text} {seen : Option Nat} : w.stage = some (.probe seen) →
      w.stream.round = some (.tail i j text) →
      Step opts w { w with stream := w.stream.tailFailed opts j none, stage := none }

/-- Any number of steps. -/
inductive World.Steps (opts : PlaneOpts) : World → World → Prop
  | refl (w : World) : Steps opts w w
  | step {w w' w'' : World} : Steps opts w w' → World.Step opts w' w'' → Steps opts w w''

/-- A freshly opened stream: the row is empty and names no chunk. -/
def World.opened (streamId : String) : World :=
  { stream := { streamId := streamId } }

end Rindle.Streams
