/-
  Rindle.Streams.Open — several producers on one message row (`assertOpenable`, `markStreaming`,
  `commitOnce`, `probeHost`, `verifyOpenWinner`), with a `host` column mapped.

  A producer opens the stream in its own process: it probes the row once, then issues the
  conditional write, and reads the row's host back; a failed attempt is retried. A write may
  commit at any moment after it was issued, as every batch may. Once its open has succeeded a
  producer drives its stream over the shared row as it would drive it alone (`World.Step`). Each
  producer opens once, and its token is its name. Nobody else touches the row.

  `landed` is what a producer's open write found when it first took effect, and `stale` says that
  another producer has compacted characters since the probe; no step reads them.
-/

import Mathlib.Logic.Function.Basic
import Rindle.Streams.Durable

namespace Rindle.Streams

/-- Where a producer's open stands. `seen` is the host that the read-back found. -/
inductive OpenPhase (ι : Type) where
  | idle
  | ready (attempt : Nat)
  | writing (attempt : Nat) (mark : Nat)
  | verifying (attempt : Nat) (seen : Option (Option ι))
  | opened
  | refused

structure Producer (ι : Type) where
  phase : OpenPhase ι := .idle
  /-- The open writes it has issued, and whether they have committed. -/
  marks : List Bool := []
  stream : LiveStream
  flights : List Flight := []
  stage : Option Stage := none

structure Plane (ι : Type) where
  store : Store := {}
  host : Option ι := none
  /-- The status is still the application's own. -/
  pending : Bool := true
  producers : ι → Producer ι
  landed : ι → Option (Nat × Bool) := fun _ => none
  stale : ι → Bool := fun _ => false

/-- A compaction that leaves characters: it outdates the probes of the other producers. -/
def Batch.leaves : Batch → Bool
  | .append _ _ _ => false
  | .compact body _ _ => body ≠ []

namespace Plane

variable {ι : Type}

variable (p : Plane ι)

/-- The row's status is `streaming`. -/
def streaming : Bool := !p.pending && p.store.message.status.isNone

/-- A producer and the row, as the producer sees them. -/
def world (i : ι) : World :=
  { stream := (p.producers i).stream, store := p.store, flights := (p.producers i).flights, stage := (p.producers i).stage }

variable [DecidableEq ι]

def set (p : Plane ι) (i : ι) (producer : Producer ι) : Plane ι :=
  { p with producers := Function.update p.producers i producer }

def enter (p : Plane ι) (i : ι) (phase : OpenPhase ι) : Plane ι :=
  p.set i { p.producers i with phase := phase }

/-- `UPDATE … SET status = 'streaming', host = token WHERE … status <> 'streaming'`. -/
def markStreaming (i : ι) : Plane ι :=
  if p.streaming then p
  else { p with
    store := { p.store with message := { p.store.message with status := none } }
    host := some i
    pending := false
    landed := Function.update p.landed i ((p.landed i).or (some (p.store.message.seq, p.streaming))) }

/-- A failed attempt: the next one after its backoff, or `open` throws. -/
def failAttempt (opts : PlaneOpts) (i : ι) (attempt : Nat) : Plane ι :=
  p.enter i (if attempt < opts.retries then .ready (attempt + 1) else .refused)

/-- A batch commits. -/
def commit (p : Plane ι) (i : ι) (k : Nat) (b : Batch) : Plane ι :=
  { p with
    store := p.store.apply (p.producers i).stream.streamId b
    producers := Function.update p.producers i { p.producers i with flights := (p.producers i).flights.set k ⟨b, true⟩ }
    stale := fun j => p.stale j || (b.leaves && j ≠ i) }

end Plane

/-- What of a step the row's other producers may notice. -/
inductive Label (ι : Type) where
  | quiet
  | lands (i : ι)
  | commits (i : ι) (b : Batch)

inductive Plane.Step {ι : Type} [DecidableEq ι] (opts : PlaneOpts) (p : Plane ι) : Label ι → Plane ι → Prop
  | probe {i : ι} : (p.producers i).phase = .idle → p.store.message.seq = 0 → p.streaming = false →
      Step opts p .quiet ({ p with stale := Function.update p.stale i false }.enter i (.ready 0))
  | probeRefused {i : ι} : (p.producers i).phase = .idle → Step opts p .quiet (p.enter i .refused)
  | issue {i : ι} {k : Nat} : (p.producers i).phase = .ready k →
      Step opts p .quiet (p.set i { p.producers i with
        phase := .writing k (p.producers i).marks.length, marks := (p.producers i).marks ++ [false] })
  /-- An open write commits, whoever still waits for it. -/
  | lands {i : ι} {m : Nat} : (p.producers i).marks[m]? = some false →
      Step opts p (.lands i) ((p.set i { p.producers i with marks := (p.producers i).marks.set m true }).markStreaming i)
  | acked {i : ι} {k m : Nat} : (p.producers i).phase = .writing k m → (p.producers i).marks[m]? = some true →
      Step opts p .quiet (p.enter i (.verifying k none))
  | threw {i : ι} {k m : Nat} : (p.producers i).phase = .writing k m → Step opts p .quiet (p.failAttempt opts i k)
  | readHost {i : ι} {k : Nat} : (p.producers i).phase = .verifying k none → Step opts p .quiet (p.enter i (.verifying k (some p.host)))
  | readThrew {i : ι} {k : Nat} {seen : Option (Option ι)} : (p.producers i).phase = .verifying k seen →
      Step opts p .quiet (p.failAttempt opts i k)
  | won {i : ι} {k : Nat} : (p.producers i).phase = .verifying k (some (some i)) → Step opts p .quiet (p.enter i .opened)
  | lost {i : ι} {k : Nat} {host : Option ι} : (p.producers i).phase = .verifying k (some host) → host ≠ some i →
      Step opts p .quiet (p.enter i .refused)
  /-- What the producer, its plane and its readers do with the row as it is. -/
  | moves {i : ι} {w : World} : (p.producers i).phase = .opened → World.Step opts (p.world i) w → w.store = p.store →
      Step opts p .quiet (p.set i { p.producers i with stream := w.stream, flights := w.flights, stage := w.stage })
  | commits {i : ι} {k : Nat} {b : Batch} : (p.producers i).flights[k]? = some ⟨b, false⟩ → Step opts p (.commits i b) (p.commit i k b)

/-- The row of a message that the application has just written, and producers that have not opened it. -/
def Plane.written {ι : Type} (streamId : String) : Plane ι :=
  { producers := fun _ => { stream := { streamId := streamId } } }

end Rindle.Streams
