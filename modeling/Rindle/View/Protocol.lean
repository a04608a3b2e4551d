/-
  Rindle.View.Protocol — the subscription protocol (`rust/src/flat_protocol.rs`): a publisher
  that stamps snapshot and commits, a subscriber that folds what it may of what it is sent.

  The publisher says hello, sends its snapshot as one batch of seq 0 or as chunks 0, 1, …, the
  last of them marked, and then a batch of the next seq for each transaction that is not empty.
  The subscriber takes a frame of its own epoch and fingerprint that is the next one it waits
  for; it discards an earlier one and reports a gap on a later one.

  A delivery is any list of frames: frames may be lost, repeated and reordered, and frames of
  other epochs or fingerprints mixed in (`Delivers`). Whatever the delivery:
  - `Follows.receiveAll`: the events taken are the first pages of the snapshot, or all of it and
    the batches up to the last seq, each once and in order, and the tree is their fold.
  - `Subscriber.receive_refused`: a frame that is not taken leaves the subscriber as it was.
  - the subscriber panics (`none`) only where folding the publisher's own events does.

  Seqs and chunk indices are natural numbers: no run is long enough to wrap a `u64`.
-/

import Rindle.View.Flat

set_option linter.dupNamespace false

namespace Rindle

/-! ## Frames -/

structure Hello where
  epoch : UInt64
  comparatorVersion : UInt32
  schema : WireSchema
  schemaFp : UInt64

structure Batch where
  epoch : UInt64
  seq : Nat
  schemaFp : UInt64
  events : List FlatChange

structure SnapshotChunk where
  epoch : UInt64
  schemaFp : UInt64
  index : Nat
  last : Bool
  adds : List FlatChange

inductive SnapStatus where
  | accepted
  | complete
  | duplicate

inductive Applied where
  | applied
  | duplicate

inductive ProtocolError where
  | comparatorMismatch (expected got : UInt32)
  | epochMismatch (expected got : UInt64)
  | schemaMismatch (expected got : UInt64)
  | gap (expected got : Nat)

/-! ## The publisher -/

structure Publisher where
  epoch : UInt64
  schema : WireSchema
  schemaFp : UInt64
  nextSeq : Nat

namespace Publisher

def new (epoch : UInt64) (viewSchema : Schema) : Option Publisher :=
  (Rindle.schemaFp (toWire viewSchema)).map fun fp =>
    { epoch, schema := toWire viewSchema, schemaFp := fp, nextSeq := 0 }

variable (p : Publisher) (caught : List CaughtChange)

def hello : Hello :=
  { epoch := p.epoch, comparatorVersion := comparatorVersion, schema := p.schema, schemaFp := p.schemaFp }

def emit : Publisher × Batch :=
  ({ p with nextSeq := p.nextSeq + 1 },
    { epoch := p.epoch, seq := p.nextSeq, schemaFp := p.schemaFp, events := flattenAll caught })

def snapshot : Publisher × Batch := p.emit caught

/-- `slice::chunks`: pages of `n` elements, the last one of what is left. -/
def chunks {α : Type} (n : Nat) (l : List α) : List (List α) :=
  (List.range ((l.length + n - 1) / n)).map fun i => (l.drop (i * n)).take n

def snapshotChunks (maxPerChunk : Nat) :
    Option (Publisher × List SnapshotChunk) :=
  if maxPerChunk = 0 then none
  else
    let events := flattenAll caught
    let chunk (i : Nat) (last : Bool) (adds : List FlatChange) : SnapshotChunk :=
      { epoch := p.epoch, schemaFp := p.schemaFp, index := i, last, adds }
    let total := (events.length + maxPerChunk - 1) / maxPerChunk
    some ({ p with nextSeq := 1 },
      if events = [] then [chunk 0 true []]
      else (chunks maxPerChunk events).mapIdx fun i slice => chunk i (i + 1 == total) slice)

/-- `commit`: an empty transaction sends no batch and consumes no seq. -/
def commit (p : Publisher) (caught : List CaughtChange) : Publisher × Option Batch :=
  if caught = [] then (p, none)
  else (p.emit caught |>.1, some (p.emit caught).2)

end Publisher

/-! ## The subscriber -/

inductive Phase where
  | snapshot (nextChunk : Nat)
  | live (lastSeq : Nat)

structure Subscriber where
  epoch : UInt64
  schemaFp : UInt64
  recv : Receiver
  phase : Phase

namespace Subscriber

/-- `open`. -/
def openFrom (hello : Hello) : Option (Except ProtocolError Subscriber) :=
  if hello.comparatorVersion ≠ comparatorVersion then
    some (.error (.comparatorMismatch comparatorVersion hello.comparatorVersion))
  else
    (Rindle.schemaFp hello.schema).map fun computed =>
      if computed ≠ hello.schemaFp then .error (.schemaMismatch hello.schemaFp computed)
      else .ok { epoch := hello.epoch, schemaFp := hello.schemaFp, recv := .new (toSchema hello.schema),
                 phase := .snapshot 0 }

variable (s : Subscriber)

def checkFrame (epoch fp : UInt64) : Except ProtocolError Unit :=
  if epoch ≠ s.epoch then .error (.epochMismatch s.epoch epoch)
  else if fp ≠ s.schemaFp then .error (.schemaMismatch s.schemaFp fp)
  else .ok ()

def applySnapshotChunk (chunk : SnapshotChunk) :
    Option (Subscriber × Except ProtocolError SnapStatus) :=
  match s.checkFrame chunk.epoch chunk.schemaFp with
  | .error e => some (s, .error e)
  | .ok () =>
    match s.phase with
    | .live _ => some (s, .ok .duplicate)
    | .snapshot nextChunk =>
      if chunk.index < nextChunk then some (s, .ok .duplicate)
      else if chunk.index > nextChunk then some (s, .error (.gap nextChunk chunk.index))
      else
        (s.recv.applyAll chunk.adds).map fun recv =>
          if chunk.last then ({ s with recv := recv, phase := .live 0 }, .ok .complete)
          else ({ s with recv := recv, phase := .snapshot (nextChunk + 1) }, .ok .accepted)

def apply (batch : Batch) : Option (Subscriber × Except ProtocolError Applied) :=
  match s.checkFrame batch.epoch batch.schemaFp with
  | .error e => some (s, .error e)
  | .ok () =>
    match s.phase with
    | .snapshot nextChunk =>
      if nextChunk = 0 ∧ batch.seq = 0 then
        (s.recv.applyAll batch.events).map fun recv => ({ s with recv := recv, phase := .live 0 }, .ok .applied)
      else some (s, .error (.gap 0 batch.seq))
    | .live lastSeq =>
      if batch.seq < lastSeq + 1 then some (s, .ok .duplicate)
      else if batch.seq > lastSeq + 1 then some (s, .error (.gap (lastSeq + 1) batch.seq))
      else
        (s.recv.applyAll batch.events).map fun recv =>
          ({ s with recv := recv, phase := .live batch.seq }, .ok .applied)

def snapshotComplete : Bool :=
  match s.phase with
  | .live _ => true
  | .snapshot _ => false

def lastSeq : Option Nat :=
  match s.phase with
  | .live lastSeq => some lastSeq
  | .snapshot _ => none

end Subscriber

/-! ## A subscription -/

inductive Frame where
  | chunk (c : SnapshotChunk)
  | batch (b : Batch)

namespace Frame

def epoch : Frame → UInt64
  | .chunk c => c.epoch
  | .batch b => b.epoch

def fp : Frame → UInt64
  | .chunk c => c.schemaFp
  | .batch b => b.schemaFp

def events : Frame → List FlatChange
  | .chunk c => c.adds
  | .batch b => b.events

end Frame

/-- What the subscriber answers a frame with. -/
inductive Reply where
  | snap (r : Except ProtocolError SnapStatus)
  | batch (r : Except ProtocolError Applied)

/-- Neither a duplicate nor an error. -/
def Reply.took : Reply → Bool
  | .snap (.ok .accepted) => true
  | .snap (.ok .complete) => true
  | .batch (.ok .applied) => true
  | _ => false

inductive Baseline where
  | single
  | chunked (maxPerChunk : Nat)

namespace Publisher

def publishSnapshot (p : Publisher) (caught : List CaughtChange) : Baseline → Option (Publisher × List Frame)
  | .single => some ((p.snapshot caught).1, [.batch (p.snapshot caught).2])
  | .chunked n => (p.snapshotChunks caught n).map fun q => (q.1, q.2.map .chunk)

def publishCommits (p : Publisher) : List (List CaughtChange) → List Frame
  | [] => []
  | caught :: rest => (p.commit caught).2.toList.map .batch ++ (p.commit caught).1.publishCommits rest

/-- Every frame of a subscription: the snapshot's, then those of the commits. -/
def publish (p : Publisher) (base : Baseline) (caught : List CaughtChange) (commits : List (List CaughtChange)) :
    Option (List Frame) :=
  (p.publishSnapshot caught base).map fun q => q.2 ++ q.1.publishCommits commits

end Publisher

namespace Subscriber

def receive (s : Subscriber) : Frame → Option (Subscriber × Reply)
  | .chunk c => (s.applySnapshotChunk c).map fun q => (q.1, .snap q.2)
  | .batch b => (s.apply b).map fun q => (q.1, .batch q.2)

/-- A whole delivery, with the events of the frames taken. -/
def receiveAll (s : Subscriber) (taken : List FlatChange) : List Frame → Option (Subscriber × List FlatChange)
  | [] => some (s, taken)
  | f :: rest =>
    match s.receive f with
    | none => none
    | some (s', reply) => s'.receiveAll (if reply.took then taken ++ f.events else taken) rest

end Subscriber

/-- Frames the publisher sent, in any order and number, and frames of other subscriptions. -/
def Delivers (p : Publisher) (sent frames : List Frame) : Prop :=
  ∀ f ∈ frames, f ∈ sent ∨ f.epoch ≠ p.epoch ∨ f.fp ≠ p.schemaFp

/-! ## What the publisher sends -/

/-- The snapshot's events as they are paged. -/
def Baseline.pages (events : List FlatChange) : Baseline → List (List FlatChange)
  | .single => [events]
  | .chunked n => if events = [] then [[]] else Publisher.chunks n events

/-- The events of each transaction that is not empty. -/
def liveBatches (commits : List (List CaughtChange)) : List (List FlatChange) :=
  (commits.filter fun c => !c.isEmpty).map flattenAll

/-- A frame of the publisher, by its place. -/
inductive SentFrame (epoch fp : UInt64) (pages live : List (List FlatChange)) : Frame → Prop
  | chunk {i : Nat} {page : List FlatChange} (h : pages[i]? = some page) :
      SentFrame epoch fp pages live (.chunk ⟨epoch, fp, i, i + 1 == pages.length, page⟩)
  | snapshot : SentFrame epoch fp pages live (.batch ⟨epoch, 0, fp, pages.flatten⟩)
  | commit {i : Nat} {events : List FlatChange} (h : live[i]? = some events) :
      SentFrame epoch fp pages live (.batch ⟨epoch, i + 1, fp, events⟩)

namespace Publisher

theorem flatten_pages_take {α : Type} (n : Nat) (l : List α) (k : Nat) :
    ((List.range k).map fun i => (l.drop (i * n)).take n).flatten = l.take (k * n) := by
  induction k with
  | zero => simp
  | succ k ih =>
    rw [List.range_succ, List.map_append, List.flatten_append, ih, Nat.succ_mul, List.take_add]
    simp

theorem chunks_flatten {α : Type} {n : Nat} (hn : n ≠ 0) (l : List α) : (chunks n l).flatten = l := by
  rw [chunks, flatten_pages_take]
  refine List.take_of_length_le ?_
  have h := Nat.div_add_mod (l.length + n - 1) n
  have hm := Nat.mod_lt (l.length + n - 1) (Nat.pos_of_ne_zero hn)
  rw [Nat.mul_comm]
  omega

@[simp] theorem length_chunks {α : Type} (n : Nat) (l : List α) : (chunks n l).length = (l.length + n - 1) / n := by
  simp [chunks]

theorem mem_publishCommits (pages : List (List FlatChange)) {f : Frame} (commits : List (List CaughtChange)) :
    ∀ {p : Publisher} (pre : List (List FlatChange)), p.nextSeq = pre.length + 1 → f ∈ p.publishCommits commits →
      SentFrame p.epoch p.schemaFp pages (pre ++ liveBatches commits) f := by
  induction commits with
  | nil => intro p pre _ hf; simp [publishCommits] at hf
  | cons caught rest ih =>
    intro p pre hseq hf
    by_cases hc : caught = []
    · have hlive : liveBatches (caught :: rest) = liveBatches rest := by simp [liveBatches, hc]
      rw [hlive]
      simp only [publishCommits, commit, hc, if_true, Option.toList_none, List.map_nil, List.nil_append] at hf
      exact ih pre hseq hf
    · have hlive : liveBatches (caught :: rest) = flattenAll caught :: liveBatches rest := by
        simp [liveBatches, hc]
      simp only [publishCommits, commit, hc, if_false, Option.toList_some, List.map_cons, List.map_nil,
        List.singleton_append, List.mem_cons] at hf
      rw [hlive]
      rcases hf with rfl | hf
      · have h : SentFrame p.epoch p.schemaFp pages (pre ++ flattenAll caught :: liveBatches rest)
            (.batch ⟨p.epoch, pre.length + 1, p.schemaFp, flattenAll caught⟩) := .commit (by simp)
        rw [← hseq] at h
        exact h
      · have h := ih (pre ++ [flattenAll caught]) (by simp [emit, hseq]) hf
        rw [List.append_assoc] at h
        exact h

theorem mem_publishSnapshot (live : List (List FlatChange)) {p q : Publisher} {base : Baseline}
    {caught : List CaughtChange} {frames : List Frame} (hp : p.nextSeq = 0)
    (h : p.publishSnapshot caught base = some (q, frames)) :
    (∀ f ∈ frames, SentFrame p.epoch p.schemaFp (base.pages (flattenAll caught)) live f) ∧
      q.epoch = p.epoch ∧ q.schemaFp = p.schemaFp ∧ q.nextSeq = 1 ∧
      (base.pages (flattenAll caught)).flatten = flattenAll caught := by
  cases base with
  | single =>
    simp only [publishSnapshot, snapshot, emit, Option.some.injEq, Prod.mk.injEq] at h
    obtain ⟨rfl, rfl⟩ := h
    refine ⟨fun f hf => ?_, rfl, rfl, by simp [hp], by simp [Baseline.pages]⟩
    have hs : SentFrame p.epoch p.schemaFp [flattenAll caught] live
        (.batch ⟨p.epoch, 0, p.schemaFp, [flattenAll caught].flatten⟩) := .snapshot
    rw [List.mem_singleton.mp hf, hp]
    simpa [Baseline.pages] using hs
  | chunked n =>
    by_cases hn : n = 0
    · simp [publishSnapshot, snapshotChunks, hn] at h
    simp only [publishSnapshot, snapshotChunks, hn, if_false, Option.map_some, Option.some.injEq, Prod.mk.injEq] at h
    obtain ⟨rfl, rfl⟩ := h
    refine ⟨fun f hf => ?_, rfl, rfl, rfl, ?_⟩
    · by_cases he : flattenAll caught = []
      · simp only [he, if_true, List.map_cons, List.map_nil, List.mem_singleton] at hf
        rw [hf]
        simp only [Baseline.pages, he, if_true]
        exact .chunk rfl
      · simp only [he, if_false] at hf
        obtain ⟨c, hc, rfl⟩ := List.mem_map.mp hf
        obtain ⟨i, hi, rfl⟩ := List.mem_mapIdx.mp hc
        simp only [Baseline.pages, he, if_false]
        have hs : SentFrame p.epoch p.schemaFp (chunks n (flattenAll caught)) live
            (.chunk ⟨p.epoch, p.schemaFp, i, i + 1 == (chunks n (flattenAll caught)).length,
              (chunks n (flattenAll caught))[i]⟩) := .chunk (List.getElem?_eq_getElem hi)
        rw [length_chunks] at hs
        exact hs
    · by_cases he : flattenAll caught = []
      · simp [Baseline.pages, he]
      · simp [Baseline.pages, he, chunks_flatten hn]

/-- Every frame has its place, and the pages are the snapshot. -/
theorem mem_publish {p : Publisher} {base : Baseline} {caught : List CaughtChange}
    {commits : List (List CaughtChange)} {sent : List Frame} (hp : p.nextSeq = 0)
    (h : p.publish base caught commits = some sent) :
    (∀ f ∈ sent, SentFrame p.epoch p.schemaFp (base.pages (flattenAll caught)) (liveBatches commits) f) ∧
      (base.pages (flattenAll caught)).flatten = flattenAll caught := by
  obtain ⟨⟨q, frames⟩, hq, rfl⟩ := Option.map_eq_some_iff.mp h
  obtain ⟨hsnap, he, hf, hseq, hflat⟩ := mem_publishSnapshot (liveBatches commits) hp hq
  refine ⟨fun f hmem => ?_, hflat⟩
  rcases List.mem_append.mp hmem with hmem | hmem
  · exact hsnap f hmem
  · have hs := mem_publishCommits (base.pages (flattenAll caught)) commits [] (by simpa using hseq) hmem
    rw [he, hf] at hs
    exact hs

end Publisher

/-! ## What the subscriber holds -/

namespace Receiver

theorem applyAll_append (r : Receiver) (a b : List FlatChange) :
    r.applyAll (a ++ b) = (r.applyAll a).bind (·.applyAll b) := List.foldlM_append

/-- A fold that panics on a part panics on what continues it. -/
theorem applyAll_none {r : Receiver} {a l : List FlatChange} (ha : a <+: l) (h : r.applyAll a = none) :
    r.applyAll l = none := by
  obtain ⟨b, rfl⟩ := ha
  rw [applyAll_append, h]
  rfl

end Receiver

/-- In this phase the frame is the next one; taking it leads to the other phase. -/
inductive Awaits : Phase → Frame → Phase → Prop
  | page {c : SnapshotChunk} (h : c.last = false) : Awaits (.snapshot c.index) (.chunk c) (.snapshot (c.index + 1))
  | lastPage {c : SnapshotChunk} (h : c.last = true) : Awaits (.snapshot c.index) (.chunk c) (.live 0)
  | baseline {b : Batch} (h : b.seq = 0) : Awaits (.snapshot 0) (.batch b) (.live 0)
  | next {b : Batch} {n : Nat} (h : b.seq = n + 1) : Awaits (.live n) (.batch b) (.live (n + 1))

namespace Subscriber

theorem checkFrame_ok {s : Subscriber} {epoch fp : UInt64} {u : Unit} (h : s.checkFrame epoch fp = .ok u) :
    epoch = s.epoch ∧ fp = s.schemaFp := by
  simp only [checkFrame] at h
  split at h
  · cases h
  · split at h
    · cases h
    · rename_i he hf
      exact ⟨not_not.mp he, not_not.mp hf⟩

/-- A frame is refused and nothing changes, or it is the next one and its events are folded. -/
theorem receive_cases (s : Subscriber) (f : Frame) :
    (∃ r, Reply.took r = false ∧ s.receive f = some (s, r)) ∨
    ∃ r phase, Reply.took r = true ∧ f.epoch = s.epoch ∧ f.fp = s.schemaFp ∧ Awaits s.phase f phase ∧
      s.receive f = (s.recv.applyAll f.events).map fun recv => ({ s with recv := recv, phase := phase }, r) := by
  cases f with
  | chunk c =>
    simp only [receive, applySnapshotChunk, Frame.epoch, Frame.fp, Frame.events]
    cases hcheck : s.checkFrame c.epoch c.schemaFp with
    | error e => exact .inl ⟨.snap (.error e), rfl, rfl⟩
    | ok u =>
      obtain ⟨he, hf⟩ := checkFrame_ok hcheck
      cases hphase : s.phase with
      | live n => exact .inl ⟨.snap (.ok .duplicate), rfl, rfl⟩
      | snapshot k =>
        by_cases hlt : c.index < k
        · exact .inl ⟨.snap (.ok .duplicate), rfl, by simp [hlt]⟩
        by_cases hgt : c.index > k
        · exact .inl ⟨.snap (.error (.gap k c.index)), rfl, by simp [hlt, hgt]⟩
        obtain rfl : c.index = k := by omega
        cases hlast : c.last with
        | true =>
          refine .inr ⟨.snap (.ok .complete), .live 0, rfl, he, hf, .lastPage hlast, ?_⟩
          simp only [hlt, if_false, if_true, Option.map_map]
          rfl
        | false =>
          refine .inr ⟨.snap (.ok .accepted), .snapshot (c.index + 1), rfl, he, hf, .page hlast, ?_⟩
          simp only [hlt, if_false, Bool.false_eq_true, Option.map_map]
          rfl
  | batch b =>
    simp only [receive, apply, Frame.epoch, Frame.fp, Frame.events]
    cases hcheck : s.checkFrame b.epoch b.schemaFp with
    | error e => exact .inl ⟨.batch (.error e), rfl, rfl⟩
    | ok u =>
      obtain ⟨he, hf⟩ := checkFrame_ok hcheck
      cases hphase : s.phase with
      | snapshot k =>
        by_cases h0 : k = 0 ∧ b.seq = 0
        · obtain ⟨rfl, hseq⟩ := h0
          refine .inr ⟨.batch (.ok .applied), .live 0, rfl, he, hf, .baseline hseq, ?_⟩
          simp only [hseq, true_and, if_true, Option.map_map]
          rfl
        · exact .inl ⟨.batch (.error (.gap 0 b.seq)), rfl, by simp [h0]⟩
      | live n =>
        by_cases hlt : b.seq < n + 1
        · exact .inl ⟨.batch (.ok .duplicate), rfl, by simp [hlt]⟩
        by_cases hgt : b.seq > n + 1
        · exact .inl ⟨.batch (.error (.gap (n + 1) b.seq)), rfl, by simp [hlt, hgt]⟩
        have hseq : b.seq = n + 1 := by omega
        refine .inr ⟨.batch (.ok .applied), .live (n + 1), rfl, he, hf, .next hseq, ?_⟩
        simp only [hseq, Nat.lt_irrefl, gt_iff_lt, if_false, Option.map_map]
        rfl

/-- A duplicate or an error changes nothing. -/
theorem receive_refused {s s' : Subscriber} {f : Frame} {r : Reply} (h : s.receive f = some (s', r))
    (hr : r.took = false) : s' = s := by
  rcases receive_cases s f with ⟨r', -, h'⟩ | ⟨r', phase, hr', -, -, -, h'⟩
  · rw [h'] at h
    exact (congrArg Prod.fst (Option.some.inj h)).symm
  · rw [h'] at h
    obtain ⟨recv, -, he⟩ := Option.map_eq_some_iff.mp h
    cases he
    rw [hr] at hr'
    cases hr'

end Subscriber

/-- What was taken by a phase: the first pages, or all of them and the first batches. -/
def Phase.Took (pages live : List (List FlatChange)) (taken : List FlatChange) : Phase → Prop
  | .snapshot k => k ≤ pages.length ∧ taken = (pages.take k).flatten
  | .live n => n ≤ live.length ∧ taken = pages.flatten ++ (live.take n).flatten

/-- The subscriber is that far in the publisher's stream: `taken` is what it has folded. -/
structure Follows (epoch fp : UInt64) (start : Receiver) (pages live : List (List FlatChange)) (s : Subscriber)
    (taken : List FlatChange) : Prop where
  epoch : s.epoch = epoch
  fp : s.schemaFp = fp
  tree : start.applyAll taken = some s.recv
  phase : s.phase.Took pages live taken

section
variable {epoch fp : UInt64} {start : Receiver} {pages live : List (List FlatChange)}

theorem flatten_take_succ {α : Type} {l : List (List α)} {i : Nat} {x : List α} (h : l[i]? = some x) :
    (l.take (i + 1)).flatten = (l.take i).flatten ++ x := by
  rw [List.take_add_one, h]
  simp

theorem flatten_take_below {α : Type} (l : List (List α)) (k : Nat) : (l.take k).flatten <+: l.flatten :=
  ⟨(l.drop k).flatten, by rw [← List.flatten_append, List.take_append_drop]⟩

/-- The next frame continues what was taken, still along the publisher's stream. -/
theorem Follows.awaits {s : Subscriber} {taken : List FlatChange} {f : Frame} {phase : Phase}
    (h : Follows epoch fp start pages live s taken) (hf : SentFrame epoch fp pages live f) (ha : Awaits s.phase f phase) :
    taken ++ f.events <+: pages.flatten ++ live.flatten ∧ phase.Took pages live (taken ++ f.events) := by
  have hpages : ∀ k, (pages.take k).flatten <+: pages.flatten ++ live.flatten := fun k =>
    (flatten_take_below pages k).trans (List.prefix_append _ _)
  have hlive : ∀ n, pages.flatten ++ (live.take n).flatten <+: pages.flatten ++ live.flatten := fun n =>
    (List.prefix_append_right_inj _).mpr (flatten_take_below live n)
  have hphase := h.phase
  generalize s.phase = before at ha hphase
  cases ha with
  | page hlast =>
    cases hf with
    | chunk hpage =>
      obtain ⟨-, rfl⟩ := hphase
      have hlt := (List.getElem?_eq_some_iff.mp hpage).1
      simp only [Frame.events, ← flatten_take_succ hpage]
      exact ⟨hpages _, hlt, rfl⟩
  | lastPage hlast =>
    cases hf with
    | @chunk i page hpage =>
      obtain ⟨-, rfl⟩ := hphase
      have hi : i + 1 = pages.length := by simpa using hlast
      simp only [Frame.events, ← flatten_take_succ hpage, hi, List.take_length]
      exact ⟨List.prefix_append _ _, Nat.zero_le _, by simp⟩
  | baseline hseq =>
    obtain ⟨-, rfl⟩ := hphase
    cases hf with
    | snapshot => exact ⟨by simp [Frame.events], Nat.zero_le _, by simp [Frame.events]⟩
    | commit _ => simp at hseq
  | next hseq =>
    obtain ⟨-, rfl⟩ := hphase
    cases hf with
    | snapshot => simp at hseq
    | @commit i events hlook =>
      obtain rfl : i = _ := Nat.succ.inj hseq
      have hlt := (List.getElem?_eq_some_iff.mp hlook).1
      simp only [Frame.events, List.append_assoc, ← flatten_take_succ hlook]
      exact ⟨hlive _, hlt, rfl⟩

/-- One frame: the subscriber follows on, or folding the publisher's events panics. -/
theorem Follows.receive {s : Subscriber} {taken : List FlatChange} {f : Frame}
    (h : Follows epoch fp start pages live s taken)
    (hf : SentFrame epoch fp pages live f ∨ f.epoch ≠ epoch ∨ f.fp ≠ fp) :
    match s.receive f with
    | none => start.applyAll (pages.flatten ++ live.flatten) = none
    | some (s', r) => Follows epoch fp start pages live s' (if r.took then taken ++ f.events else taken) := by
  rcases Subscriber.receive_cases s f with ⟨r, hr, he⟩ | ⟨r, phase, hr, hepoch, hfp, ha, he⟩
  · simp only [he, hr]
    exact h
  have hsent : SentFrame epoch fp pages live f := by
    rcases hf with hf | hf | hf
    · exact hf
    · exact absurd (hepoch.trans h.epoch) hf
    · exact absurd (hfp.trans h.fp) hf
  obtain ⟨hpre, hphase⟩ := h.awaits hsent ha
  have hfold : start.applyAll (taken ++ f.events) = s.recv.applyAll f.events := by
    rw [Receiver.applyAll_append, h.tree]
    rfl
  rw [he]
  cases hrun : s.recv.applyAll f.events with
  | none => exact Receiver.applyAll_none hpre (hfold.trans hrun)
  | some recv =>
    simp only [Option.map_some, hr, if_true]
    exact ⟨h.epoch, h.fp, hfold.trans hrun, hphase⟩

theorem Follows.receiveAll {frames : List Frame}
    (hframes : ∀ f ∈ frames, SentFrame epoch fp pages live f ∨ f.epoch ≠ epoch ∨ f.fp ≠ fp) :
    ∀ {s : Subscriber} {taken : List FlatChange}, Follows epoch fp start pages live s taken →
    match s.receiveAll taken frames with
    | none => start.applyAll (pages.flatten ++ live.flatten) = none
    | some (s', taken') => Follows epoch fp start pages live s' taken' := by
  induction frames with
  | nil => intro s taken h; exact h
  | cons f rest ih =>
    intro s taken h
    have hstep := h.receive (hframes f (List.mem_cons_self ..))
    simp only [Subscriber.receiveAll]
    cases hrec : s.receive f with
    | none => rw [hrec] at hstep; exact hstep
    | some q =>
      rw [hrec] at hstep
      exact ih (fun g hg => hframes g (List.mem_cons_of_mem _ hg)) hstep

end

theorem Subscriber.openFrom_hello {epoch : UInt64} {schema : Schema} {p : Publisher}
    (hnew : Publisher.new epoch schema = some p) :
    Subscriber.openFrom p.hello =
      some (.ok ⟨p.epoch, p.schemaFp, .new (toSchema (toWire schema)), .snapshot 0⟩) := by
  obtain ⟨fp, hfp, rfl⟩ := Option.map_eq_some_iff.mp hnew
  simp [Subscriber.openFrom, Publisher.hello, hfp]

/-- For every delivery of a subscription's frames, lost, repeated, reordered or mixed with
    others: the subscriber opens; its tree is the fold of what it took, a prefix of the snapshot
    until it is complete and then the snapshot, each event once, with the first `last_seq`
    batches; a frame it does not take changes nothing; and it panics only where the fold of the
    publisher's own events does. -/
theorem subscription_follows {epoch : UInt64} {schema : Schema} {p : Publisher} {base : Baseline}
    {caught : List CaughtChange} {commits : List (List CaughtChange)} {sent : List Frame}
    (hnew : Publisher.new epoch schema = some p) (hsent : p.publish base caught commits = some sent) :
    ∃ sub, Subscriber.openFrom p.hello = some (.ok sub) ∧ sub.recv = .new (toSchema (toWire schema)) ∧
      ∀ frames, Delivers p sent frames →
        match sub.receiveAll [] frames with
        | none => sub.recv.applyAll (flattenAll caught ++ (liveBatches commits).flatten) = none
        | some (s, taken) =>
          sub.recv.applyAll taken = some s.recv ∧
          (s.snapshotComplete = false → taken <+: flattenAll caught) ∧
          (s.snapshotComplete = true → ∃ n, s.lastSeq = some n ∧ n ≤ (liveBatches commits).length ∧
            taken = flattenAll caught ++ ((liveBatches commits).take n).flatten) ∧
          ∀ f s' r, s.receive f = some (s', r) → Reply.took r = false → s' = s := by
  have hseq : p.nextSeq = 0 := by
    obtain ⟨fp, -, rfl⟩ := Option.map_eq_some_iff.mp hnew
    rfl
  obtain ⟨hmem, hpages⟩ := Publisher.mem_publish hseq hsent
  refine ⟨_, Subscriber.openFrom_hello hnew, rfl, fun frames hdel => ?_⟩
  have hframes : ∀ f ∈ frames, SentFrame p.epoch p.schemaFp (base.pages (flattenAll caught)) (liveBatches commits) f ∨
      f.epoch ≠ p.epoch ∨ f.fp ≠ p.schemaFp := fun f hf => (hdel f hf).imp_left (hmem f)
  have hstart : Follows p.epoch p.schemaFp (.new (toSchema (toWire schema))) (base.pages (flattenAll caught))
      (liveBatches commits) ⟨p.epoch, p.schemaFp, .new (toSchema (toWire schema)), .snapshot 0⟩ [] :=
    ⟨rfl, rfl, rfl, Nat.zero_le _, rfl⟩
  have hrun := Follows.receiveAll hframes hstart
  cases hall : Subscriber.receiveAll
      ⟨p.epoch, p.schemaFp, .new (toSchema (toWire schema)), .snapshot 0⟩ [] frames with
  | none =>
    rw [hall, hpages] at hrun
    exact hrun
  | some q =>
    obtain ⟨s, taken⟩ := q
    rw [hall] at hrun
    refine ⟨hrun.tree, fun hc => ?_, fun hc => ?_, fun f s' r hrec hr => Subscriber.receive_refused hrec hr⟩
    · have hphase := hrun.phase
      cases hp : s.phase with
      | live n => simp [Subscriber.snapshotComplete, hp] at hc
      | snapshot k =>
        rw [hp] at hphase
        rw [← hpages, hphase.2]
        exact flatten_take_below _ k
    · have hphase := hrun.phase
      cases hp : s.phase with
      | snapshot k => simp [Subscriber.snapshotComplete, hp] at hc
      | live n =>
        rw [hp] at hphase
        refine ⟨n, by simp [Subscriber.lastSeq, hp], hphase.1, ?_⟩
        rw [← hpages]
        exact hphase.2

/-- Every frame backwards, a gap, and then again: nothing panics. -/
theorem subscription_follows_repeated :
    ∃ p sent sub s taken, Publisher.new 7 (Schema.new ["id"] [0] [(0, true)]) = some p ∧
      p.publish (.chunked 1) [.add ⟨[.int 1], []⟩] [[], [.add ⟨[.int 2], []⟩]] = some sent ∧
      Subscriber.openFrom p.hello = some (.ok sub) ∧
      sub.receiveAll [] (sent.reverse ++ sent) = some (s, taken) ∧ sub.recv.applyAll taken = some s.recv := by
  have hfp : (schemaFp (toWire (Schema.new ["id"] [0] [(0, true)]))).isSome = true := by decide
  obtain ⟨fp, hfp⟩ := Option.isSome_iff_exists.mp hfp
  have hnew : Publisher.new 7 (Schema.new ["id"] [0] [(0, true)]) =
      some ⟨7, toWire (Schema.new ["id"] [0] [(0, true)]), fp, 0⟩ := by rw [Publisher.new, hfp, Option.map_some]
  obtain ⟨sent, hsent⟩ : ∃ sent, Publisher.publish ⟨7, toWire (Schema.new ["id"] [0] [(0, true)]), fp, 0⟩ (.chunked 1)
      [.add ⟨[.int 1], []⟩] [[], [.add ⟨[.int 2], []⟩]] = some sent := ⟨_, rfl⟩
  obtain ⟨sub, hopen, hrecv, hall⟩ := subscription_follows hnew hsent
  have h := hall (sent.reverse ++ sent) fun f hf => .inl (by simpa using hf)
  cases hrun : sub.receiveAll [] (sent.reverse ++ sent) with
  | none =>
    have hfold : (Receiver.applyAll (.new (toSchema (toWire (Schema.new ["id"] [0] [(0, true)]))))
        (flattenAll [.add ⟨[.int 1], []⟩] ++ (liveBatches [[], [.add ⟨[.int 2], []⟩]]).flatten)).isSome = true := by
      decide
    rw [hrun, hrecv] at h
    rw [h] at hfold
    cases hfold
  | some q =>
    rw [hrun] at h
    exact ⟨_, sent, sub, q.1, q.2, hnew, hsent, hopen, hrun, h.1⟩

end Rindle
