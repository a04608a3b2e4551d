/-
  Rindle.Streams.Splice — what a subscriber receives is a legal subscription.

  `Legal` is the contract: an `open` at the clamped offset or a bare terminal, chunks that
  tile the produced text from there, one terminal at most and nothing after it. It is closed
  under prefixes, so it is kept for everything offered (`Subscriber.frames`) and read off for
  what was received. `Flowing` is the stronger fact of a reader that is still registered: its
  chunks reach the end of the produced text. The two are a discipline (`splicing`).

  A join offers three frames and looks at none of the answers. With a queue of one the
  `open` fills it and the replayed chunk is dropped without ending the subscription:
  - `splice_of_roomy`: in every run whose joins are `Roomy` every subscription is legal;
  - `cramped_join_loses_text`: a join that is not.
-/

import Rindle.Streams.Discipline

namespace Rindle.Streams

open Rindle.Slices

/-! ## Legal subscriptions -/

namespace StreamFrame

def slice? : StreamFrame → Option (Slice UInt16)
  | .chunk fromSeq seq text => some ⟨fromSeq, seq, text⟩
  | _ => none

def isOpen : StreamFrame → Bool
  | .open .. => true
  | _ => false

def isEnd : StreamFrame → Bool
  | .end .. => true
  | _ => false

@[grind] def isTerminal : StreamFrame → Bool
  | .end .. | .stale .. | .absent => true
  | _ => false

theorem isTerminal_of_isEnd {f : StreamFrame} (h : f.isEnd) : f.isTerminal := by
  cases f <;> simp_all [isEnd, isTerminal]

end StreamFrame

def chunks (frames : List StreamFrame) : List (Slice UInt16) :=
  frames.filterMap StreamFrame.slice?

@[simp] theorem chunks_append (fs gs : List StreamFrame) : chunks (fs ++ gs) = chunks fs ++ chunks gs :=
  List.filterMap_append

structure Legal (produced : Text) (joined : Nat) (frames : List StreamFrame) : Prop where
  opens : frames = [] ∨ (∃ t, t.isTerminal ∧ frames = [t]) ∨
    ∃ id seq durableSeq ended rest, frames = .open id joined seq durableSeq ended :: rest ∧ ∀ f ∈ rest, ¬ f.isOpen
  tiles : ∃ pos, Tiles produced joined (chunks frames) pos
  last : ∀ before t after, frames = before ++ t :: after → t.isTerminal → after = []

/-- An accepted subscription that has not ended and has been offered the text up to `pos`. -/
structure Flowing (produced : Text) (joined pos : Nat) (frames : List StreamFrame) : Prop where
  opens : ∃ id seq durableSeq ended rest, frames = .open id joined seq durableSeq ended :: rest ∧ ∀ f ∈ rest, ¬ f.isOpen
  tiles : Tiles produced joined (chunks frames) pos
  flows : ∀ f ∈ frames, ¬ f.isTerminal

variable {joined : Nat} {produced : Text} {joined pos : Nat} {fs : List StreamFrame}

theorem Legal.initial {fs gs : List StreamFrame}
    (h : Legal produced joined (fs ++ gs)) : Legal produced joined fs where
  opens := by
    rcases fs with _ | ⟨f, fs⟩
    · exact .inl rfl
    rcases h.opens with h | ⟨t, ht, h⟩ | ⟨id, seq, durableSeq, ended, rest, h, hrest⟩
    · simp at h
    · obtain ⟨rfl, hnil⟩ := List.cons_eq_cons.mp h
      obtain ⟨rfl, -⟩ := List.append_eq_nil_iff.mp hnil
      exact .inr (.inl ⟨f, ht, rfl⟩)
    · obtain ⟨rfl, hcons⟩ := List.cons_eq_cons.mp h
      refine .inr (.inr ⟨id, seq, durableSeq, ended, fs, rfl, ?_⟩)
      intro g hg
      exact hrest g (by rw [← hcons]; exact List.mem_append_left _ hg)
  tiles := by
    obtain ⟨pos, h⟩ := h.tiles
    rw [chunks_append] at h
    obtain ⟨j, h, -⟩ := h.split
    exact ⟨j, h⟩
  last := by
    intro before t after hfs ht
    have := h.last before t (after ++ gs) (by simp [hfs]) ht
    exact (List.append_eq_nil_iff.mp this).1

theorem Legal.grow {produced produced' : Text} (hg : produced <+: produced')
    (h : Legal produced joined fs) : Legal produced' joined fs := by
  obtain ⟨pos, ht⟩ := h.tiles
  exact ⟨h.opens, ⟨pos, ht.grow hg⟩, h.last⟩

theorem Flowing.grow {produced produced' : Text} (hg : produced <+: produced')
    (h : Flowing produced joined pos fs) : Flowing produced' joined pos fs :=
  ⟨h.opens, h.tiles.grow hg, h.flows⟩

theorem Flowing.legal
    (h : Flowing produced joined pos fs) : Legal produced joined fs where
  opens := .inr (.inr h.opens)
  tiles := ⟨pos, h.tiles⟩
  last := by
    intro before t after hfs ht
    exact absurd ht (h.flows t (by simp [hfs]))

theorem opens_append {fs gs : List StreamFrame}
    (h : ∃ id seq durableSeq ended rest, fs = .open id joined seq durableSeq ended :: rest ∧ ∀ f ∈ rest, ¬ f.isOpen)
    (hg : ∀ g ∈ gs, ¬ g.isOpen) :
    ∃ id seq durableSeq ended rest, fs ++ gs = .open id joined seq durableSeq ended :: rest ∧ ∀ f ∈ rest, ¬ f.isOpen := by
  obtain ⟨id, seq, durableSeq, ended, rest, rfl, hrest⟩ := h
  refine ⟨id, seq, durableSeq, ended, rest ++ gs, rfl, ?_⟩
  intro f hf
  rcases List.mem_append.mp hf with hf | hf
  · exact hrest f hf
  · exact hg f hf

theorem Flowing.durable
    (h : Flowing produced joined pos fs) (n : Nat) : Flowing produced joined pos (fs ++ [StreamFrame.durable n]) where
  opens := opens_append h.opens (by simp [StreamFrame.isOpen])
  tiles := by
    rw [chunks_append, show chunks [.durable n] = [] from rfl, List.append_nil]
    exact h.tiles
  flows := by
    intro f hf
    rcases List.mem_append.mp hf with hf | hf
    · exact h.flows f hf
    · simp [List.mem_singleton.mp hf, StreamFrame.isTerminal]

/-- The next slice, up to any later point. -/
theorem Flowing.chunk
    (h : Flowing produced joined pos fs) {upTo : Nat} (hlt : pos < upTo) (hle : upTo ≤ produced.length) :
    Flowing produced joined upTo (fs ++ [StreamFrame.chunk pos upTo (slice produced pos upTo)]) where
  opens := opens_append h.opens (by simp [StreamFrame.isOpen])
  tiles := by
    rw [chunks_append]
    exact h.tiles.append (Tiles.one hlt hle)
  flows := by
    intro f hf
    rcases List.mem_append.mp hf with hf | hf
    · exact h.flows f hf
    · simp [List.mem_singleton.mp hf, StreamFrame.isTerminal]

/-- A terminal ends it. -/
theorem Flowing.terminal
    (h : Flowing produced joined pos fs) {t : StreamFrame} (ht : t.isTerminal) :
    Legal produced joined (fs ++ [t]) ∧ Tiles produced joined (chunks (fs ++ [t])) pos := by
  have hopen : ¬ t.isOpen := by cases t <;> simp_all [StreamFrame.isOpen, StreamFrame.isTerminal]
  have hslice : t.slice? = none := by cases t <;> simp_all [StreamFrame.slice?, StreamFrame.isTerminal]
  have htiles : Tiles produced joined (chunks (fs ++ [t])) pos := by
    simpa [chunks, hslice] using h.tiles
  refine ⟨⟨.inr (.inr (opens_append h.opens (by simpa using hopen))), ⟨pos, htiles⟩, ?_⟩, htiles⟩
  intro before u after hfs hu
  rcases List.eq_nil_or_concat after with rfl | ⟨after, v, rfl⟩
  · rfl
  · -- a terminal before the last place would be one of `fs`
    have hfs : fs ++ [t] = (before ++ u :: after) ++ [v] := by simpa using hfs
    obtain ⟨rfl, -⟩ := List.append_inj' hfs rfl
    exact absurd hu (h.flows u (by simp))

theorem legal_bare (hj : joined ≤ produced.length) {t : StreamFrame}
    (ht : t.isTerminal) : Legal produced joined [t] where
  opens := .inr (.inl ⟨t, ht, rfl⟩)
  tiles := by
    have hslice : t.slice? = none := by cases t <;> simp_all [StreamFrame.slice?, StreamFrame.isTerminal]
    refine ⟨joined, ?_⟩
    simpa [chunks, hslice] using Tiles.none hj
  last := by
    intro before u after hfs _
    rcases before with _ | ⟨b, before⟩
    · exact (List.cons_eq_cons.mp hfs).2.symm
    · simp at hfs

/-! ## The discipline -/

/-- A subscription is legal, and has the whole text when it is told `end`. -/
def Whole (s : LiveStream) (asked : ℚ) (length : Nat) (fs : List StreamFrame) : Prop :=
  length ≤ s.produced.length ∧ Legal s.produced (clampOffset asked length) fs ∧
    ∀ f ∈ fs, f.isEnd → s.ended = true ∧ Tiles s.produced (clampOffset asked length) (chunks fs) s.produced.length

theorem Whole.initial {s : LiveStream} {asked : ℚ} {length : Nat} {fs gs : List StreamFrame} (h : Whole s asked length (fs ++ gs)) :
    Whole s asked length fs := by
  refine ⟨h.1, h.2.1.initial, fun f hf he => ?_⟩
  -- an `end` is the last frame
  obtain ⟨before, after, rfl⟩ := List.append_of_mem hf
  have hlast := h.2.1.last before f (after ++ gs) (by simp) (StreamFrame.isTerminal_of_isEnd he)
  obtain ⟨-, rfl⟩ := List.append_eq_nil_iff.mp hlast
  have hwhole := h.2.2 f (List.mem_append_left _ hf) he
  rwa [List.append_nil] at hwhole

theorem Whole.later {s s' : LiveStream} {asked : ℚ} {length : Nat} (h : Whole s asked length fs) (hl : s.Later s') :
    Whole s' asked length fs := by
  refine ⟨h.1.trans hl.text.length_le, h.2.1.grow hl.text, fun f hf he => ?_⟩
  obtain ⟨hended, htiles⟩ := h.2.2 f hf he
  rcases hl.whole with heq | hopen
  · rw [heq]
    exact ⟨hl.ended hended, htiles⟩
  · rw [hopen] at hended
    cases hended

def splicing : Discipline where
  fine := Whole
  goes s asked length pos fs := length ≤ s.produced.length ∧ Flowing s.produced (clampOffset asked length) pos fs
  fine_of_goes h := ⟨h.1, h.2.legal, fun f hf he => absurd (StreamFrame.isTerminal_of_isEnd he) (h.2.flows f hf)⟩
  initial := Whole.initial
  fine_later := Whole.later
  goes_later h hl := ⟨h.1.trans hl.text.length_le, h.2.grow hl.text⟩
  opened {s asked} h := by
    have hseq := h.seq
    have hstart := clampOffset_le asked s.seq
    refine ⟨by omega, ⟨_, _, _, _, [], rfl, by simp⟩, ?_, by simp [StreamFrame.isTerminal]⟩
    exact Tiles.none (by omega)
  chunk {s asked length pos fs text} h hgoes hlt htext := by
    rw [htext]
    exact ⟨hgoes.1, hgoes.2.chunk hlt (Nat.le_of_eq h.seq)⟩
  durable _ hgoes := ⟨hgoes.1, hgoes.2.durable _⟩
  stale {s asked length pos fs a b} hgoes := by
    refine ⟨hgoes.1, (hgoes.2.terminal (t := .stale a b) rfl).1, fun f hf he => ?_⟩
    rcases List.mem_append.mp hf with hf | hf
    · exact absurd (StreamFrame.isTerminal_of_isEnd he) (hgoes.2.flows f hf)
    · rw [List.mem_singleton.mp hf] at he
      cases he
  «end» {s asked length fs n status error} h hgoes hended _ := by
    obtain ⟨hlegal, htiles⟩ := hgoes.2.terminal (t := .end n status error) rfl
    rw [h.seq] at htiles
    exact ⟨hgoes.1, hlegal, fun _ _ _ => ⟨hended, htiles⟩⟩
  bare {s asked t} h ht := by
    have hseq := h.seq
    have hstart := clampOffset_le asked s.seq
    have hkind : t.isTerminal ∧ ¬ t.isEnd := by
      rcases ht with rfl | ⟨a, b, rfl⟩ <;> exact ⟨rfl, nofun⟩
    refine ⟨by omega, legal_bare (by omega) hkind.1, fun f hf he => ?_⟩
    rw [List.mem_singleton.mp hf] at he
    exact absurd he hkind.2

/-! ## Runs -/

namespace LiveStream

/-- Every subscription is legal, joins where it asked to when that much was produced, and has
    the whole text when it is told `end`. -/
def Spliced (s : LiveStream) : Prop :=
  ∀ r ∈ s.readers, Legal s.produced r.joined r.sub.received ∧
    (∀ f : Nat, r.asked = f → f ≤ r.length → r.joined = f) ∧
    ((∃ f ∈ r.sub.received, f.isEnd) →
      s.produced.take r.joined ++ (chunks r.sub.received).flatMap (·.text) = s.produced)

theorem Meets.spliced {s : LiveStream} {streamId : String} (h : s.Meets splicing streamId) : s.Spliced := by
  intro r hr
  obtain ⟨-, hlegal, hwhole⟩ := (h.readers r hr).received
  refine ⟨hlegal, ?_, ?_⟩
  · intro f hf hle
    rw [Reader.joined, hf, clampOffset_of_le hle]
  · intro hend
    obtain ⟨f, hf, he⟩ := hend
    rw [Reader.joined, (hwhole f hf he).2.spells, List.take_length]

/-- Every subscription is legal in every run whose joins have room for their replay. -/
theorem splice_of_roomy (opts : PlaneOpts) (hcap : 1 ≤ opts.maxQueuedFrames) (streamId : String) (s : LiveStream)
    (h : Run opts streamId (Roomy opts) s) : s.Spliced :=
  (Run.meets splicing hcap h).spliced

/-- With a queue of two the late joiner gets its replay. -/
theorem splice_of_roomy_two : ∃ s : LiveStream, s.readers.map (·.sub.received.length) = [1] ∧ s.Spliced := by
  have hrun := Run.step (@Run.step ⟨none, 2, 3⟩ "m1" (Roomy ⟨none, 2, 3⟩) _ _ _ (.step .init (@Step.push _ _ [104] _ rfl)
    (fun _ h => by cases h)) (@Step.subscribe _ _ 0) (fun _ _ => .inl (Nat.le_refl 2))) (.next (i := 0)) (fun _ h => by cases h)
  exact ⟨_, rfl, splice_of_roomy ⟨none, 2, 3⟩ (by decide) "m1" _ hrun⟩

/-- A queue of one, filled by the `open`: the replayed `h` is dropped and `i` comes next. -/
def oneFrame : PlaneOpts := { retainChars := none, maxQueuedFrames := 1, retries := 3 }

theorem cramped_join_loses_text : ∃ s, Run oneFrame "m1" (fun _ _ => True) s ∧ ¬ s.Spliced := by
  refine ⟨_, .step (.step (.step (.step (.step .init (@Step.push _ _ [104] _ rfl) ?_) (@Step.subscribe _ _ 0) ?_)
    (.next (i := 0)) ?_) (@Step.push _ _ [105] _ rfl) ?_) (.next (i := 0)) ?_, ?_⟩
  all_goals try exact fun _ _ => trivial
  intro h
  obtain ⟨pos, htiles⟩ := (h _ (List.mem_of_getElem? (i := 0) rfl)).1.tiles
  -- its only chunk starts at 1, it joined at 0
  have hstart : (1 : Nat) = 0 := htiles.1
  omega

end LiveStream

end Rindle.Streams
