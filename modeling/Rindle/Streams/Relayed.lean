/-
  Rindle.Streams.Relayed — the local plane's own subscriptions, as a relay would carry them.

  A reader of the live plane that a relay mirrors frame by frame passes `StreamRelayConform`
  unchanged: the frames of a local subscription are legal (`Run.relayed`), in every run whose
  joins have room for their replay. Besides what `Rindle.Streams.Splice` says of its chunks, a
  local subscription is told durable values in order, none past its text, and its `end` likewise
  (`relaying`).

  `relay_conforms` has all of the pass's contract.
-/

import Rindle.Streams.Conform
import Rindle.Streams.Splice

namespace Rindle.Streams

open Rindle.Slices

/-- A frame of the local plane, on a relay. -/
def StreamFrame.relayed : StreamFrame → Relay.Frame
  | .open streamId fromSeq seq durableSeq ended => .open (some streamId) (.int fromSeq) (.int seq) (.int durableSeq) (some ended)
  | .chunk fromSeq seq text => .chunk (.int fromSeq) (.int seq) (some text)
  | .durable seq => .durable (.int seq)
  | .end seq status error => .end (.int seq) (some status) error
  | .stale floorSeq durableSeq => .stale (.int floorSeq) (.int durableSeq)
  | .absent => .absent

def relayed (frames : List StreamFrame) : List Relay.Frame := frames.map StreamFrame.relayed

theorem relayed_snoc (fs : List StreamFrame) (f : StreamFrame) : relayed (fs ++ [f]) = relayed fs ++ [f.relayed] := by
  rw [relayed, List.map_append]
  rfl

/-- The offset the plane hands to a relay: floored, and clamped below. -/
def relayOffset (asked : ℚ) : Nat := (max ⌊asked⌋ 0).toNat

/-! ## One reader -/

/-- The frames so far of a subscription that goes on: the text up to `seq`, durable up to `durable`. -/
structure Reaches (streamId : String) (asked seq durable : Nat) (frames : List Relay.Frame) : Prop where
  legal : Relay.Legal streamId asked frames
  flows : ∀ f ∈ frames, f.isTerminal = false
  opened : Relay.Opened frames
  seq : Relay.delivered asked frames = seq
  durable : Relay.durableSeq 0 frames ≤ durable

namespace Reaches

variable {streamId : String} {asked seq durable : Nat} {frames : List Relay.Frame}

theorem snoc (h : Reaches streamId asked seq durable frames) {f : Relay.Frame} (hf : f.isTerminal = false)
    (hallowed : Relay.Allowed streamId asked frames f) {seq' durable' : Nat} (hseq : Relay.reach seq f = seq')
    (hdurable : Relay.mark (Relay.durableSeq 0 frames) f ≤ durable') : Reaches streamId asked seq' durable' (frames ++ [f]) where
  legal := h.legal.snoc h.flows hallowed
  flows := by
    intro g hg
    rcases List.mem_append.mp hg with hg | hg
    · exact h.flows g hg
    · rw [List.mem_singleton.mp hg]
      exact hf
  opened := h.opened.append _
  seq := by rw [Relay.delivered_snoc, h.seq, hseq]
  durable := by rw [Relay.durableSeq_snoc]; exact hdurable

/-- The next of the text. -/
theorem chunk (h : Reaches streamId asked seq durable frames) {text : Text} (htext : text ≠ []) :
    Reaches streamId asked (seq + text.length) durable (frames ++ [(StreamFrame.chunk seq (seq + text.length) text).relayed]) := by
  have hlen := List.length_pos_of_ne_nil htext
  have hat := h.seq
  have hallowed : Relay.Allowed streamId asked frames (StreamFrame.chunk seq (seq + text.length) text).relayed :=
    ⟨h.opened, seq, _, text, rfl, rfl, rfl, by omega, by omega, by omega, by omega⟩
  exact h.snoc rfl hallowed rfl h.durable

/-- A later durable value. -/
theorem mark (h : Reaches streamId asked seq durable frames) {n : Nat} (hup : durable ≤ n) (hn : n ≤ seq) :
    Reaches streamId asked seq n (frames ++ [(StreamFrame.durable n).relayed]) := by
  have hat := h.seq
  have hlast := h.durable
  have hallowed : Relay.Allowed streamId asked frames (StreamFrame.durable n).relayed := ⟨h.opened, n, rfl, by omega, by omega⟩
  exact h.snoc rfl hallowed rfl (Int.le_refl _)

/-- The end of the subscription. -/
theorem last (h : Reaches streamId asked seq durable frames) {f : Relay.Frame} (hallowed : Relay.Allowed streamId asked frames f) :
    Relay.Legal streamId asked (frames ++ [f]) :=
  h.legal.snoc h.flows hallowed

theorem «end» (h : Reaches streamId asked seq durable frames) {n : Nat} (hn : n ≤ seq) (status : StreamStatus) (error :
    Option String) :
    Relay.Legal streamId asked (frames ++ [(StreamFrame.end n status error).relayed]) := by
  have hat := h.seq
  exact h.last ⟨h.opened, n, rfl, by omega, by omega⟩

end Reaches

/-! ## The discipline -/

def relaying : Discipline where
  fine s asked _ fs := Relay.Legal s.streamId (relayOffset asked) (relayed fs)
  goes s asked _ pos fs := Reaches s.streamId (relayOffset asked) pos s.durableSeq (relayed fs)
  fine_of_goes h := h.legal
  initial h := by
    rw [relayed, List.map_append] at h
    exact h.initial
  fine_later h hl := by
    rw [hl.id]
    exact h
  goes_later h hl := by
    rw [hl.id]
    exact ⟨h.legal, h.flows, h.opened, h.seq, h.durable.trans (Int.ofNat_le.mpr hl.durable)⟩
  opened {s asked} h := by
    have hseq := h.seq
    have hdurable := h.durable
    have hstart := clampOffset_le asked s.seq
    have hjoin : clampOffset asked s.seq ≤ relayOffset asked := Nat.min_le_left _ _
    have hallowed : Relay.Allowed s.streamId (relayOffset asked) []
        (StreamFrame.open s.streamId (clampOffset asked s.seq) s.seq s.durableSeq s.ended).relayed :=
      ⟨rfl, rfl, clampOffset asked s.seq, s.seq, s.durableSeq, rfl, rfl, rfl, by omega, by omega, by omega⟩
    refine ⟨Relay.legal_nil.snoc (fun g hg => by cases hg) hallowed, ?_, ⟨_, rfl, rfl⟩, rfl, Int.natCast_nonneg _⟩
    intro g hg
    rw [List.mem_singleton.mp hg]
    rfl
  chunk {s asked length pos fs text} h hgoes hlt htext := by
    have hlen : s.seq = pos + text.length := by
      rw [htext, h.seq, slice_to_end, List.length_drop]
      have := h.seq
      omega
    have hsome : text ≠ [] := fun hnil => by
      rw [hnil, List.length_nil] at hlen
      omega
    have hnext := hgoes.chunk hsome
    rw [← hlen] at hnext
    rw [relayed_snoc]
    exact hnext
  durable h hgoes := by
    have hdurable := h.durable
    have hseq := h.seq
    rw [relayed_snoc]
    exact hgoes.mark (Nat.le_refl _) (by omega)
  stale hgoes := by
    rw [relayed_snoc]
    exact hgoes.last trivial
  «end» _ hgoes _ hn := by
    rw [relayed_snoc]
    exact hgoes.end hn _ _
  bare {s asked t} _ ht := by
    refine Relay.legal_nil.snoc (fun g hg => by cases hg) ?_
    rcases ht with rfl | ⟨a, b, rfl⟩ <;> trivial

/-! ## Runs -/

namespace LiveStream

/-- What a reader of the local plane has received is a legal subscription for a relay. -/
theorem Run.relayed {opts : PlaneOpts} {s : LiveStream} {streamId : String} (hcap : 1 ≤ opts.maxQueuedFrames)
    (h : Run opts streamId (Roomy opts) s) :
    ∀ r ∈ s.readers, Relay.Legal streamId (relayOffset r.asked) (relayed r.sub.received) := by
  intro r hr
  have hmeets := Run.meets relaying hcap h
  rw [← hmeets.id]
  exact (hmeets.readers r hr).received

end LiveStream

end Rindle.Streams
