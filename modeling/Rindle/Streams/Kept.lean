/-
  Rindle.Streams.Kept — what every run of the live plane keeps of its text.

  `Kept`: the buffer is the produced text from its floor on, the floor never passes
  `durableSeq`, `durableSeq` never passes the produced length, and the round in flight
  carries exactly its slice. The offsets whose flushes resolved are all durable.
-/

import Rindle.Streams.Live

namespace Rindle.Streams

open Rindle.Slices

structure LiveStream.Kept (s : LiveStream) : Prop where
  seq : s.seq = s.produced.length
  floor : s.bufFrom ≤ s.durableSeq
  buf : s.buf = s.produced.drop s.bufFrom
  durable : s.durableSeq ≤ s.produced.length
  sealing : s.ended → s.sealing.isSome
  closing : s.round = some .close → s.sealing.isSome
  tail : ∀ i j text, s.round = some (.tail i j text) → i < j ∧ j ≤ s.produced.length ∧ text = slice s.produced i j
  flushed : ∀ n ∈ s.flushed, n ≤ s.durableSeq

namespace LiveStream

variable {opts : PlaneOpts} {s s' : LiveStream}

/-! ## What durable progress touches -/

section Frames

variable (opts s) (n : Nat)

@[simp] theorem trim_readers : (s.trim opts).readers = s.readers := by
  unfold trim
  split
  · rfl
  · dsimp only
    split <;> rfl

@[simp] theorem advanceDurable_produced : (s.advanceDurable opts n).produced = s.produced := by
  unfold advanceDurable trim
  split
  · rfl
  · dsimp only
    split <;> rfl

@[simp] theorem advanceDurable_ended : (s.advanceDurable opts n).ended = s.ended := by
  unfold advanceDurable trim
  split
  · rfl
  · dsimp only
    split <;> rfl

@[simp] theorem advanceDurable_sealed : (s.advanceDurable opts n).sealed = s.sealed := by
  unfold advanceDurable trim
  split
  · rfl
  · dsimp only
    split <;> rfl

@[simp] theorem advanceDurable_durableSeq : (s.advanceDurable opts n).durableSeq = n := by
  unfold advanceDurable trim
  split
  · rfl
  · dsimp only
    split <;> rfl

theorem advanceDurable_readers : (s.advanceDurable opts n).readers =
    s.readers.map (·.offer (.durable n) (.stale s.bufFrom n)) := by
  show ((fanout { s with durableSeq := n } (.durable n)).trim opts).readers = _
  rw [trim_readers]
  rfl

end Frames

/-! ## Each operation -/

theorem Kept.trim (h : s.Kept) : (s.trim opts).Kept := by
  unfold LiveStream.trim
  split
  · exact h
  next retainChars _ =>
  dsimp only
  split
  · exact h
  · have hd := h.durable
    refine ⟨h.seq, ?_, ?_, h.durable, h.sealing, h.closing, h.tail, h.flushed⟩
    · show s.durableSeq - retainChars ≤ s.durableSeq
      omega
    · show s.buf.drop (s.durableSeq - retainChars - s.bufFrom) = s.produced.drop (s.durableSeq - retainChars)
      rw [h.buf, List.drop_drop]
      congr 1
      omega

theorem Kept.resolveWaiters (h : s.Kept) : s.resolveWaiters.Kept := by
  refine ⟨h.seq, h.floor, h.buf, h.durable, h.sealing, h.closing, h.tail, ?_⟩
  intro n hn
  rcases List.mem_append.mp hn with hn | hn
  · exact h.flushed n hn
  · exact of_decide_eq_true (List.mem_filter.mp hn).2

theorem Kept.rejectWaiters (h : s.Kept) {upTo : Option Nat} : (s.rejectWaiters upTo).Kept :=
  ⟨h.seq, h.floor, h.buf, h.durable, h.sealing, h.closing, h.tail, h.flushed⟩

theorem Kept.idle (h : s.Kept) {cancelled : Bool} : Kept { s with round := none, cancelled := cancelled } :=
  ⟨h.seq, h.floor, h.buf, h.durable, h.sealing, by simp, by simp, h.flushed⟩

theorem Kept.advanceDurable (h : s.Kept) {n : Nat} (hup : s.durableSeq < n) (hn : n ≤ s.seq) :
    (s.advanceDurable opts n).Kept := by
  have hfloor := h.floor
  have hseq := h.seq
  have hfan : Kept (fanout { s with durableSeq := n } (.durable n)) := by
    refine ⟨h.seq, ?_, h.buf, ?_, h.sealing, h.closing, h.tail, ?_⟩
    · show s.bufFrom ≤ n
      omega
    · show n ≤ s.produced.length
      omega
    · intro w hw
      have := h.flushed w hw
      show w ≤ n
      omega
  exact hfan.trim.resolveWaiters

theorem Kept.tailCommitted (h : s.Kept) {i j : Nat} {text : Text} (hround : s.round = some (.tail i j text))
    {out : CommitOut} (hout : ∀ c ∈ out.seq, c ≤ s.seq) : (s.tailCommitted opts j out).Kept := by
  have hconfirmed : out.seq.getD j ≤ s.seq := by
    cases hc : out.seq with
    | none =>
      rw [h.seq]
      exact (h.tail i j text hround).2.1
    | some c => exact hout c hc
  have hidle : Kept { s with round := none, cancelled := s.cancelled || out.cancelRequested } := h.idle
  unfold LiveStream.tailCommitted
  dsimp only
  by_cases hlt : s.durableSeq < out.seq.getD j
  · simp only [if_pos hlt]
    have hadv := @Kept.advanceDurable opts _ hidle _ hlt hconfirmed
    split
    · exact hadv.rejectWaiters
    · exact hadv
  · simp only [if_neg hlt]
    split
    · exact hidle.rejectWaiters
    · exact hidle

theorem Kept.tailFailed (h : s.Kept) {j : Nat} {truth : Option Nat} (htruth : ∀ t ∈ truth, t ≤ s.seq) :
    (s.tailFailed opts j truth).Kept := by
  have hidle : Kept { s with round := none } := h.idle
  unfold LiveStream.tailFailed
  cases truth with
  | none => exact hidle.rejectWaiters
  | some t =>
    dsimp only
    split
    next hlt => exact (hidle.advanceDurable hlt (htruth t rfl)).rejectWaiters
    · exact hidle.rejectWaiters

theorem Kept.push {text : Text} (h : s.Kept) (hp : s.push text = .ok s') : s'.Kept := by
  unfold LiveStream.push at hp
  split at hp
  · cases hp
  split at hp
  · cases hp
    exact h
  cases hp
  have hseq := h.seq
  have hfloor := h.floor
  have hdurable := h.durable
  have hlen : (s.produced ++ text).length = s.produced.length + text.length := List.length_append
  refine ⟨?_, h.floor, ?_, ?_, h.sealing, h.closing, ?_, h.flushed⟩
  · show s.seq + text.length = (s.produced ++ text).length
    omega
  · show s.buf ++ text = (s.produced ++ text).drop s.bufFrom
    rw [List.drop_append_of_le_length (by omega), h.buf]
  · show s.durableSeq ≤ (s.produced ++ text).length
    omega
  · intro i j piece hround
    obtain ⟨hlt, hle, hpiece⟩ := h.tail i j piece hround
    refine ⟨hlt, ?_, ?_⟩
    · show j ≤ (s.produced ++ text).length
      omega
    · rw [hpiece]
      exact (slice_grow (List.prefix_append _ _) hle).symm

theorem Kept.flush (h : s.Kept) : s.flush.Kept := by
  unfold LiveStream.flush
  split
  next hle =>
    refine ⟨h.seq, h.floor, h.buf, h.durable, h.sealing, h.closing, h.tail, ?_⟩
    intro n hn
    rcases List.mem_append.mp hn with hn | hn
    · exact h.flushed n hn
    · rw [List.mem_singleton.mp hn]
      exact hle
  · split
    · exact h
    · exact ⟨h.seq, h.floor, h.buf, h.durable, h.sealing, h.closing, h.tail, h.flushed⟩

theorem Kept.«seal» (h : s.Kept) {status : StreamStatus} {error : Option String} : (s.«seal» status error).Kept := by
  unfold LiveStream.«seal»
  split
  · exact h
  · exact ⟨h.seq, h.floor, h.buf, h.durable, fun _ => rfl, fun _ => rfl, h.tail, h.flushed⟩

theorem Kept.commitTail (h : s.Kept) (hlt : s.durableSeq < s.seq) : s.commitTail.Kept := by
  refine ⟨h.seq, h.floor, h.buf, h.durable, h.sealing, ?_, ?_, h.flushed⟩
  · intro hround
    cases hround
  · intro i j text hround
    cases hround
    refine ⟨hlt, Nat.le_of_eq h.seq, ?_⟩
    have hfloor := h.floor
    rw [h.buf, List.drop_drop, show s.bufFrom + (s.durableSeq - s.bufFrom) = s.durableSeq by omega]
    rfl

theorem Kept.sealDone {ok : Bool} (h : s.Kept) : (s.sealDone ok).Kept := by
  unfold LiveStream.sealDone
  split
  · exact h
  next sealing hsealing =>
  have hseq := h.seq
  have hdurable := h.durable
  have hfloor := h.floor
  have hended : Kept { (if ok then { s with durableSeq := s.seq } else s) with round := none, ended := true } := by
    cases ok with
    | false => exact ⟨h.seq, h.floor, h.buf, h.durable, fun _ => by simp [hsealing], by simp, by simp, h.flushed⟩
    | true =>
      refine ⟨h.seq, ?_, h.buf, ?_, fun _ => by simp [hsealing], by simp, by simp, ?_⟩
      · show s.bufFrom ≤ s.seq
        omega
      · show s.seq ≤ s.produced.length
        omega
      · intro n hn
        have := h.flushed n hn
        show n ≤ s.seq
        omega
  have hsettled := (@Kept.rejectWaiters _ hended none).resolveWaiters
  exact ⟨hsettled.seq, hsettled.floor, hsettled.buf, hsettled.durable, hsettled.sealing, hsettled.closing, hsettled.tail,
    hsettled.flushed⟩

theorem Kept.readers (h : s.Kept) {rs : List Reader} {hosted : Bool} : Kept { s with readers := rs, hosted := hosted } :=
  ⟨h.seq, h.floor, h.buf, h.durable, h.sealing, h.closing, h.tail, h.flushed⟩

theorem Kept.subscribePlane (h : s.Kept) {asked : ℚ} : (s.subscribePlane opts asked).Kept := by
  unfold LiveStream.subscribePlane LiveStream.subscribe
  dsimp only
  split
  · split
    · exact h.readers
    · split <;> exact h.readers
  · exact h.readers

theorem Kept.step (h : s.Kept) {e : Event} (hstep : Step opts s e s') : s'.Kept := by
  cases hstep with
  | push hp => exact h.push hp
  | flush => exact h.flush
  | «seal» => exact h.«seal»
  | commitTail _ _ _ hlt => exact h.commitTail hlt
  | tailCommitted hround hout => exact h.tailCommitted hround hout
  | tailFailed _ htruth => exact h.tailFailed htruth
  | commitSeal _ hsealing _ =>
    refine ⟨h.seq, h.floor, h.buf, h.durable, h.sealing, fun _ => hsealing, ?_, h.flushed⟩
    intro i j text hround
    cases hround
  | sealDone _ => exact h.sealDone
  | subscribe => exact h.subscribePlane
  | next => exact h.readers
  | close => exact h.readers
  | detachAll => exact h.readers
  | retire =>
    unfold LiveStream.retire
    split
    · exact h.readers
    · exact h

theorem kept_init (streamId : String) : Kept { streamId := streamId } :=
  ⟨rfl, Nat.le_refl 0, rfl, Nat.le_refl 0, by simp, by simp, by simp, by simp⟩

end LiveStream

end Rindle.Streams
