/-
  Rindle.Streams.Discipline — what the subscriptions of a stream keep, whatever it is.

  A `Discipline` says which frames a subscription may have had, and which one has had that is
  registered and goes on from a position of the text; with it go the rules by which the plane's
  frames keep both. A frame that is fanned out, a seal, a join and a reader's own calls keep a
  discipline for every reader, so it holds in every run whose joins have room for their replay
  (`Run.meets`).
-/

import Rindle.Streams.Kept

set_option linter.dupNamespace false

namespace Rindle.Streams

open Rindle.Slices

/-! ## One subscriber's queue -/

namespace Subscriber

/-- A reader waits only on an empty queue. -/
def Settled (s : Subscriber) : Prop :=
  s.waiter → s.queue = []

variable {s : Subscriber}

theorem offer_live (hs : s.Settled) (hd : s.done = false) (f : StreamFrame) :
    (s.offer f = (false, s) ∧ s.cap ≤ s.queue.length) ∨
      ((s.offer f).1 = true ∧ (s.offer f).2.frames = s.frames ++ [f] ∧ (s.offer f).2.done = false ∧ (s.offer f).2.Settled) := by
  by_cases hw : s.waiter = true
  · right
    have hq := hs hw
    simp [offer, hd, hw, frames, hq, Settled]
  by_cases hc : s.cap ≤ s.queue.length
  · left
    simp [offer, hd, hw, hc]
  · right
    simp [offer, hd, hw, hc, frames, Settled]

theorem offer_done (hd : s.done = true) (f : StreamFrame) : s.offer f = (true, s) := by
  simp [offer, hd]

theorem finish_live (hs : s.Settled) (hd : s.done = false) (f : StreamFrame) :
    (s.finish f).frames = s.frames ++ [f] ∧ (s.finish f).done = true ∧ (s.finish f).Settled := by
  by_cases hw : s.waiter = true
  · have hq := hs hw
    simp [finish, hd, hw, frames, hq, Settled]
  · simp [finish, hd, hw, frames, Settled]

theorem finish_done (hd : s.done = true) (f : StreamFrame) : s.finish f = s := by
  simp [finish, hd]

theorem next_frames (s : Subscriber) : s.next.frames = s.frames := by
  rw [next]
  split
  · next f rest hq => simp [frames, hq]
  · split <;> rfl

theorem next_done (s : Subscriber) : s.next.done = s.done := by
  rw [next]
  split
  · rfl
  · split <;> rfl

theorem next_settled (hs : s.Settled) : s.next.Settled := by
  rw [next]
  split
  · next f rest hq =>
    intro hw
    rw [hs hw] at hq
    cases hq
  · next hq =>
    split
    · exact hs
    · exact fun _ => hq

end Subscriber

/-! ## Disciplines -/

/-- The stream went on: its text and its marks grow, the text not past the end. -/
structure LiveStream.Later (s s' : LiveStream) : Prop where
  id : s'.streamId = s.streamId
  text : s.produced <+: s'.produced
  durable : s.durableSeq ≤ s'.durableSeq
  whole : s'.produced = s.produced ∨ s.ended = false
  ended : s.ended = true → s'.ended = true

/-- What the frames of a subscription are, by the offset it asked for and the length it joined at. -/
structure Discipline where
  /-- The frames so far of any subscription. -/
  fine : LiveStream → ℚ → Nat → List StreamFrame → Prop
  /-- Those of one that goes on from a position. -/
  goes : LiveStream → ℚ → Nat → Nat → List StreamFrame → Prop
  fine_of_goes : ∀ {s asked length pos fs}, goes s asked length pos fs → fine s asked length fs
  initial : ∀ {s asked length fs gs}, fine s asked length (fs ++ gs) → fine s asked length fs
  fine_later : ∀ {s s' asked length fs}, fine s asked length fs → s.Later s' → fine s' asked length fs
  goes_later : ∀ {s s' asked length pos fs}, goes s asked length pos fs → s.Later s' → goes s' asked length pos fs
  opened : ∀ {s asked}, s.Kept →
    goes s asked s.seq (clampOffset asked s.seq) [.open s.streamId (clampOffset asked s.seq) s.seq s.durableSeq s.ended]
  chunk : ∀ {s asked length pos fs text}, s.Kept → goes s asked length pos fs → pos < s.seq → text = slice s.produced pos s.seq →
    goes s asked length s.seq (fs ++ [.chunk pos s.seq text])
  durable : ∀ {s asked length fs}, s.Kept → goes s asked length s.seq fs →
    goes s asked length s.seq (fs ++ [.durable s.durableSeq])
  stale : ∀ {s asked length pos fs a b}, goes s asked length pos fs → fine s asked length (fs ++ [.stale a b])
  «end» : ∀ {s asked length fs n status error}, s.Kept → goes s asked length s.seq fs → s.ended = true → n ≤ s.seq →
    fine s asked length (fs ++ [.end n status error])
  bare : ∀ {s asked t}, s.Kept → (t = .absent ∨ ∃ a b, t = .stale a b) → fine s asked s.seq [t]

variable {D : Discipline} {s s' : LiveStream} {r : Reader}

/-! ## One reader -/

structure Reader.Meets (D : Discipline) (s : LiveStream) (r : Reader) : Prop where
  settled : r.sub.Settled
  fine : D.fine s r.asked r.length r.sub.frames
  goes : r.attached = true → r.sub.done = false → D.goes s r.asked r.length s.seq r.sub.frames

namespace Reader

/-- A reader that gets nothing more. -/
theorem Meets.rest (h : r.Meets D s) (hl : s.Later s') (hidle : r.attached = false ∨ r.sub.done = true) : r.Meets D s' where
  settled := h.settled
  fine := D.fine_later h.fine hl
  goes := by
    intro ha hd
    rcases hidle with hidle | hidle
    · rw [hidle] at ha
      cases ha
    · rw [hidle] at hd
      cases hd

theorem Meets.later (h : r.Meets D s) (hl : s.Later s') (hseq : s'.seq = s.seq) : r.Meets D s' where
  settled := h.settled
  fine := D.fine_later h.fine hl
  goes := by
    intro ha hd
    rw [hseq]
    exact D.goes_later (h.goes ha hd) hl

/-- A frame fanned out to every registered reader. -/
theorem Meets.offer (h : r.Meets D s) (hl : s.Later s') {frame : StreamFrame} {a b : Nat}
    (hnext : ∀ asked length fs, D.goes s asked length s.seq fs → D.goes s' asked length s'.seq (fs ++ [frame])) :
    (r.offer frame (.stale a b)).Meets D s' := by
  by_cases ha : r.attached = true
  swap
  · rw [Reader.offer, if_neg ha]
    exact h.rest hl (.inl (by simpa using ha))
  by_cases hd : r.sub.done = true
  · rw [Reader.offer, if_pos ha, Subscriber.offer_done hd]
    exact h.rest hl (.inr hd)
  have hd : r.sub.done = false := by simpa using hd
  have hnow := h.goes ha hd
  rw [Reader.offer, if_pos ha]
  rcases Subscriber.offer_live h.settled hd frame with ⟨hfull, -⟩ | ⟨htrue, hframes, -, hsettled⟩
  · -- no room: the reader is dropped
    obtain ⟨hf, -, hsettled⟩ := Subscriber.finish_live h.settled hd (.stale a b)
    rw [hfull]
    refine ⟨hsettled, ?_, fun ha' => by cases ha'⟩
    show D.fine s' r.asked r.length (r.sub.finish (.stale a b)).frames
    rw [hf]
    exact D.stale (D.goes_later hnow hl)
  · have hsplit : r.sub.offer frame = (true, (r.sub.offer frame).2) := Prod.ext htrue rfl
    have hgoes : D.goes s' r.asked r.length s'.seq (r.sub.offer frame).2.frames := by
      rw [hframes]
      exact hnext _ _ _ hnow
    rw [hsplit]
    exact ⟨hsettled, D.fine_of_goes hgoes, fun _ _ => hgoes⟩

/-- The seal's frame. -/
theorem Meets.finish (h : r.Meets D s) (hl : s.Later s') (hkept : s'.Kept) (hended : s'.ended = true) (hseq : s'.seq = s.seq)
    {n : Nat} (hn : n ≤ s'.seq) (status : StreamStatus) (error : Option String) :
    Meets D s' (if r.attached then { r with sub := r.sub.finish (.end n status error) } else r) := by
  by_cases ha : r.attached = true
  swap
  · rw [if_neg ha]
    exact h.rest hl (.inl (by simpa using ha))
  rw [if_pos ha]
  by_cases hd : r.sub.done = true
  · rw [Subscriber.finish_done hd]
    exact h.rest hl (.inr hd)
  have hd : r.sub.done = false := by simpa using hd
  obtain ⟨hf, hdone, hsettled⟩ := Subscriber.finish_live h.settled hd (.end n status error)
  refine ⟨hsettled, ?_, fun _ hnot => ?_⟩
  · show D.fine s' r.asked r.length (r.sub.finish (.end n status error)).frames
    rw [hf]
    exact D.end hkept ((h.later hl hseq).goes ha hd) hended hn
  · rw [show (r.sub.finish (.end n status error)).done = false from hnot] at hdone
    cases hdone

theorem Meets.next (h : r.Meets D s) {attached : Bool} (ha : attached = true → r.attached = true) :
    Meets D s { r with sub := r.sub.next, attached := attached } where
  settled := Subscriber.next_settled h.settled
  fine := by
    rw [Subscriber.next_frames]
    exact h.fine
  goes := by
    intro hatt hd
    rw [Subscriber.next_frames]
    exact h.goes (ha hatt) (by rw [← hd, Subscriber.next_done])

theorem Meets.received (h : r.Meets D s) : D.fine s r.asked r.length r.sub.received := D.initial h.fine

theorem Meets.close (h : r.Meets D s) : Meets D s { r with sub := r.sub.close, attached := false } := by
  have hframes : r.sub.close.frames = r.sub.received := by simp [Subscriber.close, Subscriber.frames]
  refine ⟨fun _ => rfl, ?_, fun ha => by cases ha⟩
  show D.fine s r.asked r.length r.sub.close.frames
  rw [hframes]
  exact h.received

end Reader

/-! ## The stream -/

structure LiveStream.Meets (D : Discipline) (streamId : String) (s : LiveStream) : Prop where
  kept : s.Kept
  id : s.streamId = streamId
  readers : ∀ r ∈ s.readers, r.Meets D s

namespace LiveStream

variable {opts : PlaneOpts} {streamId : String}

theorem Later.same (hid : s'.streamId = s.streamId) (htext : s'.produced = s.produced) (hended : s'.ended = s.ended)
    (hdurable : s.durableSeq ≤ s'.durableSeq) : s.Later s' :=
  ⟨hid, htext ▸ List.prefix_refl _, hdurable, .inl htext, fun h => hended.trans h⟩

/-- A step that fans at most a `durable` frame out, of a value the text has. -/
def Marked (s s' : LiveStream) : Prop :=
  s'.streamId = s.streamId ∧ s'.produced = s.produced ∧ s'.ended = s.ended ∧ s'.seq = s.seq ∧ s.durableSeq ≤ s'.durableSeq ∧
    (s'.readers = s.readers ∨ ∃ a b, s'.readers = s.readers.map (·.offer (.durable s'.durableSeq) (.stale a b)))

theorem trim_same (opts : PlaneOpts) (s : LiveStream) :
    (s.trim opts).streamId = s.streamId ∧ (s.trim opts).seq = s.seq := by
  unfold trim
  split
  · exact ⟨rfl, rfl⟩
  · dsimp only
    split <;> exact ⟨rfl, rfl⟩

theorem advanceDurable_marked {n : Nat} (hup : s.durableSeq ≤ n) : Marked s (s.advanceDurable opts n) := by
  have hsame := trim_same opts (fanout { s with durableSeq := n } (.durable n))
  have hmark := advanceDurable_durableSeq opts s n
  refine ⟨hsame.1, advanceDurable_produced opts s n, advanceDurable_ended opts s n, hsame.2, hup.trans_eq hmark.symm,
    .inr ⟨s.bufFrom, n, ?_⟩⟩
  rw [hmark]
  exact advanceDurable_readers opts s n

theorem tailCommitted_marked (j : Nat) (out : CommitOut) : Marked s (s.tailCommitted opts j out) := by
  unfold tailCommitted
  dsimp only
  by_cases hlt : s.durableSeq < out.seq.getD j
  · simp only [if_pos hlt]
    have hadv := @advanceDurable_marked { s with round := none, cancelled := s.cancelled || out.cancelRequested } opts
      (out.seq.getD j) (Nat.le_of_lt hlt)
    split <;> exact hadv
  · simp only [if_neg hlt]
    split <;> exact ⟨rfl, rfl, rfl, rfl, Nat.le_refl _, .inl rfl⟩

theorem tailFailed_marked (j : Nat) (truth : Option Nat) : Marked s (s.tailFailed opts j truth) := by
  unfold tailFailed
  cases truth with
  | none => exact ⟨rfl, rfl, rfl, rfl, Nat.le_refl _, .inl rfl⟩
  | some t =>
    dsimp only
    split
    next hlt => exact @advanceDurable_marked { s with round := none } opts t (Nat.le_of_lt hlt)
    · exact ⟨rfl, rfl, rfl, rfl, Nat.le_refl _, .inl rfl⟩

theorem Meets.marked (h : s.Meets D streamId) (hkept : s'.Kept) (hm : Marked s s') : s'.Meets D streamId := by
  obtain ⟨hid, htext, hended, hseq, hdurable, hreaders⟩ := hm
  have hl := Later.same hid htext hended hdurable
  refine ⟨hkept, hid.trans h.id, ?_⟩
  rcases hreaders with hreaders | ⟨a, b, hreaders⟩
  · rw [hreaders]
    exact fun r hr => (h.readers r hr).later hl hseq
  · intro r hr
    rw [hreaders] at hr
    obtain ⟨r₀, hr₀, rfl⟩ := List.mem_map.mp hr
    refine (h.readers r₀ hr₀).offer hl fun asked length fs hgoes => D.durable hkept ?_
    rw [hseq]
    exact D.goes_later hgoes hl

theorem Meets.push {text : Text} (h : s.Meets D streamId) (hp : s.push text = .ok s') : s'.Meets D streamId := by
  have hkept := h.kept.push hp
  unfold LiveStream.push at hp
  split at hp
  · cases hp
  next hopen =>
  have hended : s.ended = false := by
    simp only [Bool.or_eq_true, not_or, Bool.not_eq_true] at hopen
    exact hopen.2
  split at hp
  · cases hp
    exact h
  next htext =>
  cases hp
  refine ⟨hkept, h.id, ?_⟩
  intro r hr
  obtain ⟨r₀, hr₀, rfl⟩ := List.mem_map.mp hr
  have hl : s.Later (fanout { s with buf := s.buf ++ text, seq := s.seq + text.length, produced := s.produced ++ text }
      (.chunk s.seq (s.seq + text.length) text)) := ⟨rfl, List.prefix_append _ _, Nat.le_refl _, .inr hended, fun he => he⟩
  refine (h.readers r₀ hr₀).offer hl fun asked length fs hgoes => ?_
  have htail : slice (s.produced ++ text) s.seq (s.seq + text.length) = text := by
    rw [h.kept.seq, ← List.length_append, slice_to_end, List.drop_left]
  exact D.chunk hkept (D.goes_later hgoes hl) (show s.seq < s.seq + text.length by omega) htail.symm

theorem Meets.sealDone {ok : Bool} (h : s.Meets D streamId) : (s.sealDone ok).Meets D streamId := by
  have hkept : (s.sealDone ok).Kept := h.kept.sealDone
  have hseq := h.kept.seq
  have hdurable := h.kept.durable
  cases hsealing : s.sealing with
  | none =>
    rw [LiveStream.sealDone, hsealing]
    exact h
  | some sealing =>
    have hl : s.Later (s.sealDone ok) ∧ (s.sealDone ok).ended = true ∧ (s.sealDone ok).seq = s.seq := by
      rw [LiveStream.sealDone, hsealing]
      cases ok with
      | false => exact ⟨⟨rfl, List.prefix_refl _, Nat.le_refl _, .inl rfl, fun _ => rfl⟩, rfl, rfl⟩
      | true => exact ⟨⟨rfl, List.prefix_refl _, show s.durableSeq ≤ s.seq by omega, .inl rfl, fun _ => rfl⟩, rfl, rfl⟩
    obtain ⟨hl, hended, hsame⟩ := hl
    refine ⟨hkept, hl.id.trans h.id, fun r hr => ?_⟩
    rw [LiveStream.sealDone, hsealing] at hr
    obtain ⟨r₀, hr₀, rfl⟩ := List.mem_map.mp hr
    have hr₀ : r₀ ∈ s.readers := by cases ok <;> exact hr₀
    refine (h.readers r₀ hr₀).finish hl hkept hended hsame ?_ _ _
    rw [hsame]
    cases ok with
    | false => exact show s.durableSeq ≤ s.seq by omega
    | true => exact Nat.le_refl s.seq

/-! ### Joining -/

/-- The join has room for its replay: the queue takes two frames, or there is nothing to replay. -/
def Roomy (opts : PlaneOpts) (s : LiveStream) (asked : ℚ) : Prop :=
  2 ≤ opts.maxQueuedFrames ∨ clampOffset asked s.seq < s.bufFrom ∨ clampOffset asked s.seq = s.seq

instance (opts : PlaneOpts) (s : LiveStream) (asked : ℚ) : Decidable (Roomy opts s asked) :=
  inferInstanceAs (Decidable (_ ∨ _ ∨ _))

/-- A roomy join is offered everything up to now. -/
theorem replay_goes (D : Discipline) (h : s.Kept) (hcap : 1 ≤ opts.maxQueuedFrames) {asked : ℚ}
    (hfloor : s.bufFrom ≤ clampOffset asked s.seq) (hroom : 2 ≤ opts.maxQueuedFrames ∨ clampOffset asked s.seq = s.seq) :
    D.goes s asked s.seq s.seq (s.replay opts (clampOffset asked s.seq)).frames ∧
      (s.replay opts (clampOffset asked s.seq)).done = false ∧ (s.replay opts (clampOffset asked s.seq)).Settled := by
  have hseq := h.seq
  have hopened := @D.opened s asked h
  have hstart := clampOffset_le asked s.seq
  generalize clampOffset asked s.seq = start at hfloor hroom hstart hopened ⊢
  rw [replay]
  -- the queue is empty, so it takes the `open`
  generalize hsub : Subscriber.offer { cap := opts.maxQueuedFrames } (.open s.streamId start s.seq s.durableSeq s.ended) = o
  have hopen : o.2.frames = [.open s.streamId start s.seq s.durableSeq s.ended] ∧ o.2.done = false ∧ o.2.Settled ∧
      o.2.cap = opts.maxQueuedFrames := by
    have hroom : ¬ opts.maxQueuedFrames ≤ 0 := by omega
    subst hsub
    simp [Subscriber.offer, hroom, Subscriber.frames, Subscriber.Settled]
  obtain ⟨hframes, hdone, hsettled, hcap⟩ := hopen
  have hgoes : D.goes s asked s.seq start o.2.frames := by
    rw [hframes]
    exact hopened
  -- with room for two it takes the replayed chunk
  have hchunk : ∀ sub, sub = (if start < s.seq then (o.2.offer (.chunk start s.seq (s.buf.drop (start - s.bufFrom)))).2 else o.2) →
      D.goes s asked s.seq s.seq sub.frames ∧ sub.done = false ∧ sub.Settled := by
    intro sub heq
    by_cases hlt : start < s.seq
    · rw [if_pos hlt] at heq
      rcases Subscriber.offer_live hsettled hdone (.chunk start s.seq (s.buf.drop (start - s.bufFrom))) with
        ⟨-, hfull⟩ | ⟨-, hf, hd, hset⟩
      · have hq : o.2.queue.length ≤ o.2.frames.length := by simp [Subscriber.frames]
        rw [hframes, List.length_singleton] at hq
        omega
      · rw [heq]
        refine ⟨?_, hd, hset⟩
        have htext : s.buf.drop (start - s.bufFrom) = slice s.produced start s.seq := by
          rw [hseq, slice_to_end, h.buf, List.drop_drop]
          congr 1
          omega
        rw [hf]
        exact D.chunk h hgoes hlt htext
    · rw [if_neg hlt] at heq
      obtain rfl : start = s.seq := by omega
      rw [heq]
      exact ⟨hgoes, hdone, hsettled⟩
  generalize hsub₂ : (if start < s.seq then (o.2.offer (.chunk start s.seq (s.buf.drop (start - s.bufFrom)))).2 else o.2) = sub
  obtain ⟨hgoes, hdone, hsettled⟩ := hchunk sub hsub₂.symm
  by_cases hlt : start < s.durableSeq
  · simp only [if_pos hlt]
    rcases Subscriber.offer_live hsettled hdone (.durable s.durableSeq) with ⟨hfull, -⟩ | ⟨-, hf, hd, hset⟩
    · rw [hfull]
      exact ⟨hgoes, hdone, hsettled⟩
    · rw [hf]
      exact ⟨D.durable h hgoes, hd, hset⟩
  · simp only [if_neg hlt]
    exact ⟨hgoes, hdone, hsettled⟩

/-- Other readers, of the same text. -/
theorem Meets.readers_of {rs : List Reader} {hosted : Bool} (h : s.Meets D streamId) (hrs : ∀ r ∈ rs, r.Meets D s) :
    Meets D streamId { s with readers := rs, hosted := hosted } :=
  ⟨h.kept.readers, h.id, fun r hr => (hrs r hr).later (.same rfl rfl rfl (Nat.le_refl _)) rfl⟩

theorem Meets.join (h : s.Meets D streamId) (hr : r.Meets D s) : Meets D streamId { s with readers := s.readers ++ [r] } := by
  refine h.readers_of fun q hq => ?_
  rcases List.mem_append.mp hq with hq | hq
  · exact h.readers q hq
  · rw [List.mem_singleton.mp hq]
    exact hr

/-- A reader answered with one terminal frame. -/
theorem bare_meets (h : s.Kept) (asked : ℚ) {sub : Subscriber} {t : StreamFrame} (ht : t = .absent ∨ ∃ a b, t = .stale a b)
    (hframes : sub.frames = [t]) (hset : sub.Settled) : Reader.Meets D s ⟨sub, false, asked, s.seq⟩ := by
  refine ⟨hset, ?_, fun ha => by cases ha⟩
  show D.fine s asked s.seq sub.frames
  rw [hframes]
  exact D.bare h ht

theorem Meets.subscribe (h : s.Meets D streamId) (hcap : 1 ≤ opts.maxQueuedFrames) {asked : ℚ} (hroom : Roomy opts s asked) :
    (s.subscribe opts asked).Meets D streamId := by
  rw [LiveStream.subscribe]
  dsimp only
  split
  · obtain ⟨hf, -, hset⟩ := @Subscriber.finish_live { cap := opts.maxQueuedFrames } (fun _ => rfl) rfl (.stale s.bufFrom s.durableSeq)
    exact h.join (bare_meets h.kept asked (.inr ⟨_, _, rfl⟩) hf hset)
  next hfloor =>
  have hroom : 2 ≤ opts.maxQueuedFrames ∨ clampOffset asked s.seq = s.seq := by
    rcases hroom with hroom | hroom | hroom
    · exact .inl hroom
    · exact absurd hroom hfloor
    · exact .inr hroom
  obtain ⟨hgoes, hdone, hset⟩ := replay_goes D h.kept hcap (by omega) hroom
  have hseq := h.kept.seq
  have hdurable := h.kept.durable
  split
  next hended =>
    generalize s.sealing.getD ⟨.interrupted, none⟩ = sealing
    obtain ⟨hf, -, hset⟩ := Subscriber.finish_live hset hdone (.end s.durableSeq sealing.status sealing.error)
    refine h.join ⟨hset, ?_, fun ha => by cases ha⟩
    show D.fine s asked s.seq (Subscriber.finish _ _).frames
    rw [hf]
    exact D.end h.kept hgoes hended (by omega)
  · exact h.join ⟨hset, D.fine_of_goes hgoes, fun _ _ => hgoes⟩

theorem Meets.subscribePlane (h : s.Meets D streamId) (hcap : 1 ≤ opts.maxQueuedFrames) {asked : ℚ} (hroom : Roomy opts s asked) :
    (s.subscribePlane opts asked).Meets D streamId := by
  rw [LiveStream.subscribePlane]
  split
  · exact h.subscribe hcap hroom
  · exact h.join (bare_meets h.kept asked (.inl rfl) rfl (fun hw => by cases hw))

/-! ### Runs -/

theorem Meets.onReader (h : s.Meets D streamId) (i : Nat) {f : Reader → Reader} (hf : ∀ r, r.Meets D s → (f r).Meets D s) :
    (s.onReader i f).Meets D streamId := by
  refine h.readers_of fun q hq => ?_
  obtain ⟨j, hj⟩ := List.getElem?_of_mem hq
  rw [List.getElem?_modify] at hj
  cases hr : s.readers[j]? with
  | none => simp [hr] at hj
  | some r =>
    have hmeets := h.readers r (List.mem_of_getElem? hr)
    simp only [hr, Option.map_eq_map, Option.map_some, Option.some.injEq] at hj
    rw [← hj]
    show Reader.Meets D s (if i = j then f r else r)
    split
    · exact hf r hmeets
    · exact hmeets

theorem Meets.detach (h : s.Meets D streamId) {hosted : Bool} : Meets D streamId { s.detachAll with hosted := hosted } := by
  refine @Meets.readers_of D s _ _ _ h fun q hq => ?_
  obtain ⟨r, hr, rfl⟩ := List.mem_map.mp hq
  have hmeets := h.readers r hr
  split
  · exact hmeets.close
  · exact hmeets

theorem Meets.step (h : s.Meets D streamId) (hcap : 1 ≤ opts.maxQueuedFrames) {e : Event} (hstep : Step opts s e s')
    (hroom : ∀ asked, e = .subscribe asked → Roomy opts s asked) : s'.Meets D streamId := by
  have hkept := h.kept.step hstep
  have hsame : Marked s s := ⟨rfl, rfl, rfl, rfl, Nat.le_refl _, .inl rfl⟩
  cases hstep with
  | push hp => exact h.push hp
  | flush =>
    refine h.marked hkept ?_
    unfold LiveStream.flush
    split
    · exact hsame
    · split <;> exact hsame
  | «seal» =>
    refine h.marked hkept ?_
    unfold LiveStream.«seal»
    split <;> exact hsame
  | commitTail _ _ _ _ => exact h.marked hkept hsame
  | tailCommitted _ _ => exact h.marked hkept (tailCommitted_marked _ _)
  | tailFailed _ _ => exact h.marked hkept (tailFailed_marked _ _)
  | commitSeal _ _ _ => exact h.marked hkept hsame
  | sealDone _ => exact h.sealDone
  | subscribe => exact h.subscribePlane hcap (hroom _ rfl)
  | next =>
    refine h.onReader _ ?_
    intro r hr
    refine hr.next ?_
    intro ha
    simp only [Bool.and_eq_true] at ha
    exact ha.1
  | close => exact h.onReader _ (fun r hr => hr.close)
  | detachAll => exact h.detach
  | retire =>
    unfold LiveStream.retire
    split
    · exact h.detach
    · exact h

theorem Run.meets (D : Discipline) (hcap : 1 ≤ opts.maxQueuedFrames) (h : Run opts streamId (Roomy opts) s) :
    s.Meets D streamId := by
  induction h with
  | init => exact ⟨kept_init streamId, rfl, by simp⟩
  | step _ hstep hroom ih => exact ih.step hcap hstep hroom

end LiveStream

end Rindle.Streams
