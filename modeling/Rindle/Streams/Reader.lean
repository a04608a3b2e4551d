/-
  Rindle.Streams.Reader — the reader of a streamed text (`packages/react/src/stream.ts`) over an
  event source that reconnects by itself.

  The source resumes at the id of the last frame that had one. That of a `durable` is behind the
  text, so a session may replay what the reader has; a chunk is spliced at its own offset.
-/

import Rindle.Streams.Relayed

namespace Rindle.Streams

open Rindle.Slices

/-- `frameResumePoint`. -/
def StreamFrame.resumePoint : StreamFrame → Option Nat
  | .open _ fromSeq .. => some fromSeq
  | .chunk _ seq _ | .durable seq | .end seq .. => some seq
  | .stale .. | .absent => none

/-- What the source asks for: `Last-Event-ID`, or else the `from` of its URL. -/
def lastEventId (asked : Nat) (frames : List StreamFrame) : Nat := frames.foldl (fun id f => f.resumePoint.getD id) asked

def spliceStreamText (durable produced : Text) : Text :=
  if durable.length < produced.length then durable ++ produced.drop durable.length else durable

/-- What arrived in the sessions of one source, each a subscription for the last id before it.
    The reader closes its source at a terminal frame. -/
def LiveStream.Sessions (s : LiveStream) : Nat → List (List StreamFrame) → Prop
  | _, [] => True
  | asked, got :: rest =>
    (∃ r ∈ s.readers, r.asked = asked ∧ got <+: r.sub.received) ∧ (rest = [] ∨ ∀ f ∈ got, ¬ f.isTerminal) ∧
      Sessions s (lastEventId asked got) rest

/-- A session, spliced onto a text that reaches where it starts. -/
theorem spliced_session {whole : Text} {streamId : String} {asked first stop : Nat} {more : List Relay.Frame} (frames : List StreamFrame) :
    ∀ {before : List StreamFrame} {pos n : Nat}, Relay.Legal streamId asked (relayed (before ++ frames)) →
      (∀ fs t after, frames = fs ++ t :: after → t.isTerminal → after = []) → Tiles whole pos (chunks frames) stop → pos ≤ n →
      n ≤ whole.length → Relay.delivered asked (relayed before) ≤ n → lastEventId first before ≤ n →
      (more = [] ∨ ∀ f ∈ frames, ¬ f.isTerminal) →
      ∃ m, m ≤ whole.length ∧ stop ≤ m ∧ lastEventId first (before ++ frames) ≤ m ∧
        Relay.spliced (whole.take n) (relayed frames ++ more) = Relay.spliced (whole.take m) more := by
  induction frames with
  | nil =>
    intro before pos n _ _ htiles hpos hn _ hid _
    obtain ⟨rfl, -⟩ := htiles
    exact ⟨n, hn, hpos, by simpa using hid, rfl⟩
  | cons f frames ih =>
    intro before pos n hlegal hlast htiles hpos hn hat hid hmore
    obtain ⟨-, hallowed⟩ := hlegal (relayed before) f.relayed (relayed frames) (by simp [relayed])
    have hnext := fun {pos n} => @ih (before ++ [f]) pos n
    rw [List.append_assoc, List.singleton_append, relayed_snoc, Relay.delivered_snoc, lastEventId, List.foldl_append] at hnext
    have hnext := fun {pos n} => @hnext pos n hlegal fun fs t after h => hlast (f :: fs) t after (congrArg (f :: ·) h)
    have hmore' := hmore.imp_right fun h g hg => h g (List.mem_cons_of_mem f hg)
    by_cases ht : f.isTerminal
    · -- nothing follows it
      obtain rfl := hlast [] f frames rfl ht
      obtain rfl := hmore.resolve_right fun h => h f List.mem_cons_self ht
      refine ⟨n, hn, ?_, ?_, by cases f <;> first | rfl | cases ht⟩
      · cases f <;> first | exact htiles.1 ▸ hpos | cases ht
      · rw [lastEventId, List.foldl_append]
        cases f with
        | «end» seq status error =>
          obtain ⟨-, d, hd, -, hle⟩ := hallowed
          obtain rfl := Relay.Field.int.inj hd
          exact Int.ofNat_le.mp (hle.trans hat)
        | stale | absent => exact hid
        | «open» | chunk | durable => cases ht
    cases f with
    | «open» id fromSeq seq durableSeq ended =>
      obtain ⟨hnil, -, i, _, _, hi, -, -, -, hle, -⟩ := hallowed
      obtain rfl := Relay.Field.int.inj hi
      rw [hnil] at hat
      exact hnext htiles hpos hn (hle.trans hat) (Int.ofNat_le.mp (hle.trans hat)) hmore'
    | chunk fromSeq seq text =>
      obtain ⟨rfl, hlt, hle, rfl, htiles⟩ : fromSeq = pos ∧ pos < seq ∧ seq ≤ whole.length ∧ text = slice whole pos seq ∧
        Tiles whole seq (chunks frames) stop := htiles
      have hacc : (whole.take n).take fromSeq ++ slice whole fromSeq seq = whole.take seq := by
        rw [List.take_take, Nat.min_eq_left hpos]
        exact take_append_slice whole (Nat.le_of_lt hlt)
      have hreach : ¬ ((whole.take n).length : Int) < fromSeq := by
        rw [List.length_take]
        omega
      obtain ⟨m, hm, hstop, hid, hrun⟩ := hnext htiles (Nat.le_refl _) hle (Int.le_refl _) (Nat.le_refl _) hmore'
      rw [← hacc] at hrun
      exact ⟨m, hm, hstop, hid, (if_neg hreach).trans hrun⟩
    | durable seq =>
      obtain ⟨-, d, hd, -, hle⟩ := hallowed
      obtain rfl := Relay.Field.int.inj hd
      exact hnext htiles hpos hn hat (Int.ofNat_le.mp (hle.trans hat)) hmore'
    | «end» | stale | absent => exact absurd rfl ht

namespace LiveStream

variable {opts : PlaneOpts} {s : LiveStream} {streamId : String}

theorem spliced_sessions (hcap : 1 ≤ opts.maxQueuedFrames) (h : Run opts streamId (Roomy opts) s) (gots : List (List StreamFrame)) :
    ∀ {asked n : Nat}, s.Sessions asked gots → asked ≤ n → n ≤ s.produced.length →
      Relay.spliced (s.produced.take n) (relayed gots.flatten) <+: s.produced ∧
        ((∃ f ∈ gots.flatten, f.isEnd) → Relay.spliced (s.produced.take n) (relayed gots.flatten) = s.produced) := by
  induction gots with
  | nil => exact fun _ _ _ => ⟨List.take_prefix _ _, fun hend => by obtain ⟨f, hf, -⟩ := hend; cases hf⟩
  | cons got rest ih =>
    intro asked n ⟨⟨r, hr, hasked, more, hgot⟩, hlast, hrest⟩ hle hn
    have hfine := ((Run.meets splicing hcap h).readers r hr).received
    have hrelay := Run.relayed hcap h r hr
    rw [← hgot] at hfine hrelay
    rw [relayed, List.map_append] at hrelay
    obtain ⟨-, hlegal, hwhole⟩ := Whole.initial hfine
    have hat : (relayOffset r.asked : Int) ≤ n := by
      rw [hasked, relayOffset, Int.floor_natCast]
      omega
    have hjoin : clampOffset r.asked r.length ≤ n := (Nat.min_le_left _ _).trans (Int.ofNat_le.mp hat)
    obtain ⟨stop, htiles, hstop⟩ : ∃ stop, Tiles s.produced (clampOffset r.asked r.length) (chunks got) stop ∧
        ((∃ f ∈ got, f.isEnd) → stop = s.produced.length) := by
      by_cases hend : ∃ f ∈ got, f.isEnd
      · obtain ⟨f, hf, he⟩ := hend
        exact ⟨_, (hwhole f hf he).2, fun _ => rfl⟩
      · exact hlegal.tiles.imp fun _ htiles => ⟨htiles, fun h => absurd h hend⟩
    obtain ⟨m, hm, hreach, hid, hrun⟩ := @spliced_session _ _ _ asked _ (relayed rest.flatten) got [] _ _ hrelay.initial hlegal.last
      htiles hjoin hn hat hle (hlast.imp_left fun h => by rw [h]; rfl)
    rw [show relayed (got :: rest).flatten = relayed got ++ relayed rest.flatten by simp [relayed], hrun]
    obtain ⟨hpre, hall⟩ := ih hrest hid hm
    refine ⟨hpre, fun hend => ?_⟩
    obtain ⟨f, hf, he⟩ := hend
    rcases List.mem_append.mp hf with hgot | hrest
    · obtain rfl := hlast.resolve_right fun hflows => hflows f hgot (StreamFrame.isTerminal_of_isEnd he)
      exact List.take_of_length_le ((hstop ⟨f, hgot, he⟩).symm.le.trans hreach)
    · exact hall ⟨f, hrest, he⟩

/-- In every run whose joins have room for their replay, however often the source reconnects: the text
    shown begins what was produced and has all of the durable text, and is all of it once `end` arrived. -/
theorem reconnecting_reader (hcap : 1 ≤ opts.maxQueuedFrames) (h : Run opts streamId (Roomy opts) s) {seed durable : Text}
    (hseed : seed <+: s.produced) (hdurable : durable <+: s.produced) {gots : List (List StreamFrame)}
    (hgots : s.Sessions seed.length gots) :
    durable <+: spliceStreamText durable (Relay.spliced seed (relayed gots.flatten)) ∧
      spliceStreamText durable (Relay.spliced seed (relayed gots.flatten)) <+: s.produced ∧
      ((∃ f ∈ gots.flatten, f.isEnd) → spliceStreamText durable (Relay.spliced seed (relayed gots.flatten)) = s.produced) := by
  obtain ⟨hpre, hwhole⟩ := spliced_sessions hcap h gots hgots (Nat.le_refl _) hseed.length_le
  rw [← List.prefix_iff_eq_take.mp hseed] at hpre hwhole
  generalize Relay.spliced seed (relayed gots.flatten) = text at hpre hwhole
  unfold spliceStreamText
  split
  · next hlt =>
    obtain ⟨tail, rfl⟩ := List.prefix_of_prefix_length_le hdurable hpre (Nat.le_of_lt hlt)
    rw [List.drop_left]
    exact ⟨List.prefix_append _ _, hpre, hwhole⟩
  · next hle =>
    refine ⟨List.prefix_rfl, hdurable, fun hend => ?_⟩
    rw [hwhole hend] at hle
    exact hdurable.eq_of_length_le (Nat.not_lt.mp hle)

/-- The connection drops behind the `open`; the second session brings the text. -/
theorem reconnecting_reader_twice : ∃ s : LiveStream, s.produced = [104] ∧ spliceStreamText [] (Relay.spliced []
    (relayed [.open "m1" 0 1 0 false, .open "m1" 0 1 0 false, .chunk 0 1 [104]])) <+: s.produced := by
  have hjoined := Run.step (Run.step (@Run.step ⟨none, 2, 3⟩ "m1" (Roomy ⟨none, 2, 3⟩) _ _ _ (.step .init
    (@Step.push _ _ [104] _ rfl) (fun _ h => by cases h)) (@Step.subscribe _ _ 0) (fun _ _ => .inl (Nat.le_refl 2)))
    (.next (i := 0)) (fun _ h => by cases h)) (@Step.subscribe _ _ 0) (fun _ _ => .inl (Nat.le_refl 2))
  have hrun := Run.step (Run.step hjoined (.next (i := 1)) (fun _ h => by cases h)) (.next (i := 1)) (fun _ h => by cases h)
  refine ⟨_, rfl, (reconnecting_reader (by decide) hrun List.nil_prefix List.nil_prefix (?_ : Sessions _ 0
    [[.open "m1" 0 1 0 false], [.open "m1" 0 1 0 false, .chunk 0 1 [104]]])).2.1⟩
  exact ⟨⟨_, List.mem_of_getElem? (i := 0) rfl, rfl, List.prefix_rfl⟩, .inr (by decide),
    ⟨_, List.mem_of_getElem? (i := 1) rfl, rfl, List.prefix_rfl⟩, .inl rfl, trivial⟩

end LiveStream

end Rindle.Streams
