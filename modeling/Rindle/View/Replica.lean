/-
  Rindle.View.Replica — a subscriber as a replica of the engine's view.

  The publisher sends the changes the view folds, a batch for each transaction that changes
  something, and ships the view's schema (`rust/src/wire_schema.rs`). Where the schema comes back
  as it was the subscriber's tree is the view's after the first of these transactions, whatever is
  lost, repeated or reordered on the way.
-/

import Rindle.View.Protocol
import Rindle.View.Content

namespace Rindle

open View

/-- A change as the publisher is given it. -/
def caughtStep (s : (Mutate × Nat) × Change) : CaughtChange := expandChange s.2

section
variable {schema : Schema} {steps : List ((Mutate × Nat) × Change)} {txns : List (List ((Mutate × Nat) × Change))}

/-- Where the view does not panic neither does the receiver, on any first part of the changes. -/
theorem mirrored_part (hkeyed : ∀ s ∈ steps, s.2.Keyed schema) (hview : (applyChanges schema syntheticRoot steps).isSome = true)
    {part : List ((Mutate × Nat) × Change)} (hpart : part <+: steps) :
    ∃ root r, applyChanges schema syntheticRoot part = some root ∧
      (Receiver.new schema).applyAll (flattenAll (part.map caughtStep)) = some r ∧ r.top = (viewData root).map Entry.content := by
  obtain ⟨rest, rfl⟩ := hpart
  rw [applyChanges, List.foldlM_append] at hview
  obtain ⟨_, hlast⟩ := Option.isSome_iff_exists.mp hview
  obtain ⟨root, hroot, -⟩ := Option.bind_eq_some_iff.mp hlast
  have hroot : applyChanges schema syntheticRoot part = some root := hroot
  have hmirrors := Mirrors.stream part (fun s hs => hkeyed s (List.mem_append_left _ hs)) (mirrors_syntheticRoot schema)
  rw [hroot] at hmirrors
  cases hrecv : Receiver.applyAll ⟨schema, []⟩ (flattenAll (part.map fun s => expandChange s.2)) with
  | none =>
    rw [hrecv] at hmirrors
    exact hmirrors.elim
  | some r =>
    rw [hrecv] at hmirrors
    exact ⟨root, r, hroot, hrecv, hmirrors.2.top_eq⟩

/-- The first batches are the first transactions that change something. -/
theorem liveBatches_take (n : Nat) : ((liveBatches (txns.map (List.map caughtStep))).take n).flatten =
    flattenAll (((txns.filter fun t => !t.isEmpty).take n).flatten.map caughtStep) := by
  have hne : ((fun c : List CaughtChange => !c.isEmpty) ∘ List.map caughtStep) = fun t => !t.isEmpty := by
    funext t
    simp
  rw [liveBatches, List.filter_map, hne, List.map_map, ← List.map_take, flattenAll, List.map_map, List.map_flatten]
  congr 2
  funext t
  simp [flattenAll]

/-- The changes of a view that does not panic, as a snapshot and transactions: for every delivery of their frames
    the subscriber does not panic, and with its snapshot and `n` batches taken it holds what the view held after
    the first `n` transactions that changed something. -/
theorem subscriber_mirrors_view {epoch : UInt64} {p : Publisher} {base : Baseline} {sent : List Frame}
    (hwire : toSchema (toWire schema) = schema) (hnew : Publisher.new epoch schema = some p)
    (hkeyed : ∀ s ∈ steps ++ txns.flatten, s.2.Keyed schema)
    (hview : (applyChanges schema syntheticRoot (steps ++ txns.flatten)).isSome = true)
    (hsent : p.publish base (steps.map caughtStep) (txns.map (List.map caughtStep)) = some sent) :
    ∃ sub, Subscriber.openFrom p.hello = some (.ok sub) ∧ ∀ frames, Delivers p sent frames →
      ∃ s taken, sub.receiveAll [] frames = some (s, taken) ∧ ∀ n, s.lastSeq = some n →
        ∃ root, applyChanges schema syntheticRoot (steps ++ ((txns.filter fun t => !t.isEmpty).take n).flatten) = some root ∧
          s.recv.top = (viewData root).map Entry.content := by
  have hseq : p.nextSeq = 0 := by
    obtain ⟨fp, -, rfl⟩ := Option.map_eq_some_iff.mp hnew
    rfl
  have hpart : ∀ n, steps ++ ((txns.filter fun t => !t.isEmpty).take n).flatten <+: steps ++ txns.flatten := fun n => by
    rw [← List.flatten_filter_not_isEmpty (L := txns)]
    exact (List.prefix_append_right_inj _).mpr (flatten_take_below _ n)
  obtain ⟨hmem, hpages⟩ := Publisher.mem_publish hseq hsent
  have hopen := Subscriber.openFrom_hello hnew
  rw [hwire] at hopen
  refine ⟨_, hopen, fun frames hdel => ?_⟩
  have hstart : Follows p.epoch p.schemaFp (.new schema) (base.pages (flattenAll (steps.map caughtStep)))
      (liveBatches (txns.map (List.map caughtStep))) ⟨p.epoch, p.schemaFp, .new schema, .snapshot 0⟩ [] := ⟨rfl, rfl, rfl, Nat.zero_le _, rfl⟩
  have hrun := Follows.receiveAll (fun f hf => (hdel f hf).imp_left (hmem f)) hstart
  rw [hpages] at hrun
  have hfold : ∀ n, ∃ root r, applyChanges schema syntheticRoot (steps ++ ((txns.filter fun t => !t.isEmpty).take n).flatten) = some root ∧
      (Receiver.new schema).applyAll (flattenAll (steps.map caughtStep) ++ ((liveBatches (txns.map (List.map caughtStep))).take n).flatten) =
        some r ∧ r.top = (viewData root).map Entry.content := by
    intro n
    obtain ⟨root, r, hroot, hr, htop⟩ := mirrored_part hkeyed hview (hpart n)
    rw [List.map_append, flattenAll, List.map_append] at hr
    exact ⟨root, r, hroot, by rw [liveBatches_take]; exact hr, htop⟩
  cases hall : Subscriber.receiveAll ⟨p.epoch, p.schemaFp, .new schema, .snapshot 0⟩ [] frames with
  | none =>
    obtain ⟨root, r, -, hr, -⟩ := hfold (liveBatches (txns.map (List.map caughtStep))).length
    rw [List.take_length] at hr
    rw [hall] at hrun
    cases hrun.symm.trans hr
  | some q =>
    obtain ⟨s, taken⟩ := q
    rw [hall] at hrun
    refine ⟨s, taken, rfl, fun n hn => ?_⟩
    have hphase := hrun.phase
    cases hp : s.phase with
    | snapshot k => simp [Subscriber.lastSeq, hp] at hn
    | live m =>
      obtain rfl : m = n := by simpa [Subscriber.lastSeq, hp] using hn
      rw [hp] at hphase
      obtain ⟨root, r, hroot, hr, htop⟩ := hfold m
      rw [← hpages, ← hphase.2] at hr
      exact ⟨root, hroot, Option.some.inj (hr.symm.trans hrun.tree) ▸ htop⟩

end

/-- A transaction that changes nothing and one that adds a row; the frames come backwards and then again. -/
theorem subscriber_mirrors_repeated : ∃ p sent sub s taken, Publisher.new 7 (Schema.new ["id"] [0] [(0, true)]) = some p ∧
    p.publish (.chunked 1) [expandChange (.add (.leaf [.int 1]))] [[], [expandChange (.add (.leaf [.int 2]))]] = some sent ∧
    Subscriber.openFrom p.hello = some (.ok sub) ∧ sub.receiveAll [] (sent.reverse ++ sent) = some (s, taken) := by
  have hkeyed : ∀ s ∈ [((Mutate.inPlace, 0), Change.add (.leaf [.int 1]))] ++ [[], [((Mutate.cow, 1), .add (.leaf [.int 2]))]].flatten,
      s.2.Keyed (Schema.new ["id"] [0] [(0, true)]) := by
    intro s hs
    rcases List.mem_cons.mp hs with rfl | hs
    · exact ⟨by simp, by simp⟩
    · rw [List.mem_singleton.mp hs]
      exact ⟨by simp, by simp⟩
  obtain ⟨p, hnew⟩ := Option.isSome_iff_exists.mp (show (Publisher.new 7 (Schema.new ["id"] [0] [(0, true)])).isSome = true by decide)
  obtain ⟨sent, hsent⟩ : ∃ sent, p.publish (.chunked 1) [expandChange (.add (.leaf [.int 1]))]
      [[], [expandChange (.add (.leaf [.int 2]))]] = some sent := ⟨_, rfl⟩
  obtain ⟨sub, hopen, hall⟩ := subscriber_mirrors_view rfl hnew hkeyed (by decide +kernel) hsent
  obtain ⟨s, taken, hrun, -⟩ := hall (sent.reverse ++ sent) fun f hf => .inl (by simpa using hf)
  exact ⟨p, sent, sub, s, taken, hnew, hsent, hopen, hrun⟩

end Rindle
