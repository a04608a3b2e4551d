/-
  Rindle.Mutations.Session — a session of a client whose id the server may know already.

  A page load keeps its client id (`packages/optimistic/src/client-id.ts`), so the server may
  hold a last mutation id `recorded d` from an earlier session when a fresh backend starts
  dealing at 1. The server applies a client's envelopes in mid order and ignores those at
  or below its record; envelopes arrive in any order, any number of times; a released lmid
  is one the server has reached.

  `retired_was_processed`: where every mid is dealt after the counter has passed the old
  record, whatever the backend retires as confirmed the server processed in this session.
  A mid dealt earlier collides with an old one and the old record confirms it
  (`write_before_adoption_is_lost`).
-/

import Rindle.Mutations.Sound

namespace Rindle.Mutations

variable {α : Type}

/-- The client, the server's last mutation ids and the mids it processed in this session. -/
structure World (α : Type) where
  client : Backend α
  lmid : String → Nat
  processed : List (String × Nat) := []

namespace World

/-- A page load over a client id the server has these ids for. -/
def start (recorded : String → Nat) (nothing : PendingMutation α) : World α := { client := .fresh nothing, lmid := recorded }

/-- One envelope reaches the server of a domain. -/
def receive (w : World α) (d : String) (mid : Nat) : World α :=
  if mid = w.lmid d + 1 then { w with lmid := Function.update w.lmid d mid, processed := w.processed ++ [(d, mid)] } else w

/-- The worlds of a session, in which each client event meets `ok`. -/
inductive Reach (recorded : String → Nat) (ok : Backend α → Policy α × Event α → Prop) : World α → Prop
  | start (nothing : PendingMutation α) : Reach recorded ok (start recorded nothing)
  /-- An invocation, a flush, a release of ids the server has reached, a resync, a teardown. -/
  | client {w : World α} (e : Policy α × Event α) : Reach recorded ok w → Backend.Plain e.2 →
      (∀ c ∈ Backend.confirmsOf e.2, c.2 ≤ w.lmid c.1) → ok w.client e → Reach recorded ok { w with client := w.client.step e }
  /-- An envelope of the session arrives. -/
  | deliver {w : World α} (d : String) (e : MutationEnvelope α) (origin : Origin) : Reach recorded ok w →
      (.sent d e origin ∈ w.client.log ∨ .resent d e ∈ w.client.log) → Reach recorded ok (w.receive d e.mid)

end World

/-- Every domain the event deals in has adopted the server's old record, if there was one. -/
def Adopted (recorded : String → Nat) (b : Backend α) (e : Policy α × Event α) : Prop := ∀ d ∈ b.dealsIn e, recorded d < b.nextMid d

namespace Backend

/-- The mids awaited and retired are this session's, and nothing is confirmed past `lmid`. -/
structure Fresher (recorded lmid : String → Nat) (b : Backend α) : Prop where
  awaited : ∀ d m i, b.At d m i → recorded d < m
  marked : ∀ d, b.watermark d ≤ lmid d
  retired : ∀ d m, Output.retired d m ∈ b.log → recorded d < m ∧ m ≤ lmid d

theorem move_fresher {recorded lmid : String → Nat} {b b' : Backend α}
    (hm : Move ⟨True, fun d m => recorded d < m, fun d v => v ≤ lmid d, False⟩ b b') (hlive : Live b) (h : Fresher recorded lmid b) :
    Fresher recorded lmid b' := by
  have hat : ∀ d m i, b'.At d m i → recorded d < m := by
    intro d m i hi
    rcases move_at hm hlive hi with hi | ⟨-, hd⟩
    · exact h.awaited d m i hi
    · exact hd
  cases hm with
  | again domain e =>
    refine ⟨hat, h.marked, ?_⟩
    intro d m hmem
    simp only [record, List.mem_append, List.mem_singleton, reduceCtorEq, or_false] at hmem
    exact h.retired d m hmem
  | note o processed ho ha => exact ha.elim
  | touch i touched => exact ⟨hat, h.marked, h.retired⟩
  | opened foldKey name args domain touched deferred hf => exact ⟨hat, h.marked, h.retired⟩
  | refold foldKey f args domain touched hf => exact ⟨hat, h.marked, h.retired⟩
  | issue domain name args touched origin ha ho =>
    refine ⟨hat, h.marked, ?_⟩
    intro d m hmem
    simp only [issue, List.mem_append, List.mem_singleton, reduceCtorEq, or_false] at hmem
    exact h.retired d m hmem
  | flush foldKey f domain hf ha =>
    refine ⟨hat, h.marked, ?_⟩
    intro d m hmem
    simp only [flushTo, List.mem_append, List.mem_singleton, reduceCtorEq, or_false] at hmem
    exact h.retired d m hmem
  | flip domain mid i hi ha ho => exact ho.elim
  | confirm _ domain v hc ha =>
    obtain ⟨-, -, -, -, -, -, hw, hcase⟩ := foldConfirm_spec hc
    refine ⟨hat, ?_, ?_⟩
    · intro d
      have hold := h.marked d
      rw [hw]
      by_cases hd : d = domain
      · subst hd
        have hv : v ≤ lmid d := ha
        simp only [Function.update_self]
        omega
      · simpa [hd] using hold
    · intro d m hmem
      rcases hcase with ⟨-, -, hl⟩ | ⟨-, -, -, hl⟩
      · simp only [hl, List.mem_append, List.mem_singleton, reduceCtorEq, or_false] at hmem
        exact h.retired d m hmem
      · simp only [hl, List.mem_append, List.mem_singleton, reduceCtorEq, or_false] at hmem
        exact h.retired d m hmem
  | retire =>
    refine ⟨hat, h.marked, ?_⟩
    intro d m hmem
    rcases List.mem_append.mp hmem with hmem | hmem
    · exact h.retired d m hmem
    · obtain ⟨i, hi, hio⟩ := List.mem_filterMap.mp hmem
      obtain ⟨x, hx, hxo⟩ := Option.map_eq_some_iff.mp hio
      obtain ⟨rfl, rfl⟩ := Output.retired.inj hxo
      obtain ⟨hmid, hle⟩ := Option.filter_eq_some_iff.mp hx
      have hle' := of_decide_eq_true hle
      refine ⟨h.awaited _ x i ⟨hi, rfl, hmid⟩, ?_⟩
      exact Nat.le_trans hle' (h.marked _)
  | drop keep hl => exact ⟨hat, h.marked, h.retired⟩

end Backend

namespace World

open Backend

/-- The server's record starts where the last session left it, and everything past it was processed here. -/
theorem reach_spec {recorded : String → Nat} {w : World α} (h : Reach recorded (Adopted recorded) w) :
    Live w.client ∧ Fresher recorded w.lmid w.client ∧ ∀ d m, recorded d < m → m ≤ w.lmid d → (d, m) ∈ w.processed := by
  induction h with
  | start nothing =>
    refine ⟨fresh_live nothing, ⟨fun _ _ _ hat => absurd hat.1 List.not_mem_nil, by simp [World.start, fresh], by simp [World.start, fresh]⟩, ?_⟩
    intro d m h1 h2
    simp only [World.start] at h2
    omega
  | @client w e _ hplain hconf hok ih =>
    obtain ⟨hlive, hf, hp⟩ := ih
    have hm : Moves ⟨True, fun d m => recorded d < m, fun d v => v ≤ w.lmid d, False⟩ w.client (w.client.step e) := by
      refine step_moves w.client e (.inl trivial) (.inl ⟨hplain, ?_⟩) hconf
      intro d hd m hle
      exact Nat.lt_of_lt_of_le (hok d hd) hle
    obtain ⟨hl', hf'⟩ := Moves.keeps (I := fun b => Live b ∧ Fresher recorded w.lmid b)
      (fun b b' hm h => ⟨move_live hm h.1, move_fresher hm h.1 h.2⟩) hm ⟨hlive, hf⟩
    exact ⟨hl', hf', hp⟩
  | @deliver w d e origin _ hsent ih =>
    obtain ⟨hlive, hf, hp⟩ := ih
    unfold receive
    split
    · rename_i hmid
      have hmono : w.lmid ≤ Function.update w.lmid d e.mid := le_update_self_iff.mpr (by omega)
      refine ⟨hlive, ⟨hf.awaited, fun d' => Nat.le_trans (hf.marked d') (hmono d'), ?_⟩, ?_⟩
      · intro d' m hr
        exact ⟨(hf.retired d' m hr).1, Nat.le_trans (hf.retired d' m hr).2 (hmono d')⟩
      · intro d' m h1 h2
        by_cases hd : d' = d
        · subst hd
          simp only [Function.update_self] at h2
          by_cases hm : m = e.mid
          · subst hm
            exact List.mem_append_right _ (List.mem_singleton.mpr rfl)
          · exact List.mem_append_left _ (hp d' m h1 (by omega))
        · have h2' : m ≤ Function.update w.lmid d e.mid d' := h2
          rw [Function.update_of_ne hd] at h2'
          exact List.mem_append_left _ (hp d' m h1 h2')
    · exact ⟨hlive, hf, hp⟩

/-- Whatever the backend retires as confirmed, the server processed in this session. -/
theorem retired_was_processed {recorded : String → Nat} {w : World α} (h : Reach recorded (Adopted recorded) w) {d : String} {m : Nat}
    (hr : Output.retired d m ∈ w.client.log) : (d, m) ∈ w.processed := by
  obtain ⟨-, hf, hp⟩ := reach_spec h
  obtain ⟨h1, h2⟩ := hf.retired d m hr
  exact hp d m h1 h2

/-- A client that adopts before it writes: an id recorded up to 1, the write dealt 2, delivered, confirmed. -/
theorem retired_was_processed_adopting :
    ∃ w : World Nat, Reach (fun _ => 1) (Adopted fun _ => 1) w ∧ Output.retired "daemon" 2 ∈ w.client.log ∧ ("daemon", 2) ∈ w.processed := by
  let nothing : PendingMutation Nat := ⟨none, none, "", 0, "daemon", []⟩
  let policy : Policy Nat := fun _ _ => none
  let confirming (v : Nat) : Policy Nat × Event Nat := (policy, .release ⟨"daemon", [], [], [v], false, fun _ => .ok []⟩)
  let write : Policy Nat × Event Nat := (policy, .invoke "rename" 1 (.ok ["item"]))
  have h₀ : Reach (fun _ => 1) (Adopted fun _ => 1) _ :=
    .client (confirming 1) (.start nothing) rfl (by decide) (fun d hd => nomatch hd)
  have h₁ : Reach (fun _ => 1) (Adopted fun _ => 1) _ := .client write h₀ trivial (by decide) fun d hd => by
    have hin : ((fresh nothing).run [confirming 1]).dealsIn write = ["daemon"] := by decide
    rw [show d = "daemon" from List.mem_singleton.mp (hin ▸ hd)]
    decide
  have h₂ := Reach.deliver "daemon" ⟨2, "rename", 1⟩ .invoked h₁ (.inl (by decide))
  have h₃ : Reach (fun _ => 1) (Adopted fun _ => 1) _ := .client (confirming 2) h₂ rfl (by decide) (fun d hd => nomatch hd)
  exact ⟨_, h₃, by decide +kernel, retired_was_processed h₃ (by decide +kernel)⟩

/-- The write is dealt mid 1 before the old record 1 comes down; the server ignores the envelope, and the record retires the write. -/
theorem write_before_adoption_is_lost :
    ¬ ∀ (recorded : String → Nat) (w : World Nat), Reach recorded (fun _ _ => True) w →
      ∀ d m, Output.retired d m ∈ w.client.log → (d, m) ∈ w.processed := by
  intro h
  let nothing : PendingMutation Nat := ⟨none, none, "", 0, "daemon", []⟩
  let policy : Policy Nat := fun _ _ => none
  let confirming : Policy Nat × Event Nat := (policy, .release ⟨"daemon", [], [], [1], false, fun _ => .ok []⟩)
  let write : Policy Nat × Event Nat := (policy, .invoke "rename" 1 (.ok ["item"]))
  have h₁ : Reach (fun _ => 1) (fun _ _ => True) _ := .client write (.start nothing) trivial (by decide) trivial
  have h₂ := Reach.deliver "daemon" ⟨1, "rename", 1⟩ .invoked h₁ (.inl (by decide))
  have h₃ : Reach (fun _ => 1) (fun _ _ => True) _ := .client confirming h₂ rfl (by decide) trivial
  exact absurd (h _ _ h₃ "daemon" 1 (by decide +kernel)) (by decide +kernel)

end World

end Rindle.Mutations
