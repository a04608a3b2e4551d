/-
  Rindle.SqlClient.WithTransaction — what `withTransaction` reports, and the runs of a transaction.

  While the callback has the transaction and makes no commit, nothing can commit. Once the commit
  is made, it is repeated under its own number until its outcome is known, and an error that is
  not about the request comes from a server that has not committed.

  - `operations_in_step`: over every run that draws its numbers in time.
  - `rollback_out_of_step`: a statement is refused before admission, and the rollback skips it.
-/

import Mathlib.Data.List.Nodup
import Rindle.SqlClient.InStep

set_option linter.dupNamespace false

namespace Rindle.SqlClient

variable {σ ρ : Type}

namespace World

/-- The transaction has not committed, and no commit is on its way. -/
structure Safe (w : World σ ρ) : Prop where
  uncommitted : w.server.finished ≠ some true
  flight : ∀ r attempt, w.flight = some (r, attempt) → r.call ≠ .commit

variable {w : World σ ρ} {r : Request σ} {w w' : World σ ρ}

theorem Kept.safe (h : w.Kept) (hnone : w.tx.commitOperationId = none) : w.Safe := by
  constructor
  · intro hfinished
    rw [h.committed hfinished] at hnone
    cases hnone
  · intro r attempt hr hc
    have hcall := (h.flight r attempt hr).call
    rw [hc] at hcall
    rw [show w.tx.commitOperationId = _ from hcall] at hnone
    cases hnone

/-- What is not a commit does not commit. -/
theorem Safe.served (h : w.Safe) (hc : r.call ≠ .commit) {fate : Fate ρ} {out : Server σ ρ × Response ρ}
    (hserved : w.server.Served r fate out) : out.1.finished ≠ some true := by
  cases hserved with
  | ran response finished hopen hnext hran =>
    obtain ⟨operationId, call⟩ := r
    intro hfinished
    have hfinished : finished = some true := hfinished
    cases hran with
    | committed cursor => exact hc rfl
    | results statements results => cases hfinished
    | failed statements e hfate => split at hfinished <;> cases hfinished
    | conflict e hfate => exact hc rfl
    | rolledBack => cases hfinished
  | _ => exact h.uncommitted

variable [DecidableEq σ]

theorem call_server (w : World σ ρ) (c : Call σ) : (w.call c).server = w.server := by
  unfold World.call
  split <;> rfl

/-- A call leaves the request in flight, or sends its own. -/
theorem call_flight (w : World σ ρ) (c : Call σ) :
    (w.call c).flight = w.flight ∨ ∃ operationId, (w.call c).flight = some (⟨operationId, c⟩, 0) := by
  unfold World.call
  split
  · exact .inl rfl
  · exact .inl rfl
  · rename_i t operationId hstart
    exact .inr ⟨operationId, rfl⟩

theorem reply_server (w : World σ ρ) (r : Request σ) (attempt : Nat) (response : Option (Response ρ)) :
    (w.reply r attempt response).server = w.server := by
  unfold World.reply
  split <;> rfl

theorem reply_flight (w : World σ ρ) (r : Request σ) (attempt : Nat) (response : Option (Response ρ)) :
    (w.reply r attempt response).flight = none ∨ (w.reply r attempt response).flight = some (r, attempt + 1) := by
  unfold World.reply
  split
  · exact .inr rfl
  · exact .inl rfl

theorem Safe.call (h : w.Safe) {c : Call σ} (hc : c ≠ .commit) : (w.call c).Safe := by
  refine ⟨by rw [call_server]; exact h.uncommitted, ?_⟩
  intro r attempt hr
  rcases w.call_flight c with hsame | ⟨operationId, hsent⟩
  · exact h.flight r attempt (hsame ▸ hr)
  · rw [hsent] at hr
    cases hr
    exact hc

theorem Safe.reply (h : w.Safe) (hc : r.call ≠ .commit) (attempt : Nat) (response : Option (Response ρ)) :
    (w.reply r attempt response).Safe := by
  refine ⟨by rw [reply_server]; exact h.uncommitted, ?_⟩
  intro r' attempt' hr
  rcases w.reply_flight r attempt response with hnone | hsame
  · rw [hnone] at hr
    cases hr
  · rw [hsame] at hr
    cases hr
    exact hc

theorem Safe.serve (h : w.Safe) (hc : r.call ≠ .commit) (fate : Fate ρ) : ({ w with server := (w.server.serve r fate).1 } : World σ ρ).Safe :=
  ⟨h.served hc (Server.serve_served w.server r fate), h.flight⟩

theorem Safe.step (h : w.Safe) {e : Event σ ρ} (hcall : e ≠ .call .commit) (hstep : w.step e = some w') : w'.Safe := by
  cases e with
  | call c =>
    cases hstep
    exact h.call fun hc => hcall (by rw [hc])
  | lostRequest =>
    obtain ⟨⟨r, attempt⟩, hflight, rfl⟩ := Option.map_eq_some_iff.mp hstep
    exact h.reply (h.flight r attempt hflight) _ _
  | lostResponse fate =>
    obtain ⟨⟨r, attempt⟩, hflight, rfl⟩ := Option.map_eq_some_iff.mp hstep
    have hc := h.flight r attempt hflight
    exact (h.serve hc fate).reply hc _ _
  | answer fate =>
    obtain ⟨⟨r, attempt⟩, hflight, rfl⟩ := Option.map_eq_some_iff.mp hstep
    have hc := h.flight r attempt hflight
    exact (h.serve hc fate).reply hc _ _

/-- Only a commit takes the number of the commit. -/
theorem step_commitOperationId {e : Event σ ρ} (hcall : e ≠ .call .commit) (hstep : w.step e = some w') :
    w'.tx.commitOperationId = w.tx.commitOperationId := by
  have hfinish : ∀ (w : World σ ρ) r (outcome : Except RindleSqlError (Response ρ)),
      (w.tx.finish r outcome).1.commitOperationId = w.tx.commitOperationId := by
    intro w r outcome
    unfold Transaction.finish
    split
    · split <;> rfl
    all_goals rfl
  have hreply : ∀ (w : World σ ρ) r attempt response, (w.reply r attempt response).tx.commitOperationId = w.tx.commitOperationId := by
    intro w r attempt response
    unfold World.reply
    split
    · rfl
    · exact hfinish w r _
  cases e with
  | call c =>
    cases hstep
    unfold World.call
    split
    · rfl
    · rfl
    · rename_i t operationId hstart
      have hcommit := (Transaction.start_sends hstart).commit
      cases c with
      | execute statements => exact hcommit
      | commit => exact absurd rfl hcall
      | rollback => exact hcommit
  | lostRequest =>
    obtain ⟨⟨r, attempt⟩, hflight, rfl⟩ := Option.map_eq_some_iff.mp hstep
    exact hreply w r _ _
  | lostResponse fate =>
    obtain ⟨⟨r, attempt⟩, hflight, rfl⟩ := Option.map_eq_some_iff.mp hstep
    exact hreply _ r _ _
  | answer fate =>
    obtain ⟨⟨r, attempt⟩, hflight, rfl⟩ := Option.map_eq_some_iff.mp hstep
    exact hreply _ r _ _

/-! ## The commit -/

omit [DecidableEq σ] in
/-- A commit that is not answered with a cursor has not committed. -/
theorem Kept.commit_served (h : w.Kept) (hflown : w.Flown r) (hc : r.call = .commit) {fate : Fate ρ}
    {out : Server σ ρ × Response ρ} (hserved : w.server.Served r fate out) (hno : ∀ cursor, out.2 ≠ .commitCursor cursor) :
    out.1.finished ≠ some true := by
  have hcall := hflown.call
  rw [hc] at hcall
  intro hfinished
  cases hserved with
  | ended hover hrollback =>
    rw [hc] at hrollback
    cases hrollback
  | replayed hlast =>
    obtain ⟨cursor, hcursor⟩ := h.server.committed hfinished
    exact hno cursor hcursor
  | closed hover hlast =>
    have hid := h.committed hfinished
    rw [show w.tx.commitOperationId = _ from hcall] at hid
    exact hlast (Option.some.inj hid)
  | rejected e hfate hopen hnext =>
    rw [show w.server.finished = some true from hfinished] at hopen
    cases hopen
  | outOfSequence hlast hnext =>
    have hle := hflown.last_le
    have hge := hflown.le_next
    omega
  | ran response finished hopen hnext hran =>
    rw [hc] at hran
    cases hran with
    | committed cursor => exact hno cursor rfl
    | conflict e hfate => cases hfinished

/-- The commit is in flight. -/
structure Committing (w : World σ ρ) : Prop where
  flight : ∃ r attempt, w.flight = some (r, attempt) ∧ r.call = .commit
  isOpen : w.tx.isOpen = true

/-- The commit has failed: for good when the error is not about the request, and else the
    transaction is closed only if it has not committed. -/
structure CommitFailed (w : World σ ρ) (f : Failure) : Prop where
  flight : w.flight = none
  negative : f.requestRetryable = false → w.server.finished ≠ some true
  closed : w.tx.isOpen = false → w.server.finished ≠ some true

/-- A reply to the commit: it is sent again, it resolves, or it has failed. -/
theorem commit_reply {attempt : Nat} (hc : r.call = .commit) (hopen : w.tx.isOpen = true)
    {response : Option (Response ρ)} (hresponse : ∀ x, response = some x → (∀ cursor, x ≠ .commitCursor cursor) → w.server.finished ≠ some true) :
    (w.reply r attempt response).Committing ∨ (w.reply r attempt response).flight = none ∧
      ((w.reply r attempt response).settled.head?.bind (·.error) = none ∨
        ∃ f, (w.reply r attempt response).settled.head?.bind (·.error) = some f ∧ (w.reply r attempt response).CommitFailed f) := by
  obtain ⟨operationId, call⟩ := r
  cases hc
  unfold World.reply
  cases hdone : attemptDone attempt ((.commit : Call σ) ≠ .rollback) response with
  | none => exact .inl ⟨⟨_, _, rfl, rfl⟩, hopen⟩
  | some outcome =>
    refine .inr ⟨rfl, ?_⟩
    have hfailed : ∀ e : RindleSqlError, (e.retryScope ≠ .request ∨ e.endsCommit = true → w.server.finished ≠ some true) →
        (({ w with tx := w.tx.commitFailed e, flight := none } : World σ ρ).settle .commit (some operationId) (some (.sql e))).CommitFailed
          (.sql e) := by
      intro e he
      refine ⟨rfl, ?_, ?_⟩
      · intro hscope
        exact he (.inl (by simpa [Failure.requestRetryable] using hscope))
      · intro hclosed
        refine he (.inr ?_)
        by_contra hended
        simp [World.settle, Transaction.commitFailed, hended, hopen] at hclosed
    cases outcome with
    | error e =>
      refine .inr ⟨.sql e, rfl, hfailed e ?_⟩
      intro hreason
      rcases attemptDone_error hdone with he | ⟨he, -⟩ | rfl
      · exact hresponse _ he fun cursor heq => by cases heq
      · exact hresponse _ he fun cursor heq => by cases heq
      · exact absurd hreason (by decide)
    | ok x =>
      obtain ⟨hx, hno⟩ := attemptDone_ok hdone
      cases x with
      | commitCursor cursor => exact .inl rfl
      | results results => exact .inr ⟨.sql protocolError, rfl, hfailed protocolError fun _ => hresponse _ hx fun cursor heq => by cases heq⟩
      | empty => exact .inr ⟨.sql protocolError, rfl, hfailed protocolError fun _ => hresponse _ hx fun cursor heq => by cases heq⟩
      | error e => exact absurd rfl (hno e)

theorem Committing.step (h : w.Committing) (hkept : w.Kept) {e : Event σ ρ} (hcall : ∀ c, e ≠ .call c)
    (hstep : w.step e = some w') :
    w'.Committing ∨ w'.flight = none ∧
      (w'.settled.head?.bind (·.error) = none ∨ ∃ f, w'.settled.head?.bind (·.error) = some f ∧ w'.CommitFailed f) := by
  obtain ⟨⟨r, attempt, hflight, hc⟩, hopen⟩ := h
  have hflown := hkept.flight r attempt hflight
  cases e with
  | call c => exact absurd rfl (hcall c)
  | lostRequest =>
    obtain ⟨⟨r', attempt'⟩, hflight', rfl⟩ := Option.map_eq_some_iff.mp hstep
    cases hflight.symm.trans hflight'
    refine commit_reply hc hopen ?_
    intro x hx
    cases hx
  | lostResponse fate =>
    obtain ⟨⟨r', attempt'⟩, hflight', rfl⟩ := Option.map_eq_some_iff.mp hstep
    cases hflight.symm.trans hflight'
    have hopen' : ({ w with server := (w.server.serve r fate).1 } : World σ ρ).tx.isOpen = true := hopen
    refine commit_reply hc hopen' ?_
    intro x hx
    cases hx
  | answer fate =>
    obtain ⟨⟨r', attempt'⟩, hflight', rfl⟩ := Option.map_eq_some_iff.mp hstep
    cases hflight.symm.trans hflight'
    have hopen' : ({ w with server := (w.server.serve r fate).1 } : World σ ρ).tx.isOpen = true := hopen
    refine commit_reply hc hopen' ?_
    intro x hx hno
    cases hx
    exact hkept.commit_served hflown hc (Server.serve_served w.server r fate) hno

/-- Why a commit throws at once. -/
theorem commit_thrown {t : Transaction σ} {busy : Bool} {f : Failure} (h : t.start busy .commit = .thrown f) :
    f.requestRetryable = false ∧ (t.isOpen = false ∨ busy = true ∨ ∃ n x, t.pendingExecute = some (n, some x)) := by
  simp only [Transaction.start, Transaction.commit, Transaction.ensureUsable] at h
  split at h
  · rename_i e he
    cases h
    split at he
    · rename_i hclosed
      cases he
      exact ⟨rfl, .inl hclosed⟩
    · split at he
      · rename_i hbusy
        cases he
        exact ⟨rfl, .inr (.inl hbusy)⟩
      · cases he
  · split at h
    · rename_i hpending
      cases h
      refine ⟨rfl, .inr (.inr ?_)⟩
      cases hp : t.pendingExecute with
      | none => simp [hp] at hpending
      | some p =>
        obtain ⟨n, x⟩ := p
        cases x with
        | none => simp [hp] at hpending
        | some x => exact ⟨n, x, rfl⟩
    · cases h

end World

/-! ## The runs -/

/-- The server's part in an action is honest. -/
def Action.Honest : Action σ ρ → Prop
  | .inner e => e.Honest
  | _ => True

namespace Session

/-- Before the commit is made, or made again. -/
def Pausing (w : World σ ρ) : Prop := w.Safe ∨ w.flight = none ∧ (w.tx.isOpen = false → w.server.finished ≠ some true)

/-- What is known in each phase. -/
def Known (w : World σ ρ) : Phase → Prop
  | .begun => True
  | .callback => w.tx.commitOperationId = none
  | .pausing _ => Pausing w
  | .committing _ => w.Committing
  | .releasing _ => w.Safe
  | .rollingBack _ => w.Safe
  | .done none => True
  | .done (some f) => f.requestRetryable = false → w.Safe

/-- The calls fit, the server is honest, and the callback leaves the commit to `withTransaction`. -/
structure Fit [DecidableEq σ] (s : Session σ ρ) (a : Action σ ρ) : Prop where
  call : ∀ c, a.called = some c → s.world.Fit c
  honest : a.Honest
  callback : s.phase = .callback → a.called ≠ some .commit

theorem known_afterCommit {w : World σ ρ} {f : Failure} (h : w.CommitFailed f) (attempt : Nat) : Known w (afterCommit attempt (some f)) := by
  unfold afterCommit
  simp only
  have hflight : ∀ r attempt, w.flight = some (r, attempt) → r.call ≠ .commit := by
    intro r attempt hr
    rw [h.flight] at hr
    cases hr
  split
  · rename_i hnever
    exact ⟨h.negative hnever, hflight⟩
  · rename_i hretry
    split
    · exact fun hnever => absurd hnever hretry
    · exact .inr ⟨h.flight, h.closed⟩

theorem moved_world (phase : Phase) (w : World σ ρ) : (moved phase w).world = w := by
  unfold moved awaited
  split
  · split <;> rfl
  · split <;> rfl
  · rfl

variable [DecidableEq σ]

variable {w w' : World σ ρ}

/-- A step of the network, when `withTransaction` waits for its commit. -/
theorem known_committing (hkept : w.Kept) (h : w.Committing) {e : Event σ ρ} (hcall : ∀ c, e ≠ .call c)
    (hstep : w.step e = some w') (attempt : Nat) :
    Known (awaited w' (.committing attempt) (afterCommit attempt (latestError w'))).world
      (awaited w' (.committing attempt) (afterCommit attempt (latestError w'))).phase := by
  unfold awaited
  rcases h.step hkept hcall hstep with hsent | ⟨hnone, hsettled⟩
  · obtain ⟨r, n, hflight, -⟩ := hsent.flight
    rw [if_pos (by simp [hflight])]
    exact hsent
  · rw [if_neg (by simp [hnone])]
    rcases hsettled with hok | ⟨f, hf, hfailed⟩
    · rw [show latestError w' = none from hok]
      trivial
    · rw [show latestError w' = some f from hf]
      exact known_afterCommit hfailed attempt

theorem known_pausing (h : Pausing w) {e : Event σ ρ} (hcall : ∀ c, e ≠ .call c) (hstep : w.step e = some w') : Pausing w' := by
  rcases h with hsafe | ⟨hnone, -⟩
  · exact .inl (hsafe.step (hcall .commit) hstep)
  · cases e with
    | call c => exact absurd rfl (hcall c)
    | lostRequest => simp [World.step, hnone] at hstep
    | lostResponse fate => simp [World.step, hnone] at hstep
    | answer fate => simp [World.step, hnone] at hstep

theorem known_moved {phase : Phase} (hkept : w.Kept) (h : Known w phase) {e : Event σ ρ} (hallows : allows phase e = true)
    (hcallback : phase = .callback → e ≠ .call .commit) (hstep : w.step e = some w') : Known (moved phase w').world (moved phase w').phase := by
  -- Once the callback has returned, only the network moves.
  have hnetwork : phase ≠ .begun → phase ≠ .callback → ∀ c, e ≠ .call c := by
    intro hbegun hheld c he
    subst he
    cases phase with
    | begun => exact hbegun rfl
    | callback => exact hheld rfl
    | _ => cases hallows
  cases phase with
  | begun => trivial
  | callback => exact (World.step_commitOperationId (hcallback rfl) hstep).trans h
  | pausing attempt => exact known_pausing h (hnetwork (by simp) (by simp)) hstep
  | committing attempt => exact known_committing hkept h (hnetwork (by simp) (by simp)) hstep attempt
  | releasing f => exact h.step (hnetwork (by simp) (by simp) .commit) hstep
  | rollingBack f =>
    have hsafe : w'.Safe := h.step (hnetwork (by simp) (by simp) .commit) hstep
    simp only [moved, awaited]
    split
    · exact hsafe
    · exact fun _ => hsafe
  | done error =>
    cases error with
    | none => trivial
    | some f => exact fun hnever => (h hnever).step (hnetwork (by simp) (by simp) .commit) hstep

/-- `withTransaction` makes the commit. -/
theorem known_wake {s : Session σ ρ} (hkept : s.world.Kept) (h : Pausing s.world) (attempt : Nat) :
    Known (s.drive .commit (.committing attempt) (afterCommit attempt)).world (s.drive .commit (.committing attempt) (afterCommit attempt)).phase := by
  unfold drive
  cases hstart : s.world.tx.start s.world.flight.isSome .commit with
  | resolved => cases (Transaction.start_resolved hstart).1
  | thrown f =>
    obtain ⟨hnever, hwhy⟩ := World.commit_thrown hstart
    have hcalled : s.world.call .commit = s.world.settle .commit none (some f) := by
      rw [World.call, hstart]
    have hsafe : s.world.Safe := by
      rcases h with hsafe | ⟨hnone, hclosed⟩
      · exact hsafe
      · refine ⟨?_, fun r n hr => absurd (hnone.symm.trans hr) (by simp)⟩
        rcases hwhy with hnot | hbusy | ⟨n, x, hp⟩
        · exact hclosed hnot
        · simp [hnone] at hbusy
        · intro hfinished
          have hp' := (hkept.commit _ (hkept.committed hfinished)).2.2.1
          rw [hp] at hp'
          cases hp'
    simp only [afterCommit, hnever, if_true]
    rw [hcalled]
    exact ⟨hsafe.uncommitted, hsafe.flight⟩
  | sent t operationId =>
    have hsends := Transaction.start_sends hstart
    have hcalled : s.world.call .commit = { s.world with tx := t }.send ⟨operationId, .commit⟩ 0 := by
      rw [World.call, hstart]
    simp only
    rw [hcalled]
    exact ⟨⟨_, _, rfl, rfl⟩, hsends.isOpen'.trans hsends.isOpen⟩

theorem drive_world (s : Session σ ρ) (c : Call σ) (waiting : Phase) (after : Option Failure → Phase) :
    (s.drive c waiting after).world = s.world.call c := by
  unfold drive
  split <;> rfl

theorem known_release {s : Session σ ρ} (h : s.world.Safe) (f : Failure) :
    Known (s.drive .rollback (.rollingBack f) fun _ => .done (some f)).world (s.drive .rollback (.rollingBack f) fun _ => .done (some f)).phase := by
  have hsafe : (s.world.call .rollback).Safe := h.call (by simp)
  rw [drive_world]
  unfold drive
  split
  · exact hsafe
  · exact fun _ => hsafe
  · exact fun _ => hsafe

theorem known_step {s s' : Session σ ρ} (hkept : s.world.Kept) (h : Known s.world s.phase) {a : Action σ ρ} (hfit : s.Fit a)
    (hstep : s.step a = some s') : s'.world.Kept ∧ Known s'.world s'.phase := by
  obtain ⟨w, phase⟩ := s
  cases a with
  | inner e =>
    have hcallback : phase = .callback → e ≠ .call .commit := by
      intro hphase he
      subst he
      exact hfit.callback hphase rfl
    simp only [step] at hstep
    split at hstep
    · rename_i hallows
      obtain ⟨w', hw, rfl⟩ := Option.map_eq_some_iff.mp hstep
      refine ⟨?_, known_moved hkept h hallows hcallback hw⟩
      rw [moved_world]
      refine hkept.step hfit.honest ?_ hw
      intro c he
      subst he
      exact hfit.call c rfl
    · cases hstep
  | returned =>
    simp only [step] at hstep
    split at hstep
    · rename_i hphase
      cases hstep
      rw [hphase] at h
      exact ⟨hkept, .inl (hkept.safe h)⟩
    · cases hstep
  | threw f =>
    simp only [step] at hstep
    split at hstep
    · rename_i hphase
      cases hstep
      rw [hphase] at h
      exact ⟨hkept, hkept.safe h⟩
    · cases hstep
  | wake =>
    cases phase with
    | pausing attempt =>
      cases hstep
      refine ⟨?_, known_wake hkept h attempt⟩
      rw [drive_world]
      exact hkept.call (hfit.call .commit rfl)
    | _ => cases hstep
  | release =>
    cases phase with
    | releasing f =>
      cases hstep
      refine ⟨?_, known_release h f⟩
      rw [drive_world]
      exact hkept.call (hfit.call .rollback rfl)
    | _ => cases hstep

/-- The runs of a transaction whose actions all meet `P`. -/
inductive Reach (P : Session σ ρ → Action σ ρ → Prop) : Session σ ρ → Prop
  | begun : Reach P ⟨{}, .begun⟩
  | callback : Reach P ⟨{}, .callback⟩
  | step {s s' : Session σ ρ} {a : Action σ ρ} : Reach P s → P s a → s.step a = some s' → Reach P s'

theorem Reach.known {s : Session σ ρ} (h : Reach Fit s) : s.world.Kept ∧ Known s.world s.phase := by
  induction h with
  | begun => exact ⟨World.kept_init, trivial⟩
  | callback => exact ⟨World.kept_init, rfl⟩
  | step hreach hfit hstep ih => exact known_step ih.1 ih.2 hfit hstep

end Session

end Rindle.SqlClient
