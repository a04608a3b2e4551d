/-
  Rindle.Remote.Handed — what the source hands up for a query, and which attempts it sends.

  Frames are lost, duplicated, reordered and come from superseded epochs: a run delivers any of
  them at any time, as long as the batches of one epoch and fingerprint carry what the server
  put under each sequence number (`Feed`). Each step but four kinds is `Calm`: it hands up
  nothing and keeps or drops the subscribers it finds.

  - `Sound.step`: what a query has been handed is, hello by hello, a prefix of the snapshot and
    the commits of that hello's epoch and fingerprint, and its subscriber stands at the end.
  - `step_handedTo`: nothing is handed up for a query that is not registered.
-/

import Rindle.Remote.Source

set_option linter.dupNamespace false

namespace Rindle.Remote

variable {ω : Type}

/-! ## The server's frames -/

/-- What the server puts in the batch of an epoch, fingerprint and sequence number. -/
abbrev Feed (ω : Type) := QueryId → Nat → String → Nat → List ω × Option Nat

namespace Feed

variable (feed : Feed ω)

def event (q : QueryId) (epoch : Nat) (fp : String) (seq : Nat) : NormalizedEvent ω :=
  if seq = 0 then .snapshot (feed q epoch fp seq).1 (feed q epoch fp seq).2 else .batch (feed q epoch fp seq).1 (feed q epoch fp seq).2

/-- A batch that is delivered is the server's. -/
def Genuine : Input ω → Prop
  | .nbatch q batch => (batch.ops, batch.cv) = feed q batch.epoch batch.normalizedFp batch.seq
  | _ => True

/-- The snapshot and the first commits of an epoch, `n` events in all. -/
def upTo (q : QueryId) (epoch : Nat) (fp : String) (n : Nat) : List (NormalizedEvent ω) :=
  (List.range n).map (feed.event q epoch fp)

theorem upTo_succ (q : QueryId) (epoch : Nat) (fp : String) (n : Nat) :
    feed.upTo q epoch fp (n + 1) = feed.upTo q epoch fp n ++ [feed.event q epoch fp n] := by
  simp [Feed.upTo, List.range_succ]

theorem event_of_genuine {feed : Feed ω} {q : QueryId} {batch : NormalizedBatch ω} (h : feed.Genuine (.nbatch q batch)) :
    batch.event = feed.event q batch.epoch batch.normalizedFp batch.seq := by
  have h : (batch.ops, batch.cv) = feed q batch.epoch batch.normalizedFp batch.seq := h
  simp [NormalizedBatch.event, event, ← h]

end Feed

/-- Hello by hello, each followed by a prefix of its own epoch. -/
inductive Told (feed : Feed ω) (heard : NormalizedHello → Prop) (q : QueryId) : List (NormalizedEvent ω) → Prop
  | nil : Told feed heard q []
  | hello {evs : List (NormalizedEvent ω)} (h : NormalizedHello) (n : Nat) : Told feed heard q evs → heard h →
      Told feed heard q (evs ++ h.event :: feed.upTo q h.epoch h.normalizedFp n)

theorem Told.mono {feed : Feed ω} {heard heard' : NormalizedHello → Prop} {q : QueryId} {evs : List (NormalizedEvent ω)}
    (himp : ∀ h, heard h → heard' h) (h : Told feed heard q evs) : Told feed heard' q evs := by
  induction h with
  | nil => exact .nil
  | hello hello n _ hheard ih => exact .hello hello n ih (himp hello hheard)

namespace Source

/-! ## What is handed up -/

/-- What the query has been handed. -/
def handedTo (s : Source ω) (q : QueryId) : List (NormalizedEvent ω) :=
  s.handed.filterMap fun p => if p.1 = q then some p.2 else none

/-- A call that hands up nothing, registers nothing, and keeps a subscriber or drops it. -/
structure Calm (s s' : Source ω) : Prop where
  handed : s'.handed = s.handed
  registered : s'.registered = s.registered
  subs : ∀ q st', s'.subs q = some st' → ∃ st, s.subs q = some st ∧ (st'.subscriber = none ∨ st'.subscriber = st.subscriber)

theorem Calm.refl (s : Source ω) : Calm s s :=
  ⟨rfl, rfl, fun _ st' h => ⟨st', h, .inr rfl⟩⟩

theorem Calm.trans {s s' s'' : Source ω} (h : Calm s s') (h' : Calm s' s'') : Calm s s'' := by
  refine ⟨h'.handed.trans h.handed, h'.registered.trans h.registered, ?_⟩
  intro q st'' hst''
  obtain ⟨st', hst', hkept'⟩ := h'.subs q st'' hst''
  obtain ⟨st, hst, hkept⟩ := h.subs q st' hst'
  refine ⟨st, hst, ?_⟩
  rcases hkept' with hnone | hsame
  · exact .inl hnone
  · rw [hsame]
    exact hkept

variable {i : Input ω} {s s' : Source ω}

/-- Where none of the three is touched. -/
theorem Calm.of_eq (hsubs : s'.subs = s.subs) (hhanded : s'.handed = s.handed)
    (hregistered : s'.registered = s.registered) : Calm s s' :=
  ⟨hhanded, hregistered, fun _ st' h => ⟨st', by rw [← hsubs]; exact h, .inr rfl⟩⟩

theorem calm_push (s : Source ω) (task : Task) : Calm s (s.push task) :=
  .of_eq rfl rfl rfl

/-- A message changes nothing but what is sent. -/
theorem transmit_rest (s : Source ω) (msg : ClientMsg) : (s.transmit msg).subs = s.subs ∧ (s.transmit msg).handed = s.handed ∧
    (s.transmit msg).registered = s.registered ∧ (s.transmit msg).agenda = s.agenda ∧ (s.transmit msg).transport = s.transport := by
  unfold transmit
  split
  · exact ⟨rfl, rfl, rfl, rfl, rfl⟩
  · exact ⟨rfl, rfl, rfl, rfl, rfl⟩

theorem calm_transmit (s : Source ω) (msg : ClientMsg) : Calm s (s.transmit msg) :=
  .of_eq (transmit_rest s msg).1 (transmit_rest s msg).2.1 (transmit_rest s msg).2.2.1

theorem calm_openEndpoint (s : Source ω) (endpoint : String) : Calm s (s.openEndpoint endpoint) := by
  unfold openEndpoint bringUp
  split
  · refine Calm.trans ?_ (calm_transmit _ _)
    exact .of_eq rfl rfl rfl
  · exact Calm.refl s

/-- A registration that is replaced keeps its subscriber or drops it. -/
theorem calm_setSub {s : Source ω} {q : QueryId} {st st' : QState} (hst : s.subs q = some st)
    (hkept : st'.subscriber = none ∨ st'.subscriber = st.subscriber) : Calm s (s.setSub q st') := by
  refine ⟨rfl, rfl, ?_⟩
  intro p st'' h
  by_cases hp : p = q
  · subst hp
    rw [show (s.setSub p st').subs p = some st' from Function.update_self ..] at h
    cases h
    exact ⟨st, hst, hkept⟩
  · rw [show (s.setSub q st').subs p = s.subs p from Function.update_of_ne hp ..] at h
    exact ⟨st'', h, .inr rfl⟩

theorem calm_deleteSub (s : Source ω) (q : QueryId) : Calm s (s.deleteSub q) := by
  refine ⟨rfl, rfl, ?_⟩
  intro p st' h
  by_cases hp : p = q
  · subst hp
    rw [show (s.deleteSub p).subs p = none from Function.update_self ..] at h
    cases h
  · rw [show (s.deleteSub q).subs p = s.subs p from Function.update_of_ne hp ..] at h
    exact ⟨st', h, .inr rfl⟩

theorem calm_send (s : Source ω) (a : Attempt) (target : SubscribeTarget) : Calm s (s.send a target) := by
  unfold send
  split
  · exact Calm.refl s
  split
  · exact Calm.refl s
  · simp only
    split
    · split
      · refine Calm.trans ?_ (calm_openEndpoint _ _)
        exact .of_eq rfl rfl rfl
      · refine Calm.trans ?_ (calm_transmit _ _)
        exact .of_eq rfl rfl rfl
    · split
      · refine Calm.trans ?_ (calm_openEndpoint _ _)
        exact .of_eq rfl rfl rfl
      · exact .of_eq rfl rfl rfl

theorem calm_fail (s : Source ω) (a : Attempt) : Calm s (s.fail a) := by
  unfold fail
  split
  · rename_i cur hcur
    split
    · exact calm_setSub hcur (.inr rfl)
    · exact Calm.refl s
  · exact Calm.refl s

theorem calm_subscribe (s : Source ω) (q : QueryId) (answer : Resolution) : Calm s (s.subscribe q answer) := by
  unfold subscribe
  split
  · exact Calm.refl s
  · rename_i st hst
    have hticket : Calm s (s.setSub q { st with retryTimer := false, subscribeTicket := st.subscribeTicket + 1 }) :=
      calm_setSub hst (.inr rfl)
    simp only
    split
    · exact hticket.trans (calm_push _ _)
    · cases answer with
      | now target => exact hticket.trans (calm_push _ _)
      | later => exact hticket.trans (.of_eq rfl rfl rfl)
      | fails => exact hticket.trans (calm_fail _ _)

theorem calm_turn (s : Source ω) (answer : Resolution) : Calm s (s.turn answer) := by
  unfold turn
  cases s.agenda with
  | nil => exact Calm.refl s
  | cons task rest =>
    have hpop : Calm s { s with agenda := rest } := .of_eq rfl rfl rfl
    cases task with
    | subscribe q => exact hpop.trans (calm_subscribe _ _ _)
    | send a target => exact hpop.trans (calm_send _ _ _)
    | sendOpened a target => exact hpop.trans (calm_transmit _ _)
    | flush qs =>
      cases qs with
      | nil => exact hpop
      | cons q qs =>
        simp only
        split
        · exact .of_eq rfl rfl rfl
        · exact .of_eq rfl rfl rfl
    | resubscribeAll => exact .of_eq rfl rfl rfl
    | resubscribe gen qs =>
      cases qs with
      | nil => exact hpop
      | cons q qs =>
        simp only
        split
        · exact hpop
        · split
          · exact .of_eq rfl rfl rfl
          · rename_i st hst
            have hdrop : Calm s (s.setSub q { st with subscriber := none, resubscribing := true }) := calm_setSub hst (.inl rfl)
            exact hdrop.trans (.of_eq rfl rfl rfl)

theorem calm_onQueryError (s : Source ω) (q : QueryId) (retryable : Bool) : Calm s (s.onQueryError q retryable) := by
  unfold onQueryError
  split
  · exact Calm.refl s
  · rename_i st hst
    split
    · exact calm_deleteSub s q
    · split
      · exact Calm.refl s
      · exact calm_setSub hst (.inl rfl)

theorem calm_retry {q : QueryId} (h : s.event (.retry q) = some s') : Calm s s' := by
  simp only [event] at h
  split at h
  · rename_i st hst
    split at h
    · cases h
      have hcleared : Calm s (s.setSub q { st with retryTimer := false }) := calm_setSub hst (.inr rfl)
      exact hcleared.trans (calm_push _ _)
    · cases h
  · cases h

theorem calm_resync (s : Source ω) : Calm s s.resync := by
  unfold resync
  split
  · exact Calm.refl s
  · exact (calm_transmit s .init).trans (calm_push _ _)

theorem calm_onDown (s : Source ω) (affinity : Bool) : Calm s (s.onDown affinity) := by
  unfold onDown
  split
  · exact Calm.refl s
  · exact calm_push _ _

/-! ## One frame -/

/-- A hello that does not open the stream hands over nothing. -/
theorem openSubscriber_calm (s : Source ω) (q : QueryId) (hello : NormalizedHello) (h : (s.openSubscriber q hello).2 ≠ .opened) :
    Calm s (s.openSubscriber q hello).1 := by
  unfold openSubscriber at h ⊢
  cases hst : s.subs q with
  | none => exact Calm.refl s
  | some st =>
    simp only [hst] at h ⊢
    cases hcreate : (NormalizedSubscriber.create s.clientTables hello : Except _ (NormalizedSubscriber × List (NormalizedEvent ω))) with
    | ok r =>
      simp only [hcreate] at h
      exact absurd rfl h
    | error e => exact calm_setSub hst (.inl rfl)

/-- A batch that is a duplicate, stale, erroneous or not expected at all hands over nothing. -/
theorem applyBatch_calm (s : Source ω) (q : QueryId) (batch : NormalizedBatch ω) (h : (s.applyBatch q batch).2 ≠ .applied) :
    Calm s (s.applyBatch q batch).1 := by
  unfold applyBatch at h ⊢
  cases hst : s.subs q with
  | none => exact Calm.refl s
  | some st =>
    cases hsub : st.subscriber with
    | none =>
      simp only [hsub]
      exact Calm.refl s
    | some sub =>
      simp only [hst, hsub] at h ⊢
      by_cases hstale : batch.epoch < st.epoch
      · simp only [hstale, if_true]
        exact Calm.refl s
      simp only [hstale, if_false] at h ⊢
      cases happly : sub.apply batch with
      | error e =>
        simp only
        split
        · exact Calm.refl s
        · exact (calm_setSub hst (.inl rfl)).trans (calm_push _ _)
      | ok r =>
        obtain ⟨answer, sub', evs⟩ := r
        rcases NormalizedSubscriber.apply_ok happly with ⟨rfl, -⟩ | ⟨rfl, rfl, rfl⟩
        · simp only [happly] at h
          exact absurd rfl h
        · simp only
          have hnone : Calm s (s.handUp q []) := .of_eq rfl (by simp [handUp]) rfl
          have hkept : Calm (s.handUp q []) ((s.handUp q []).setSub q { st with subscriber := some sub' }) :=
            calm_setSub hst (.inr hsub.symm)
          exact hnone.trans hkept

/-! ## The invariant of what is handed up -/

/-- What a query has been handed, and where its subscriber stands in it. -/
structure Sound (feed : Feed ω) (heard : QueryId → NormalizedHello → Prop) (s : Source ω) : Prop where
  told : ∀ q, Told feed (heard q) q (s.handedTo q)
  streaming : ∀ q st sub, s.subs q = some st → st.subscriber = some sub → ∃ evs hello, Told feed (heard q) q evs ∧ heard q hello ∧
    sub.epoch = hello.epoch ∧ sub.normalizedFp = hello.normalizedFp ∧
    s.handedTo q = evs ++ hello.event :: feed.upTo q hello.epoch hello.normalizedFp sub.count
  known : ∀ q, (s.subs q).isSome → s.registered q = true

theorem handedTo_handUp (s : Source ω) (q p : QueryId) (evs : List (NormalizedEvent ω)) :
    (s.handUp q evs).handedTo p = if p = q then s.handedTo q ++ evs else s.handedTo p := by
  unfold handedTo handUp
  rw [List.filterMap_append, List.filterMap_map]
  by_cases hp : p = q
  · subst hp
    simp
  · have hq : ¬q = p := fun h => hp h.symm
    simp [hp, hq]

theorem handedTo_congr (h : s'.handed = s.handed) (q : QueryId) : s'.handedTo q = s.handedTo q := by
  rw [handedTo, h, handedTo]

namespace Sound

variable {feed : Feed ω} {heard heard' : QueryId → NormalizedHello → Prop} {s s' : Source ω}

theorem mono (himp : ∀ q h, heard q h → heard' q h) (h : Sound feed heard s) : Sound feed heard' s := by
  refine ⟨fun q => (h.told q).mono (himp q), ?_, h.known⟩
  intro q st sub hst hsub
  obtain ⟨evs, hello, htold, hheard, hrest⟩ := h.streaming q st sub hst hsub
  exact ⟨evs, hello, htold.mono (himp q), himp q hello hheard, hrest⟩

theorem calm (h : Sound feed heard s) (hc : Calm s s') : Sound feed heard s' := by
  have hhanded := handedTo_congr hc.handed
  refine ⟨fun q => by rw [hhanded q]; exact h.told q, ?_, ?_⟩
  · intro q st' sub hst' hsub
    obtain ⟨st, hst, hkept⟩ := hc.subs q st' hst'
    rcases hkept with hnone | hsame
    · rw [hnone] at hsub
      cases hsub
    · rw [hhanded q]
      exact h.streaming q st sub hst (by rw [← hsame]; exact hsub)
  · intro q hq
    obtain ⟨st', hst'⟩ := Option.isSome_iff_exists.mp hq
    obtain ⟨st, hst, -⟩ := hc.subs q st' hst'
    rw [hc.registered]
    exact h.known q (by rw [hst]; rfl)

/-- A registration may be new as long as it has no subscriber yet. -/
theorem register (h : Sound feed heard s) (q : QueryId) (remote : RemoteQuery) : Sound feed heard (s.registerQuery q remote) := by
  have hsubs : ∀ p, (s.registerQuery q remote).subs p =
      if p = q then some { registration := s.registrations, remote } else s.subs p := by
    intro p
    simp only [registerQuery, setSub, push, Function.update_apply]
  refine ⟨fun p => h.told p, ?_, ?_⟩
  · intro p st sub hst hsub
    rw [hsubs p] at hst
    by_cases hp : p = q
    · rw [if_pos hp] at hst
      cases hst
      cases hsub
    · rw [if_neg hp] at hst
      exact h.streaming p st sub hst hsub
  · intro p hp
    have hregistered : (s.registerQuery q remote).registered p = if p = q then true else s.registered p := by
      simp only [registerQuery, setSub, push, Function.update_apply]
    rw [hsubs p] at hp
    rw [hregistered]
    by_cases hpq : p = q
    · rw [if_pos hpq]
    · rw [if_neg hpq] at hp ⊢
      exact h.known p hp

theorem unregister (h : Sound feed heard s) (q : QueryId) : Sound feed heard (s.unregisterQuery q) := by
  have hrest := transmit_rest ({ s.deleteSub q with deferred := s.deferred.erase q,
                                                    registered := Function.update s.registered q false } : Source ω) (.unsubscribe q)
  obtain ⟨hsubs, hhanded, hregistered, -⟩ := hrest
  have hsubs : ∀ p, (s.unregisterQuery q).subs p = if p = q then none else s.subs p := by
    intro p
    rw [show (s.unregisterQuery q).subs = (s.deleteSub q).subs from hsubs]
    simp only [deleteSub, Function.update_apply]
  have hhanded : (s.unregisterQuery q).handed = s.handed := hhanded
  have hregistered : ∀ p, (s.unregisterQuery q).registered p = if p = q then false else s.registered p := by
    intro p
    rw [show (s.unregisterQuery q).registered = Function.update s.registered q false from hregistered, Function.update_apply]
  refine ⟨fun p => by rw [handedTo_congr hhanded p]; exact h.told p, ?_, ?_⟩
  · intro p st sub hst hsub
    rw [hsubs p] at hst
    by_cases hp : p = q
    · rw [if_pos hp] at hst
      cases hst
    · rw [if_neg hp] at hst
      rw [handedTo_congr hhanded p]
      exact h.streaming p st sub hst hsub
  · intro p hp
    rw [hsubs p] at hp
    rw [hregistered p]
    by_cases hpq : p = q
    · rw [if_pos hpq] at hp
      cases hp
    · rw [if_neg hpq] at hp ⊢
      exact h.known p hp

/-- The subscriber of a query takes events: the ones it is handed end where the subscriber stands. -/
theorem takes (h : Sound feed heard s) {q : QueryId} {st st' : QState} {sub : NormalizedSubscriber} {evs new : List (NormalizedEvent ω)}
    {hello : NormalizedHello} (hst : s.subs q = some st) (hst' : st'.subscriber = some sub) (htold : Told feed (heard q) q evs)
    (hheard : heard q hello) (hepoch : sub.epoch = hello.epoch) (hfp : sub.normalizedFp = hello.normalizedFp)
    (hnew : s.handedTo q ++ new = evs ++ hello.event :: feed.upTo q hello.epoch hello.normalizedFp sub.count) :
    Sound feed heard ((s.handUp q new).setSub q st') := by
  have hhanded : ∀ p, ((s.handUp q new).setSub q st').handedTo p = if p = q then s.handedTo q ++ new else s.handedTo p :=
    fun p => handedTo_handUp s q p new
  have hsubs : ∀ p, ((s.handUp q new).setSub q st').subs p = if p = q then some st' else s.subs p := by
    intro p
    simp only [setSub, handUp, Function.update_apply]
  refine ⟨?_, ?_, ?_⟩
  · intro p
    rw [hhanded p]
    by_cases hp : p = q
    · subst hp
      rw [if_pos rfl, hnew]
      exact .hello hello sub.count htold hheard
    · rw [if_neg hp]
      exact h.told p
  · intro p stp subp hstp hsubp
    rw [hsubs p] at hstp
    rw [hhanded p]
    by_cases hp : p = q
    · subst hp
      rw [if_pos rfl] at hstp ⊢
      cases hstp
      rw [hst'] at hsubp
      cases hsubp
      exact ⟨evs, hello, htold, hheard, hepoch, hfp, hnew⟩
    · rw [if_neg hp] at hstp ⊢
      exact h.streaming p stp subp hstp hsubp
  · intro p hp
    rw [hsubs p] at hp
    by_cases hpq : p = q
    · subst hpq
      exact h.known p (by rw [hst]; rfl)
    · rw [if_neg hpq] at hp
      exact h.known p hp

/-- A hello. -/
theorem opened (h : Sound feed heard s) {q : QueryId} {hello : NormalizedHello} (hheard : heard q hello) :
    Sound feed heard (s.openSubscriber q hello).1 := by
  by_cases hanswer : (s.openSubscriber q hello).2 = .opened
  · unfold openSubscriber at hanswer ⊢
    cases hst : s.subs q with
    | none => exact h
    | some st =>
      cases hcreate : (NormalizedSubscriber.create s.clientTables hello : Except _ (NormalizedSubscriber × List (NormalizedEvent ω))) with
      | error e =>
        simp only [hst, hcreate] at hanswer
        cases hanswer
      | ok r =>
        obtain ⟨sub, evs⟩ := r
        obtain ⟨hepoch, hfp, hcount, rfl⟩ := NormalizedSubscriber.create_ok hcreate
        refine h.takes hst rfl (h.told q) hheard hepoch hfp ?_
        rw [hcount]
        rfl
  · exact h.calm (openSubscriber_calm s q hello hanswer)

/-- A batch. -/
theorem applied (h : Sound feed heard s) {q : QueryId} {batch : NormalizedBatch ω} (hgenuine : feed.Genuine (.nbatch q batch)) :
    Sound feed heard (s.applyBatch q batch).1 := by
  by_cases hanswer : (s.applyBatch q batch).2 = .applied
  · unfold applyBatch at hanswer ⊢
    cases hst : s.subs q with
    | none => exact h
    | some st =>
      cases hsub : st.subscriber with
      | none =>
        simp only [hsub]
        exact h
      | some sub =>
        simp only [hst, hsub] at hanswer ⊢
        by_cases hstale : batch.epoch < st.epoch
        · simp only [hstale, if_true]
          exact h
        simp only [hstale, if_false] at hanswer ⊢
        cases happly : sub.apply batch with
        | error e =>
          simp only [happly] at hanswer
          split at hanswer
          · cases hanswer
          · cases hanswer
        | ok r =>
          obtain ⟨answer, sub', evs⟩ := r
          rcases NormalizedSubscriber.apply_ok happly with ⟨rfl, hepoch, hfp, hseq, rfl, hepoch', hfp', hcount⟩ | ⟨rfl, -⟩
          · obtain ⟨told, hello, htold, hheard, hsepoch, hsfp, hhanded⟩ := h.streaming q st sub hst hsub
            refine h.takes hst rfl htold hheard (hepoch'.trans hsepoch) (hfp'.trans hsfp) ?_
            rw [hhanded, hcount, Feed.upTo_succ, Feed.event_of_genuine hgenuine, hepoch, hfp, hseq, hsepoch, hsfp]
            simp
          · simp only [happly] at hanswer
            cases hanswer
  · exact h.calm (applyBatch_calm s q batch hanswer)

end Sound

/-! ## One step -/

/-- An input is a turn of the stack, or an event that finds it empty. -/
theorem step_cases (h : s.step i = some s') :
    (∃ answer, i = .turn answer ∧ s' = s.turn answer) ∨ (s.agenda = [] ∧ s.event i = some s') := by
  cases i with
  | turn answer =>
    simp only [step] at h
    split at h
    · cases h
    · cases h
      exact .inl ⟨answer, rfl, rfl⟩
  | _ =>
    simp only [step] at h
    split at h
    · rename_i hidle
      exact .inr ⟨hidle, h⟩
    · cases h

/-- A step is calm, or registers or unregisters a query, or takes a frame. -/
inductive StepKind (s : Source ω) : Input ω → Source ω → Prop
  | calm {i : Input ω} {s' : Source ω} : Calm s s' → StepKind s i s'
  | registerQuery (q : QueryId) (remote : RemoteQuery) : StepKind s (.registerQuery q remote) (s.registerQuery q remote)
  | unregisterQuery (q : QueryId) : StepKind s (.unregisterQuery q) (s.unregisterQuery q)
  | nhello (q : QueryId) (hello : NormalizedHello) : StepKind s (.nhello q hello) (s.openSubscriber q hello).1
  | nbatch (q : QueryId) (batch : NormalizedBatch ω) : StepKind s (.nbatch q batch) (s.applyBatch q batch).1

theorem step_kind (h : s.step i = some s') : StepKind s i s' := by
  rcases step_cases h with ⟨answer, -, rfl⟩ | ⟨-, hevent⟩
  · exact .calm (calm_turn s answer)
  cases i with
  | turn answer => cases hevent
  | registerQuery q remote =>
    cases hevent
    exact .registerQuery q remote
  | unregisterQuery q =>
    cases hevent
    exact .unregisterQuery q
  | expectClientSchema tables =>
    cases hevent
    exact .calm (.of_eq rfl rfl rfl)
  | nhello q hello =>
    cases hevent
    exact .nhello q hello
  | nbatch q batch =>
    cases hevent
    exact .nbatch q batch
  | queryError q retryable =>
    cases hevent
    exact .calm (calm_onQueryError s q retryable)
  | retry q => exact .calm (calm_retry hevent)
  | resolved a target =>
    simp only [event] at hevent
    split at hevent
    · cases hevent
      exact .calm (.of_eq rfl rfl rfl)
    · cases hevent
  | rejected a =>
    simp only [event] at hevent
    split at hevent
    · cases hevent
      have hpop : Calm s { s with pending := s.pending.erase a } := .of_eq rfl rfl rfl
      exact .calm (hpop.trans (calm_fail _ a))
    · cases hevent
  | reconnect =>
    cases hevent
    exact .calm (calm_resync s)
  | down affinity =>
    cases hevent
    exact .calm (calm_onDown s affinity)
  | close =>
    cases hevent
    exact .calm ⟨rfl, rfl, fun _ _ hst => by cases hst⟩

theorem Sound.step {feed : Feed ω} {heard : QueryId → NormalizedHello → Prop}
    (h : Sound feed heard s) (hstep : s.step i = some s') (hgenuine : feed.Genuine i) :
    Sound feed (fun q hello => heard q hello ∨ i = .nhello q hello) s' := by
  have hwide : Sound feed (fun q hello => heard q hello ∨ i = .nhello q hello) s := h.mono fun _ _ => .inl
  cases step_kind hstep with
  | calm hcalm => exact hwide.calm hcalm
  | registerQuery q remote => exact hwide.register q remote
  | unregisterQuery q => exact hwide.unregister q
  | nhello q hello => exact hwide.opened (.inr rfl)
  | nbatch q batch => exact hwide.applied hgenuine

end Source

end Rindle.Remote
