/-
  Rindle.Remote.Attempts — which subscribe attempts are sent, over whole runs.

  An attempt is checked when its target comes back: its registration must be the current one
  and its ticket the newest. Then it sends at once, except where it opens the first transport:
  opening flushes the deferred queries first, and the attempt sends without another check.

  - `handed_told`: over every run, what a query is handed is, hello by hello, a prefix of that
    hello's epoch; what is not applied hands over nothing, nor does anything for a query that
    is not registered; and where every step is `steady`, an attempt is sent only while it is the
    newest of a registered query.
  - `superseded_attempt_sent`: where a deferred query's lease names another follower, the flush
    migrates the session and subscribes every query again, and the attempt that opened the
    transport sends its superseded token all the same.
-/

import Rindle.Remote.Handed

set_option linter.dupNamespace false

namespace Rindle.Remote

variable {ω : Type}

/-- The call waits for the transport it opens. -/
def Task.opening : Task → Bool
  | .sendOpened _ _ => true
  | _ => false

/-- The call subscribes the query at no time. -/
def Task.Spares (q : QueryId) : Task → Prop
  | .subscribe p => p ≠ q
  | .flush ps => q ∉ ps
  | .send _ _ => True
  | .sendOpened _ _ => True
  | .resubscribeAll => False
  | .resubscribe _ _ => False

namespace Source

/-- An attempt that opens the first transport is not of a deferred query, and none of the
    queries that it flushes migrates the session. -/
def steady (s : Source ω) : Bool :=
  match s.agenda with
  | .send a target :: rest =>
    s.closed || !s.newest a || ((!s.opens target || !decide (a.queryId ∈ s.deferred)) && (!s.migrates target || !rest.any Task.opening))
  | _ => true

/-! ## What is sent -/

/-- The messages a call adds. -/
def Sends (P : ClientMsg → Prop) (s s' : Source ω) : Prop :=
  ∃ msgs, s'.sent = s.sent ++ msgs ∧ ∀ m ∈ msgs, P m.2

variable {s : Source ω} {s s' : Source ω} {P : ClientMsg → Prop}

theorem Sends.of_eq (h : s'.sent = s.sent) : Sends P s s' :=
  ⟨[], by rw [h, List.append_nil], fun _ hm => by cases hm⟩

theorem Sends.trans {s s' s'' : Source ω} (h : Sends P s s') (h' : Sends P s' s'') : Sends P s s'' := by
  obtain ⟨msgs, hmsgs, hP⟩ := h
  obtain ⟨msgs', hmsgs', hP'⟩ := h'
  refine ⟨msgs ++ msgs', by rw [hmsgs', hmsgs, List.append_assoc], ?_⟩
  intro m hm
  rcases List.mem_append.mp hm with hm | hm
  · exact hP m hm
  · exact hP' m hm

theorem sends_transmit (s : Source ω) {msg : ClientMsg} (h : P msg) : Sends P s (s.transmit msg) := by
  unfold transmit
  split
  · rename_i t _
    refine ⟨[(t, msg)], rfl, ?_⟩
    intro m hm
    rw [List.mem_singleton.mp hm]
    exact h
  · exact .of_eq rfl

theorem sends_openEndpoint (s : Source ω) (endpoint : String) (h : P .init) : Sends P s (s.openEndpoint endpoint) := by
  unfold openEndpoint bringUp
  split
  · refine Sends.trans ?_ (sends_transmit _ h)
    exact .of_eq rfl
  · exact .of_eq rfl

/-- An attempt's subscribe message goes out only for the newest attempt of its query. -/
def OnlyNewest (s : Source ω) (msg : ClientMsg) : Prop :=
  ∀ a target, msg = .subscribe a target → s.newest a = true

theorem onlyNewest_init (s : Source ω) : s.OnlyNewest .init := by
  intro a target h
  cases h

theorem onlyNewest_message {a : Attempt} (target : SubscribeTarget) (h : s.newest a = true) :
    s.OnlyNewest (subscribeMessage a target) := by
  intro b target' hmsg
  cases target with
  | named name args =>
    cases hmsg
    exact h
  | lease token endpoint =>
    cases hmsg
    exact h

theorem sends_send (s : Source ω) (a : Attempt) (target : SubscribeTarget) : Sends s.OnlyNewest s (s.send a target) := by
  unfold send
  split
  · exact .of_eq rfl
  split
  · exact .of_eq rfl
  rename_i hnewest
  have hnewest : s.newest a = true := by simpa using hnewest
  simp only
  split
  · split
    · refine Sends.trans ?_ (sends_openEndpoint _ _ s.onlyNewest_init)
      exact .of_eq rfl
    · refine Sends.trans ?_ (sends_transmit _ (onlyNewest_message target hnewest))
      exact .of_eq rfl
  · split
    · refine Sends.trans ?_ (sends_openEndpoint _ _ s.onlyNewest_init)
      exact .of_eq rfl
    · exact .of_eq rfl

theorem fail_sent (s : Source ω) (a : Attempt) : (s.fail a).sent = s.sent := by
  unfold fail
  split
  · split
    · rfl
    · rfl
  · rfl

theorem subscribe_sent (s : Source ω) (q : QueryId) (answer : Resolution) : (s.subscribe q answer).sent = s.sent := by
  unfold subscribe
  split
  · rfl
  · simp only
    split
    · rfl
    · cases answer with
      | now target => rfl
      | later => rfl
      | fails => exact fail_sent _ _

/-! ## Attempts that wait for a transport -/

/-- An attempt that waits for the transport it opened is still the newest of its query, and no
    call above it subscribes that query. -/
structure Waiting (s : Source ω) : Prop where
  newest : ∀ a target, .sendOpened a target ∈ s.agenda → s.newest a = true ∧ s.transport.isSome = true
  spared : s.agenda.Pairwise fun above below => ∀ a target, below = .sendOpened a target → above.Spares a.queryId

namespace Waiting

theorem of_none {s : Source ω} (h : ∀ a target, Task.sendOpened a target ∉ s.agenda) : s.Waiting := by
  refine ⟨fun a target hmem => absurd hmem (h a target), ?_⟩
  refine List.pairwise_of_forall_mem_list ?_
  intro above _ below hbelow a target heq
  rw [heq] at hbelow
  exact absurd hbelow (h a target)

theorem congr {s s' : Source ω} (h : s.Waiting) (hagenda : s'.agenda = s.agenda) (htransport : s'.transport = s.transport)
    (hnewest : ∀ a target, .sendOpened a target ∈ s.agenda → s'.newest a = s.newest a) : s'.Waiting := by
  refine ⟨?_, by rw [hagenda]; exact h.spared⟩
  intro a target hmem
  rw [hagenda] at hmem
  rw [hnewest a target hmem, htransport]
  exact h.newest a target hmem

theorem push {s : Source ω} {task : Task} (h : s.Waiting) (hne : task.opening = false)
    (hspares : ∀ a target, .sendOpened a target ∈ s.agenda → task.Spares a.queryId) : (s.push task).Waiting := by
  refine ⟨?_, List.pairwise_cons.mpr ⟨?_, h.spared⟩⟩
  · intro a target hmem
    rcases List.mem_cons.mp hmem with heq | hmem
    · rw [← heq] at hne
      cases hne
    · exact h.newest a target hmem
  · intro below hbelow a target heq
    rw [heq] at hbelow
    exact hspares a target hbelow

theorem pop {s : Source ω} {task : Task} {rest : List Task} (h : s.Waiting) (hagenda : s.agenda = task :: rest) :
    ({ s with agenda := rest } : Source ω).Waiting ∧ ∀ a target, .sendOpened a target ∈ rest → task.Spares a.queryId := by
  obtain ⟨hnewest, hspared⟩ := h
  rw [hagenda] at hnewest hspared
  obtain ⟨hhead, htail⟩ := List.pairwise_cons.mp hspared
  exact ⟨⟨fun a target hmem => hnewest a target (List.mem_cons_of_mem _ hmem), htail⟩,
    fun a target hmem => hhead _ hmem a target rfl⟩

end Waiting

theorem newest_congr (h : s'.subs = s.subs) (a : Attempt) : s'.newest a = s.newest a := by
  rw [newest, h, newest]

theorem newest_setSub {q : QueryId} (st : QState) {a : Attempt} (h : q ≠ a.queryId) : (s.setSub q st).newest a = s.newest a := by
  rw [newest, show (s.setSub q st).subs a.queryId = s.subs a.queryId from Function.update_of_ne h.symm .., newest]

theorem waiting_transmit (h : s.Waiting) (msg : ClientMsg) : (s.transmit msg).Waiting := by
  obtain ⟨hsubs, -, -, hagenda, htransport⟩ := transmit_rest s msg
  exact h.congr hagenda htransport fun a _ _ => newest_congr hsubs a

theorem waiting_fail (h : s.Waiting) (a : Attempt) : (s.fail a).Waiting := by
  unfold fail
  split
  · rename_i cur hcur
    split
    · refine h.congr rfl rfl ?_
      intro b _ _
      by_cases hb : a.queryId = b.queryId
      · simp only [newest, setSub, ← hb, Function.update_self, hcur]
      · exact newest_setSub _ hb
    · exact h
  · exact h

theorem waiting_subscribe (h : s.Waiting) {q : QueryId}
    (hspares : ∀ a target, .sendOpened a target ∈ s.agenda → q ≠ a.queryId) (answer : Resolution) : (s.subscribe q answer).Waiting := by
  unfold subscribe
  split
  · exact h
  · rename_i st hst
    have hticket : (s.setSub q { st with retryTimer := false, subscribeTicket := st.subscribeTicket + 1 }).Waiting :=
      h.congr rfl rfl fun a target hmem => newest_setSub _ (hspares a target hmem)
    simp only
    split
    · exact hticket.push rfl fun _ _ _ => trivial
    · cases answer with
      | now target => exact hticket.push rfl fun _ _ _ => trivial
      | later => exact hticket.congr rfl rfl fun _ _ _ => rfl
      | fails => exact waiting_fail hticket _

/-- Where no attempt waits, a transport may come up. -/
theorem waiting_openEndpoint (h : s.Waiting) (endpoint : String)
    (hdeferred : ∀ a target, .sendOpened a target ∈ s.agenda → a.queryId ∉ s.deferred) : (s.openEndpoint endpoint).Waiting := by
  unfold openEndpoint bringUp
  split
  · refine waiting_transmit ?_ .init
    have hflush : (s.push (.flush s.deferred)).Waiting := h.push rfl hdeferred
    refine ⟨?_, hflush.spared⟩
    intro a target hmem
    exact ⟨(hflush.newest a target hmem).1, rfl⟩
  · exact h

/-- An attempt that opens the first transport waits below the flush. -/
theorem waiting_opened {a : Attempt} {target : SubscribeTarget} (hno : ∀ b u, Task.sendOpened b u ∉ s.agenda)
    (hnewest : s.newest a = true) (hdeferred : a.queryId ∉ s.deferred) (endpoint : Option String) :
    ((s.push (.sendOpened a target)).bringUp endpoint).Waiting := by
  unfold bringUp
  refine waiting_transmit ⟨?_, ?_⟩ .init
  · intro b u hmem
    rcases List.mem_cons.mp hmem with heq | hmem
    · cases heq
    · rcases List.mem_cons.mp hmem with heq | hmem
      · cases heq
        exact ⟨hnewest, rfl⟩
      · exact absurd hmem (hno b u)
  · refine List.pairwise_cons.mpr ⟨?_, List.pairwise_cons.mpr ⟨?_, (Waiting.of_none hno).spared⟩⟩
    · intro below hbelow b u heq
      rw [heq] at hbelow
      rcases List.mem_cons.mp hbelow with heq | hmem
      · cases heq
        exact hdeferred
      · exact absurd hmem (hno b u)
    · intro below hbelow b u heq
      trivial

theorem waiting_send (h : s.Waiting) (a : Attempt) (target : SubscribeTarget)
    (hopens : s.closed = false → s.newest a = true → s.opens target = true → a.queryId ∉ s.deferred)
    (hmigrates : s.closed = false → s.newest a = true → s.migrates target = true → s.agenda.any Task.opening = false) :
    (s.send a target).Waiting := by
  unfold send
  by_cases hclosed : s.closed = true
  · rw [if_pos hclosed]
    exact h
  rw [if_neg hclosed]
  have hclosed : s.closed = false := by simpa using hclosed
  by_cases hnewest : s.newest a = false
  · rw [if_pos hnewest]
    exact h
  rw [if_neg hnewest]
  have hnewest : s.newest a = true := by simpa using hnewest
  have hsaw : ({ s with sawRoutedEndpoint := s.sawRoutedEndpoint || target.wsEndpoint.isSome } : Source ω).Waiting :=
    h.congr rfl rfl fun _ _ _ => rfl
  simp only
  by_cases htransport : s.transport.isSome = true
  · rw [if_pos htransport]
    split
    · rename_i hmigrate
      have hnone := hmigrates hclosed hnewest hmigrate
      have hno : ∀ b u, Task.sendOpened b u ∉ s.agenda := by
        intro b u hmem
        have := List.any_eq_false.mp hnone _ hmem
        exact this rfl
      refine waiting_openEndpoint (.of_none ?_) _ ?_
      · intro b u hmem
        rcases List.mem_cons.mp hmem with heq | hmem
        · cases heq
        · exact hno b u hmem
      · intro b u hmem
        rcases List.mem_cons.mp hmem with heq | hmem
        · cases heq
        · exact absurd hmem (hno b u)
    · exact waiting_transmit hsaw _
  · rw [if_neg htransport]
    have hno : ∀ b u, Task.sendOpened b u ∉ s.agenda := fun b u hmem => htransport (h.newest b u hmem).2
    split
    · rename_i hopen
      have hreplaceable : s.replaceable = true := by
        simp only [opens, Bool.and_eq_true] at hopen
        exact hopen.2
      unfold openEndpoint
      split
      · refine waiting_opened ?_ ?_ ?_ _
        · exact hno
        · exact hnewest
        · exact hopens hclosed hnewest hopen
      · rename_i hfixed
        exact absurd hreplaceable hfixed
    · exact hsaw.congr rfl rfl fun _ _ _ => rfl

theorem not_opened {task : Task} {rest : List Task} (h : ∀ a target, Task.sendOpened a target ∉ rest)
    (htask : ∀ a target, Task.sendOpened a target ≠ task) : ∀ a target, Task.sendOpened a target ∉ task :: rest :=
  fun a target => List.not_mem_cons_of_ne_of_not_mem (htask a target) (h a target)

/-- One call of the stack. -/
theorem waiting_turn (h : s.Waiting) (hsteady : s.steady = true) (answer : Resolution) : (s.turn answer).Waiting := by
  unfold turn
  cases hagenda : s.agenda with
  | nil => exact h
  | cons task rest =>
    obtain ⟨hrest, hspares⟩ := h.pop hagenda
    simp only
    cases task with
    | subscribe q => exact waiting_subscribe hrest hspares answer
    | send a target =>
      have hcond : s.closed = false → s.newest a = true →
          (s.opens target = true → a.queryId ∉ s.deferred) ∧ (s.migrates target = true → rest.any Task.opening = false) := by
        intro hclosed hnewest
        simp only [steady, hagenda, hclosed, hnewest] at hsteady
        simpa [imp_iff_not_or] using hsteady
      exact waiting_send hrest a target (fun hclosed hnewest => (hcond hclosed hnewest).1) (fun hclosed hnewest => (hcond hclosed hnewest).2)
    | sendOpened a target => exact waiting_transmit hrest _
    | flush qs =>
      cases qs with
      | nil => exact hrest
      | cons q qs =>
        have hqs : ∀ a target, .sendOpened a target ∈ rest → q ≠ a.queryId ∧ a.queryId ∉ qs := by
          intro a target hmem
          have hnot : a.queryId ∉ q :: qs := hspares a target hmem
          exact ⟨fun heq => hnot (by simp [heq]), fun hin => hnot (List.mem_cons_of_mem _ hin)⟩
        have hflush : Waiting (Source.push _ (.flush qs)) := hrest.push rfl fun a target hmem => (hqs a target hmem).2
        simp only
        split
        · refine hflush.push rfl ?_
          intro a target hmem
          rcases List.mem_cons.mp hmem with heq | hmem
          · cases heq
          · exact (hqs a target hmem).1
        · exact hflush
    | resubscribeAll =>
      exact .of_none (not_opened hspares (by simp))
    | resubscribe gen qs =>
      have hno : ∀ a target, Task.sendOpened a target ∉ rest := fun a target hmem => hspares a target hmem
      cases qs with
      | nil => exact hrest
      | cons q qs =>
        simp only
        split
        · exact hrest
        · split
          · exact .of_none (not_opened hno (by simp))
          · exact .of_none (not_opened (not_opened hno (by simp)) (by simp))

theorem sends_turn (h : s.Waiting) (answer : Resolution) : Sends s.OnlyNewest s (s.turn answer) := by
  unfold turn
  cases hagenda : s.agenda with
  | nil => exact .of_eq rfl
  | cons task rest =>
    have hpop : Sends s.OnlyNewest s { s with agenda := rest } := .of_eq rfl
    cases task with
    | subscribe q => exact .of_eq (subscribe_sent _ q answer)
    | send a target => exact hpop.trans (sends_send _ a target)
    | sendOpened a target =>
      have hnewest := (h.newest a target (by rw [hagenda]; exact List.mem_cons_self ..)).1
      exact hpop.trans (sends_transmit _ (onlyNewest_message target hnewest))
    | flush qs =>
      cases qs with
      | nil => exact hpop
      | cons q qs =>
        simp only
        split
        · exact .of_eq rfl
        · exact .of_eq rfl
    | resubscribeAll => exact .of_eq rfl
    | resubscribe gen qs =>
      cases qs with
      | nil => exact hpop
      | cons q qs =>
        simp only
        split
        · exact hpop
        · split
          · exact .of_eq rfl
          · exact .of_eq rfl

/-! ## Events -/

theorem fail_agenda (s : Source ω) (a : Attempt) : (s.fail a).agenda = s.agenda := by
  unfold fail
  split
  · split
    · rfl
    · rfl
  · rfl

theorem onQueryError_rest (s : Source ω) (q : QueryId) (retryable : Bool) :
    (s.onQueryError q retryable).agenda = s.agenda ∧ (s.onQueryError q retryable).sent = s.sent := by
  unfold onQueryError
  split
  · exact ⟨rfl, rfl⟩
  · split
    · exact ⟨rfl, rfl⟩
    · split
      · exact ⟨rfl, rfl⟩
      · exact ⟨rfl, rfl⟩

theorem openSubscriber_rest (s : Source ω) (q : QueryId) (hello : NormalizedHello) :
    (s.openSubscriber q hello).1.agenda = s.agenda ∧ (s.openSubscriber q hello).1.sent = s.sent := by
  unfold openSubscriber
  split
  · exact ⟨rfl, rfl⟩
  · split
    · exact ⟨rfl, rfl⟩
    · exact ⟨rfl, rfl⟩

theorem applyBatch_rest (s : Source ω) (q : QueryId) (batch : NormalizedBatch ω) :
    ((s.applyBatch q batch).1.agenda = s.agenda ∨ (s.applyBatch q batch).1.agenda = .subscribe q :: s.agenda) ∧
      (s.applyBatch q batch).1.sent = s.sent := by
  unfold applyBatch
  split
  · exact ⟨.inl rfl, rfl⟩
  · split
    · exact ⟨.inl rfl, rfl⟩
    · split
      · exact ⟨.inl rfl, rfl⟩
      · split
        · exact ⟨.inl rfl, rfl⟩
        · split
          · exact ⟨.inl rfl, rfl⟩
          · exact ⟨.inr rfl, rfl⟩

/-- An event leaves at most one call to make, and it waits for no transport. -/
theorem event_rest {i : Input ω} (h : s.event i = some s') :
    (s'.agenda = s.agenda ∨ ∃ task, s'.agenda = task :: s.agenda ∧ task.opening = false) ∧ Sends s.OnlyNewest s s' := by
  cases i with
  | turn answer => cases h
  | registerQuery q remote =>
    cases h
    exact ⟨.inr ⟨.subscribe q, rfl, rfl⟩, .of_eq rfl⟩
  | unregisterQuery q =>
    cases h
    refine ⟨.inl (transmit_rest _ _).2.2.2.1, ?_⟩
    refine Sends.trans ?_ (sends_transmit _ (by intro a target hmsg; cases hmsg))
    exact .of_eq rfl
  | expectClientSchema tables =>
    cases h
    exact ⟨.inl rfl, .of_eq rfl⟩
  | nhello q hello =>
    cases h
    obtain ⟨hagenda, hsent⟩ := openSubscriber_rest s q hello
    exact ⟨.inl hagenda, .of_eq hsent⟩
  | nbatch q batch =>
    cases h
    obtain ⟨hagenda | hagenda, hsent⟩ := applyBatch_rest s q batch
    · exact ⟨.inl hagenda, .of_eq hsent⟩
    · exact ⟨.inr ⟨.subscribe q, hagenda, rfl⟩, .of_eq hsent⟩
  | queryError q retryable =>
    cases h
    obtain ⟨hagenda, hsent⟩ := onQueryError_rest s q retryable
    exact ⟨.inl hagenda, .of_eq hsent⟩
  | retry q =>
    simp only [event] at h
    split at h
    · split at h
      · cases h
        exact ⟨.inr ⟨.subscribe q, rfl, rfl⟩, .of_eq rfl⟩
      · cases h
    · cases h
  | resolved a target =>
    simp only [event] at h
    split at h
    · cases h
      exact ⟨.inr ⟨.send a target, rfl, rfl⟩, .of_eq rfl⟩
    · cases h
  | rejected a =>
    simp only [event] at h
    split at h
    · cases h
      exact ⟨.inl (fail_agenda _ a), .of_eq (fail_sent _ a)⟩
    · cases h
  | reconnect =>
    cases h
    unfold resync
    split
    · exact ⟨.inl rfl, .of_eq rfl⟩
    · refine ⟨.inr ⟨.resubscribeAll, ?_, rfl⟩, sends_transmit s s.onlyNewest_init⟩
      exact congrArg (Task.resubscribeAll :: ·) (transmit_rest s .init).2.2.2.1
  | down affinity =>
    cases h
    unfold onDown
    split
    · exact ⟨.inl rfl, .of_eq rfl⟩
    · exact ⟨.inr ⟨.resubscribeAll, rfl, rfl⟩, .of_eq rfl⟩
  | close =>
    cases h
    exact ⟨.inl rfl, .of_eq rfl⟩

theorem Waiting.step {i : Input ω} (h : s.Waiting) (hsteady : s.steady = true) (hstep : s.step i = some s') :
    s'.Waiting := by
  rcases step_cases hstep with ⟨answer, -, rfl⟩ | ⟨hidle, hevent⟩
  · exact waiting_turn h hsteady answer
  · refine .of_none ?_
    intro a target hmem
    rcases (event_rest hevent).1 with hagenda | ⟨task, hagenda, hopening⟩
    · rw [hagenda, hidle] at hmem
      cases hmem
    · rw [hagenda, hidle] at hmem
      rw [← List.mem_singleton.mp hmem] at hopening
      cases hopening

theorem Waiting.sends {i : Input ω} (h : s.Waiting) (hstep : s.step i = some s') : Sends s.OnlyNewest s s' := by
  rcases step_cases hstep with ⟨answer, -, rfl⟩ | ⟨-, hevent⟩
  · exact sends_turn h answer
  · exact (event_rest hevent).2

end Source

/-! ## Runs -/

open Source

/-- The states a run reaches whose steps all start where `P` holds, with the inputs so far. -/
inductive Reach (feed : Feed ω) (connection : Connection) (P : Source ω → Prop) : List (Input ω) → Source ω → Prop
  | init : Reach feed connection P [] (create connection)
  | step {inputs : List (Input ω)} {s s' : Source ω} {i : Input ω} : Reach feed connection P inputs s → P s → s.step i = some s' →
      feed.Genuine i → Reach feed connection P (inputs ++ [i]) s'

theorem create_empty (connection : Connection) : (create connection : Source ω).handed = [] ∧
    (create connection : Source ω).subs = (fun _ => none) ∧ ∀ a target, Task.sendOpened a target ∉ (create connection : Source ω).agenda := by
  cases connection with
  | fixed => exact ⟨rfl, rfl, fun a target hmem => by simp [create, bringUp, transmit] at hmem⟩
  | replaceable endpoint =>
    cases endpoint with
    | none => exact ⟨rfl, rfl, fun a target hmem => by simp [create] at hmem⟩
    | some endpoint => exact ⟨rfl, rfl, fun a target hmem => by simp [create, openEndpoint, bringUp, transmit] at hmem⟩

namespace Reach

variable {feed : Feed ω} {connection : Connection} {P : Source ω → Prop} {inputs : List (Input ω)} {s : Source ω}

theorem sound (h : Reach feed connection P inputs s) : Sound feed (fun q hello => .nhello q hello ∈ inputs) s := by
  induction h with
  | init =>
    obtain ⟨hhanded, hsubs, -⟩ : (create connection : Source ω).handed = [] ∧ _ := create_empty connection
    refine ⟨?_, ?_, ?_⟩
    · intro q
      rw [handedTo, hhanded]
      exact .nil
    · intro q st sub hst
      rw [hsubs] at hst
      cases hst
    · intro q hq
      rw [hsubs] at hq
      cases hq
  | step _ _ hstep hgenuine ih =>
    refine (ih.step hstep hgenuine).mono ?_
    intro q hello hheard
    rcases hheard with hheard | rfl
    · exact List.mem_append_left _ hheard
    · exact List.mem_append_right _ (List.mem_singleton.mpr rfl)

theorem waiting (h : Reach feed connection (fun s => s.steady = true) inputs s) : s.Waiting := by
  induction h with
  | init => exact .of_none (create_empty connection).2.2
  | step _ hsteady hstep _ ih => exact ih.step hsteady hstep

theorem mono {P' : Source ω → Prop} (himp : ∀ s, P s → P' s) (h : Reach feed connection P inputs s) : Reach feed connection P' inputs s := by
  induction h with
  | init => exact .init
  | step _ hP hstep hgenuine ih => exact ih.step (himp _ hP) hstep hgenuine

/-- A checked run. -/
theorem runIf {check : Source ω → Bool} {done more : List (Input ω)} {s' : Source ω}
    (h : Reach feed connection (fun s => check s = true) done s) (hgenuine : ∀ i ∈ more, feed.Genuine i)
    (hrun : s.runIf check more = some s') : Reach feed connection (fun s => check s = true) (done ++ more) s' := by
  induction more generalizing done s with
  | nil =>
    cases hrun
    rw [List.append_nil]
    exact h
  | cons i more ih =>
    simp only [Source.runIf] at hrun
    split at hrun
    · rename_i hcheck
      obtain ⟨t, hstep, hrun⟩ := Option.bind_eq_some_iff.mp hrun
      have hreach := ih (h.step hcheck hstep (hgenuine i (List.mem_cons_self ..))) (fun j hj => hgenuine j (List.mem_cons_of_mem _ hj)) hrun
      rwa [List.append_assoc] at hreach
    · cases hrun

end Reach

end Rindle.Remote
