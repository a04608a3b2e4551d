/-
  Rindle.Client.Drive — one mutator body, driven on the client and on the server
  (`packages/client/src/mutation-ops.ts`, `driveMutationSync`, `driveMutationAsync`).

  A mutator body yields effects: a write, a point read, a query, or a fan-out of effects. What it
  yields next depends on the results it was fed. The synchronous driver runs an effect depth
  first. The asynchronous one starts it: every call under a fan-out is made before any of them is
  answered, and what is awaited is a tree of promises. The executor performs its calls one by
  one, in the order they were made; promises settle at any later time, in any order.

  `drivers_agree`: in every asynchronous run the body is fed what the synchronous driver feeds
  it, from the same calls in the same order; where it ends, it ends over the same store; and it
  gets to the end that the synchronous driver gets to, whatever the schedule.
-/

import Mathlib.Data.List.Perm.Subperm

namespace Rindle.Client

/-! ## Effects -/

/-- A write, on a row or a primary key of type `ρ`. -/
inductive MutationOp (ρ : Type) where
  | insert (table : String) (row : ρ)
  | update (table : String) (row : ρ)
  | upsert (table : String) (row : ρ)
  | insertIgnore (table : String) (row : ρ)
  | delete (table : String) (pk : ρ)

/-- What a body yields; `θ` are the queries. -/
inductive YieldEffect (ρ θ : Type) where
  | write (op : MutationOp ρ)
  | row (table : String) (pk : ρ)
  | query (query : θ)
  | all (effects : List (YieldEffect ρ θ))

/-- What it is fed; `δ` are the results of queries. -/
inductive Fed (ρ δ : Type) where
  | undefined
  | row (row : ρ)
  | rows (rows : δ)
  | batch (results : List (Fed ρ δ))

/-- What a body does when it is resumed. -/
inductive Resumed (ρ θ : Type) where
  | yielded (eff : YieldEffect ρ θ)
  | returned
  | threw (message : String)

/-- A body, by the results it was fed so far. -/
abbrev MutationGen (ρ θ δ : Type) : Type := List (Fed ρ δ) → Resumed ρ θ

def Resumed.ended {ρ θ : Type} : Resumed ρ θ → Bool
  | .yielded _ => false
  | _ => true

/-! ## Executors -/

/-- A call of an executor. -/
inductive Call (ρ θ : Type) where
  | apply (op : MutationOp ρ)
  | read (table : String) (pk : ρ)
  | query (query : θ)

/-- The answer to a call. -/
inductive Reply (ρ δ : Type) where
  | applied
  | read (row : Option ρ)
  | rows (rows : δ)

/-- What the calls do to the store. -/
structure EffectExec (σ ρ θ δ : Type) where
  apply : MutationOp ρ → σ → σ
  read : String → ρ → σ → Option ρ
  query : θ → σ → δ

def Reply.fed {ρ δ : Type} : Reply ρ δ → Fed ρ δ
  | .applied => .undefined
  | .read none => .undefined
  | .read (some row) => .row row
  | .rows found => .rows found

section
variable {σ ρ θ δ : Type} (exec : EffectExec σ ρ θ δ)

def EffectExec.perform (store : σ) : Call ρ θ → Reply ρ δ × σ
  | .apply op => (.applied, exec.apply op store)
  | .read table pk => (.read (exec.read table pk store), store)
  | .query q => (.rows (exec.query q store), store)

/-- Calls performed in order. -/
def EffectExec.performAll : List (Call ρ θ) → σ → List (Reply ρ δ) × σ
  | [], store => ([], store)
  | call :: calls, store =>
    let (reply, store) := exec.perform store call
    let (replies, store) := performAll calls store
    (reply :: replies, store)

/-! ## The synchronous driver -/

/-- The store, and the calls made on it. -/
structure Trace (σ ρ θ : Type) where
  store : σ
  calls : List (Call ρ θ)

def Trace.call (t : Trace σ ρ θ) (call : Call ρ θ) : Fed ρ δ × Trace σ ρ θ :=
  let (reply, store) := exec.perform t.store call
  (reply.fed, ⟨store, t.calls ++ [call]⟩)

mutual

/-- `run` of the synchronous driver. -/
def run : YieldEffect ρ θ → Trace σ ρ θ → Fed ρ δ × Trace σ ρ θ
  | .row table pk, t => t.call exec (.read table pk)
  | .query q, t => t.call exec (.query q)
  | .all effects, t =>
    let (results, t) := runAll effects t
    (.batch results, t)
  | .write op, t => t.call exec (.apply op)

def runAll : List (YieldEffect ρ θ) → Trace σ ρ θ → List (Fed ρ δ) × Trace σ ρ θ
  | [], t => ([], t)
  | eff :: effects, t =>
    let (result, t) := run eff t
    let (results, t) := runAll effects t
    (result :: results, t)

end

structure SyncRun (σ ρ θ δ : Type) where
  results : List (Fed ρ δ)
  trace : Trace σ ρ θ

/-- `driveMutationSync` after so many turns of its loop, or where it left it. -/
def driveMutationSync (gen : MutationGen ρ θ δ) (store : σ) : Nat → SyncRun σ ρ θ δ
  | 0 => ⟨[], ⟨store, []⟩⟩
  | n + 1 =>
    let s := driveMutationSync gen store n
    match gen s.results with
    | .yielded eff =>
      let (result, trace) := run exec eff s.trace
      ⟨s.results ++ [result], trace⟩
    | _ => s

/-! ## The asynchronous driver -/

/-- A promise: of the call with a number, or of all members of a fan-out. -/
inductive Awaited where
  | call (ticket : Nat)
  | all (members : List Awaited)

mutual

/-- `run` of the asynchronous driver, up to its first suspension: the calls it makes, and what it waits for. -/
def start : YieldEffect ρ θ → List (Call ρ θ) → Awaited × List (Call ρ θ)
  | .row table pk, invoked => (.call invoked.length, invoked ++ [.read table pk])
  | .query q, invoked => (.call invoked.length, invoked ++ [.query q])
  | .all effects, invoked =>
    let (members, invoked) := startAll effects invoked
    (.all members, invoked)
  | .write op, invoked => (.call invoked.length, invoked ++ [.apply op])

def startAll : List (YieldEffect ρ θ) → List (Call ρ θ) → List Awaited × List (Call ρ θ)
  | [], invoked => ([], invoked)
  | eff :: effects, invoked =>
    let (member, invoked) := start eff invoked
    let (members, invoked) := startAll effects invoked
    (member :: members, invoked)

end

mutual

/-- The value of a promise, by the values of the calls that have settled. -/
def resolved (settled : Nat → Option (Reply ρ δ)) : Awaited → Option (Fed ρ δ)
  | .call ticket => (settled ticket).map Reply.fed
  | .all members => (resolvedAll settled members).map Fed.batch

def resolvedAll (settled : Nat → Option (Reply ρ δ)) : List Awaited → Option (List (Fed ρ δ))
  | [] => some []
  | member :: members =>
    match resolved settled member, resolvedAll settled members with
    | some result, some results => some (result :: results)
    | _, _ => none

end

structure AsyncRun (σ ρ θ δ : Type) where
  results : List (Fed ρ δ) := []
  /-- The calls made, in order; a call's number is its place. -/
  invoked : List (Call ρ θ) := []
  /-- The answers to those performed. -/
  replies : List (Reply ρ δ) := []
  store : σ
  /-- The calls whose promises have settled. -/
  settled : List Nat := []
  /-- What the body waits for; nothing when it has ended. -/
  awaited : Option Awaited := none

namespace AsyncRun

def answer (s : AsyncRun σ ρ θ δ) (ticket : Nat) : Option (Reply ρ δ) := if ticket ∈ s.settled then s.replies[ticket]? else none

/-- `gen.next`, and the effect it yields started. -/
def resume (gen : MutationGen ρ θ δ) (s : AsyncRun σ ρ θ δ) : AsyncRun σ ρ θ δ :=
  match gen s.results with
  | .yielded eff =>
    let (awaited, invoked) := start eff s.invoked
    { s with invoked, awaited := some awaited }
  | _ => { s with awaited := none }

/-- `driveMutationAsync` where it suspends first. -/
def init (gen : MutationGen ρ θ δ) (store : σ) : AsyncRun σ ρ θ δ := resume gen { store }

/-- What may happen next: the executor performs the oldest call it has not, the promise of a performed
    call settles, or the body is fed the value it waits for. -/
inductive Step (gen : MutationGen ρ θ δ) (exec : EffectExec σ ρ θ δ) : AsyncRun σ ρ θ δ → AsyncRun σ ρ θ δ → Prop
  | perform {s : AsyncRun σ ρ θ δ} {call : Call ρ θ} (h : s.invoked[s.replies.length]? = some call) :
      Step gen exec s { s with replies := s.replies ++ [(exec.perform s.store call).1], store := (exec.perform s.store call).2 }
  | settle {s : AsyncRun σ ρ θ δ} {ticket : Nat} (h : ticket < s.replies.length) (hnew : ticket ∉ s.settled) :
      Step gen exec s { s with settled := ticket :: s.settled }
  | next {s : AsyncRun σ ρ θ δ} {awaited : Awaited} {value : Fed ρ δ} (h : s.awaited = some awaited)
      (hvalue : resolved s.answer awaited = some value) :
      Step gen exec s (resume gen { s with results := s.results ++ [value] })

/-- Runs, with their length. -/
inductive Runs (gen : MutationGen ρ θ δ) (exec : EffectExec σ ρ θ δ) (store : σ) : Nat → AsyncRun σ ρ θ δ → Prop
  | init : Runs gen exec store 0 (init gen store)
  | step {k : Nat} {s s' : AsyncRun σ ρ θ δ} (h : Runs gen exec store k s) (hstep : Step gen exec s s') : Runs gen exec store (k + 1) s'

end AsyncRun

/-! ## Calls performed in order -/

section
variable {exec}

theorem performAll_append (calls more : List (Call ρ θ)) (store : σ) :
    exec.performAll (calls ++ more) store =
      ((exec.performAll calls store).1 ++ (exec.performAll more (exec.performAll calls store).2).1,
        (exec.performAll more (exec.performAll calls store).2).2) := by
  induction calls generalizing store with
  | nil => rfl
  | cons call calls ih =>
    simp only [List.cons_append, EffectExec.performAll]
    rw [ih]

theorem performAll_snoc (calls : List (Call ρ θ)) (call : Call ρ θ) (store : σ) :
    exec.performAll (calls ++ [call]) store =
      ((exec.performAll calls store).1 ++ [(exec.perform (exec.performAll calls store).2 call).1],
        (exec.perform (exec.performAll calls store).2 call).2) := by
  rw [performAll_append]
  rfl

theorem performAll_length (calls : List (Call ρ θ)) (store : σ) : (exec.performAll calls store).1.length = calls.length := by
  induction calls generalizing store with
  | nil => rfl
  | cons call calls ih =>
    simp only [EffectExec.performAll, List.length_cons]
    rw [ih]

/-- The answers to the first calls do not depend on the later ones. -/
theorem performAll_extend {calls all : List (Call ρ θ)} (h : calls <+: all) (store : σ) :
    (exec.performAll calls store).1 <+: (exec.performAll all store).1 := by
  obtain ⟨more, rfl⟩ := h
  rw [performAll_append]
  exact List.prefix_append _ _

/-- The answer to the call with a number, all calls performed. -/
def replyOf (exec : EffectExec σ ρ θ δ) (store : σ) (calls : List (Call ρ θ)) (ticket : Nat) : Option (Reply ρ δ) :=
  (exec.performAll calls store).1[ticket]?

theorem replyOf_isSome {store : σ} {calls : List (Call ρ θ)} {ticket : Nat} :
    (replyOf exec store calls ticket).isSome = true ↔ ticket < calls.length := by
  rw [replyOf, Option.isSome_iff_ne_none, ne_eq, List.getElem?_eq_none_iff, performAll_length]
  omega

theorem getElem?_extend {α : Type} {l m : List α} (h : l <+: m) {i : Nat} {a : α} (ha : l[i]? = some a) : m[i]? = some a := by
  obtain ⟨r, rfl⟩ := h
  rw [List.getElem?_append_left (List.getElem?_eq_some_iff.mp ha).1]
  exact ha

theorem replyOf_extend {store : σ} {calls all : List (Call ρ θ)} (h : calls <+: all) {ticket : Nat} {reply : Reply ρ δ}
    (hr : replyOf exec store calls ticket = some reply) : replyOf exec store all ticket = some reply :=
  getElem?_extend (performAll_extend h store) hr

end

/-! ## Promises -/

section
variable {known known' : Nat → Option (Reply ρ δ)}

mutual

/-- A promise that has a value keeps it. -/
theorem resolved_mono (h : ∀ ticket reply, known ticket = some reply → known' ticket = some reply) :
    ∀ (awaited : Awaited) {value : Fed ρ δ}, resolved known awaited = some value → resolved known' awaited = some value
  | .call ticket, value, hv => by
    rw [resolved] at hv ⊢
    obtain ⟨reply, hr, rfl⟩ := Option.map_eq_some_iff.mp hv
    rw [h ticket reply hr]
    rfl
  | .all members, value, hv => by
    rw [resolved] at hv ⊢
    obtain ⟨results, hr, rfl⟩ := Option.map_eq_some_iff.mp hv
    rw [resolvedAll_mono h members hr]
    rfl

theorem resolvedAll_mono (h : ∀ ticket reply, known ticket = some reply → known' ticket = some reply) :
    ∀ (members : List Awaited) {values : List (Fed ρ δ)}, resolvedAll known members = some values →
      resolvedAll known' members = some values
  | [], values, hv => hv
  | member :: members, values, hv => by
    rw [resolvedAll] at hv ⊢
    cases hm : resolved known member with
    | none =>
      rw [hm] at hv
      cases hv
    | some result =>
      cases hms : resolvedAll known members with
      | none =>
        rw [hm, hms] at hv
        cases hv
      | some results =>
        rw [hm, hms] at hv
        rw [resolved_mono h member hm, resolvedAll_mono h members hms]
        exact hv

end

mutual

/-- The calls of an effect are numbered from those made before it; it has a value only when all of them have. -/
theorem start_settled : ∀ (eff : YieldEffect ρ θ) (invoked : List (Call ρ θ)),
    invoked <+: (start eff invoked).2 ∧
      ∀ {known : Nat → Option (Reply ρ δ)} {value : Fed ρ δ}, resolved known (start eff invoked).1 = some value →
        ∀ ticket, invoked.length ≤ ticket → ticket < (start eff invoked).2.length → (known ticket).isSome = true
  | .row table pk, invoked => single_settled invoked (.read table pk)
  | .query q, invoked => single_settled invoked (.query q)
  | .write op, invoked => single_settled invoked (.apply op)
  | .all effects, invoked => by
    obtain ⟨hext, hall⟩ := startAll_settled effects invoked
    refine ⟨hext, fun {known} {value} hv => ?_⟩
    simp only [start, resolved] at hv
    obtain ⟨results, hr, -⟩ := Option.map_eq_some_iff.mp hv
    exact hall hr

theorem startAll_settled : ∀ (effects : List (YieldEffect ρ θ)) (invoked : List (Call ρ θ)),
    invoked <+: (startAll effects invoked).2 ∧
      ∀ {known : Nat → Option (Reply ρ δ)} {values : List (Fed ρ δ)}, resolvedAll known (startAll effects invoked).1 = some values →
        ∀ ticket, invoked.length ≤ ticket → ticket < (startAll effects invoked).2.length → (known ticket).isSome = true
  | [], invoked => ⟨List.prefix_refl _, fun {known} {values} _ ticket hge hlt => absurd hlt (Nat.not_lt.mpr hge)⟩
  | eff :: effects, invoked => by
    obtain ⟨hfirst, hone⟩ := start_settled eff invoked
    obtain ⟨hrest, hall⟩ := startAll_settled effects (start eff invoked).2
    refine ⟨hfirst.trans hrest, fun {known} {values} hv ticket hge hlt => ?_⟩
    simp only [startAll, resolvedAll] at hv hlt
    cases hm : resolved known (start eff invoked).1 with
    | none =>
      rw [hm] at hv
      cases hv
    | some result =>
      cases hms : resolvedAll known (startAll effects (start eff invoked).2).1 with
      | none =>
        rw [hm, hms] at hv
        cases hv
      | some results =>
        by_cases hmine : ticket < (start eff invoked).2.length
        · exact hone hm ticket hge hmine
        · exact hall hms ticket (Nat.le_of_not_lt hmine) hlt

theorem single_settled (invoked : List (Call ρ θ)) (call : Call ρ θ) :
    invoked <+: invoked ++ [call] ∧
      ∀ {known : Nat → Option (Reply ρ δ)} {value : Fed ρ δ}, resolved known (.call invoked.length) = some value →
        ∀ ticket, invoked.length ≤ ticket → ticket < (invoked ++ [call]).length → (known ticket).isSome = true := by
  refine ⟨List.prefix_append _ _, fun {known} {value} hv ticket hge hlt => ?_⟩
  rw [List.length_append, List.length_singleton] at hlt
  obtain rfl : ticket = invoked.length := by omega
  rw [resolved] at hv
  obtain ⟨reply, hr, -⟩ := Option.map_eq_some_iff.mp hv
  rw [hr]
  rfl

end

mutual

/-- An effect started, and its calls performed in order: what the synchronous driver does. -/
theorem run_start {store : σ} : ∀ (eff : YieldEffect ρ θ) (t : Trace σ ρ θ), t.store = (exec.performAll t.calls store).2 →
    (run exec eff t).2.calls = (start eff t.calls).2 ∧
      (run exec eff t).2.store = (exec.performAll (start eff t.calls).2 store).2 ∧
      resolved (replyOf exec store (start eff t.calls).2) (start eff t.calls).1 = some (run exec eff t).1
  | .row table pk, t, ht => call_start (.read table pk) t ht
  | .query q, t, ht => call_start (.query q) t ht
  | .write op, t, ht => call_start (.apply op) t ht
  | .all effects, t, ht => by
    obtain ⟨hcalls, hstore, hv⟩ := runAll_start effects t ht
    refine ⟨hcalls, hstore, ?_⟩
    simp only [start, resolved, run]
    rw [hv]
    rfl

theorem runAll_start {store : σ} : ∀ (effects : List (YieldEffect ρ θ)) (t : Trace σ ρ θ), t.store = (exec.performAll t.calls store).2 →
    (runAll exec effects t).2.calls = (startAll effects t.calls).2 ∧
      (runAll exec effects t).2.store = (exec.performAll (startAll effects t.calls).2 store).2 ∧
      resolvedAll (replyOf exec store (startAll effects t.calls).2) (startAll effects t.calls).1 = some (runAll exec effects t).1
  | [], t, ht => ⟨rfl, ht, rfl⟩
  | eff :: effects, t, ht => by
    obtain ⟨hcalls, hstore, hv⟩ := run_start eff t ht
    rw [← hcalls] at hstore
    obtain ⟨hcalls', hstore', hv'⟩ := runAll_start effects (run exec eff t).2 hstore
    rw [hcalls] at hcalls' hstore' hv'
    refine ⟨hcalls', hstore', ?_⟩
    -- the later members' calls leave the first one's answers as they are
    have hext := (@startAll_settled ρ θ δ effects (start eff t.calls).2).1
    have hfirst := resolved_mono (fun _ _ hr => replyOf_extend hext hr) _ hv
    simp only [startAll, resolvedAll, runAll]
    rw [hfirst, hv']

theorem call_start {store : σ} (call : Call ρ θ) (t : Trace σ ρ θ) (ht : t.store = (exec.performAll t.calls store).2) :
    (t.call exec call).2.calls = t.calls ++ [call] ∧
      (t.call exec call).2.store = (exec.performAll (t.calls ++ [call]) store).2 ∧
      resolved (replyOf exec store (t.calls ++ [call])) (.call t.calls.length) = some (t.call exec call).1 := by
  rw [resolved, replyOf, performAll_snoc, ← ht, ← @performAll_length σ ρ θ δ exec t.calls store, List.getElem?_concat_length]
  exact ⟨rfl, rfl, rfl⟩

end

end

/-! ## The two drivers -/

section
variable {exec} {gen : MutationGen ρ θ δ} {store : σ}

/-- The synchronous driver has ended. -/
def SyncRun.ended (gen : MutationGen ρ θ δ) (s : SyncRun σ ρ θ δ) : Bool := (gen s.results).ended

theorem sync_next {n : Nat} {eff : YieldEffect ρ θ} (h : gen (driveMutationSync exec gen store n).results = .yielded eff) :
    driveMutationSync exec gen store (n + 1) =
      ⟨(driveMutationSync exec gen store n).results ++ [(run exec eff (driveMutationSync exec gen store n).trace).1],
        (run exec eff (driveMutationSync exec gen store n).trace).2⟩ := by
  rw [driveMutationSync]
  simp only [h]

theorem sync_ended {n m : Nat} (h : (driveMutationSync exec gen store n).ended gen = true) (hle : n ≤ m) :
    driveMutationSync exec gen store m = driveMutationSync exec gen store n := by
  obtain ⟨d, rfl⟩ := Nat.exists_eq_add_of_le hle
  clear hle
  induction d with
  | zero => rfl
  | succ d ih =>
    rw [Nat.add_succ, driveMutationSync]
    simp only
    rw [ih]
    unfold SyncRun.ended Resumed.ended at h
    split
    · rename_i eff heff
      rw [heff] at h
      cases h
    · rfl

/-- The store is that of the calls made. -/
theorem sync_store (n : Nat) : (driveMutationSync exec gen store n).trace.store =
    (exec.performAll (driveMutationSync exec gen store n).trace.calls store).2 := by
  induction n with
  | zero => rfl
  | succ n ih =>
    rw [driveMutationSync]
    simp only
    split
    · rename_i eff heff
      obtain ⟨hcalls, hstore, -⟩ := run_start exec eff _ ih
      rw [hstore, hcalls]
    · exact ih

theorem sync_calls (n : Nat) :
    (driveMutationSync exec gen store n).trace.calls <+: (driveMutationSync exec gen store (n + 1)).trace.calls := by
  rw [driveMutationSync]
  simp only
  split
  · rename_i eff heff
    obtain ⟨hcalls, -, -⟩ := run_start exec eff _ (sync_store n)
    rw [hcalls]
    exact (@start_settled ρ θ δ eff _).1
  · exact List.prefix_refl _

theorem sync_calls_le {n m : Nat} (hle : n ≤ m) :
    (driveMutationSync exec gen store n).trace.calls <+: (driveMutationSync exec gen store m).trace.calls := by
  obtain ⟨d, rfl⟩ := Nat.exists_eq_add_of_le hle
  clear hle
  induction d with
  | zero => exact List.prefix_refl _
  | succ d ih => exact ih.trans (sync_calls (n + d))

/-- Where an asynchronous run stands in the synchronous one: at the turn that its body has reached. -/
structure AsyncRun.Follows (exec : EffectExec σ ρ θ δ) (gen : MutationGen ρ θ δ) (store : σ) (s : AsyncRun σ ρ θ δ) : Prop where
  running : ∀ m < s.results.length, (driveMutationSync exec gen store m).ended gen = false
  results : s.results = (driveMutationSync exec gen store s.results.length).results
  answers : (s.replies, s.store) = exec.performAll (s.invoked.take s.replies.length) store
  settled : ∀ ticket ∈ s.settled, ticket < s.replies.length
  nodup : s.settled.Nodup
  before : (driveMutationSync exec gen store s.results.length).trace.calls.length ≤ s.replies.length
  ended : s.awaited = none → (driveMutationSync exec gen store s.results.length).ended gen = true ∧
    s.invoked = (driveMutationSync exec gen store s.results.length).trace.calls
  awaiting : ∀ awaited, s.awaited = some awaited → ∃ eff, gen s.results = .yielded eff ∧
    start eff (driveMutationSync exec gen store s.results.length).trace.calls = (awaited, s.invoked)

namespace AsyncRun.Follows

variable {s s' : AsyncRun σ ρ θ δ}

theorem performed (h : s.Follows exec gen store) : s.replies.length ≤ s.invoked.length := by
  have hlen := congrArg List.length (congrArg Prod.fst h.answers)
  simp only at hlen
  rw [performAll_length, List.length_take] at hlen
  omega

/-- The answers are those of the calls made. -/
theorem known (h : s.Follows exec gen store) {ticket : Nat} {reply : Reply ρ δ} (hr : s.replies[ticket]? = some reply) :
    replyOf exec store s.invoked ticket = some reply := by
  have hreplies : s.replies = (exec.performAll (s.invoked.take s.replies.length) store).1 := congrArg Prod.fst h.answers
  rw [hreplies] at hr
  exact replyOf_extend (List.take_prefix _ _) hr

/-- The body goes on, all calls made having been performed. -/
theorem resumed (hrun : ∀ m < s.results.length, (driveMutationSync exec gen store m).ended gen = false)
    (hresults : s.results = (driveMutationSync exec gen store s.results.length).results)
    (hinvoked : s.invoked = (driveMutationSync exec gen store s.results.length).trace.calls)
    (hall : s.replies.length = s.invoked.length)
    (hanswers : (s.replies, s.store) = exec.performAll (s.invoked.take s.replies.length) store)
    (hsettled : ∀ ticket ∈ s.settled, ticket < s.replies.length) (hnodup : s.settled.Nodup) : (s.resume gen).Follows exec gen store := by
  have hbefore : (driveMutationSync exec gen store s.results.length).trace.calls.length ≤ s.replies.length := by
    exact Nat.le_of_eq (by rw [hall, hinvoked])
  unfold AsyncRun.resume
  cases hgen : gen s.results with
  | yielded eff =>
    have hext := (@start_settled ρ θ δ eff s.invoked).1
    refine ⟨hrun, hresults, ?_, hsettled, hnodup, ?_, (fun h => by cases h), fun awaited h => ⟨eff, hgen, ?_⟩⟩
    · -- more calls are made, none of them performed yet
      show (s.replies, s.store) = exec.performAll ((start eff s.invoked).2.take s.replies.length) store
      rw [hanswers, hall, List.take_length, List.prefix_iff_eq_take.mp hext |>.symm]
    · exact hbefore
    · obtain rfl := Option.some.inj h
      rw [← hinvoked]
  | returned =>
    refine ⟨hrun, hresults, hanswers, hsettled, hnodup, ?_, fun _ => ⟨?_, hinvoked⟩, (fun awaited h => by cases h)⟩
    · exact hbefore
    · rw [SyncRun.ended, ← hresults, hgen]
      rfl
  | threw message =>
    refine ⟨hrun, hresults, hanswers, hsettled, hnodup, ?_, fun _ => ⟨?_, hinvoked⟩, (fun awaited h => by cases h)⟩
    · exact hbefore
    · rw [SyncRun.ended, ← hresults, hgen]
      rfl

theorem init : (AsyncRun.init gen store).Follows exec gen store :=
  resumed (fun m hm => absurd hm (Nat.not_lt_zero m)) rfl rfl rfl rfl (fun _ h => by cases h) List.nodup_nil

/-- What the body is fed is what the synchronous driver feeds it, and by then every call has been performed. -/
theorem value (h : s.Follows exec gen store) {awaited : Awaited} {value : Fed ρ δ} (ha : s.awaited = some awaited)
    (hv : resolved s.answer awaited = some value) :
    (driveMutationSync exec gen store s.results.length).ended gen = false ∧
      s.results ++ [value] = (driveMutationSync exec gen store (s.results.length + 1)).results ∧
      s.invoked = (driveMutationSync exec gen store (s.results.length + 1)).trace.calls ∧ s.replies.length = s.invoked.length := by
  obtain ⟨eff, hgen, hstart⟩ := h.awaiting awaited ha
  have hgen' : gen (driveMutationSync exec gen store s.results.length).results = .yielded eff := h.results ▸ hgen
  obtain ⟨hcalls, -, hsync⟩ := run_start exec eff _ (@sync_store σ ρ θ δ exec gen store s.results.length)
  rw [hstart] at hcalls hsync
  have hanswer : ∀ ticket reply, s.answer ticket = some reply → s.replies[ticket]? = some reply := by
    intro ticket reply hr
    unfold AsyncRun.answer at hr
    split at hr
    · exact hr
    · cases hr
  have hvalue := resolved_mono (fun ticket reply hr => h.known (hanswer ticket reply hr)) awaited hv
  have heq := Option.some.inj (hvalue.symm.trans hsync)
  rw [sync_next hgen']
  refine ⟨by rw [SyncRun.ended, hgen']; rfl, by rw [heq, ← h.results], hcalls.symm, ?_⟩
  -- a call not performed would be one that the value waits for
  have hperformed := h.performed
  by_contra hne
  have hv' : resolved s.answer (start eff (driveMutationSync exec gen store s.results.length).trace.calls).1 = some value := by
    rw [hstart]
    exact hv
  have hticket := (start_settled eff _).2 hv' s.replies.length h.before (by rw [hstart]; simp only; omega)
  obtain ⟨reply, hr⟩ := Option.isSome_iff_exists.mp hticket
  have hlt := (List.getElem?_eq_some_iff.mp (hanswer _ reply hr)).1
  omega

theorem step (h : s.Follows exec gen store) (hstep : AsyncRun.Step gen exec s s') : s'.Follows exec gen store := by
  cases hstep with
  | @perform call hcall =>
    have hlt := (List.getElem?_eq_some_iff.mp hcall).1
    have hreplies : s.replies = (exec.performAll (s.invoked.take s.replies.length) store).1 := congrArg Prod.fst h.answers
    have hstore : s.store = (exec.performAll (s.invoked.take s.replies.length) store).2 := congrArg Prod.snd h.answers
    refine ⟨h.running, h.results, ?_, fun ticket ht => ?_, h.nodup, ?_, h.ended, h.awaiting⟩
    · show (s.replies ++ [(exec.perform s.store call).1], (exec.perform s.store call).2) =
        exec.performAll (s.invoked.take (s.replies ++ [(exec.perform s.store call).1]).length) store
      rw [List.length_append, List.length_singleton, List.take_add_one, hcall, Option.toList_some, performAll_snoc, ← hreplies, ← hstore]
    · have := h.settled ticket ht
      simp only [List.length_append, List.length_singleton]
      omega
    · have := h.before
      simp only [List.length_append, List.length_singleton]
      omega
  | @settle ticket hticket hnew =>
    refine ⟨h.running, h.results, h.answers, fun t ht => ?_, List.nodup_cons.mpr ⟨hnew, h.nodup⟩, h.before, h.ended, h.awaiting⟩
    rcases List.mem_cons.mp ht with rfl | ht
    · exact hticket
    · exact h.settled t ht
  | @next awaited value ha hv =>
    obtain ⟨hrun, hresults, hinvoked, hall⟩ := h.value ha hv
    have hlen : (s.results ++ [value]).length = s.results.length + 1 := by simp
    refine resumed ?_ ?_ ?_ hall h.answers h.settled h.nodup
    · intro m hm
      simp only [hlen] at hm
      rcases Nat.lt_succ_iff_lt_or_eq.mp hm with hm | rfl
      · exact h.running m hm
      · exact hrun
    · simp only [hlen]
      exact hresults
    · simp only [hlen]
      exact hinvoked

end AsyncRun.Follows

theorem AsyncRun.Runs.follows {k : Nat} {s : AsyncRun σ ρ θ δ} (h : AsyncRun.Runs gen exec store k s) : s.Follows exec gen store := by
  induction h with
  | init => exact AsyncRun.Follows.init
  | step _ hstep ih => exact ih.step hstep

namespace AsyncRun

/-- Every step counts once. -/
theorem Runs.length {k : Nat} {s : AsyncRun σ ρ θ δ} (h : Runs gen exec store k s) :
    k = s.replies.length + s.settled.length + s.results.length := by
  have hresume : ∀ s : AsyncRun σ ρ θ δ, (s.resume gen).replies = s.replies ∧ (s.resume gen).settled = s.settled ∧
      (s.resume gen).results = s.results := by
    intro s
    unfold resume
    split <;> exact ⟨rfl, rfl, rfl⟩
  induction h with
  | init =>
    obtain ⟨h1, h2, h3⟩ := hresume { store }
    rw [AsyncRun.init, h1, h2, h3]
    rfl
  | @step k s s' _ hstep ih =>
    cases hstep with
    | perform =>
      simp only [List.length_append, List.length_singleton]
      omega
    | settle =>
      simp only [List.length_cons]
      omega
    | @next awaited value =>
      obtain ⟨h1, h2, h3⟩ := hresume { s with results := s.results ++ [value] }
      rw [h1, h2, h3]
      simp only [List.length_append, List.length_singleton]
      omega

/-- A run is no longer than the synchronous driver's, with two steps for each call. -/
theorem Follows.bounded {s : AsyncRun σ ρ θ δ} (h : s.Follows exec gen store) {n : Nat}
    (hend : (driveMutationSync exec gen store n).ended gen = true) :
    s.results.length ≤ n ∧ s.replies.length ≤ (driveMutationSync exec gen store n).trace.calls.length ∧
      s.settled.length ≤ s.replies.length := by
  have hlen : s.results.length ≤ n := by
    by_contra hgt
    rw [h.running n (by omega)] at hend
    cases hend
  refine ⟨hlen, Nat.le_trans h.performed ?_, ?_⟩
  · cases ha : s.awaited with
    | none =>
      obtain ⟨-, hinvoked⟩ := h.ended ha
      rw [hinvoked]
      exact (sync_calls_le hlen).length_le
    | some awaited =>
      obtain ⟨eff, hgen, hstart⟩ := h.awaiting awaited ha
      have hgen' : gen (driveMutationSync exec gen store s.results.length).results = .yielded eff := h.results ▸ hgen
      have hne : s.results.length ≠ n := by
        intro heq
        rw [← heq, SyncRun.ended, hgen'] at hend
        cases hend
      obtain ⟨hcalls, -, -⟩ := run_start exec eff _ (@sync_store σ ρ θ δ exec gen store s.results.length)
      rw [hstart] at hcalls
      have hnext : (driveMutationSync exec gen store (s.results.length + 1)).trace.calls = s.invoked := by
        rw [sync_next hgen']
        exact hcalls
      rw [← hnext]
      exact (sync_calls_le (by omega)).length_le
  · have hsub : s.settled ⊆ List.range s.replies.length := fun ticket ht => List.mem_range.mpr (h.settled ticket ht)
    have hle := (h.nodup.subperm hsub).length_le
    rwa [List.length_range] at hle

/-- Until the body has ended something can happen. -/
theorem Follows.progress {s : AsyncRun σ ρ θ δ} (h : s.Follows exec gen store) : (∃ s', Step gen exec s s') ∨ s.awaited = none := by
  cases ha : s.awaited with
  | none => exact Or.inr rfl
  | some awaited =>
    refine Or.inl ?_
    by_cases hperform : s.replies.length < s.invoked.length
    · exact ⟨_, .perform (List.getElem?_eq_getElem hperform)⟩
    by_cases hsettle : ∃ ticket, ticket < s.replies.length ∧ ticket ∉ s.settled
    · obtain ⟨ticket, hlt, hnew⟩ := hsettle
      exact ⟨_, .settle hlt hnew⟩
    -- every call has settled, so the value is there
    obtain ⟨eff, hgen, hstart⟩ := h.awaiting awaited ha
    obtain ⟨-, -, hv⟩ := run_start exec eff _ (@sync_store σ ρ θ δ exec gen store s.results.length)
    rw [hstart] at hv
    refine ⟨_, .next ha (resolved_mono (fun ticket reply hr => ?_) awaited hv)⟩
    have hperformed := h.performed
    have hlt : ticket < s.replies.length := by
      have := replyOf_isSome.mp (Option.isSome_iff_exists.mpr ⟨reply, hr⟩)
      simp only at this
      omega
    have hin : ticket ∈ s.settled := by
      by_contra hnot
      exact hsettle ⟨ticket, hlt, hnot⟩
    have hreply := h.known (List.getElem?_eq_getElem hlt)
    simp only at hr
    rw [hr] at hreply
    rw [answer, if_pos hin, List.getElem?_eq_getElem hlt, hreply]

end AsyncRun

end

/-- Asynchronous runs follow the synchronous one: the same results from the same calls, in the same order,
    and the same store where the body ends; and every one that goes on as long as it can ends if that one does. -/
theorem drivers_agree (gen : MutationGen ρ θ δ) (store : σ) :
    (∀ k (s : AsyncRun σ ρ θ δ), AsyncRun.Runs gen exec store k s →
      s.results = (driveMutationSync exec gen store s.results.length).results ∧
      (driveMutationSync exec gen store s.results.length).trace.calls <+: s.invoked ∧
      s.invoked <+: (driveMutationSync exec gen store (s.results.length + 1)).trace.calls ∧
      (s.replies, s.store) = exec.performAll (s.invoked.take s.replies.length) store ∧
      (s.awaited = none → (driveMutationSync exec gen store s.results.length).ended gen = true ∧
        s.invoked = (driveMutationSync exec gen store s.results.length).trace.calls ∧
        s.store = (driveMutationSync exec gen store s.results.length).trace.store)) ∧
    ∀ n, (driveMutationSync exec gen store n).ended gen = true → ∀ k (s : AsyncRun σ ρ θ δ), AsyncRun.Runs gen exec store k s →
      k ≤ 2 * (driveMutationSync exec gen store n).trace.calls.length + n ∧
        ((∃ s', AsyncRun.Step gen exec s s') ∨ s.awaited = none) := by
  constructor
  · intro k s hruns
    have h := hruns.follows
    refine ⟨h.results, ?_, ?_, h.answers, fun ha => ?_⟩
    · cases ha : s.awaited with
      | none => exact (h.ended ha).2 ▸ List.prefix_refl _
      | some awaited =>
        obtain ⟨eff, -, hstart⟩ := h.awaiting awaited ha
        have hext := (@start_settled ρ θ δ eff (driveMutationSync exec gen store s.results.length).trace.calls).1
        rw [hstart] at hext
        exact hext
    · cases ha : s.awaited with
      | none =>
        obtain ⟨hend, hinvoked⟩ := h.ended ha
        rw [hinvoked]
        exact sync_calls _
      | some awaited =>
        obtain ⟨eff, hgen, hstart⟩ := h.awaiting awaited ha
        have hgen' : gen (driveMutationSync exec gen store s.results.length).results = .yielded eff := h.results ▸ hgen
        obtain ⟨hcalls, -, -⟩ := run_start exec eff _ (@sync_store σ ρ θ δ exec gen store s.results.length)
        rw [hstart] at hcalls
        rw [sync_next hgen']
        exact hcalls ▸ List.prefix_refl _
    · obtain ⟨hend, hinvoked⟩ := h.ended ha
      refine ⟨hend, hinvoked, ?_⟩
      have hall : s.replies.length = s.invoked.length :=
        Nat.le_antisymm h.performed (hinvoked ▸ h.before)
      have hstore : s.store = (exec.performAll (s.invoked.take s.replies.length) store).2 := congrArg Prod.snd h.answers
      rw [hstore, hall, List.take_length, hinvoked, ← sync_store]
  · intro n hend k s hruns
    have h := hruns.follows
    obtain ⟨hresults, hreplies, hsettled⟩ := h.bounded hend
    refine ⟨?_, h.progress⟩
    rw [hruns.length]
    omega

end

/-! ## A fan-out of a write and a read -/

/-- One counter: every write adds one, every read finds it. -/
def counterExec : EffectExec Nat Nat Unit Nat where
  apply _ store := store + 1
  read _ _ store := some store
  query _ store := store

/-- A write and a read at once, then the end. -/
def fanOut : MutationGen Nat Unit Nat
  | [] => .yielded (.all [.write (.insert "t" 1), .row "t" 1])
  | _ => .returned

/-- However the two calls settle, the read finds the write, and after five steps at most the body ends. -/
theorem drivers_agree_fanOut :
    (∀ k s, AsyncRun.Runs fanOut counterExec 0 k s → s.awaited = none → s.store = 1) ∧
      ∀ k s, AsyncRun.Runs fanOut counterExec 0 k s → k ≤ 5 := by
  have hagree := drivers_agree counterExec fanOut 0
  constructor
  · intro k s hruns ha
    obtain ⟨-, -, -, -, hended⟩ := hagree.1 k s hruns
    obtain ⟨hend, -, hstore⟩ := hended ha
    rw [hstore]
    cases hn : s.results.length with
    | zero =>
      rw [hn] at hend
      cases hend
    | succ n =>
      rw [sync_ended (n := 1) rfl (by omega)]
      rfl
  · intro k s hruns
    exact (hagree.2 1 rfl k s hruns).1

end Rindle.Client
