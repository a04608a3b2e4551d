/-
  Rindle.Remote.Source — the queries of a `RemoteOptimisticSource`
  (`packages/remote/src/optimistic-source.ts`): their registrations, subscribe attempts,
  transports and frames.

  What the code does between two events of its surroundings is a stack of calls (`agenda`):
  an attempt that opens or migrates the transport subscribes other queries before it goes on,
  and a query's target may be resolved at once, later, or not at all (`Resolution`). One
  `turn` takes the topmost call. Everything else (a frame, a timer, a lease that resolves, a
  call of the layer above) finds the stack empty.

  Every registration is its own object (`registration`); a late closure names the object and
  the ticket it was made for (`Attempt`). What has been handed up and sent is kept, an
  attempt's message with its attempt. Mutation pushes, progress and outcome frames, boot ids
  and affinity tickets are left out; the handler and the resolver do not call back in, and a
  transport's answer is a later event.
-/

import Mathlib.Logic.Function.Basic
import Rindle.Remote.Subscriber

set_option linter.dupNamespace false

namespace Rindle.Remote

abbrev QueryId := Nat

structure RemoteQuery where
  name : String
  args : String

def lmidQueryName : String := "_rindle/clientLmid"

inductive SubscribeTarget where
  | named (name args : String)
  | lease (leaseToken : String) (wsEndpoint : Option String)
deriving DecidableEq

def SubscribeTarget.wsEndpoint : SubscribeTarget → Option String
  | .named _ _ => none
  | .lease _ endpoint => endpoint

def defaultSubscribeTarget (remote : RemoteQuery) : SubscribeTarget :=
  .named remote.name remote.args

/-- What a call of `resolveSubscribe` comes to. -/
inductive Resolution where
  | now (target : SubscribeTarget)
  | later
  | fails

structure QState where
  registration : Nat
  remote : RemoteQuery
  subscriber : Option NormalizedSubscriber := none
  epoch : Nat := 0
  resubscribing : Bool := false
  subscribeTicket : Nat := 0
  retryTimer : Bool := false
  retryAttempt : Nat := 0

structure Attempt where
  queryId : QueryId
  registration : Nat
  ticket : Nat
deriving DecidableEq

inductive ClientMsg where
  | init
  | subscribe (attempt : Attempt) (target : SubscribeTarget)
  | unsubscribe (queryId : QueryId)

/-- The endpoint is not put on the wire. -/
def subscribeMessage (attempt : Attempt) : SubscribeTarget → ClientMsg
  | .named name args => .subscribe attempt (.named name args)
  | .lease token _ => .subscribe attempt (.lease token none)

/-- A call that is under way, or what is left of one. -/
inductive Task where
  /-- `subscribe(qid, s.remote)`. -/
  | subscribe (queryId : QueryId)
  /-- `send(target)` of an attempt. -/
  | send (attempt : Attempt) (target : SubscribeTarget)
  /-- The rest of `send` once the first transport is open. -/
  | sendOpened (attempt : Attempt) (target : SubscribeTarget)
  /-- The rest of `flushDeferred`. -/
  | flush (queryIds : List QueryId)
  | resubscribeAll
  /-- The rest of a pass of `resubscribeAll`. -/
  | resubscribe (gen : Nat) (queryIds : List QueryId)
deriving DecidableEq

structure Source (ω : Type) where
  /-- There is a `transportFactory`. -/
  replaceable : Bool
  transport : Option Nat := none
  currentEndpoint : Option String := none
  /-- Transports built so far. -/
  transports : Nat := 0
  clientTables : Option (List NormalizedTableSchema) := none
  subs : QueryId → Option QState := fun _ => none
  /-- The keys of `subs`, in the order of the map. -/
  order : List QueryId := []
  deferred : List QueryId := []
  closed : Bool := false
  sawRoutedEndpoint : Bool := false
  resubscribeGen : Nat := 0
  /-- Attempts whose lease has not resolved. -/
  pending : List Attempt := []
  agenda : List Task := []
  /-- The layer above has registered the query and not unregistered it. -/
  registered : QueryId → Bool := fun _ => false
  registrations : Nat := 0
  handed : List (QueryId × NormalizedEvent ω) := []
  sent : List (Nat × ClientMsg) := []

namespace Source

variable {ω : Type}

/-! ## Transports -/

variable (s : Source ω) (q : QueryId)

def setSub (st : QState) : Source ω :=
  { s with subs := Function.update s.subs q (some st) }

def deleteSub : Source ω :=
  { s with subs := Function.update s.subs q none, order := s.order.erase q }

def push (s : Source ω) (task : Task) : Source ω :=
  { s with agenda := task :: s.agenda }

/-- `this.transport?.send(msg)`. -/
def transmit (msg : ClientMsg) : Source ω :=
  match s.transport with
  | some t => { s with sent := s.sent ++ [(t, msg)] }
  | none => s

/-- The transport comes up, announces the client and flushes what waited for it. -/
def bringUp (endpoint : Option String) : Source ω :=
  ({ s with transport := some s.transports, currentEndpoint := endpoint, transports := s.transports + 1, deferred := [],
            agenda := .flush s.deferred :: s.agenda } : Source ω).transmit .init

def openEndpoint (endpoint : String) : Source ω :=
  if s.replaceable then s.bringUp (some endpoint) else s

/-- The old transport's `close` sends nothing. -/
def migrate (endpoint : String) : Source ω :=
  (s.push .resubscribeAll).openEndpoint endpoint

def defer : Source ω :=
  { s with deferred := if q ∈ s.deferred then s.deferred else s.deferred ++ [q] }

/-! ## Subscribe attempts -/

/-- `cur === s && cur.subscribeTicket === ticket`. -/
def newest (a : Attempt) : Bool :=
  match s.subs a.queryId with
  | some cur => decide (cur.registration = a.registration ∧ cur.subscribeTicket = a.ticket)
  | none => false

/-- The lease names another follower, and the session can move there. -/
def migrates (target : SubscribeTarget) : Bool :=
  s.transport.isSome && target.wsEndpoint.isSome && decide (target.wsEndpoint ≠ s.currentEndpoint) && s.replaceable

/-- The lease opens the first transport. -/
def opens (target : SubscribeTarget) : Bool :=
  s.transport.isNone && target.wsEndpoint.isSome && s.replaceable

/-- `send`. -/
def send (a : Attempt) (target : SubscribeTarget) : Source ω :=
  if s.closed then s
  else if s.newest a = false then s
  else
    let s := { s with sawRoutedEndpoint := s.sawRoutedEndpoint || target.wsEndpoint.isSome }
    let endpoint := target.wsEndpoint.getD ""
    if s.transport.isSome then
      if s.migrates target then s.migrate endpoint else s.transmit (subscribeMessage a target)
    else if s.opens target then (s.push (.sendOpened a target)).openEndpoint endpoint
    else s.defer a.queryId

/-- `fail`. -/
def fail (a : Attempt) : Source ω :=
  match s.subs a.queryId with
  | some cur =>
    if cur.registration = a.registration ∧ cur.subscribeTicket = a.ticket then s.setSub a.queryId { cur with resubscribing := false } else s
  | none => s

/-- `subscribe`, up to the resolver's answer. The lmid query never goes through the resolver. -/
def subscribe (s : Source ω) (q : QueryId) (answer : Resolution) : Source ω :=
  match s.subs q with
  | none => s
  | some st =>
    let ticket := st.subscribeTicket + 1
    let s := s.setSub q { st with retryTimer := false, subscribeTicket := ticket }
    let a : Attempt := ⟨q, st.registration, ticket⟩
    if st.remote.name = lmidQueryName then s.push (.send a (defaultSubscribeTarget st.remote))
    else match answer with
    | .now target => s.push (.send a target)
    | .later => { s with pending := s.pending ++ [a] }
    | .fails => s.fail a

/-- The topmost call goes on to its next call. -/
def turn (answer : Resolution) : Source ω :=
  match s.agenda with
  | [] => s
  | task :: rest =>
    let s := { s with agenda := rest }
    match task with
    | .subscribe q => s.subscribe q answer
    | .send a target => s.send a target
    | .sendOpened a target => s.transmit (subscribeMessage a target)
    | .flush [] => s
    | .flush (q :: qs) => if (s.subs q).isSome then (s.push (.flush qs)).push (.subscribe q) else s.push (.flush qs)
    | .resubscribeAll => ({ s with resubscribeGen := s.resubscribeGen + 1 } : Source ω).push (.resubscribe (s.resubscribeGen + 1) s.order)
    | .resubscribe _ [] => s
    | .resubscribe gen (q :: qs) =>
      if s.resubscribeGen ≠ gen then s
      else match s.subs q with
      | none => s.push (.resubscribe gen qs)
      | some st => ((s.setSub q { st with subscriber := none, resubscribing := true }).push (.resubscribe gen qs)).push (.subscribe q)

/-! ## Frames -/

inductive FrameAnswer where
  | opened
  | refused (e : ProtocolError)
  | applied
  | duplicate
  | stale
  | erroneous (e : ProtocolError)
  /-- There is no registration, or no hello yet. -/
  | ignored
deriving DecidableEq

def handUp (evs : List (NormalizedEvent ω)) : Source ω :=
  { s with handed := s.handed ++ evs.map fun ev => (q, ev) }

def openSubscriber (hello : NormalizedHello) : Source ω × FrameAnswer :=
  match s.subs q with
  | none => (s, .ignored)
  | some st =>
    match NormalizedSubscriber.create s.clientTables hello with
    | .ok (sub, evs) =>
      ((s.handUp q evs).setSub q { st with subscriber := some sub, epoch := hello.epoch, resubscribing := false, retryAttempt := 0 },
        .opened)
    | .error e => (s.setSub q { st with subscriber := none }, .refused e)

def applyBatch (batch : NormalizedBatch ω) : Source ω × FrameAnswer :=
  match s.subs q with
  | none => (s, .ignored)
  | some st =>
    match st.subscriber with
    | none => (s, .ignored)
    | some sub =>
      if batch.epoch < st.epoch then (s, .stale)
      else match sub.apply batch with
      | .ok (answer, sub', evs) =>
        ((s.handUp q evs).setSub q { st with subscriber := some sub' },
          match answer with
          | .applied => .applied
          | .duplicate => .duplicate)
      | .error e =>
        if st.resubscribing then (s, .erroneous e)
        else ((s.setSub q { st with resubscribing := true, subscriber := none }).push (.subscribe q), .erroneous e)

def onQueryError (retryable : Bool) : Source ω :=
  match s.subs q with
  | none => s
  | some st =>
    if retryable = false then s.deleteSub q
    else if st.retryTimer then s
    else s.setSub q { st with subscriber := none, resubscribing := true, retryAttempt := st.retryAttempt + 1, retryTimer := true }

/-! ## The layer above -/

def registerQuery (remote : RemoteQuery) : Source ω :=
  let st : QState := { registration := s.registrations, remote }
  (({ s with order := if q ∈ s.order then s.order else s.order ++ [q], registered := Function.update s.registered q true,
             registrations := s.registrations + 1 } : Source ω).setSub q st).push (.subscribe q)

def unregisterQuery : Source ω :=
  let s := s.deleteSub q
  ({ s with deferred := s.deferred.erase q, registered := Function.update s.registered q false } : Source ω).transmit (.unsubscribe q)

def close : Source ω :=
  { s with closed := true, subs := fun _ => none, order := [], deferred := [] }

/-- `resync`. -/
def resync : Source ω :=
  if s.closed then s else (s.transmit .init).push .resubscribeAll

/-- With an affinity store the transport's own reconnects do the rest. -/
def onDown (affinity : Bool) : Source ω :=
  if s.closed || affinity || !s.sawRoutedEndpoint then s else s.push .resubscribeAll

/-! ## Runs -/

inductive Connection where
  | fixed
  | replaceable (endpoint : Option String)

def create : Connection → Source ω
  | .fixed => ({ replaceable := false } : Source ω).bringUp none
  | .replaceable (some endpoint) => ({ replaceable := true } : Source ω).openEndpoint endpoint
  | .replaceable none => { replaceable := true }

end Source

inductive Input (ω : Type) where
  | turn (answer : Resolution)
  | registerQuery (queryId : QueryId) (remote : RemoteQuery)
  | unregisterQuery (queryId : QueryId)
  | expectClientSchema (tables : List NormalizedTableSchema)
  | nhello (queryId : QueryId) (hello : NormalizedHello)
  | nbatch (queryId : QueryId) (batch : NormalizedBatch ω)
  | queryError (queryId : QueryId) (retryable : Bool)
  /-- The retry timer of the query fires. -/
  | retry (queryId : QueryId)
  | resolved (attempt : Attempt) (target : SubscribeTarget)
  | rejected (attempt : Attempt)
  | reconnect
  | down (affinity : Bool)
  | close

namespace Source

variable {ω : Type}

/-- An event finds no call under way; `none` where the event cannot happen. -/
@[grind] def event (s : Source ω) : Input ω → Option (Source ω)
  | .turn _ => none
  | .registerQuery q remote => some (s.registerQuery q remote)
  | .unregisterQuery q => some (s.unregisterQuery q)
  | .expectClientSchema tables => some { s with clientTables := some tables }
  | .nhello q hello => some (s.openSubscriber q hello).1
  | .nbatch q batch => some (s.applyBatch q batch).1
  | .queryError q retryable => some (s.onQueryError q retryable)
  | .retry q =>
    match s.subs q with
    | some st => if st.retryTimer then some ((s.setSub q { st with retryTimer := false }).push (.subscribe q)) else none
    | none => none
  | .resolved a target => if a ∈ s.pending then some (({ s with pending := s.pending.erase a } : Source ω).push (.send a target)) else none
  | .rejected a => if a ∈ s.pending then some (({ s with pending := s.pending.erase a } : Source ω).fail a) else none
  | .reconnect => some s.resync
  | .down affinity => some (s.onDown affinity)
  | .close => some s.close

def step (s : Source ω) (i : Input ω) : Option (Source ω) :=
  match i with
  | .turn answer => if s.agenda = [] then none else some (s.turn answer)
  | i => if s.agenda = [] then s.event i else none

/-- The state after the inputs, where every step starts in a state that passes the check. -/
def runIf (check : Source ω → Bool) (s : Source ω) : List (Input ω) → Option (Source ω)
  | [] => some s
  | i :: inputs => if check s then (s.step i).bind fun s' => s'.runIf check inputs else none

end Source

end Rindle.Remote
