/-
  Rindle.SqlClient.Transaction — one SQL transaction over a network that loses requests and
  responses (`packages/sql-client/src/client.ts`: `Transport.request`, `Transaction`,
  `withTransaction`).

  The client numbers the operations of a transaction 1, 2, 3, and so on. A method takes the next
  number or reuses that of an operation whose outcome it does not know (`start`), sends the
  request up to three times (`attemptDone`), and on the answer decides what it knows
  (`executeFailed`, `commitFailed`, `rollbackFailed`). The server is the one the client is
  written for: it runs the number after the last one, replays the result of the last one, and
  refuses any other. `log` is what it has run and `settled` what has become of each call; no
  step reads them. `inStep` says that every number sent so far was the server's last one or the
  one after it.
-/

import Mathlib.Data.List.Basic

set_option linter.dupNamespace false

namespace Rindle.SqlClient

/-! ## Errors -/

inductive RetryScope where
  | request | transaction | closure | never
deriving DecidableEq

inductive TransactionState where
  | «open» | closed | unknown
deriving DecidableEq

structure RindleSqlError where
  code : String
  retryScope : RetryScope := .never
  transactionState : Option TransactionState := none
  status : Option Nat := none
deriving DecidableEq

def protocolError : RindleSqlError := { code := "PROTOCOL_ERROR" }

/-- The last attempt of a request that may be repeated got no answer. -/
def transportError : RindleSqlError := { code := "TRANSPORT_ERROR", retryScope := .request }

/-- What a call rejects with: an error of the client, or any other one. -/
inductive Failure where
  | sql (e : RindleSqlError)
  | other
deriving DecidableEq

/-- The call may be repeated, and its outcome is not known. -/
def Failure.requestRetryable : Failure → Bool
  | .sql e => e.retryScope = .request
  | .other => false

/-! ## The client -/

/-- A method of the transaction. A batch is an `execute` of several statements. -/
inductive Call (σ : Type) where
  | execute (statements : List σ)
  | commit
  | rollback
deriving DecidableEq

structure Request (σ : Type) where
  operationId : Nat
  call : Call σ

structure Transaction (σ : Type) where
  isOpen : Bool := true
  operationSequence : Nat := 0
  /-- The number, and the request it was used for unless that was not admitted. -/
  pendingExecute : Option (Nat × Option (List σ)) := none
  commitOperationId : Option Nat := none

inductive Response (ρ : Type) where
  | results (results : List ρ)
  | commitCursor (cursor : Option String)
  | empty
  | error (e : RindleSqlError)

/-- How a method begins: it returns, it throws, or it sends its request. -/
inductive Started (σ : Type) where
  | resolved
  | thrown (f : Failure)
  | sent (t : Transaction σ) (operationId : Nat)

section Client

variable {σ ρ : Type} [DecidableEq σ]

namespace Transaction

variable (t : Transaction σ) (busy : Bool)

def ensureUsable : Option RindleSqlError :=
  if t.isOpen = false then some { code := "TRANSACTION_CLOSED", transactionState := some .closed }
  else if busy then some { code := "TRANSACTION_BUSY", transactionState := some .open }
  else none

def operationPending : RindleSqlError := { code := "TRANSACTION_OPERATION_PENDING", transactionState := some .open }

def commitPending : RindleSqlError := { code := "TRANSACTION_COMMIT_PENDING", transactionState := some .unknown }

/-- The number that is reused, else the next one. -/
def takeOperationId (reused : Option Nat) : Transaction σ × Nat :=
  match reused with
  | some operationId => (t, operationId)
  | none => ({ t with operationSequence := t.operationSequence + 1 }, t.operationSequence + 1)

def executeStatements (statements : List σ) : Started σ :=
  match t.ensureUsable busy with
  | some e => .thrown (.sql e)
  | none =>
    if statements = [] then .thrown .other
    else if t.commitOperationId.isSome then .thrown (.sql commitPending)
    else if t.pendingExecute.any (fun p => p.2.any (· ≠ statements)) then .thrown (.sql operationPending)
    else
      let (t', operationId) := t.takeOperationId (t.pendingExecute.map Prod.fst)
      .sent { t' with pendingExecute := some (operationId, some statements) } operationId

def commit (t : Transaction σ) (busy : Bool) : Started σ :=
  match t.ensureUsable busy with
  | some e => .thrown (.sql e)
  | none =>
    if t.pendingExecute.any (·.2.isSome) then .thrown (.sql operationPending)
    else
      let reusable := t.commitOperationId.or (t.pendingExecute.map Prod.fst)
      let (t', operationId) := { t with pendingExecute := none }.takeOperationId reusable
      .sent { t' with commitOperationId := some operationId } operationId

def rollback : Started σ :=
  if t.isOpen = false then .resolved
  else match t.ensureUsable busy with
  | some e => .thrown (.sql e)
  | none =>
    let (t', operationId) := t.takeOperationId t.commitOperationId
    .sent t' operationId

def start : Call σ → Started σ
  | .execute statements => t.executeStatements busy statements
  | .commit => t.commit busy
  | .rollback => t.rollback busy

end Transaction

namespace RindleSqlError

/-- The error of a statement that may be sent again as it is. -/
def keepsRequest (e : RindleSqlError) : Bool := e.retryScope = .request ∧ e.transactionState ≠ some .closed

def rejectedBeforeAdmission (e : RindleSqlError) : Bool :=
  e.retryScope ≠ .request ∧ (e.transactionState = some .unknown ∨
    (e.transactionState = none ∧ (e.status = some 400 ∧ e.code = "HTTP_400" ∨ e.status = some 413 ∧ e.code = "HTTP_413")))

/-- The error of a commit after which the transaction is closed. -/
def endsCommit (e : RindleSqlError) : Bool :=
  e.transactionState = some .closed ∨ e.code = "TRANSACTION_CONFLICT" ∨ e.code = "TRANSACTION_EXPIRED" ∨ e.code = "TRANSACTION_CLOSED"

end RindleSqlError

namespace Transaction

variable (t : Transaction σ)

def executeFailed (operationId : Nat) (e : RindleSqlError) : Transaction σ :=
  { t with
    pendingExecute :=
      if e.rejectedBeforeAdmission then some (operationId, none) else if e.keepsRequest = false then none else t.pendingExecute
    isOpen := if e.transactionState = some .closed then false else t.isOpen }

def commitFailed (e : RindleSqlError) : Transaction σ :=
  { t with isOpen := if e.endsCommit then false else t.isOpen }

def rollbackFailed (e : RindleSqlError) : Transaction σ :=
  { t with isOpen := if e.transactionState = some .closed then false else t.isOpen }

/-- The method after its request: the transaction, and the error it rejects with. -/
def finish (r : Request σ) (outcome : Except RindleSqlError (Response ρ)) : Transaction σ × Option RindleSqlError :=
  match r.call, outcome with
  | .execute statements, .ok (.results results) =>
    if results.length = statements.length then ({ t with pendingExecute := none }, none)
    else (t.executeFailed r.operationId protocolError, some protocolError)
  | .execute _, .ok _ => (t.executeFailed r.operationId protocolError, some protocolError)
  | .execute _, .error e => (t.executeFailed r.operationId e, some e)
  | .commit, .ok (.commitCursor _) => ({ t with isOpen := false }, none)
  | .commit, .ok _ => (t.commitFailed protocolError, some protocolError)
  | .commit, .error e => (t.commitFailed e, some e)
  | .rollback, .ok _ => ({ t with isOpen := false }, none)
  | .rollback, .error e => (t.rollbackFailed e, some e)

end Transaction

def requestAttempts : Nat := 3

/-- What an attempt of `Transport.request` comes to; none, when the request is sent again. The
    response is none when it or the request is lost. -/
def attemptDone (attempt : Nat) (expectJson : Bool) : Option (Response ρ) → Option (Except RindleSqlError (Response ρ))
  | none => if attempt + 1 ≥ requestAttempts then some (.error transportError) else none
  | some (.error e) => if attempt + 1 ≥ requestAttempts ∨ e.retryScope ≠ .request then some (.error e) else none
  | some .empty => if expectJson then some (.error protocolError) else some (.ok .empty)
  | some response => some (.ok response)

end Client

/-! ## The server -/

structure Server (σ ρ : Type) where
  last : Nat := 0
  /-- The result of the last operation. -/
  retained : Response ρ := .empty
  /-- Whether the transaction committed, once it is over. -/
  finished : Option Bool := none
  log : List (Nat × Call σ) := []

/-- What the server makes of the operation whose turn it is. -/
inductive Fate (ρ : Type) where
  /-- It is rejected before admission. -/
  | reject (e : RindleSqlError)
  | fail (e : RindleSqlError)
  | run (results : List ρ) (cursor : Option String)

namespace Server

variable {σ ρ : Type} [DecidableEq σ]

/-- The operation is run with this result. -/
def record (s : Server σ ρ) (r : Request σ) (response : Response ρ) (finished : Option Bool) : Server σ ρ × Response ρ :=
  ({ last := s.last + 1, retained := response, finished := finished, log := (r.operationId, r.call) :: s.log }, response)

def take (s : Server σ ρ) (r : Request σ) (fate : Fate ρ) : Server σ ρ × Response ρ :=
  match fate, r.call with
  | .reject e, _ => (s, .error e)
  | _, .rollback => s.record r .empty (some false)
  | .fail e, .execute _ => s.record r (.error e) (if e.transactionState = some .closed then some false else none)
  | .fail e, .commit => s.record r (.error e) (some false)
  | .run results _, .execute _ => s.record r (.results results) none
  | .run _ cursor, .commit => s.record r (.commitCursor cursor) (some true)

def serve (s : Server σ ρ) (r : Request σ) (fate : Fate ρ) : Server σ ρ × Response ρ :=
  match s.finished with
  | some _ =>
    if r.call = .rollback then (s, .empty)
    else if r.operationId = s.last then (s, s.retained)
    else (s, .error { code := "TRANSACTION_CLOSED", transactionState := some .closed, status := some 410 })
  | none =>
    if r.operationId = s.last then (s, s.retained)
    else if r.operationId = s.last + 1 then s.take r fate
    else (s, .error { code := "OPERATION_OUT_OF_SEQUENCE", transactionState := some .open, status := some 409 })

end Server

/-! ## The two of them -/

/-- A call, its number if it sent a request, and its error if it rejected. -/
structure Settled (σ : Type) where
  call : Call σ
  operationId : Option Nat
  error : Option Failure

structure World (σ ρ : Type) where
  tx : Transaction σ := {}
  server : Server σ ρ := {}
  /-- The request that is being sent, and how often it was sent before. -/
  flight : Option (Request σ × Nat) := none
  settled : List (Settled σ) := []
  inStep : Bool := true

inductive Event (σ ρ : Type) where
  | call (c : Call σ)
  /-- The request is lost, -/
  | lostRequest
  /-- or its response, -/
  | lostResponse (fate : Fate ρ)
  /-- or neither. -/
  | answer (fate : Fate ρ)

namespace World

variable {σ ρ : Type} [DecidableEq σ]

/-- A request leaves the client. -/
def send (w : World σ ρ) (r : Request σ) (attempt : Nat) : World σ ρ :=
  { w with
    flight := some (r, attempt)
    inStep := w.inStep && (r.operationId = w.server.last ∨ r.operationId = w.server.last + 1) }

def settle (w : World σ ρ) (call : Call σ) (operationId : Option Nat) (error : Option Failure) : World σ ρ :=
  { w with settled := ⟨call, operationId, error⟩ :: w.settled }

def call (w : World σ ρ) (c : Call σ) : World σ ρ :=
  match w.tx.start w.flight.isSome c with
  | .resolved => w.settle c none none
  | .thrown f => w.settle c none (some f)
  | .sent t operationId => { w with tx := t }.send ⟨operationId, c⟩ 0

/-- An attempt is over. -/
def reply (w : World σ ρ) (r : Request σ) (attempt : Nat) (response : Option (Response ρ)) : World σ ρ :=
  match attemptDone attempt (r.call ≠ .rollback) response with
  | none => w.send r (attempt + 1)
  | some outcome =>
    let (t, error) := w.tx.finish r outcome
    { w with tx := t, flight := none }.settle r.call (some r.operationId) (error.map .sql)

def step (w : World σ ρ) : Event σ ρ → Option (World σ ρ)
  | .call c => some (w.call c)
  | .lostRequest => w.flight.map fun (r, attempt) => w.reply r attempt none
  | .lostResponse fate => w.flight.map fun (r, attempt) => { w with server := (w.server.serve r fate).1 }.reply r attempt none
  | .answer fate => w.flight.map fun (r, attempt) =>
    { w with server := (w.server.serve r fate).1 }.reply r attempt (some (w.server.serve r fate).2)

end World

/-! ## `withTransaction` -/

inductive Phase where
  /-- The transaction is in the hands of a caller of `begin`, -/
  | begun
  /-- or in those of the callback. -/
  | callback
  /-- The commit is made next. -/
  | pausing (attempt : Nat)
  | committing (attempt : Nat)
  /-- The rollback is made next, and then the error is thrown. -/
  | releasing (f : Failure)
  | rollingBack (f : Failure)
  | done (error : Option Failure)
deriving DecidableEq

structure Session (σ ρ : Type) where
  world : World σ ρ := {}
  phase : Phase

inductive Action (σ ρ : Type) where
  | inner (e : Event σ ρ)
  | returned
  | threw (f : Failure)
  | wake
  | release

def commitResolutionAttempts : Nat := 3

namespace Session

variable {σ ρ : Type} [DecidableEq σ]

/-- The catch block of `commitToKnownOutcome`, and what follows a commit that resolved. -/
def afterCommit (attempt : Nat) : Option Failure → Phase
  | none => .done none
  | some f =>
    if f.requestRetryable = false then .releasing f
    else if attempt ≥ commitResolutionAttempts then .done (some f)
    else .pausing (attempt + 1)

/-- What the latest call has rejected with. -/
def latestError (w : World σ ρ) : Option Failure := w.settled.head?.bind (·.error)

/-- The call that `withTransaction` waits for may have settled. -/
def awaited (w : World σ ρ) (waiting after : Phase) : Session σ ρ :=
  if w.flight.isSome then ⟨w, waiting⟩ else ⟨w, after⟩

/-- The transaction has moved. -/
def moved (phase : Phase) (w : World σ ρ) : Session σ ρ :=
  match phase with
  | .committing attempt => awaited w phase (afterCommit attempt (latestError w))
  | .rollingBack f => awaited w phase (.done (some f))
  | _ => ⟨w, phase⟩

/-- Who does not hold the transaction makes no call on it. -/
def allows : Phase → Event σ ρ → Bool
  | .begun, _ => true
  | .callback, _ => true
  | _, .call _ => false
  | _, _ => true

/-- `withTransaction` makes a call: it waits, or the call has settled at once. -/
def drive (s : Session σ ρ) (c : Call σ) (waiting : Phase) (after : Option Failure → Phase) : Session σ ρ :=
  match s.world.tx.start s.world.flight.isSome c with
  | .sent _ _ => ⟨s.world.call c, waiting⟩
  | .resolved => ⟨s.world.call c, after none⟩
  | .thrown f => ⟨s.world.call c, after (some f)⟩

def step (s : Session σ ρ) : Action σ ρ → Option (Session σ ρ)
  | .inner e => if allows s.phase e then (s.world.step e).map (moved s.phase) else none
  | .returned => if s.phase = .callback then some { s with phase := .pausing 1 } else none
  | .threw f => if s.phase = .callback then some { s with phase := .releasing f } else none
  | .wake =>
    match s.phase with
    | .pausing attempt => some (s.drive .commit (.committing attempt) (afterCommit attempt))
    | _ => none
  | .release =>
    match s.phase with
    | .releasing f => some (s.drive .rollback (.rollingBack f) fun _ => .done (some f))
    | _ => none

end Session

/-- The call that an action makes. -/
def Action.called {σ ρ : Type} : Action σ ρ → Option (Call σ)
  | .inner (.call c) => some c
  | .wake => some .commit
  | .release => some .rollback
  | _ => none

end Rindle.SqlClient
