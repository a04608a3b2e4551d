/-
  Rindle.Mutations.Ledger — the mutation ledger of the optimistic backend
  (`packages/optimistic/src/backend.ts`).

  A mutation is confirmed by one domain: the daemon or a room. Each domain numbers the
  mutations it is sent (`nextMid`) and confirms them up to a `watermark`; `seq` orders them
  across domains. A folded mutation waits in `folds` without a mid until its flush. A room
  may answer a mutation with an outcome: a rejection, or a deopt that moves it to the daemon.

  Pending mutations are objects the stack and the folds share: `entries` gives the object of
  each handle, and `pendingMutations` holds handles. What a mutator does to the engine is given
  from outside: the tables it touched, or the message it threw (`Ran`). So is the verdict of
  the domain policy at each call. `log` records, in order, every envelope handed to a channel
  and every rejection surfaced, with the deals, adoptions and retirements between them.
-/

import Mathlib.Data.List.Sort
import Mathlib.Logic.Function.Basic

namespace Rindle.Mutations

variable {α : Type}

/-- The tables a mutator touched, or what it threw. -/
abbrev Ran := Except String (List String)

/-- `domainPolicy`. -/
abbrev Policy (α : Type) := String → α → Option String

structure PendingMutation (α : Type) where
  mid : Option Nat
  seq : Option Nat
  name : String
  args : α
  domain : String
  touched : List String

/-- A fold's record; `entry` is the handle of its pending mutation. -/
structure Fold (α : Type) where
  entry : Nat
  args : α
  deferAcrossWrites : Bool

structure MutationEnvelope (α : Type) where
  mid : Nat
  name : String
  args : α
  deriving DecidableEq

inductive OutcomeKind
  | rejected
  | deopt

structure MutationOutcomeFrame (α : Type) where
  mid : Nat
  kind : OutcomeKind
  reason : Option String
  name : Option String
  args : α

/-- Why an envelope was first sent: an invocation, a fold's flush, or a deopt of a room's mid. -/
inductive Origin
  | invoked
  | flushed
  | deopt (domain : String) (mid : Nat)
  deriving DecidableEq

/-- What became of an outcome frame: its mid was never issued here, its outcome was known already,
    or it was taken up, its entry pending or not. -/
inductive Reception
  | foreign
  | duplicate
  | taken (pending : Bool)
  deriving DecidableEq

inductive Output (α : Type)
  | dealt (domain : String) (mid : Nat)
  | sent (domain : String) (envelope : MutationEnvelope α) (origin : Origin)
  | resent (domain : String) (envelope : MutationEnvelope α)
  | adopted (domain : String) (start : Nat)
  | confirmed (domain : String) (lmid : Nat)
  | retired (domain : String) (mid : Nat)
  | heard (domain : String) (mid : Nat) (how : Reception)
  /-- A pending entry left the domain for the daemon. -/
  | flipped (domain : String) (mid : Nat)
  | rejected (domain : String) (envelope : MutationEnvelope α) (reason : String)
  deriving DecidableEq

/-- `MAX_PROCESSED_OUTCOMES_PER_DOMAIN`. -/
def maxProcessedOutcomesPerDomain : Nat := 512

/-- The ledger's share of `OptimisticBackend`. -/
structure Backend (α : Type) where
  entries : Nat → PendingMutation α
  created : Nat := 0
  pendingMutations : List Nat := []
  nextMid : String → Nat := fun _ => 1
  watermark : String → Nat := fun _ => 0
  dealSeq : Nat := 0
  folds : List (String × Fold α) := []
  outcomesProcessed : String → List Nat := fun _ => []
  log : List (Output α) := []

/-- `intersects`. -/
def intersects (a b : List String) : Bool := a.any (b.contains ·)

/-- `resolveDomain`. -/
def resolveDomain (policy : Policy α) (name : String) (args : α) : String := (policy name args).getD "daemon"

namespace Backend

/-- A backend as constructed; `nothing` stands for the objects not yet created. -/
def fresh (nothing : PendingMutation α) : Backend α := { entries := fun _ => nothing }

def record (b : Backend α) (o : Output α) : Backend α := { b with log := b.log ++ [o] }

def setEntry (b : Backend α) (i : Nat) (p : PendingMutation α) : Backend α := { b with entries := Function.update b.entries i p }

/-- `pendingMutations.push` of a new object. -/
def enqueue (b : Backend α) (p : PendingMutation α) : Backend α :=
  { b.setEntry b.created p with created := b.created + 1, pendingMutations := b.pendingMutations ++ [b.created] }

/-- `pendingMutations.find`. -/
def find (b : Backend α) (domain : String) (mid : Nat) : Option Nat :=
  b.pendingMutations.find? fun i => (b.entries i).domain == domain && (b.entries i).mid == some mid

/-! ## Dealing mids -/

/-- `dealMid`, which returns the mid and the seq. -/
def dealMid (b : Backend α) (domain : String) : Nat × Nat × Backend α :=
  let mid := b.nextMid domain
  let seq := b.dealSeq + 1
  (mid, seq, { b with nextMid := Function.update b.nextMid domain (mid + 1), dealSeq := seq, log := b.log ++ [.dealt domain mid] })

/-- `flushFold`. -/
def flushFold (b : Backend α) (policy : Policy α) (foldKey : String) : Backend α :=
  match b.folds.lookup foldKey with
  | none => b
  | some f =>
    let p := b.entries f.entry
    let b := { b with folds := b.folds.filter (·.1 != foldKey) }
    let domain := resolveDomain policy p.name f.args
    let (mid, seq, b) := b.dealMid domain
    let b := b.setEntry f.entry { p with domain := domain, mid := some mid, seq := some seq }
    b.record (.sent domain ⟨mid, p.name, f.args⟩ .flushed)

/-- One fold of `drainOverlapping`. -/
def drainOne (policy : Policy α) (tables : List String) (b : Backend α) (e : String × Fold α) : Backend α :=
  if e.2.deferAcrossWrites then b
  else if intersects (b.entries e.2.entry).touched tables then b.flushFold policy e.1
  else b

/-- `drainOverlapping`. -/
def drainOverlapping (b : Backend α) (policy : Policy α) (tables : List String) : Backend α :=
  b.folds.foldl (drainOne policy tables) b

/-- `flushFolds`. -/
def flushFolds (b : Backend α) (policy : Policy α) : Backend α :=
  (b.folds.map (·.1)).foldl (fun b key => b.flushFold policy key) b

/-- `invokeWith`; the error is what the mutator threw, and then nothing was done. -/
def invokeWith (b : Backend α) (policy : Policy α) (name : String) (args : α) (pin : Option String) (ran : Ran) (origin : Origin) :
    Except String (Backend α) :=
  match ran with
  | .error e => .error e
  | .ok touched =>
    let domain := pin.getD (resolveDomain policy name args)
    let b := b.drainOverlapping policy touched
    let (mid, seq, b) := b.dealMid domain
    let b := b.enqueue ⟨some mid, some seq, name, args, domain, touched⟩
    .ok (b.record (.sent domain ⟨mid, name, args⟩ origin))

/-- The rest of a folded invocation whose key is open: the entry is overwritten in place. -/
def refold (b : Backend α) (foldKey : String) (f : Fold α) (args : α) (domain : String) (touched : List String) : Backend α :=
  { b.setEntry f.entry { b.entries f.entry with args := args, touched := touched, domain := domain } with
    folds := b.folds.map fun e => if e.1 == foldKey then (foldKey, { f with args := args }) else e }

/-- The rest of one whose key is not: a new entry without a mid. -/
def openFold (b : Backend α) (foldKey name : String) (args : α) (domain : String) (touched : List String) (deferAcrossWrites : Bool) :
    Backend α :=
  { b.enqueue ⟨none, none, name, args, domain, touched⟩ with folds := b.folds ++ [(foldKey, ⟨b.created, args, deferAcrossWrites⟩)] }

/-- `invokeFolded`; `due` when the longest wait is over, so that the fold is flushed at once. -/
def invokeFolded (b : Backend α) (policy : Policy α) (name foldKey : String) (args : α) (deferAcrossWrites due : Bool) (ran : Ran) :
    Backend α :=
  match ran with
  | .error _ => b
  | .ok touched =>
    let domain := resolveDomain policy name args
    let b := match b.folds.lookup foldKey with
      | some f => b.refold foldKey f args domain touched
      | none => b.openFold foldKey name args domain touched deferAcrossWrites
    if due then b.flushFold policy foldKey else b

/-! ## Outcomes and resyncs -/

/-- `markOutcomeProcessed`; `none` when the mid already was. -/
def markOutcomeProcessed (b : Backend α) (domain : String) (mid : Nat) : Option (Backend α) :=
  let mids := b.outcomesProcessed domain
  if mid ∈ mids then none
  else
    let mids := mids ++ [mid]
    some { b with outcomesProcessed := Function.update b.outcomesProcessed domain (mids.drop (mids.length - maxProcessedOutcomesPerDomain)) }

/-- A deopt of the entry `i`: it moves to the daemon under a fresh mid and keeps its seq. -/
def flip (b : Backend α) (domain : String) (mid i : Nat) : Backend α :=
  let p := b.entries i
  let b := b.record (.flipped domain mid)
  let (fresh, _, b) := b.dealMid "daemon"
  let b := b.setEntry i { p with domain := "daemon", mid := some fresh }
  b.record (.sent "daemon" ⟨fresh, p.name, p.args⟩ (.deopt domain mid))

/-- The rejection branch of `handleMutationOutcome`. -/
def surface (b : Backend α) (domain : String) (frame : MutationOutcomeFrame α) : Backend α :=
  let e : MutationEnvelope α := match b.find domain frame.mid with
    | some i => ⟨frame.mid, (b.entries i).name, (b.entries i).args⟩
    | none => ⟨frame.mid, frame.name.getD "", frame.args⟩
  b.record (.rejected domain e (frame.reason.getD "mutation rejected"))

/-- The deopt branch. -/
def reenqueue (b : Backend α) (policy : Policy α) (domain : String) (frame : MutationOutcomeFrame α) (ran : Ran) : Backend α :=
  match b.find domain frame.mid with
  | some i => b.flip domain frame.mid i
  | none =>
    match frame.name with
    | none => b
    | some name =>
      match b.invokeWith policy name frame.args (some "daemon") ran (.deopt domain frame.mid) with
      | .ok b => b
      | .error e => b.record (.rejected domain ⟨frame.mid, name, frame.args⟩ ("deopt re-invocation failed: " ++ e))

/-- `handleMutationOutcome`; `ran` is the re-invocation's run, should there be one. -/
def handleMutationOutcome (b : Backend α) (policy : Policy α) (domain : String) (frame : MutationOutcomeFrame α) (ran : Ran) :
    Backend α :=
  if b.nextMid domain ≤ frame.mid then b.record (.heard domain frame.mid .foreign)
  else
    match b.markOutcomeProcessed domain frame.mid with
    | none => b.record (.heard domain frame.mid .duplicate)
    | some b =>
      let b := b.record (.heard domain frame.mid (.taken (b.find domain frame.mid).isSome))
      match frame.kind with
      | .rejected => b.surface domain frame
      | .deopt => b.reenqueue policy domain frame ran

/-- An entry's envelope, where it is one of the domain's and has been sent. -/
def envelope? (domain : String) (p : PendingMutation α) : Option (MutationEnvelope α) :=
  if p.domain = domain then p.mid.map fun mid => ⟨mid, p.name, p.args⟩ else none

/-- The `unconfirmed` of `resendPending`. -/
def unconfirmed (b : Backend α) (domain : String) : List (MutationEnvelope α) :=
  (b.pendingMutations.filterMap fun i => envelope? domain (b.entries i)).mergeSort fun x y => x.mid ≤ y.mid

/-- `resendPending`. -/
def resendPending (b : Backend α) (domain : String) : Backend α :=
  (b.unconfirmed domain).foldl (fun b e => b.record (.resent domain e)) b

/-! ## Releases -/

/-- `foldConfirm`; `none` is the throw. -/
def foldConfirm (b : Backend α) (domain : String) (lmid : Nat) : Option (Backend α) :=
  let highestIssued := b.nextMid domain - 1
  let raise (b : Backend α) : Backend α :=
    { b with watermark := Function.update b.watermark domain (max (b.watermark domain) lmid), log := b.log ++ [.confirmed domain lmid] }
  if highestIssued < lmid then
    if b.pendingMutations.any fun i => (b.entries i).domain == domain && (b.entries i).mid.isSome then none
    else some (raise { b with nextMid := Function.update b.nextMid domain (lmid + 1), log := b.log ++ [.adopted domain (lmid + 1)] })
  else some (raise b)

/-- The confirmations of a release in order, up to one that throws; whether none did. -/
def foldConfirms (b : Backend α) : List (String × Nat) → Backend α × Bool
  | [] => (b, true)
  | (domain, lmid) :: rest =>
    match b.foldConfirm domain lmid with
    | none => (b, false)
    | some b => b.foldConfirms rest

/-- The comparator of the re-invocations: by seq, then the unflushed folds as they were created. -/
def seqLe : Option Nat → Option Nat → Bool
  | none, none => true
  | none, some _ => false
  | some _, none => true
  | some s, some t => s ≤ t

def replayOrder (b : Backend α) : List Nat := b.pendingMutations.mergeSort fun i j => seqLe (b.entries i).seq (b.entries j).seq

/-- What a re-invocation that stuck does to its entry: the footprint only grows. -/
def touch (b : Backend α) (i : Nat) (writes : List String) : Backend α :=
  let p := b.entries i
  b.setEntry i { p with touched := p.touched ++ writes.filter fun t => !p.touched.contains t }

/-- One re-invocation of a reconcile cycle, with the entries dropped so far. -/
def reinvoke (rerun : Nat → Ran) (s : Backend α × List Nat) (i : Nat) : Backend α × List Nat :=
  match rerun i with
  | .ok writes => (s.1.touch i writes, s.2)
  | .error _ => (s.1, s.2 ++ [i])

/-- `runReconcileCycle`. -/
def runReconcileCycle (b : Backend α) (rerun : Nat → Ran) : Backend α :=
  let s := b.replayOrder.foldl (reinvoke rerun) (b, [])
  if s.2 = [] then s.1 else { s.1 with pendingMutations := s.1.pendingMutations.filter (!s.2.contains ·) }

/-- The mid of an entry its domain's watermark has reached. -/
def covered (b : Backend α) (i : Nat) : Option Nat := (b.entries i).mid.filter (· ≤ b.watermark (b.entries i).domain)

/-- The confirm-drop of `applyRelease`. -/
def confirmDrop (b : Backend α) : Backend α :=
  { b with
    pendingMutations := b.pendingMutations.filter fun i => (b.covered i).isNone
    log := b.log ++ b.pendingMutations.filterMap fun i => (b.covered i).map (.retired (b.entries i).domain) }

/-- Whether a release runs a reconcile cycle: it has a delta, or the confirm-drop retired an entry. -/
def reconciles (b : Backend α) (deltas : Bool) : Bool :=
  deltas || b.confirmDrop.pendingMutations.length != b.pendingMutations.length

/-- `applyRelease`: `deltas` when the release has any. -/
def applyRelease (b : Backend α) (deltas : Bool) (rerun : Nat → Ran) : Backend α :=
  if b.reconciles deltas then b.confirmDrop.runReconcileCycle rerun else b.confirmDrop

end Backend

/-- What a gate releases at once: the outcome rows, the room-ledger rows and the gate's own lmid
    rows, and whether there is a base delta. -/
structure Release (α : Type) where
  gate : String
  outcomes : List (String × MutationOutcomeFrame α × Ran)
  ledgers : List (String × Nat)
  lmids : List Nat
  deltas : Bool
  rerun : Nat → Ran

/-- The confirmations of a release, in the order they are folded. -/
def Release.confirms (r : Release α) : List (String × Nat) := r.ledgers ++ r.lmids.map (r.gate, ·)

namespace Backend

/-- `computeRelease`: the outcomes first, then the confirmations; whether it ended without a throw. -/
def computeRelease (b : Backend α) (policy : Policy α) (r : Release α) : Backend α × Bool :=
  (r.outcomes.foldl (fun b o => b.handleMutationOutcome policy o.1 o.2.1 o.2.2) b).foldConfirms r.confirms

/-- `onGateProgress`. -/
def release (b : Backend α) (policy : Policy α) (r : Release α) : Backend α :=
  let c := b.computeRelease policy r
  if c.2 then c.1.applyRelease r.deltas r.rerun else c.1

end Backend

/-- What can happen to a backend. `collect` is the reconcile cycle of a query's teardown. -/
inductive Event (α : Type)
  | invoke (name : String) (args : α) (ran : Ran)
  | invokeFolded (name foldKey : String) (args : α) (deferAcrossWrites due : Bool) (ran : Ran)
  | flushFold (foldKey : String)
  | flushFolds
  | outcome (domain : String) (frame : MutationOutcomeFrame α) (ran : Ran)
  | resync (domain : String)
  | release (r : Release α)
  | collect (rerun : Nat → Ran)

namespace Backend

/-- One event, under the policy's verdicts at that moment. -/
def step (b : Backend α) (e : Policy α × Event α) : Backend α :=
  match e.2 with
  | .invoke name args ran => ((b.invokeWith e.1 name args none ran .invoked).toOption).getD b
  | .invokeFolded name foldKey args deferAcrossWrites due ran => b.invokeFolded e.1 name foldKey args deferAcrossWrites due ran
  | .flushFold foldKey => b.flushFold e.1 foldKey
  | .flushFolds => b.flushFolds e.1
  | .outcome domain frame ran => b.handleMutationOutcome e.1 domain frame ran
  | .resync domain => b.resendPending domain
  | .release r => b.release e.1 r
  | .collect rerun => b.runReconcileCycle rerun

def run (b : Backend α) (events : List (Policy α × Event α)) : Backend α := events.foldl step b

end Backend

end Rindle.Mutations
