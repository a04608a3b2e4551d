/-
  Rindle.Op.Take — the `LIMIT` operator (`rust/src/op/take.rs`), its partitions
  (`rust/src/op/partition.rs`) and its slot store (`rust/src/storage.rs`).

  Take forwards the first `limit` rows of its input, for each partition apart or, without a
  partition key, of all of it. Of a partition it keeps only how many rows are out and the last
  of them, the bound; the window is repaired by fetching around the bound while the change is
  pushed. `up` is that fetch, as the input answers it during the push.

  A push yields what it sends, each change with the store and the hidden row a fetch made while
  it is handled would see. `none` is a panic; the debug assertions are panics here. The deadline
  a push may carry is left out: no push expires.
-/

import Rindle.Change
import Rindle.Keys

set_option linter.dupNamespace false

namespace Rindle

/-! ## The slot store -/

/-- The slots Take writes. -/
inductive StorageValue where
  | take (size : Nat) (bound : Option Row)
  | bound (row : Row)
  deriving DecidableEq

abbrev Storage := List UInt8 → Option StorageValue

namespace Storage

def set (st : Storage) (key : List UInt8) (v : StorageValue) : Storage := fun k => if k = key then some v else st k

def del (st : Storage) (key : List UInt8) : Storage := fun k => if k = key then none else st k

end Storage

/-! ## Partitions -/

/-- `constraint_matches_partition_key`. -/
def constraintMatchesPartitionKey (c : Constraint) (pk : List Nat) : Bool :=
  c.length == pk.length && pk.all fun p => c.any fun q => q.1 == p

/-- `partition_key_unchanged`: null equals null. -/
def partitionKeyUnchanged (old new : Row) (pk : List Nat) : Bool :=
  pk.all fun c => Value.cmp (old.cell c) (new.cell c) == .eq

structure Take where
  limit : Nat
  partitionKey : Option (List Nat) := none
  sort : SortSpec

/-- A change sent on, with what a fetch made meanwhile sees of the operator. -/
structure Sent where
  change : Change
  storage : Storage
  hidden : Option Row := none

/-- The input's answer to a fetch. -/
abbrev Upstream := FetchRequest → Option (List Node)

namespace Take

/-- The bytes of `take`. -/
def keyPrefix : List UInt8 := [0x74, 0x61, 0x6b, 0x65]

/-- The bytes of `maxBound`. -/
def maxBoundKey : List UInt8 := [0x6d, 0x61, 0x78, 0x42, 0x6f, 0x75, 0x6e, 0x64]

variable (op : Take)

abbrev cmp : Row → Row → Ordering := rowCmp op.sort

/-! ## State -/

variable (up : Upstream) (st : Storage)

/-- `get_state`. -/
@[grind] def getState (key : List UInt8) : Option (Option (Nat × Option Row)) :=
  match st key with
  | none => some none
  | some (.take size bound) => some (some (size, bound))
  | some (.bound _) => none

/-- `get_max_bound`. -/
def getMaxBound : Option (Option Row) :=
  match st maxBoundKey with
  | none => some none
  | some (.bound r) => some (some r)
  | some (.take _ _) => none

/-- `set_state`: the slot, then the largest bound, against the one the caller has read. -/
def setState (key : List UInt8) (size : Nat) (bound : Option Row) (maxBound : Option Row) : Storage :=
  let st := st.set key (.take size bound)
  match bound with
  | some b => if maxBound.all fun mb => op.cmp b mb == .gt then st.set maxBoundKey (.bound b) else st
  | none => st

/-- `key_from_row`. -/
def keyFromRow (row : Row) : List UInt8 :=
  match op.partitionKey with
  | none => encodeStateKey keyPrefix []
  | some pk => encodeStateKey keyPrefix (pk.map fun c => row.cell c)

/-- `key_from_constraint`. -/
def keyFromConstraint (c : Option Constraint) : List UInt8 :=
  match op.partitionKey, c with
  | some pk, some c =>
    encodeStateKey keyPrefix (pk.map fun col => ((c.find? fun q => q.1 == col).map (·.2)).getD .null)
  | _, _ => encodeStateKey keyPrefix []

/-- `constraint_for`. -/
def constraintFor (row : Row) : Option Constraint := op.partitionKey.map fun pk => pk.map fun c => (c, row.cell c)

/-- `fetch_n`. -/
def fetchN (bound : Row) (basis : Basis) (constraint : Option Constraint) (reverse : Bool) (n : Nat) :
    Option (List Node) :=
  (up { start := some ⟨bound, basis⟩, constraint, reverse }).map (·.take n)

/-! ## Fetch -/

/-- The request is for one partition. -/
def partitionMatch (req : FetchRequest) : Bool :=
  op.partitionKey.all fun pk => req.constraint.any fun c => constraintMatchesPartitionKey c pk

/-- `initial_fetch`: the first `limit` rows, and the slot that says so. -/
def initialFetch (req : FetchRequest) : Option (Storage × List Node) :=
  if req.start.isSome || req.reverse then none
  else if op.limit = 0 then some (st, [])
  else do
    let key := op.keyFromConstraint req.constraint
    let state ← getState st key
    if state.isSome then none
    else do
      let nodes ← up req
      let out := nodes.take op.limit
      let maxBound ← getMaxBound st
      some (op.setState st key out.length (out.getLast?.map Node.row) maxBound, out)

/-- `fetch`. -/
def fetch (up : Upstream) (st : Storage) (hidden : Option Row) (req : FetchRequest) : Option (Storage × List Node) :=
  if op.partitionMatch req then do
    match ← getState st (op.keyFromConstraint req.constraint) with
    | none => op.initialFetch up st req
    | some (_, none) => some (st, [])
    | some (_, some bound) => do
      let nodes ← up req
      some (st, (nodes.takeWhile fun n => op.cmp bound n.row != .lt).filter fun n =>
        hidden.all fun h => op.cmp h n.row != .eq)
  else do
    match ← getMaxBound st with
    | none => some (st, [])
    | some maxBound => do
      let nodes ← up req
      let kept ← (nodes.takeWhile fun n => op.cmp n.row maxBound != .gt).filterMapM fun n => do
        match ← getState st (op.keyFromRow n.row) with
        | some (_, some bound) => some (if op.cmp bound n.row != .lt then some n else none)
        | _ => some none
      some (st, kept)

/-- `evict_partition`. -/
def evictPartition (c : Constraint) : Storage :=
  match op.partitionKey with
  | none => st
  | some pk => if constraintMatchesPartitionKey c pk then st.del (op.keyFromConstraint (some c)) else st

/-! ## Push -/

/-- The fetch of a displacement: the boundary and, for a limit above one, the row before it. -/
def fetchBoundary (bound : Row) (constraint : Option Constraint) : Option (List Node) :=
  if op.limit = 1 then fetchN up bound .atRow constraint false 1 else fetchN up bound .atRow constraint true 2

/-- The larger of a new row and the row before the displaced boundary. -/
def boundAfter (row : Row) : Option Node → Row
  | some bbn => if op.cmp row bbn.row != .gt then bbn.row else row
  | none => row

/-- `push_add`. -/
def pushAdd (node : Node) (key : List UInt8) (size : Nat) (bound maxBound : Option Row)
    (constraint : Option Constraint) : Option (Storage × List Sent) :=
  if size < op.limit then
    -- room: the bound moves only if the row sorts past it
    let newBound := match bound with
      | some b => if op.cmp b node.row != .lt then b else node.row
      | none => node.row
    let st := op.setState st key (size + 1) (some newBound) maxBound
    some (st, [⟨.add node, st, none⟩])
  else
    match bound with
    | none => some (st, [])
    | some bound =>
      if op.cmp node.row bound = .lt then do
        match ← op.fetchBoundary up bound constraint with
        | [] => none
        | boundNode :: rest =>
          let st := op.setState st key size (some (op.boundAfter node.row rest.head?)) maxBound
          some (st, [⟨.remove boundNode, st, some node.row⟩, ⟨.add node, st, none⟩])
      else some (st, [])

/-- The backfill scan of `push_remove`: the first row past the bound, else the last one seen. -/
def backfill (bound : Row) : Option (Node × Bool) → List Node → Option (Node × Bool)
  | last, [] => last
  | _, n :: ns => if op.cmp n.row bound == .gt then some (n, true) else backfill bound (some (n, false)) ns

/-- The next bound of `push_remove`, and whether it is a refill: the row before the bound, unless the
    scan from the bound on meets one past it. -/
def nextBound (bound : Row) (constraint : Option Constraint) : Option (Option (Node × Bool)) := do
  let before ← fetchN up bound .after constraint true 1
  let newBound := before.head?.map fun bbn => (bbn, op.cmp bbn.row bound == .gt)
  if newBound.any fun nb => nb.2 then some newBound
  else (up { start := some ⟨bound, .atRow⟩, constraint }).map (op.backfill bound newBound)

/-- `push_remove`. -/
def pushRemove (node : Node) (key : List UInt8) (size : Nat) (bound maxBound : Option Row)
    (constraint : Option Constraint) : Option (Storage × List Sent) :=
  match bound with
  | none => some (st, [])
  | some bound =>
    if op.cmp node.row bound = .gt then some (st, [])
    else do
      match ← op.nextBound up bound constraint with
      | some (refill, true) =>
        let st' := op.setState st key size (some refill.row) maxBound
        some (st', [⟨.remove node, st, none⟩, ⟨.add refill, st', none⟩])
      | other =>
        let newB := other.map fun nb => nb.1.row
        if op.partitionKey.isSome && size - 1 == 0 then
          -- a drained partition loses its slot
          if newB.isSome then none
          else
            let st := st.del key
            some (st, [⟨.remove node, st, none⟩])
        else
          let st := op.setState st key (size - 1) newB maxBound
          some (st, [⟨.remove node, st, none⟩])

/-- `push_edit`, by where the old and the new row stand against the bound. -/
def pushEdit (node old : Node) : Option (Storage × List Sent) :=
  if op.partitionKey.all (partitionKeyUnchanged old.row node.row) then do
    let key := op.keyFromRow old.row
    match ← getState st key with
    | none => some (st, [])
    | some (_, none) => none
    | some (size, some bound) => do
      let maxBound ← getMaxBound st
      let constraint := op.constraintFor old.row
      let forward (st : Storage) : Option (Storage × List Sent) := some (st, [⟨.edit node old, st, none⟩])
      let replaceAndForward := forward (op.setState st key size (some node.row) maxBound)
      match op.cmp old.row bound, op.cmp node.row bound with
      | .eq, .eq => forward st
      | .eq, .lt =>
        if op.limit = 1 then replaceAndForward
        else do
          let found ← fetchN up bound .after constraint true 1
          let bbn ← found.head?
          forward (op.setState st key size (some bbn.row) maxBound)
      | .eq, .gt => do
        let found ← fetchN up bound .atRow constraint false 1
        let nbn ← found.head?
        if op.cmp nbn.row node.row = .eq then replaceAndForward
        else
          let st := op.setState st key size (some nbn.row) maxBound
          some (st, [⟨.remove old, st, some nbn.row⟩, ⟨.add nbn, st, none⟩])
      | .gt, .eq => none
      | .gt, .gt => some (st, [])
      | .gt, .lt => do
        match ← fetchN up bound .atRow constraint true 2 with
        | [oldBound, newBound] =>
          let st := op.setState st key size (some newBound.row) maxBound
          some (st, [⟨.remove oldBound, st, some node.row⟩, ⟨.add node, st, none⟩])
        | _ => none
      | .lt, .eq => none
      | .lt, .lt => forward st
      | .lt, .gt => do
        let found ← fetchN up bound .after constraint false 1
        let abn ← found.head?
        if op.cmp abn.row node.row = .eq then replaceAndForward
        else
          let st' := op.setState st key size (some abn.row) maxBound
          some (st', [⟨.remove old, st, none⟩, ⟨.add abn, st', none⟩])
  else none

/-- `push`: a change for a partition without a slot is dropped. -/
def push (up : Upstream) (st : Storage) (change : Change) : Option (Storage × List Sent) :=
  match change with
  | .edit node old => op.pushEdit up st node old
  | change => do
    let key := op.keyFromRow change.primaryRow
    match ← getState st key with
    | none => some (st, [])
    | some (size, bound) => do
      let maxBound ← getMaxBound st
      let constraint := op.constraintFor change.primaryRow
      match change with
      | .add node => op.pushAdd up st node key size bound maxBound constraint
      | .remove node => op.pushRemove up st node key size bound maxBound constraint
      | .child node rel child =>
        some (st, if bound.any fun b => op.cmp node.row b != .gt then [⟨.child node rel child, st, none⟩] else [])
      | .edit _ _ => none

end Take

end Rindle
