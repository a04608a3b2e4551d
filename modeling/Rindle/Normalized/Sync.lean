/-
  Rindle.Normalized.Sync — the client's cross-query refcount and column union
  (`packages/normalized/src/sync.ts`).

  Each query streams rows of the base tables, positional over its own columns; the client
  keeps one shared row per `(table, pk)`, with the queries that reference it. A query's cells
  are scattered to the base positions and merged into the shared row; when a query lets the
  row go, the columns nobody contributes any more become absent, and with the last query the
  row leaves. What is returned is the mutations for the local database.

  A JS number is a value of `ν`, up to `===` (no NaN crosses the wire). The text
  `${table} ${JSON.stringify(pk cells)}` is the pair it spells. A `Map` from keys is a
  function; a `Set`, and the `next` of `rehydrate`, which are walked, are lists in insertion
  order. A throw is an `error`.
-/

import Mathlib.Data.List.Basic
import Mathlib.Logic.Function.Basic

namespace Rindle.Normalized

inductive WireValue (ν : Type) where
  | null
  | bool (b : Bool)
  | num (n : ν)
  | str (s : String)
  deriving DecidableEq

abbrev WireRow (ν : Type) := List (WireValue ν)

/-- A row in the table's layout; `none` is `ABSENT`. -/
abbrev UnionRow (ν : Type) := List (Option (WireValue ν))

abbrev QueryId := Nat

abbrev Key (ν : Type) := String × List (WireValue ν)

inductive NormalizedOp (ν : Type) where
  | add (table : String) (row : WireRow ν)
  | remove (table : String) (row : WireRow ν)
  | edit (table : String) (old new : WireRow ν)

def NormalizedOp.table {ν : Type} : NormalizedOp ν → String
  | .add table _ | .remove table _ | .edit table _ _ => table

inductive Mutation (ν : Type) where
  | add (table : String) (row : UnionRow ν)
  | remove (table : String) (row : UnionRow ν)
  | edit (table : String) (old new : UnionRow ν)

def Mutation.table {ν : Type} : Mutation ν → String
  | .add table _ | .remove table _ | .edit table _ _ => table

structure BaseEntry (ν : Type) where
  table : String
  row : UnionRow ν
  queries : List QueryId

structure NormalizedSync (ν : Type) where
  pkCols : String → Option (List Nat)
  colCounts : String → Option Nat := fun _ => none
  base : Key ν → Option (BaseEntry ν) := fun _ => none
  qfoot : QueryId → Option (List (Key ν)) := fun _ => none
  qcols : QueryId → String → Option (List Int) := fun _ _ => none

/-- A row's cell, `undefined` past its end. -/
def cell {ν : Type} (row : UnionRow ν) (i : Nat) : Option (WireValue ν) := row[i]?.join

/-- The primary-key cells of a row; `JSON.stringify` writes an absent one as `null`. -/
def keyCells {ν : Type} (cols : List Nat) (row : UnionRow ν) : List (WireValue ν) := cols.map fun i => (cell row i).getD .null

/-- The cells of `incoming` over those of `row`, where it has them. -/
def merged {ν : Type} (row incoming : UnionRow ν) : UnionRow ν := row.mapIdx fun i cur => (cell incoming i).or cur

/-- A row with the cells of some columns only. -/
def narrowed {ν : Type} (row : UnionRow ν) (present : List Int) : UnionRow ν :=
  row.mapIdx fun i c => if (i : Int) ∈ present then c else none

/-- The loop of `scatter`: `row[i]` goes to `cols[i]`, or nowhere when that is negative. -/
def place {ν : Type} : List Int → WireRow ν → UnionRow ν → UnionRow ν
  | [], _, out => out
  | c :: cols, row, out => place cols row.tail (if 0 ≤ c then out.set c.toNat row.head? else out)

/-- `Set.add`. -/
def insertNew {α : Type} [DecidableEq α] (a : α) (l : List α) : List α := if a ∈ l then l else l ++ [a]

/-- `Map.set` in a map that is walked. -/
def setNext {α β : Type} [DecidableEq α] (a : α) (b : β) : List (α × β) → List (α × β)
  | [] => [(a, b)]
  | e :: l => if e.1 = a then (a, b) :: l else e :: setNext a b l

namespace NormalizedSync

variable {ν : Type}

/-! ## Projections -/

/-- `registerProjection`. -/
def registerProjection (s : NormalizedSync ν) (q : QueryId) (table : String) (cols : List Int) : NormalizedSync ν :=
  { s with qcols := Function.update s.qcols q (Function.update (s.qcols q) table (some cols)) }

/-- `unregisterProjection`. -/
def unregisterProjection (s : NormalizedSync ν) (q : QueryId) (table : String) : NormalizedSync ν :=
  { s with qcols := Function.update s.qcols q (Function.update (s.qcols q) table none) }

/-- `scatter`. -/
def scatter (s : NormalizedSync ν) (q : QueryId) (table : String) (row : WireRow ν) : Except String (UnionRow ν) :=
  match s.qcols q table with
  | none => .ok (row.map some)
  | some cols =>
    match s.colCounts table with
    | none => .error s!"NormalizedSync: no column count registered for projected table {table}"
    | some width => .ok (place cols row (List.replicate width none))

/-- `presentCols`; `none` is every column. -/
def presentCols (s : NormalizedSync ν) (table : String) : List QueryId → Option (List Int)
  | [] => some []
  | q :: queries =>
    match s.qcols q table with
    | none => none
    | some cols => (s.presentCols table queries).map fun out => cols.filter (0 ≤ ·) ++ out

/-- `key`. -/
def key (s : NormalizedSync ν) (table : String) (row : UnionRow ν) : Except String (Key ν) :=
  match s.pkCols table with
  | none => .error s!"NormalizedSync: no primary key registered for table {table}"
  | some cols => .ok (table, keyCells cols row)

/-! ## Footprints and rows -/

/-- A query's footprint (`footOf`, without the creation). -/
def foot (s : NormalizedSync ν) (q : QueryId) : List (Key ν) := (s.qfoot q).getD []

def setFoot (s : NormalizedSync ν) (q : QueryId) (keys : List (Key ν)) : NormalizedSync ν :=
  { s with qfoot := Function.update s.qfoot q (some keys) }

/-! ## Synthetic tables -/

/-- `registerTable`. -/
def registerTable (s : NormalizedSync ν) (table : String) (primaryKey : List Nat) : NormalizedSync ν :=
  { s with pkCols := Function.update s.pkCols table (some primaryKey) }

/-- The key's entry is a row of the table. -/
def stale (s : NormalizedSync ν) (table : String) (k : Key ν) : Bool := (s.base k).any fun e => e.table == table

/-- `unregisterTable`: its rows and the references to them are swept. -/
def unregisterTable (s : NormalizedSync ν) (table : String) : NormalizedSync ν :=
  { s with
    pkCols := Function.update s.pkCols table none
    base := fun k => if s.stale table k then none else s.base k
    qfoot := fun q => (s.qfoot q).map fun foot => foot.filter fun k => !s.stale table k }

variable [DecidableEq ν]

def setBase (s : NormalizedSync ν) (k : Key ν) (e : Option (BaseEntry ν)) : NormalizedSync ν :=
  { s with base := Function.update s.base k e }

/-- A state and what was pushed on `muts`. -/
abbrev Emits (ν : Type) := NormalizedSync ν × List (Mutation ν)

/-- `mergeInto`, for the entry under `k`. -/
def mergeInto (s : NormalizedSync ν) (k : Key ν) (e : BaseEntry ν) (incoming : UnionRow ν) (table : String) : Emits ν :=
  if merged e.row incoming = e.row then (s.setBase k (some e), [])
  else (s.setBase k (some { e with row := merged e.row incoming }), [.edit table e.row (merged e.row incoming)])

/-- `add`. -/
def add (s : NormalizedSync ν) (q : QueryId) (table : String) (row : UnionRow ν) : Except String (Emits ν) := do
  let k ← s.key table row
  if k ∈ s.foot q then .ok (s, [])
  else
    let s := s.setFoot q (s.foot q ++ [k])
    match s.base k with
    | some e => .ok (s.mergeInto k { e with queries := insertNew q e.queries } row table)
    | none => .ok (s.setBase k (some ⟨table, row, [q]⟩), [.add table row])

/-- `removeKey`. -/
def removeKey (s : NormalizedSync ν) (q : QueryId) (k : Key ν) : Emits ν :=
  if k ∈ s.foot q then
    let s := s.setFoot q ((s.foot q).filter fun k' => k' ≠ k)
    match s.base k with
    | none => (s, [])
    | some e =>
      let queries := e.queries.filter fun q' => q' ≠ q
      if queries = [] then (s.setBase k none, [.remove e.table e.row])
      else
        match s.presentCols e.table queries with
        | none => (s.setBase k (some { e with queries }), [])
        | some present =>
          if narrowed e.row present = e.row then (s.setBase k (some { e with queries }), [])
          else (s.setBase k (some { e with queries, row := narrowed e.row present }), [.edit e.table e.row (narrowed e.row present)])
  else (s, [])

/-- `remove`. -/
def remove (s : NormalizedSync ν) (q : QueryId) (table : String) (row : UnionRow ν) : Except String (Emits ν) := do
  let k ← s.key table row
  .ok (s.removeKey q k)

/-- `edit`. -/
def edit (s : NormalizedSync ν) (table : String) (next : UnionRow ν) : Except String (Emits ν) := do
  let k ← s.key table next
  match s.base k with
  | none => .ok (s, [])
  | some e => .ok (s.mergeInto k e next table)

/-- A `for` loop whose body pushes on `muts`. -/
def loop {α : Type} (f : NormalizedSync ν → α → Except String (Emits ν)) : NormalizedSync ν → List α → Except String (Emits ν)
  | s, [] => .ok (s, [])
  | s, a :: l => do
    let (s, muts) ← f s a
    let (s, more) ← loop f s l
    .ok (s, muts ++ more)

/-! ## Calls -/

def applyOp (q : QueryId) (s : NormalizedSync ν) : NormalizedOp ν → Except String (Emits ν)
  | .add table row => do
    let row ← s.scatter q table row
    s.add q table row
  | .remove table row => do
    let row ← s.scatter q table row
    s.remove q table row
  | .edit table _ new => do
    let new ← s.scatter q table new
    s.edit table new

/-- `applyBatch`. -/
def applyBatch (s : NormalizedSync ν) (q : QueryId) (ops : List (NormalizedOp ν)) : Except String (Emits ν) :=
  loop (applyOp q) (s.setFoot q (s.foot q)) ops

/-- The new footprint of a snapshot, with its rows; ops other than `add` are passed over. -/
def nextOf (s : NormalizedSync ν) (q : QueryId) :
    List (Key ν × String × UnionRow ν) → List (NormalizedOp ν) → Except String (List (Key ν × String × UnionRow ν))
  | next, [] => .ok next
  | next, .add table row :: ops => do
    let row ← s.scatter q table row
    let k ← s.key table row
    s.nextOf q (setNext k (table, row) next) ops
  | next, _ :: ops => s.nextOf q next ops

/-- A row of the new footprint that entered or changed. -/
def enter (q : QueryId) (s : NormalizedSync ν) (e : Key ν × String × UnionRow ν) : Except String (Emits ν) :=
  if e.1 ∈ s.foot q then
    match s.base e.1 with
    | some b => .ok (s.mergeInto e.1 b e.2.2 e.2.1)
    | none => .ok (s, [])
  else s.add q e.2.1 e.2.2

/-- `rehydrate`. -/
def rehydrate (s : NormalizedSync ν) (q : QueryId) (snapshot : List (NormalizedOp ν)) : Except String (Emits ν) := do
  let s := s.setFoot q (s.foot q)
  let next ← s.nextOf q [] snapshot
  let (s, left) ← loop (fun s k => .ok (s.removeKey q k)) s ((s.foot q).filter fun k => k ∉ next.map (·.1))
  let (s, entered) ← loop (enter q) s next
  .ok (s, left ++ entered)

/-- `dropQuery`. -/
def dropQuery (s : NormalizedSync ν) (q : QueryId) : Except String (Emits ν) :=
  match s.qfoot q with
  | none => .ok (s, [])
  | some keys => do
    let (s, muts) ← loop (fun s k => .ok (s.removeKey q k)) s keys
    .ok ({ s with qfoot := Function.update s.qfoot q none, qcols := Function.update s.qcols q fun _ => none }, muts)

end NormalizedSync

/-! ## The local database -/

/-- The rows of the local base tables by key. -/
abbrev Contents (ν : Type) := Key ν → Option (UnionRow ν)

/-- The rows of the shared entries. -/
def NormalizedSync.contents {ν : Type} (s : NormalizedSync ν) : Contents ν := fun k => (s.base k).map (·.row)

/-- A write to the local base tables. It goes through when an `add` finds its key free and a `remove` or an `edit`
    names the row that is there; an `edit` keeps the key. -/
def Mutation.apply {ν : Type} [DecidableEq ν] (pk : String → Option (List Nat)) (db : Contents ν) : Mutation ν → Option (Contents ν)
  | .add table row => do
    let cols ← pk table
    if db (table, keyCells cols row) = none then some (Function.update db (table, keyCells cols row) (some row)) else none
  | .remove table row => do
    let cols ← pk table
    if db (table, keyCells cols row) = some row then some (Function.update db (table, keyCells cols row) none) else none
  | .edit table old new => do
    let cols ← pk table
    if db (table, keyCells cols old) = some old ∧ keyCells cols new = keyCells cols old
      then some (Function.update db (table, keyCells cols old) (some new)) else none

end Rindle.Normalized
