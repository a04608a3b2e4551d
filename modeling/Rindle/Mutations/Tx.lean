/-
  Rindle.Mutations.Tx — what a client mutator does to the engine: the transaction it is handed
  (`trackingTx` in `packages/optimistic/src/backend.ts`) over the engine's write transaction
  (`WriteTxn` in `rust/src/wasm/db.rs`).

  A row is stored under the `key` of its primary-key cells, the part of a cell that
  `compare_values` goes by. A transaction stages its writes: `seen` is what a point read finds,
  `forked` the live rows with the staged writes applied, which a query reads and the commit
  leaves behind. They part only over an edit that moves a row's key. A mutator is the tree of
  the calls it makes on what it has been answered so far; what a call throws is an answer too,
  the read trap of a fold apart, which ends the run. What a query answers is given from outside.

  The records of a mutator's writes and reads are left out but for the tables it touched.
-/

import Rindle.Mutations.Ledger
import Rindle.Lib.Footprint

set_option linter.dupNamespace false

namespace Rindle.Mutations

/-- A table of the schema; `json` lists the columns of that kind. -/
structure TableSpec where
  columns : List String
  primaryKey : List Nat
  required : List String
  json : List String := []

/-- The schema, the tables the engine has registered, and the cells. -/
structure Env (W K : Type) where
  specs : List (String × TableSpec)
  localTables : List String := []
  engine : List (String × TableSpec)
  roomTables : String → List (String × String) := fun _ => []
  null : W
  /-- `toCell` of a `json` cell. -/
  stringify : W → W
  isAbsent : W → Bool
  key : W → K

abbrev KeyedRow (W : Type) := List (String × W)

variable {W K Q R : Type}

namespace Env

def width (env : Env W K) (table : String) : Nat := ((env.engine.lookup table).map (·.columns.length)).getD 0

variable (env : Env W K)

/-- The key a row goes by: that of its primary-key cells. -/
def keyOf (table : String) (row : Fin (env.width table) → W) : List K :=
  (((env.engine.lookup table).map (·.primaryKey)).getD []).map fun i =>
    env.key (if h : i < env.width table then row ⟨i, h⟩ else env.null)

/-- The rows of every engine table, each under its key. -/
@[ext] structure Contents where
  rows : (table : String) → List K → Option (Fin (env.width table) → W)
  keyed : ∀ table k row, rows table k = some row → env.keyOf table row = k

variable {env} in
/-- The row is there, in place of any under its key. -/
def Contents.put [DecidableEq K] (c : env.Contents) (table : String) (row : Fin (env.width table) → W) : env.Contents where
  rows := Function.update c.rows table (Function.update (c.rows table) (env.keyOf table row) (some row))
  keyed := by
    intro t k r h
    by_cases ht : t = table
    · subst ht
      rw [Function.update_self] at h
      by_cases hk : k = env.keyOf t row
      · subst hk
        rw [Function.update_self] at h
        rw [Option.some.inj h]
      · rw [Function.update_of_ne hk] at h
        exact c.keyed t k r h
    · rw [Function.update_of_ne ht] at h
      exact c.keyed t k r h

variable {env} in
/-- No row is under the key. -/
def Contents.erase [DecidableEq K] (c : env.Contents) (table : String) (k : List K) : env.Contents where
  rows := Function.update c.rows table (Function.update (c.rows table) k none)
  keyed := by
    intro t k' r h
    by_cases ht : t = table
    · subst ht
      rw [Function.update_self] at h
      by_cases hk : k' = k
      · subst hk
        rw [Function.update_self] at h
        cases h
      · rw [Function.update_of_ne hk] at h
        exact c.keyed t k' r h
    · rw [Function.update_of_ne ht] at h
      exact c.keyed t k' r h

/-! ## The engine's transaction -/

structure WriteTxn where
  seen : env.Contents
  forked : env.Contents
  writes : List String := []

/-- `js_to_owned_row`. -/
def ownedRow (table : String) (row : List W) : Except String (Fin (env.width table) → W) :=
  if h : row.length = env.width table then .ok fun i => row.get (i.cast h.symm)
  else .error s!"row has {row.length} cells but the schema declares {env.width table} columns"

/-- The registered table, or the `unknown_table` error. -/
def source (table : String) : Except String TableSpec :=
  match env.engine.lookup table with
  | some s => .ok s
  | none => .error s!"no source `{table}`"

/-- `WriteTxn::get`. -/
def txGet (t : env.WriteTxn) (table : String) (pk : List W) : Except String (Option (List W)) := do
  let s ← env.source table
  if pk.length ≠ s.primaryKey.length then
    throw s!"pk has {pk.length} cells but the table key has {s.primaryKey.length} columns"
  return (t.seen.rows table (pk.map env.key)).map List.ofFn

section

variable [DecidableEq K]

variable (t : env.WriteTxn)

/-- `WriteTxn::add`. -/
def txAdd (table : String) (row : List W) : Except String env.WriteTxn := do
  let _ ← env.source table
  let row ← env.ownedRow table row
  return { t with seen := t.seen.put table row, forked := t.forked.put table row }

/-- `WriteTxn::remove`. -/
def txRemove (table : String) (row : List W) : Except String env.WriteTxn := do
  let _ ← env.source table
  let row ← env.ownedRow table row
  return { t with seen := t.seen.erase table (env.keyOf table row), forked := t.forked.erase table (env.keyOf table row) }

/-- The row and the old row that `WriteTxn::edit` stages: the absent cells of a partial edit are those
    of the row in effect. -/
def merged (table : String) (old row : Fin (env.width table) → W) :
    (Fin (env.width table) → W) × (Fin (env.width table) → W) :=
  if (List.ofFn row).any env.isAbsent then
    match t.seen.rows table (env.keyOf table row) with
    | some base => (fun i => if env.isAbsent (row i) then base i else row i, base)
    | none => (row, old)
  else (row, old)

/-- `WriteTxn::edit`. -/
def txEdit (table : String) (old newRow : List W) : Except String env.WriteTxn := do
  let _ ← env.source table
  let old ← env.ownedRow table old
  let row ← env.ownedRow table newRow
  let (row, old) := env.merged t table old row
  return { t with seen := t.seen.put table row, forked := (t.forked.erase table (env.keyOf table old)).put table row }

end

/-! ## `trackingTx` -/

/-- What a mutator asks of its transaction, by column names or by position. -/
inductive Call (W Q : Type)
  | row (table : String) (pk : KeyedRow W)
  | insert (table : String) (row : KeyedRow W)
  | update (table : String) (row : KeyedRow W)
  | upsert (table : String) (row : KeyedRow W)
  | insertIgnore (table : String) (row : KeyedRow W)
  | delete (table : String) (pk : KeyedRow W)
  | query (q : Q)
  | get (table : String) (pk : List W)
  | add (table : String) (row : List W)
  | remove (table : String) (row : List W)
  | edit (table : String) (oldRow newRow : List W)

inductive Answer (W R : Type)
  | done
  | keyed (row : Option (KeyedRow W))
  | cells (row : Option (List W))
  | rows (result : R)

/-- The calls the read trap of a fold refuses. -/
def Call.isRead : Call W Q → Bool
  | .row .. | .get .. | .query .. => true
  | _ => false

/-- One-shot queries: the tables an AST reads (`collectTables`), its tables renamed
    (`remapAstTables`), and its rows. -/
structure Queries (Q R : Type) where
  tables : Q → List String
  remap : List (String × String) → Q → Q
  rows : Q → env.Contents → Except String R

/-- A throw leaves what was staged before it. -/
abbrev TxM := ExceptT String (StateM env.WriteTxn)

def spec (table : String) : Except String TableSpec :=
  match env.specs.lookup table with
  | some s => .ok s
  | none => .error ("unknown table " ++ table.quote ++ " — tables: " ++ ", ".intercalate (env.specs.map (·.1)))

def assertNotLocal (table verb : String) : Except String Unit :=
  if env.localTables.contains table then
    .error ("cannot " ++ verb ++ " local-only table " ++ table.quote ++ " inside a mutator — a replayable mutator may not touch " ++
      "local tables (use store.writeLocal; 201-LOCAL-ONLY-TABLES-DESIGN.md §6 / M1).")
  else .ok ()

def plural (names : List String) : String := if names.length > 1 then "s" else ""

def checkColumns (table : String) (obj : KeyedRow W) (full : Bool) : Except String TableSpec := do
  let s ← env.spec table
  let unknown := (obj.map (·.1)).filter (!s.columns.contains ·)
  if unknown ≠ [] then
    throw ("unknown column" ++ plural unknown ++ " " ++ ", ".intercalate unknown ++ " on " ++ table ++ " — columns: " ++
      ", ".intercalate s.columns)
  let required := if full then s.required else s.primaryKey.map fun i => s.columns.getD i "undefined"
  let missing := required.filter fun c => (obj.lookup c).isNone
  if missing ≠ [] then
    throw ("missing " ++ (if full then "column" else "primary-key column") ++ plural missing ++ " " ++ ", ".intercalate missing ++ " on " ++
      table)
  return s

variable (s : TableSpec)

def pkCells (obj : KeyedRow W) : List W :=
  s.primaryKey.map fun i => (obj.lookup (s.columns.getD i "undefined")).getD env.null

def pkFromCells (cells : List W) : List W := s.primaryKey.map fun i => cells.getD i env.null

def toCell (column : String) (v : W) : W := if s.json.contains column then env.stringify v else v

def toCells (obj : KeyedRow W) : List W := s.columns.map fun c => env.toCell s c ((obj.lookup c).getD env.null)

def toKeyed (cells : List W) : KeyedRow W := s.columns.zipIdx.map fun c => (c.1, cells.getD c.2 env.null)

/-- The `next` of `update`. -/
def nextCells (row : KeyedRow W) (current : List W) : List W :=
  s.columns.zipIdx.map fun c => match row.lookup c.1 with
    | some v => env.toCell s c.1 v
    | none => current.getD c.2 env.null

def stagingMap (domain : String) : List (String × String) := if domain = "daemon" then [] else env.roomTables domain

/-- `staged`. -/
def staged (stage : List (String × String)) (table : String) : String := (stage.lookup table).getD table

/-- `recordWrite`. -/
def recordWrite (table : String) : env.TxM Unit :=
  modify fun t => if t.writes.contains table then t else { t with writes := t.writes ++ [table] }

/-- `rawGet`, and `getImpl` but for the record of the read. -/
def rawGet (stage : List (String × String)) (table : String) (pk : List W) : env.TxM (Option (List W)) := do
  env.assertNotLocal table "read"
  env.txGet (← get) (staged stage table) pk

variable [DecidableEq K] (stage : List (String × String))

def add (table : String) (row : List W) : env.TxM Unit := do
  env.assertNotLocal table "write"
  let _ ← env.spec table
  env.recordWrite (staged stage table)
  MonadState.set (← env.txAdd (← get) (staged stage table) row)

/-- `remove`; the read is for the pre-image. -/
def remove (table : String) (row : List W) : env.TxM Unit := do
  env.assertNotLocal table "write"
  let s ← env.spec table
  let _ ← env.txGet (← get) (staged stage table) (env.pkFromCells s row)
  env.recordWrite (staged stage table)
  MonadState.set (← env.txRemove (← get) (staged stage table) row)

/-- `edit`, likewise. -/
def edit (table : String) (oldRow newRow : List W) : env.TxM Unit := do
  env.assertNotLocal table "write"
  let s ← env.spec table
  let _ ← env.txGet (← get) (staged stage table) (env.pkFromCells s newRow)
  env.recordWrite (staged stage table)
  MonadState.set (← env.txEdit (← get) (staged stage table) oldRow newRow)

def insert (table : String) (row : KeyedRow W) : env.TxM Unit := do
  let s ← env.checkColumns table row true
  env.add stage table (env.toCells s row)

def update (table : String) (row : KeyedRow W) : env.TxM Unit := do
  let s ← env.checkColumns table row false
  match ← env.rawGet stage table (env.pkCells s row) with
  | none => return
  | some current => env.edit stage table current (env.nextCells s row current)

def upsert (table : String) (row : KeyedRow W) : env.TxM Unit := do
  let s ← env.checkColumns table row true
  match ← env.rawGet stage table (env.pkCells s row) with
  | some current => env.edit stage table current (env.toCells s row)
  | none => env.add stage table (env.toCells s row)

def insertIgnore (table : String) (row : KeyedRow W) : env.TxM Unit := do
  let s ← env.checkColumns table row true
  match ← env.rawGet stage table (env.pkCells s row) with
  | some _ => return
  | none => env.add stage table (env.toCells s row)

def delete (table : String) (pk : KeyedRow W) : env.TxM Unit := do
  let s ← env.checkColumns table pk false
  match ← env.rawGet stage table (env.pkCells s pk) with
  | none => return
  | some current => env.remove stage table current

def rowImpl (table : String) (pk : KeyedRow W) : env.TxM (Option (KeyedRow W)) := do
  let s ← env.checkColumns table pk false
  return (← env.rawGet stage table (env.pkCells s pk)).map (env.toKeyed s)

def runQuery (queries : env.Queries Q R) (q : Q) : env.TxM R := do
  for table in queries.tables q do
    env.assertNotLocal table "read"
  queries.rows (if stage.isEmpty then q else queries.remap stage q) (← get).forked

/-- One call on the transaction. -/
def perform (queries : env.Queries Q R) : Call W Q → env.TxM (Answer W R)
  | .row table pk => return .keyed (← env.rowImpl stage table pk)
  | .insert table row => do env.insert stage table row; return .done
  | .update table row => do env.update stage table row; return .done
  | .upsert table row => do env.upsert stage table row; return .done
  | .insertIgnore table row => do env.insertIgnore stage table row; return .done
  | .delete table pk => do env.delete stage table pk; return .done
  | .query q => return .rows (← env.runQuery stage queries q)
  | .get table pk => return .cells (← env.rawGet stage table pk)
  | .add table row => do env.add stage table row; return .done
  | .remove table row => do env.remove stage table row; return .done
  | .edit table oldRow newRow => do env.edit stage table oldRow newRow; return .done

end Env

/-! ## Mutators -/

/-- A deterministic mutator: what it does next, given what it has been answered. -/
inductive Mutator (W Q R : Type)
  | done
  | throw (message : String)
  | call (c : Env.Call W Q) (k : Except String (Env.Answer W R) → Mutator W Q R)

namespace Mutator

variable [DecidableEq K] {env : Env W K} (queries : env.Queries Q R) (stage : List (String × String))

/-- `runMutator`; with `trapReads` a public read ends the run. -/
def run (trapReads : Bool) : Mutator W Q R → env.WriteTxn → Except String env.WriteTxn
  | .done, t => .ok t
  | .throw message, _ => .error message
  | .call c k, t =>
    if trapReads && c.isRead then .error "FoldReadError"
    else
      let answered := (env.perform stage queries c).run.run t
      (k answered.1).run trapReads answered.2

/-- The prediction of a mutation the domain confirms: what the commit leaves and the tables touched. -/
def predict (domain : String) (trapReads : Bool) (m : Mutator W Q R) (head : env.Contents) : Except String (env.Contents × List String) :=
  (m.run queries (env.stagingMap domain) trapReads ⟨head, head, []⟩).map fun t => (t.forked, t.writes)

end Mutator

end Rindle.Mutations
