/-
  Rindle.Wasm.WriteTxn — a write transaction and its reads (`rust/src/wasm/db.rs`).

  A transaction stages row ops and touches the live sources only at commit. `get` reads a key by
  scanning the staged ops from the newest for one that names it, then the live source
  (`lookupEffective`). `query` reads a fork of the live source that the staged ops are replayed
  into, seeded by the first query of the table and written by every later op.

  The rows both should read are the live ones with the staged ops applied in order (`contents`).
  The fork holds exactly them whichever read seeds it first. The scan does not see that an edit
  takes its row away from the old key: it skips that edit and answers what it finds behind it. So
  `get` is right exactly when the newest staged op at the key is not such an edit
  (`read_your_writes`).

  The live sources do not change while the transaction is open. Cells arrive decoded, and what a
  query's pipeline makes of its scratch sources is left out, as is the check for integers
  JavaScript cannot hold.
-/

import Rindle.Source.Filtered

set_option linter.dupNamespace false

namespace Rindle.Wasm

/-! ## The transaction -/

/-- A registered table: its source, and the key and the width its schema declares. -/
structure Registered where
  source : MemorySource
  primaryKey : List Nat
  cols : Nat
  keyed : source.primaryKey = primaryKey

structure TxnError where
  code : String
  message : String

structure WriteTxn where
  sources : String → Option Registered
  staged : List (String × SourceChange Row) := []
  forks : String → Option MemorySource := fun _ => none

/-- `fork_with_indexes`: the same trees, no connections. -/
def forkWithIndexes (s : MemorySource) : MemorySource := { primaryKey := s.primaryKey, indexes := s.indexes }

/-- `apply_change`: every index written, nothing checked. -/
def ReadFork.applyChange (fork : MemorySource) (change : SourceChange Row) : MemorySource :=
  { fork with indexes := fork.indexes.map fun i => MemorySource.Index.write i change }

/-- The width check of `js_to_owned_row`. -/
def ownedRow (expectedCols : Nat) (row : Row) : Except TxnError Row :=
  if row.length = expectedCols then .ok row
  else .error ⟨"invalid_row", s!"row has {row.length} cells but the schema declares {expectedCols} columns"⟩

def unknownTable (table : String) : TxnError := ⟨"unknown_table", s!"no source `{table}`"⟩

/-- `pk_eq`: the probe's key cells are the row's. -/
def pkEq (primaryKey : List Nat) (probe row : Row) : Bool :=
  primaryKey.all fun c => Value.cmp (probe.cell c) (row.cell c) == .eq

/-- What the scan makes of one staged op: a row, its removal, or nothing. -/
@[grind] def answers (pkEq : Row → Bool) : SourceChange Row → Option (Option Row)
  | .add r | .edit _ r => if pkEq r then some (some r) else none
  | .remove r => if pkEq r then some none else none

/-- An edit's cells over the effective row's. -/
def mergePartial (cols : Nat) (base row : Row) : Row :=
  (List.range cols).map fun i => if (row.cell i).isAbsent then base.cell i else row.cell i

/-- Some cell says nothing. -/
def isPartialRow (row : Row) : Bool := row.any Value.isAbsent

namespace WriteTxn

variable (w : WriteTxn) (table : String)

def cols : Except TxnError Nat :=
  match w.sources table with
  | some reg => .ok reg.cols
  | none => .error (unknownTable table)

def lookupEffective (probe : Row) : Option Row :=
  (w.sources table).bind fun reg =>
    match w.staged.reverse.findSome? fun e => if e.1 != table then none else answers (pkEq reg.primaryKey probe) e.2 with
    | some answer => answer
    | none => reg.source.getByPk probe

def forwardToFork (change : SourceChange Row) : WriteTxn :=
  match w.forks table with
  | some fork => { w with forks := Function.update w.forks table (some (ReadFork.applyChange fork change)) }
  | none => w

/-- Forward a change to the table's fork and push it to the staged ops. -/
def stage (change : SourceChange Row) : WriteTxn :=
  { w.forwardToFork table change with staged := w.staged ++ [(table, change)] }

def add (w : WriteTxn) (table : String) (row : Row) : WriteTxn × Except TxnError Unit :=
  match w.cols table >>= fun cols => ownedRow cols row with
  | .ok r => (w.stage table (.add r), .ok ())
  | .error e => (w, .error e)

def remove (w : WriteTxn) (table : String) (row : Row) : WriteTxn × Except TxnError Unit :=
  match w.cols table >>= fun cols => ownedRow cols row with
  | .ok r => (w.stage table (.remove r), .ok ())
  | .error e => (w, .error e)

/-- The change an edit stages. -/
def editChange (cols : Nat) (old row : Row) : SourceChange Row :=
  if isPartialRow row then
    match w.lookupEffective table row with
    | some base => .edit base (mergePartial cols base row)
    -- no row to fall through to: the caller's rows as they are
    | none => .edit old row
  else .edit old row

def edit (w : WriteTxn) (table : String) (old row : Row) : WriteTxn × Except TxnError Unit :=
  match w.cols table >>= fun cols => ownedRow cols old >>= fun old => ownedRow cols row >>= fun row => .ok (cols, old, row) with
  | .ok (cols, old, row) => (w.stage table (w.editChange table cols old row), .ok ())
  | .error e => (w, .error e)

/-- A full-width probe with the key cells in place. -/
def probe (reg : Registered) (pk : List Value) : Row :=
  (reg.primaryKey.zip pk).foldl (fun probe p => probe.set p.1 p.2) (List.replicate reg.cols .null)

def get (pk : List Value) : Except TxnError (Option Row) :=
  match w.sources table with
  | none => .error (unknownTable table)
  | some reg =>
    if pk.length ≠ reg.primaryKey.length then
      .error ⟨"invalid_row", s!"pk has {pk.length} cells but the table key has {reg.primaryKey.length} columns"⟩
    else .ok (w.lookupEffective table (probe reg pk))

/-- The fork `ensure_fork` seeds: the live source with the table's staged ops replayed. -/
def seededFork (source : MemorySource) : MemorySource :=
  w.staged.foldl (fun fork e => if e.1 = table then ReadFork.applyChange fork e.2 else fork) (forkWithIndexes source)

def ensureFork : WriteTxn × Except TxnError Unit :=
  match w.forks table with
  | some _ => (w, .ok ())
  | none =>
    match w.sources table with
    | none => (w, .error (unknownTable table))
    | some reg => ({ w with forks := Function.update w.forks table (some (w.seededFork table reg.source)) }, .ok ())

/-- The loop of `query` over the tables it reads; it stops at an unknown one. -/
def ensureForks : WriteTxn → List String → WriteTxn × Except TxnError Unit
  | w, [] => (w, .ok ())
  | w, table :: tables =>
    match w.ensureFork table with
    | (w, .ok ()) => ensureForks w tables
    | (w, .error e) => (w, .error e)

/-- `query`: the scratch sources its pipeline is built over, a fork of each table's fork. -/
def query (tables : List String) : WriteTxn × Except TxnError (List (String × MemorySource)) :=
  match w.ensureForks tables with
  | (w, .ok ()) => (w, .ok (tables.filterMap fun t => (w.forks t).map fun cache => (t, forkWithIndexes cache)))
  | (w, .error e) => (w, .error e)

end WriteTxn

/-- What a mutator calls on its transaction. -/
inductive Call where
  | add (table : String) (row : Row)
  | remove (table : String) (row : Row)
  | edit (table : String) (old row : Row)
  | get (table : String) (pk : List Value)
  | query (tables : List String)

namespace WriteTxn

/-- The transaction after a call; one that fails stages nothing. -/
def step (w : WriteTxn) : Call → WriteTxn
  | .add table row => (w.add table row).1
  | .remove table row => (w.remove table row).1
  | .edit table old row => (w.edit table old row).1
  | .get _ _ => w
  | .query tables => (w.query tables).1

def run (w : WriteTxn) (calls : List Call) : WriteTxn := calls.foldl step w

/-! ## What the reads should see -/

/-- The table's staged ops, in stage order. -/
def stagedOn (w : WriteTxn) (table : String) : List (SourceChange Row) := (w.staged.filter fun e => e.1 == table).map (·.2)

/-- The live rows with the staged ops applied in order. -/
def contents (w : WriteTxn) (live : String → Set Row) (table : String) : Set Row := (w.stagedOn table).foldl applyChange (live table)

end WriteTxn

/-- What a read of a key finds in these rows: the row with that key, or nothing. -/
def Reads (primaryKey : List Nat) (S : Set Row) (probe : Row) (found : Option Row) : Prop :=
  ∀ r, found = some r ↔ r ∈ S ∧ pkEq primaryKey probe r = true

/-- The change an edit means where the table holds `S`: one with absent cells goes from the row of its
    key to that row with the cells it has. -/
inductive Meant (reg : Registered) (S : Set Row) (old row : Row) : SourceChange Row → Prop
  | whole : isPartialRow row = false → Meant reg S old row (.edit old row)
  | overwrite (base : Row) : isPartialRow row = true → base ∈ S → pkEq reg.primaryKey row base = true →
      Meant reg S old row (.edit base (mergePartial reg.cols base row))
  | unbased : isPartialRow row = true → (∀ x ∈ S, pkEq reg.primaryKey row x = false) → Meant reg S old row (.edit old row)

/-- The op, as meant, fits the live rows with the ops before it. -/
def Call.Valid (w : WriteTxn) (live : String → Set Row) : Call → Prop
  | .add table row => ∀ reg, w.sources table = some reg → row.length = reg.cols →
      ValidChange reg.primaryKey (w.contents live table) (.add row)
  | .remove table row => ∀ reg, w.sources table = some reg → row.length = reg.cols →
      ValidChange reg.primaryKey (w.contents live table) (.remove row)
  | .edit table old row => ∀ reg, w.sources table = some reg → old.length = reg.cols → row.length = reg.cols →
      ∀ change, Meant reg (w.contents live table) old row change → ValidChange reg.primaryKey (w.contents live table) change
  | .get _ _ => True
  | .query _ => True

/-! ## Keys that are moved away -/

/-- Some row of the change has the key. -/
@[grind] def namesKey (pkEq : Row → Bool) : SourceChange Row → Bool
  | .add r => pkEq r
  | .remove r => pkEq r
  | .edit old row => pkEq old || pkEq row

/-- The change takes its row from the key to another one. -/
@[grind] def takesAway (pkEq : Row → Bool) : SourceChange Row → Bool
  | .edit old row => pkEq old && !pkEq row
  | _ => false

/-- The newest of the ops that name the key takes its row away from it. -/
def movedAway (pkEq : Row → Bool) (ops : List (SourceChange Row)) : Bool :=
  (ops.reverse.find? (namesKey pkEq)).any (takesAway pkEq)

/-! ## The scan -/

section
variable {pk : List Nat} {probe : Row} {R S S' : Set Row} {ops : List (SourceChange Row)} {change : SourceChange Row}

theorem pkEq_iff {row : Row} : pkEq pk probe row = true ↔ keyCmp pk probe row = .eq := by
  simp [pkEq, keyCmp_eq_eq]

/-- Two rows with the probe's key have one key. -/
theorem tie_of_pkEq {a b : Row} (ha : pkEq pk probe a = true) (hb : pkEq pk probe b = true) : keyCmp pk a b = .eq :=
  Std.TransCmp.eq_trans (SList.eq_comm.mp (pkEq_iff.mp ha)) (pkEq_iff.mp hb)

/-- The scan over one table's ops, newest first, then `live`. -/
def scanOps (pkEq : Row → Bool) (ops : List (SourceChange Row)) (live : Option Row) : Option Row :=
  match ops.reverse.findSome? (answers pkEq) with
  | some answer => answer
  | none => live

theorem scanOps_snoc (pkEq : Row → Bool) (ops : List (SourceChange Row)) (change : SourceChange Row) (live : Option Row) :
    scanOps pkEq (ops ++ [change]) live =
      match answers pkEq change with
      | some answer => answer
      | none => scanOps pkEq ops live := by
  unfold scanOps
  rw [List.reverse_append, List.reverse_singleton, List.singleton_append, List.findSome?_cons]
  cases answers pkEq change <;> rfl

theorem movedAway_snoc (pkEq : Row → Bool) (ops : List (SourceChange Row)) (change : SourceChange Row) :
    movedAway pkEq (ops ++ [change]) = if namesKey pkEq change then takesAway pkEq change else movedAway pkEq ops := by
  unfold movedAway
  rw [List.reverse_append, List.reverse_singleton, List.singleton_append, List.find?_cons]
  cases namesKey pkEq change <;> rfl

/-- A change that does not name the key leaves what is read there. -/
theorem Reads.other (hname : namesKey (pkEq pk probe) change = false) {found : Option Row} :
    Reads pk (applyChange S change) probe found ↔ Reads pk S probe found := by
  have hkey : ∀ r, pkEq pk probe r = true → (r ∈ applyChange S change ↔ r ∈ S) := by
    intro r hr
    have hne : ∀ x, pkEq pk probe x = false → r ≠ x := by
      intro x hx heq
      rw [heq, hx] at hr
      cases hr
    cases change with
    | add x => simp [applyChange, hne x hname]
    | remove x => simp [applyChange, hne x hname]
    | edit old x =>
      obtain ⟨hold, hx⟩ := Bool.or_eq_false_iff.mp hname
      simp [applyChange, hne old hold, hne x hx]
  constructor
  · intro h r
    rw [h r]
    exact and_congr_left (hkey r)
  · intro h r
    rw [h r]
    exact (and_congr_left (hkey r)).symm

/-- An op that answers for the key answers what the rows hold there once it is applied. -/
theorem answers_reads (hu : KeyUnique pk S) (hv : ValidChange pk S change) {answer : Option Row}
    (ha : answers (pkEq pk probe) change = some answer) : Reads pk (applyChange S change) probe answer := by
  have hu' := MemorySource.ValidChange.keyUnique hu hv
  have hrow : ∀ r, r ∈ applyChange S change → pkEq pk probe r = true → Reads pk (applyChange S change) probe (some r) := by
    intro r hr hk x
    constructor
    · intro hx
      obtain rfl := Option.some.inj hx
      exact ⟨hr, hk⟩
    · intro hx
      rw [hu' r hr x hx.1 (tie_of_pkEq hk hx.2)]
  cases change with
  | add r =>
    simp only [answers] at ha
    split at ha
    · rename_i hk
      obtain rfl := Option.some.inj ha
      exact hrow r (Set.mem_insert r S) hk
    · cases ha
  | remove r =>
    simp only [answers] at ha
    split at ha
    · rename_i hk
      obtain rfl := Option.some.inj ha
      intro x
      constructor
      · intro hx
        cases hx
      · intro hx
        exact absurd (hu x hx.1.1 r hv (tie_of_pkEq hx.2 hk)) hx.1.2
    · cases ha
  | edit old r =>
    simp only [answers] at ha
    split at ha
    · rename_i hk
      obtain rfl := Option.some.inj ha
      exact hrow r (Set.mem_insert r _) hk
    · cases ha

theorem answers_eq_none (h : answers (pkEq pk probe) change = none) :
    namesKey (pkEq pk probe) change = takesAway (pkEq pk probe) change := by
  cases change with
  | add r => simpa [answers, namesKey, takesAway] using h
  | remove r => simpa [answers, namesKey, takesAway] using h
  | edit old r =>
    have hr : pkEq pk probe r = false := by simpa [answers] using h
    simp [namesKey, takesAway, hr]

theorem takesAway_of_answers {answer : Option Row} (h : answers (pkEq pk probe) change = some answer) :
    namesKey (pkEq pk probe) change = true ∧ takesAway (pkEq pk probe) change = false := by
  cases change with
  | add r =>
    have hr : pkEq pk probe r = true := by
      by_contra hr
      simp [answers, hr] at h
    exact ⟨hr, rfl⟩
  | remove r =>
    have hr : pkEq pk probe r = true := by
      by_contra hr
      simp [answers, hr] at h
    exact ⟨hr, rfl⟩
  | edit old r =>
    have hr : pkEq pk probe r = true := by
      by_contra hr
      simp [answers, hr] at h
    simp [namesKey, takesAway, hr]

/-- Once a valid edit has taken the row from the key, no row has it. -/
theorem none_of_takesAway (hu : KeyUnique pk S) (hv : ValidChange pk S change)
    (h : takesAway (pkEq pk probe) change = true) :
    (∃ old ∈ S, pkEq pk probe old = true) ∧ ∀ r ∈ applyChange S change, pkEq pk probe r = false := by
  cases change with
  | add r => cases h
  | remove r => cases h
  | edit old row =>
    simp only [takesAway, Bool.and_eq_true, Bool.not_eq_true'] at h
    refine ⟨⟨old, hv.1, h.1⟩, ?_⟩
    intro r hr
    rcases hr with rfl | ⟨hr, hne⟩
    · exact h.2
    · rw [Bool.eq_false_iff]
      intro hk
      exact hne (hu r hr old hv.1 (tie_of_pkEq hk h.1))

/-- The scan of valid ops: it reads the rows, or the key was moved away and it answers a row all the same. -/
theorem scanOps_spec (hu : KeyUnique pk R) {live : Option Row} (hlive : Reads pk R probe live)
    (h : MemorySource.Leads pk R ops S) :
    (movedAway (pkEq pk probe) ops = false → Reads pk S probe (scanOps (pkEq pk probe) ops live)) ∧
      (movedAway (pkEq pk probe) ops = true →
        (∀ r ∈ S, pkEq pk probe r = false) ∧ ∃ r, scanOps (pkEq pk probe) ops live = some r) := by
  induction ops using List.reverseRecOn generalizing S with
  | nil =>
    obtain rfl : R = S := h
    refine ⟨fun _ => hlive, ?_⟩
    intro hm
    cases hm
  | append_singleton ops change ih =>
    obtain ⟨S, hl, hv, rfl⟩ := MemorySource.Leads.snoc h
    have hS := MemorySource.Leads.keyUnique hu hl
    obtain ⟨hright, haway⟩ := ih hl
    rw [movedAway_snoc, scanOps_snoc]
    cases ha : answers (pkEq pk probe) change with
    | some answer =>
      obtain ⟨hn, ht⟩ := takesAway_of_answers ha
      rw [hn, ht, if_pos rfl]
      exact ⟨fun _ => answers_reads hS hv ha, fun hm => by cases hm⟩
    | none =>
      have hnt := answers_eq_none ha
      cases ht : takesAway (pkEq pk probe) change with
      | false =>
        rw [hnt, ht, if_neg Bool.false_ne_true]
        have hother : namesKey (pkEq pk probe) change = false := hnt.trans ht
        refine ⟨fun hm => (Reads.other hother).mpr (hright hm), ?_⟩
        intro hm
        obtain ⟨hnone, hsome⟩ := haway hm
        refine ⟨?_, hsome⟩
        -- nothing is read at the key before, so nothing after
        have hread : Reads pk S probe none := by
          intro r
          simp only [reduceCtorEq, false_iff, not_and]
          intro hr
          simp [hnone r hr]
        intro r hr
        rw [Bool.eq_false_iff]
        intro hk
        have := ((Reads.other hother).mpr hread r).mpr ⟨hr, hk⟩
        cases this
      | true =>
        rw [hnt, ht, if_pos rfl]
        refine ⟨fun hm => by (cases hm), fun _ => ?_⟩
        obtain ⟨⟨old, hold, hk⟩, hnone⟩ := none_of_takesAway hS hv ht
        refine ⟨hnone, old, ?_⟩
        -- the edit found its old row, so the ops before it left it at the key
        cases hm : movedAway (pkEq pk probe) ops with
        | false => exact (hright hm old).mpr ⟨hold, hk⟩
        | true =>
          have := (haway hm).1 old hold
          rw [hk] at this
          cases this

end

/-! ## What an edit means -/

/-- What an edit means is one change. -/
theorem Meant.unique {reg : Registered} {S : Set Row} {old row : Row} {c c' : SourceChange Row} (hu : KeyUnique reg.primaryKey S)
    (h : Meant reg S old row c) (h' : Meant reg S old row c') : c = c' := by
  cases h with
  | whole hw =>
    cases h' with
    | whole => rfl
    | overwrite base hp => rw [hw] at hp; cases hp
    | unbased hp => rfl
  | overwrite base hp hb hk =>
    cases h' with
    | whole hw => rw [hw] at hp; cases hp
    | overwrite base' hp' hb' hk' => rw [hu base hb base' hb' (tie_of_pkEq hk hk')]
    | unbased hp' hnone =>
      rw [hnone base hb] at hk
      cases hk
  | unbased hp hnone =>
    cases h' with
    | whole => rfl
    | overwrite base' hp' hb' hk' =>
      rw [hnone base' hb'] at hk'
      cases hk'
    | unbased => rfl

/-! ## The state of a transaction -/

theorem forkWithIndexes_holds {s : MemorySource} {R : Set Row} (h : s.Holds (MemorySource.same R)) :
    (forkWithIndexes s).Holds (MemorySource.same R) :=
  h.of_indexes rfl rfl

theorem ReadFork.replay_holds {fork : MemorySource} {R S : Set Row} {ops : List (SourceChange Row)}
    (h : fork.Holds (MemorySource.same R)) (hl : MemorySource.Leads fork.primaryKey R ops S) :
    (ops.foldl ReadFork.applyChange fork).primaryKey = fork.primaryKey ∧
      (ops.foldl ReadFork.applyChange fork).Holds (MemorySource.same S) := by
  induction ops generalizing fork R with
  | nil =>
    obtain rfl : R = S := hl
    exact ⟨rfl, h⟩
  | cons change ops ih => exact ih (h.write hl.1) hl.2

namespace WriteTxn

variable {w : WriteTxn} {live : String → Set Row} {table t : String} {change : SourceChange Row} {reg : Registered}

@[simp] theorem stage_sources : (w.stage table change).sources = w.sources := by
  unfold stage forwardToFork
  split <;> rfl

theorem stage_forks : (w.stage table change).forks t =
    if t = table then (w.forks t).map fun fork => ReadFork.applyChange fork change else w.forks t := by
  unfold stage forwardToFork
  by_cases ht : t = table
  · subst ht
    cases hf : w.forks t with
    | none => simp [hf]
    | some fork => simp
  · rw [if_neg ht]
    cases hf : w.forks table with
    | none => rfl
    | some fork => exact Function.update_of_ne ht _ _

theorem stagedOn_stage : (w.stage table change).stagedOn t =
    if t = table then w.stagedOn t ++ [change] else w.stagedOn t := by
  unfold stagedOn stage
  by_cases ht : t = table
  · subst ht
    simp
  · have hne : (table == t) = false := by simpa using Ne.symm ht
    simp [ht, hne]

theorem contents_stage : (w.stage table change).contents live t =
    if t = table then applyChange (w.contents live t) change else w.contents live t := by
  unfold contents
  rw [stagedOn_stage]
  by_cases ht : t = table
  · rw [if_pos ht, if_pos ht, List.foldl_append]
    rfl
  · rw [if_neg ht, if_neg ht]

theorem findSome_staged (f : SourceChange Row → Option (Option Row)) (l : List (String × SourceChange Row)) :
    (l.findSome? fun e => if e.1 != table then none else f e.2) = ((l.filter fun e => e.1 == table).map (·.2)).findSome? f := by
  induction l with
  | nil => rfl
  | cons e l ih =>
    rw [List.findSome?_cons, ih, List.filter_cons]
    by_cases he : e.1 = table
    · simp [he, List.findSome?_cons]
    · simp [he]

theorem lookupEffective_eq (hreg : w.sources table = some reg) (probe : Row) :
    w.lookupEffective table probe = scanOps (pkEq reg.primaryKey probe) (w.stagedOn table) (reg.source.getByPk probe) := by
  unfold lookupEffective scanOps stagedOn
  rw [hreg, Option.bind_some, findSome_staged, List.filter_reverse, List.map_reverse]

theorem foldl_staged (l : List (String × SourceChange Row)) (fork : MemorySource) :
    l.foldl (fun fork e => if e.1 = table then ReadFork.applyChange fork e.2 else fork) fork =
      ((l.filter fun e => e.1 == table).map (·.2)).foldl ReadFork.applyChange fork := by
  induction l generalizing fork with
  | nil => rfl
  | cons e l ih =>
    rw [List.foldl_cons, ih, List.filter_cons]
    by_cases he : e.1 = table
    · simp [he]
    · simp [he]

/-- The live sources hold the live rows, the staged ops lead from them to the contents, and every fork
    holds the contents. -/
structure Ready (w : WriteTxn) (live : String → Set Row) : Prop where
  sources : ∀ table reg, w.sources table = some reg → reg.source.Holds (MemorySource.same (live table))
  leads : ∀ table reg, w.sources table = some reg →
    MemorySource.Leads reg.primaryKey (live table) (w.stagedOn table) (w.contents live table)
  forks : ∀ table fork, w.forks table = some fork → ∃ reg, w.sources table = some reg ∧
    fork.primaryKey = reg.primaryKey ∧ fork.Holds (MemorySource.same (w.contents live table))

theorem Ready.unique (h : w.Ready live) (hreg : w.sources table = some reg) : KeyUnique reg.primaryKey (live table) :=
  reg.keyed ▸ (h.sources table reg hreg).unique

/-- The live source reads the live rows. -/
theorem Ready.getByPk (h : w.Ready live) (hreg : w.sources table = some reg) (probe : Row) :
    Reads reg.primaryKey (live table) probe (reg.source.getByPk probe) := by
  have hh := h.sources table reg hreg
  obtain ⟨i, hi⟩ := MemorySource.index?_isSome hh.primary
  obtain ⟨him, hsort⟩ := MemorySource.index?_some hi
  have hv := hh.valid i him
  have hrows := hh.rows i him
  rw [hsort] at hv
  intro r
  rw [MemorySource.getByPk, hi, Option.bind_some, BTree.get_eq hv, SList.find_eq_some hv.sorted, hrows r, pkEq_iff]
  refine and_congr_right fun _ => ?_
  rw [← reg.keyed]
  exact SList.eq_comm

/-- What the scan reads. -/
theorem Ready.lookup (h : w.Ready live) (hreg : w.sources table = some reg) (probe : Row) :
    (movedAway (pkEq reg.primaryKey probe) (w.stagedOn table) = false →
        Reads reg.primaryKey (w.contents live table) probe (w.lookupEffective table probe)) ∧
      (movedAway (pkEq reg.primaryKey probe) (w.stagedOn table) = true →
        (∀ r ∈ w.contents live table, pkEq reg.primaryKey probe r = false) ∧ ∃ r, w.lookupEffective table probe = some r) := by
  rw [lookupEffective_eq hreg]
  exact scanOps_spec (h.unique hreg) (h.getByPk hreg probe) (h.leads table reg hreg)

/-! ## One call -/

/-- Staging an op that fits. -/
theorem Ready.stage (h : w.Ready live) (hreg : w.sources table = some reg)
    (hv : ValidChange reg.primaryKey (w.contents live table) change) : (w.stage table change).Ready live := by
  refine ⟨?_, ?_, ?_⟩
  · intro t r hr
    rw [stage_sources] at hr
    exact h.sources t r hr
  · intro t r hr
    rw [stage_sources] at hr
    rw [stagedOn_stage, contents_stage]
    by_cases ht : t = table
    · subst ht
      obtain rfl := Option.some.inj (hreg.symm.trans hr)
      rw [if_pos rfl, if_pos rfl]
      exact (h.leads t reg hreg).append ⟨hv, rfl⟩
    · rw [if_neg ht, if_neg ht]
      exact h.leads t r hr
  · intro t fork hf
    rw [stage_forks] at hf
    rw [stage_sources, contents_stage]
    by_cases ht : t = table
    · subst ht
      rw [if_pos rfl] at hf ⊢
      obtain ⟨cache, hc, rfl⟩ := Option.map_eq_some_iff.mp hf
      obtain ⟨r, hr, hk, hh⟩ := h.forks t cache hc
      obtain rfl := Option.some.inj (hreg.symm.trans hr)
      exact ⟨reg, hr, hk, hh.write (hk ▸ hv)⟩
    · rw [if_neg ht] at hf ⊢
      exact h.forks t fork hf

/-- The fork seeded at any moment holds the contents. -/
theorem Ready.seededFork (h : w.Ready live) (hreg : w.sources table = some reg) :
    (w.seededFork table reg.source).primaryKey = reg.primaryKey ∧
      (w.seededFork table reg.source).Holds (MemorySource.same (w.contents live table)) := by
  unfold WriteTxn.seededFork
  rw [foldl_staged]
  have hfork := forkWithIndexes_holds (h.sources table reg hreg)
  have hl := h.leads table reg hreg
  rw [← reg.keyed] at hl ⊢
  exact ReadFork.replay_holds hfork hl

/-- A fork that is there stays, and a registered table gets one. -/
theorem Ready.ensureFork (h : w.Ready live) (table : String) :
    (w.ensureFork table).1.Ready live ∧ (w.ensureFork table).1.sources = w.sources ∧
      (w.ensureFork table).1.staged = w.staged ∧
      (∀ t fork, w.forks t = some fork → (w.ensureFork table).1.forks t = some fork) ∧
      ((w.sources table).isSome = true →
        (w.ensureFork table).2 = .ok () ∧ ∃ fork, (w.ensureFork table).1.forks table = some fork) := by
  unfold WriteTxn.ensureFork
  cases hf : w.forks table with
  | some fork => exact ⟨h, rfl, rfl, fun _ _ ht => ht, fun _ => ⟨rfl, fork, hf⟩⟩
  | none =>
    cases hr : w.sources table with
    | none => exact ⟨h, rfl, rfl, fun _ _ ht => ht, fun hsome => by cases hsome⟩
    | some reg =>
      refine ⟨⟨h.sources, h.leads, ?_⟩, rfl, rfl, ?_, fun _ => ⟨rfl, _, Function.update_self ..⟩⟩
      · intro t fork ht
        by_cases heq : t = table
        · subst heq
          have hfork : Function.update w.forks t (some (w.seededFork t reg.source)) t = some fork := ht
          rw [Function.update_self] at hfork
          obtain rfl := Option.some.inj hfork
          obtain ⟨hk, hh⟩ := h.seededFork hr
          exact ⟨reg, hr, hk, hh⟩
        · exact h.forks t fork ((Function.update_of_ne heq _ _).symm.trans ht)
      · intro t fork ht
        have hne : t ≠ table := by
          intro heq
          rw [heq, hf] at ht
          cases ht
        exact (Function.update_of_ne hne _ _).trans ht

theorem Ready.ensureForks (tables : List String) : ∀ {w : WriteTxn}, w.Ready live →
    (w.ensureForks tables).1.Ready live ∧ (w.ensureForks tables).1.sources = w.sources ∧
      (w.ensureForks tables).1.staged = w.staged ∧
      (∀ t fork, w.forks t = some fork → (w.ensureForks tables).1.forks t = some fork) ∧
      ((∀ t ∈ tables, (w.sources t).isSome = true) →
        (w.ensureForks tables).2 = .ok () ∧ ∀ t ∈ tables, ∃ fork, (w.ensureForks tables).1.forks t = some fork) := by
  induction tables with
  | nil => exact fun h => ⟨h, rfl, rfl, fun _ _ ht => ht, fun _ => ⟨rfl, fun t ht => by cases ht⟩⟩
  | cons table tables ih =>
    intro w h
    obtain ⟨h1, hs1, hg1, hkeep1, hok1⟩ := h.ensureFork table
    unfold WriteTxn.ensureForks
    generalize w.ensureFork table = r at h1 hs1 hg1 hkeep1 hok1
    obtain ⟨w1, res⟩ := r
    cases res with
    | error e =>
      refine ⟨h1, hs1, hg1, hkeep1, ?_⟩
      intro hreg
      cases (hok1 (hreg table List.mem_cons_self)).1
    | ok u =>
      obtain ⟨h2, hs2, hg2, hkeep2, hok2⟩ := ih h1
      refine ⟨h2, hs2.trans hs1, hg2.trans hg1, fun t fork ht => hkeep2 t fork (hkeep1 t fork ht), ?_⟩
      intro hreg
      obtain ⟨-, fork, hfork⟩ := hok1 (hreg table List.mem_cons_self)
      have hreg1 : ∀ t ∈ tables, (w1.sources t).isSome = true := by
        intro t ht
        rw [show w1.sources = w.sources from hs1]
        exact hreg t (List.mem_cons_of_mem _ ht)
      refine ⟨(hok2 hreg1).1, ?_⟩
      intro t ht
      rcases List.mem_cons.mp ht with rfl | ht
      · exact ⟨fork, hkeep2 t fork hfork⟩
      · exact (hok2 hreg1).2 t ht

/-- A query of registered tables reads their contents. -/
theorem Ready.query (h : w.Ready live) {tables : List String} (hreg : ∀ t ∈ tables, (w.sources t).isSome = true) :
    ∃ scratch, (w.query tables).2 = .ok scratch ∧ scratch.map (·.1) = tables ∧
      ∀ e ∈ scratch, e.2.Holds (MemorySource.same (w.contents live e.1)) := by
  obtain ⟨h1, -, hg1, -, hforks⟩ := h.ensureForks tables
  obtain ⟨hok, hall⟩ := hforks hreg
  have hcontents : ∀ t, (w.ensureForks tables).1.contents live t = w.contents live t := by
    intro t
    unfold contents stagedOn
    rw [hg1]
  unfold WriteTxn.query
  generalize w.ensureForks tables = r at h1 hg1 hforks hok hall hcontents
  obtain ⟨w1, res⟩ := r
  obtain rfl : res = .ok () := hok
  refine ⟨_, rfl, ?_, ?_⟩
  · clear hreg hforks
    induction tables with
    | nil => rfl
    | cons t tables ih =>
      obtain ⟨fork, hf⟩ := hall t List.mem_cons_self
      have hrest := ih fun t ht => hall t (List.mem_cons_of_mem _ ht)
      simp only at hf hrest ⊢
      rw [List.filterMap_cons, hf, Option.map_some, List.map_cons, hrest]
  · intro e he
    obtain ⟨t, ht, hm⟩ := List.mem_filterMap.mp he
    obtain ⟨cache, hc, rfl⟩ := Option.map_eq_some_iff.mp hm
    obtain ⟨reg, hr, hk, hh⟩ := h1.forks t cache hc
    rw [← hcontents t]
    exact forkWithIndexes_holds hh

/-! ## Edits -/

/-- A key that some row has was not moved away. -/
theorem Ready.settled (h : w.Ready live) (hreg : w.sources table = some reg) {probe base : Row}
    (hb : base ∈ w.contents live table) (hk : pkEq reg.primaryKey probe base = true) :
    movedAway (pkEq reg.primaryKey probe) (w.stagedOn table) = false := by
  rw [Bool.eq_false_iff]
  intro hm
  have := ((h.lookup hreg probe).2 hm).1 base hb
  rw [hk] at this
  cases this

/-- An edit stages the change it means, unless its key was moved away. -/
theorem Ready.editChange (h : w.Ready live) (hreg : w.sources table = some reg) (old : Row) {row : Row}
    (hset : isPartialRow row = true → movedAway (pkEq reg.primaryKey row) (w.stagedOn table) = false) :
    Meant reg (w.contents live table) old row (w.editChange table reg.cols old row) := by
  unfold WriteTxn.editChange
  by_cases hp : isPartialRow row = true
  · rw [if_pos hp]
    have hread := (h.lookup hreg row).1 (hset hp)
    cases hf : w.lookupEffective table row with
    | some base =>
      obtain ⟨hb, hk⟩ := (hread base).mp hf
      exact .overwrite base hp hb hk
    | none =>
      refine .unbased hp ?_
      intro x hx
      rw [Bool.eq_false_iff]
      intro hk
      have := (hread x).mpr ⟨hx, hk⟩
      rw [hf] at this
      cases this
  · rw [if_neg hp]
    exact .whole (Bool.eq_false_iff.mpr hp)

theorem edit_eq (hreg : w.sources table = some reg) {old row : Row} (hold : old.length = reg.cols) (hrow : row.length = reg.cols) :
    w.edit table old row = (w.stage table (w.editChange table reg.cols old row), .ok ()) := by
  simp [WriteTxn.edit, WriteTxn.cols, hreg, ownedRow, hold, hrow, bind, Except.bind]

end WriteTxn

/-! ## Runs -/

/-- A partial edit's key was not moved away. -/
def Call.Settled (w : WriteTxn) : Call → Prop
  | .edit table _ row => ∀ reg, w.sources table = some reg → isPartialRow row = true →
      movedAway (pkEq reg.primaryKey row) (w.stagedOn table) = false
  | _ => True

/-- Each call fits where it is made. -/
def Admitted (live : String → Set Row) : WriteTxn → List Call → Prop
  | _, [] => True
  | w, call :: calls => call.Valid w live ∧ call.Settled w ∧ Admitted live (w.step call) calls

namespace WriteTxn

variable {w : WriteTxn} {live : String → Set Row}

theorem Ready.step {call : Call} (h : w.Ready live) (hv : call.Valid w live) (hs : call.Settled w) :
    (w.step call).Ready live ∧ (w.step call).sources = w.sources := by
  cases call with
  | add table row =>
    cases hreg : w.sources table with
    | none => simpa [WriteTxn.step, WriteTxn.add, WriteTxn.cols, hreg, bind, Except.bind] using h
    | some reg =>
      by_cases hrow : row.length = reg.cols
      · have hadd : w.step (.add table row) = w.stage table (.add row) := by
          simp [WriteTxn.step, WriteTxn.add, WriteTxn.cols, hreg, ownedRow, hrow, bind, Except.bind]
        rw [hadd]
        exact ⟨h.stage hreg (hv reg hreg hrow), stage_sources⟩
      · simpa [WriteTxn.step, WriteTxn.add, WriteTxn.cols, hreg, ownedRow, hrow, bind, Except.bind] using h
  | remove table row =>
    cases hreg : w.sources table with
    | none => simpa [WriteTxn.step, WriteTxn.remove, WriteTxn.cols, hreg, bind, Except.bind] using h
    | some reg =>
      by_cases hrow : row.length = reg.cols
      · have hremove : w.step (.remove table row) = w.stage table (.remove row) := by
          simp [WriteTxn.step, WriteTxn.remove, WriteTxn.cols, hreg, ownedRow, hrow, bind, Except.bind]
        rw [hremove]
        exact ⟨h.stage hreg (hv reg hreg hrow), stage_sources⟩
      · simpa [WriteTxn.step, WriteTxn.remove, WriteTxn.cols, hreg, ownedRow, hrow, bind, Except.bind] using h
  | edit table old row =>
    cases hreg : w.sources table with
    | none => simpa [WriteTxn.step, WriteTxn.edit, WriteTxn.cols, hreg, bind, Except.bind] using h
    | some reg =>
      by_cases hold : old.length = reg.cols
      · by_cases hrow : row.length = reg.cols
        · have hedit : w.step (.edit table old row) = w.stage table (w.editChange table reg.cols old row) := by
            rw [WriteTxn.step, edit_eq hreg hold hrow]
          rw [hedit]
          have hmeant := h.editChange hreg old (hs reg hreg)
          exact ⟨h.stage hreg (hv reg hreg hold hrow _ hmeant), stage_sources⟩
        · simpa [WriteTxn.step, WriteTxn.edit, WriteTxn.cols, hreg, ownedRow, hold, hrow, bind, Except.bind] using h
      · simpa [WriteTxn.step, WriteTxn.edit, WriteTxn.cols, hreg, ownedRow, hold, bind, Except.bind] using h
  | get table pk => exact ⟨h, rfl⟩
  | query tables =>
    obtain ⟨h1, hs1, -, -, -⟩ := h.ensureForks tables
    have hquery : w.step (.query tables) = (w.ensureForks tables).1 := by
      show (w.query tables).1 = _
      unfold WriteTxn.query
      generalize w.ensureForks tables = r
      obtain ⟨w1, res⟩ := r
      cases res <;> rfl
    rw [hquery]
    exact ⟨h1, hs1⟩

theorem Ready.run (calls : List Call) : ∀ {w : WriteTxn}, w.Ready live → Admitted live w calls →
    (w.run calls).Ready live ∧ (w.run calls).sources = w.sources := by
  induction calls with
  | nil => exact fun h _ => ⟨h, rfl⟩
  | cons call calls ih =>
    intro w h ha
    obtain ⟨h1, hs1⟩ := h.step ha.1 ha.2.1
    obtain ⟨h2, hs2⟩ := ih h1 ha.2.2
    exact ⟨h2, hs2.trans hs1⟩

/-- A transaction just opened. -/
theorem ready_opened {sources : String → Option Registered}
    (hlive : ∀ table reg, sources table = some reg → reg.source.Holds (MemorySource.same (live table))) :
    ({ sources } : WriteTxn).Ready live :=
  ⟨hlive, fun _ _ _ => rfl, fun _ _ hf => by cases hf⟩

/-- The reads of a transaction, after any run of ops that each fit the live rows with the ops before:
    the scan reads the contents at a key exactly when the key was not moved away; a query's sources
    hold the contents, whenever they were seeded; a partial edit of a row that is there goes from that
    row to that row with the present cells overwritten. -/
theorem read_your_writes (sources : String → Option Registered) (live : String → Set Row)
    (hlive : ∀ table reg, sources table = some reg → reg.source.Holds (MemorySource.same (live table)))
    (calls : List Call) (hcalls : Admitted live { sources } calls) :
    let w := ({ sources } : WriteTxn).run calls
    (∀ table reg, sources table = some reg → ∀ probe,
      Reads reg.primaryKey (w.contents live table) probe (w.lookupEffective table probe) ↔
        movedAway (pkEq reg.primaryKey probe) (w.stagedOn table) = false) ∧
    (∀ tables, (∀ t ∈ tables, (sources t).isSome = true) → ∃ scratch, (w.query tables).2 = .ok scratch ∧
      scratch.map (·.1) = tables ∧ ∀ e ∈ scratch, e.2.Holds (MemorySource.same (w.contents live e.1))) ∧
    (∀ table reg, sources table = some reg → ∀ old row base, old.length = reg.cols → row.length = reg.cols →
      isPartialRow row = true → base ∈ w.contents live table → pkEq reg.primaryKey row base = true →
        (w.edit table old row).1.staged = w.staged ++ [(table, .edit base (mergePartial reg.cols base row))]) := by
  obtain ⟨h, hs⟩ := (ready_opened hlive).run calls hcalls
  simp only
  generalize ({ sources } : WriteTxn).run calls = w at h hs
  subst hs
  refine ⟨?_, fun tables hreg => h.query hreg, ?_⟩
  · intro table reg hreg probe
    obtain ⟨hright, haway⟩ := h.lookup hreg probe
    constructor
    · intro hread
      rw [Bool.eq_false_iff]
      intro hm
      obtain ⟨hnone, r, hr⟩ := haway hm
      obtain ⟨hmem, hk⟩ := (hread r).mp hr
      rw [hnone r hmem] at hk
      cases hk
    · exact hright
  · intro table reg hreg old row base hold hrow hp hb hk
    have hmeant := @h.editChange _ _ _ _ hreg old row fun _ => h.settled hreg hb hk
    have hu : KeyUnique reg.primaryKey (w.contents live table) :=
      MemorySource.Leads.keyUnique (h.unique hreg) (h.leads table reg hreg)
    rw [edit_eq hreg hold hrow, hmeant.unique hu (.overwrite base hp hb hk)]
    rfl

/-! ## A row moved to another key -/

/-- The op stages its edit on a table two columns wide. -/
theorem move_staged {reg : Registered} (hc : reg.cols = 2) :
    (({ sources := fun _ => some reg } : WriteTxn).run
      [.query ["item"], .edit "item" [.int 1, .int 10] [.int 2, .int 10]]).stagedOn "item" =
        [.edit [.int 1, .int 10] [.int 2, .int 10]] := by
  obtain ⟨s, pk, cols, hk⟩ := reg
  obtain rfl : cols = 2 := hc
  rfl

/-- One table, in which one row is moved from key 1 to key 2. -/
theorem move_admitted : ∃ reg : Registered, MemorySource.tryNew 2 [0] [[.int 1, .int 10]] = .ok reg.source ∧
    reg.primaryKey = [0] ∧ reg.cols = 2 ∧
    reg.source.Holds (MemorySource.same {x | x ∈ [[Value.int 1, .int 10]]}) ∧
    Admitted (fun _ => {x | x ∈ [[Value.int 1, .int 10]]}) { sources := fun _ => some reg }
      [.query ["item"], .edit "item" [.int 1, .int 10] [.int 2, .int 10]] := by
  obtain ⟨s, hnew⟩ : ∃ s, MemorySource.tryNew 2 [0] [[.int 1, .int 10]] = .ok s := ⟨_, rfl⟩
  have hok := MemorySource.tryNew_ok hnew (List.pairwise_singleton _ _)
  have hk : s.primaryKey = [0] := by
    rw [← Except.ok.inj hnew]
  refine ⟨⟨s, [0], 2, hk⟩, hnew, rfl, rfl, hok.holds, ⟨trivial, trivial, ?_, ?_, trivial⟩⟩
  · intro r hr _ _ change hmeant
    obtain rfl := Option.some.inj hr
    cases hmeant with
    | whole =>
      refine ⟨List.mem_singleton.mpr rfl, ?_⟩
      intro x hx hne
      exact absurd (List.mem_singleton.mp hx) hne
    | overwrite base hp => cases hp
    | unbased hp => cases hp
  · intro r hr hp
    cases hp

/-- A query seeds the fork, the row is moved to key 2, a partial edit finds it there; key 2 was not moved away. -/
theorem read_your_writes_moved : ∃ reg : Registered, MemorySource.tryNew 2 [0] [[.int 1, .int 10]] = .ok reg.source ∧
    let w := ({ sources := fun _ => some reg } : WriteTxn).run
      [.query ["item"], .edit "item" [.int 1, .int 10] [.int 2, .int 10]]
    Reads [0] (w.contents (fun _ => {x | x ∈ [[Value.int 1, .int 10]]}) "item") [.int 2, .null]
        (w.lookupEffective "item" [.int 2, .null]) ∧
      (w.edit "item" [.int 2, .absent] [.int 2, .absent]).1.staged =
        w.staged ++ [("item", .edit [.int 2, .int 10] [.int 2, .int 10])] := by
  obtain ⟨reg, hnew, hk, hc, hlive, hcalls⟩ := move_admitted
  obtain ⟨hread, -, hedit⟩ := read_your_writes (fun _ => some reg) (fun _ => {x | x ∈ [[Value.int 1, .int 10]]})
    (fun table r hr => by obtain rfl := Option.some.inj hr; exact hlive) _ hcalls
  have hstaged := move_staged hc
  refine ⟨reg, hnew, ?_, ?_⟩
  · rw [← hk]
    refine (hread "item" reg rfl [.int 2, .null]).mpr ?_
    rw [hstaged, hk]
    decide +kernel
  · have hmerge : mergePartial reg.cols [.int 2, .int 10] [.int 2, .absent] = [.int 2, .int 10] := by
      rw [hc]
      rfl
    have hthere : [Value.int 2, .int 10] ∈ WriteTxn.contents (WriteTxn.run { sources := fun _ => some reg }
        [.query ["item"], .edit "item" [.int 1, .int 10] [.int 2, .int 10]])
          (fun _ => {x | x ∈ [[Value.int 1, .int 10]]}) "item" := by
      unfold WriteTxn.contents
      rw [hstaged]
      exact Set.mem_insert _ _
    have hstages := hedit "item" reg rfl [.int 2, .absent] [.int 2, .absent] [.int 2, .int 10] hc.symm hc.symm rfl hthere
      (by rw [hk]; decide +kernel)
    rw [hmerge] at hstages
    exact hstages

/-- A read of the key the row has left answers the row, though no row has that key any more. -/
theorem get_reads_moved_row : ∃ reg : Registered, MemorySource.tryNew 2 [0] [[.int 1, .int 10]] = .ok reg.source ∧
    reg.primaryKey = [0] ∧ reg.source.Holds (MemorySource.same {x | x ∈ [[Value.int 1, .int 10]]}) ∧
    Admitted (fun _ => {x | x ∈ [[Value.int 1, .int 10]]}) { sources := fun _ => some reg }
      [.query ["item"], .edit "item" [.int 1, .int 10] [.int 2, .int 10]] ∧
    let w := ({ sources := fun _ => some reg } : WriteTxn).run
      [.query ["item"], .edit "item" [.int 1, .int 10] [.int 2, .int 10]]
    w.get "item" [.int 1] = .ok (some [.int 1, .int 10]) ∧
      ∀ r ∈ w.contents (fun _ => {x | x ∈ [[Value.int 1, .int 10]]}) "item", pkEq [0] [.int 1, .null] r = false := by
  obtain ⟨reg, hnew, hk, hc, hlive, hcalls⟩ := move_admitted
  have hready : ({ sources := fun _ => some reg } : WriteTxn).Ready fun _ => {x | x ∈ [[Value.int 1, .int 10]]} :=
    ready_opened fun table r hr => by obtain rfl := Option.some.inj hr; exact hlive
  obtain ⟨h, hs⟩ := hready.run _ hcalls
  have hstaged := move_staged hc
  refine ⟨reg, hnew, hk, hlive, hcalls, ?_, ?_⟩
  · -- the scan skips the edit and goes on to the live row
    have hskip : scanOps (pkEq [0] [.int 1, .null]) [.edit [.int 1, .int 10] [.int 2, .int 10]] =
        fun live => live := by
      have hne : pkEq [0] [.int 1, .null] [.int 2, .int 10] = false := by decide +kernel
      funext live
      simp [scanOps, answers, hne]
    have hlookup := lookupEffective_eq (congrFun hs "item") [.int 1, .null]
    rw [hstaged, hk, hskip] at hlookup
    have hitem : ({ sources := fun _ => some reg } : WriteTxn).sources "item" = some reg := rfl
    have hlive1 := (hready.getByPk hitem [.int 1, .null] [.int 1, .int 10]).mpr
      ⟨List.mem_singleton.mpr rfl, by rw [hk]; decide +kernel⟩
    have hprobe : probe reg [.int 1] = [.int 1, .null] := by
      rw [probe, hk, hc]
      rfl
    simp only [WriteTxn.get, congrFun hs "item", hk, List.length_singleton, ne_eq, not_true_eq_false, if_false, hprobe]
    rw [hlookup, hlive1]
  · intro r hr
    unfold WriteTxn.contents at hr
    rw [hstaged] at hr
    rcases hr with rfl | ⟨hr, hne⟩
    · decide +kernel
    · exact absurd (List.mem_singleton.mp hr) hne

end WriteTxn

end Rindle.Wasm
