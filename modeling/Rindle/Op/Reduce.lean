/-
  Rindle.Op.Reduce — count, sum and avg, kept from a stream of changes (`rust/src/op/reduce.rs`).

  A group's slot has its number of rows and, for each sum or avg, an accumulator that a row can be
  taken out of again. One operator, three regimes: global (no group columns; one row that never
  dies), eager (a full fetch folds every group; a row without a slot starts a group, the last row
  takes the slot away) and lazy (a join fetches one group at a time; without a slot a change is
  dropped, and an empty group keeps its slot).

  The counters `count`, `non_null`, `float_count` (i64) and `int_sum` (i128) are integers here.
-/

import Mathlib.Algebra.BigOperators.Group.List.Basic
import Mathlib.Algebra.Order.BigOperators.Group.List
import Rindle.Lib.Rounding
import Rindle.Op.Partition

set_option linter.dupNamespace false

namespace Rindle

/-- Which aggregate an output column has. -/
inductive AggSpec where
  | count
  | sum (col : Nat)
  | avg (col : Nat)

/-- The column an accumulator is kept for. -/
def AggSpec.col : AggSpec → Option Nat
  | .count => none
  | .sum c => some c
  | .avg c => some c

structure ReduceAcc where
  intSum : Int := 0
  floatSum : F64 := .zero
  nonNull : Int := 0
  floatCount : Int := 0
  deriving DecidableEq

/-- `acc_delta`: `sign` is 1 for a row that comes, -1 for one that goes. -/
@[grind] def accDelta (acc : ReduceAcc) (v : Value) (sign : Int) : ReduceAcc :=
  match v with
  | .int i => { acc with intSum := acc.intSum + sign * i.toInt, nonNull := acc.nonNull + sign }
  | .float f =>
    { acc with floatSum := acc.floatSum.add (if sign < 0 then f.neg else f), floatCount := acc.floatCount + sign,
               nonNull := acc.nonNull + sign }
  | .null => acc
  | .absent => acc
  | .bool _ => { acc with nonNull := acc.nonNull + sign }
  | .str _ => { acc with nonNull := acc.nonNull + sign }
  | .json _ => { acc with nonNull := acc.nonNull + sign }

/-- `sum_value`: an integer total outside i64 is an error. -/
def sumValue (a : ReduceAcc) : Except Int Value :=
  if a.nonNull = 0 then .ok .null
  else if a.floatCount = 0 then
    if -2 ^ 63 ≤ a.intSum ∧ a.intSum < 2 ^ 63 then .ok (.int (Int64.ofInt a.intSum)) else .error a.intSum
  else .ok (.float ((F64.ofInt a.intSum).add a.floatSum))

/-- The cast of an i64. -/
def i64AsF64 (n : Int) : F64 := F64.ofInt (min n (2 ^ 63 - 1))

/-- `avg_value`. -/
def avgValue (a : ReduceAcc) : Value :=
  if a.nonNull = 0 then .null else .float (((F64.ofInt a.intSum).add a.floatSum).div (i64AsF64 a.nonNull))

/-- `agg_val_eq`: an integer is not a float here. -/
@[grind] def aggValEq : Value → Value → Bool
  | .null, .null => true
  | .absent, .absent => true
  | .bool x, .bool y => x == y
  | .int x, .int y => x == y
  | .float x, .float y => F64.feq x y
  | .str x, .str y => x == y
  | .json x, .json y => x == y
  | _, _ => false

/-- `agg_rows_equal`. -/
def aggRowsEqual (a b : Row) : Bool := a.length == b.length && (a.zip b).all fun p => aggValEq p.1 p.2

/-- The slots Reduce writes. -/
abbrev ReduceStorage := List UInt8 → Option (Int × List ReduceAcc)

def ReduceStorage.set (st : ReduceStorage) (key : List UInt8) (s : Int × List ReduceAcc) : ReduceStorage :=
  fun k => if k = key then some s else st k

def ReduceStorage.del (st : ReduceStorage) (key : List UInt8) : ReduceStorage := fun k => if k = key then none else st k

structure Reduce where
  aggs : List AggSpec
  partitionKey : Option (List Nat) := none
  eager : Bool := true

namespace Reduce

/-- The bytes of `reduce`. -/
def keyPrefix : List UInt8 := [0x72, 0x65, 0x64, 0x75, 0x63, 0x65]

/-- `GLOBAL_KEY`. -/
def globalKey : List UInt8 := encodeStateKey keyPrefix []

variable (op : Reduce)

/-! ## Groups -/

/-- The group columns. -/
def cols : List Nat := Partition.cols op.partitionKey

/-- `group_vals`. -/
def groupVals (row : Row) : List Value := op.cols.map fun c => row.cell c

/-- `group_vals_from_constraint`: the constraint is on output columns. -/
def groupValsFromConstraint (c : Constraint) (k : Nat) : List Value :=
  (List.range k).map fun i => ((c.find? fun q => q.1 == i).map (·.2)).getD .null

/-- `input_constraint`. -/
def inputConstraint (vals : List Value) : Constraint := op.cols.zip vals

/-- `group_key`. -/
def groupKey (vals : List Value) : List UInt8 := encodeStateKey keyPrefix vals

/-! ## Accumulators -/

/-- The columns summed, one accumulator for each. -/
def summed : List Nat := op.aggs.filterMap AggSpec.col

/-- `new_accs`. -/
def newAccs : List ReduceAcc := op.summed.map fun _ => {}

/-- `acc_apply`. -/
def accApply (accs : List ReduceAcc) (row : Row) (sign : Int) : List ReduceAcc :=
  List.zipWith (fun c a => accDelta a (row.cell c) sign) op.summed accs

/-- The cells of `agg_row` after the group's: a total that is an error is null. -/
def aggCells : List AggSpec → Int → List ReduceAcc → List Value
  | [], _, _ => []
  | .count :: aggs, count, accs => .int (Int64.ofInt count) :: aggCells aggs count accs
  | .sum _ :: aggs, count, a :: accs =>
    (match sumValue a with | .ok v => v | .error _ => .null) :: aggCells aggs count accs
  | .avg _ :: aggs, count, a :: accs => avgValue a :: aggCells aggs count accs
  | _, _, [] => []

/-- `agg_row`. -/
@[grind] def aggRow (vals : List Value) (count : Int) (accs : List ReduceAcc) : Row := vals ++ aggCells op.aggs count accs

/-- One more row. -/
def foldRow (s : Int × List ReduceAcc) (row : Row) : Int × List ReduceAcc := (s.1 + 1, op.accApply s.2 row 1)

/-- `fold`. -/
def fold (up : Upstream) (req : FetchRequest) : Option (Int × List ReduceAcc) :=
  (up req).map fun nodes => (nodes.map Node.row).foldl op.foldRow (0, op.newAccs)

/-! ## Fetch -/

/-- The slot; without one the rows are folded into it. -/
def readOrFold (up : Upstream) (st : ReduceStorage) (key : List UInt8) (req : FetchRequest) :
    Option (ReduceStorage × (Int × List ReduceAcc)) :=
  match st key with
  | some s => some (st, s)
  | none => (op.fold up req).map fun s => (st.set key s, s)

/-- A group of a full fold: its key, cells, row count and accumulators. -/
structure Group where
  key : List UInt8
  vals : List Value
  state : Int × List ReduceAcc

/-- A row into its group; the first row's cells stay. -/
def fileRow : List Group → Row → List Group
  | [], row => [⟨groupKey (op.groupVals row), op.groupVals row, op.foldRow (0, op.newAccs) row⟩]
  | g :: groups, row =>
    if g.key = groupKey (op.groupVals row) then { g with state := op.foldRow g.state row } :: groups
    else g :: fileRow groups row

/-- The output is sorted by the group columns, in output coordinates. -/
def outSort : SortSpec := (List.range op.cols.length).map fun i => (i, true)

/-- `fetch_one_group`: an empty group gets a slot and no row. -/
def fetchOneGroup (up : Upstream) (st : ReduceStorage) (vals : List Value) : Option (ReduceStorage × List Node) := do
  let (st, s) ← op.readOrFold up st (groupKey vals) { constraint := some (op.inputConstraint vals) }
  some (st, if 0 < s.1 then [.leaf (op.aggRow vals s.1 s.2)] else [])

/-- The rest of `fetch`: every group from the whole input. -/
def fetchAll (up : Upstream) (st : ReduceStorage) : Option (ReduceStorage × List Node) := do
  let nodes ← up {}
  let groups := (nodes.map Node.row).foldl op.fileRow []
  let st := groups.foldl (fun st g => st.set g.key g.state) st
  let rows := groups.map fun g => op.aggRow g.vals g.state.1 g.state.2
  some (st, (rows.mergeSort fun a b => rowCmp op.outSort a b != .gt).map .leaf)

/-- `fetch`. -/
def fetch (up : Upstream) (st : ReduceStorage) (req : FetchRequest) : Option (ReduceStorage × List Node) :=
  match op.partitionKey with
  | none => do
    let (st, s) ← op.readOrFold up st globalKey {}
    some (st, [.leaf (op.aggRow [] s.1 s.2)])
  | some pk =>
    let single := if op.eager then none else req.constraint.filter fun c => constraintMatchesPartitionKey c (List.range pk.length)
    match single with
    | some c => op.fetchOneGroup up st (groupValsFromConstraint c pk.length)
    | none => op.fetchAll up st

/-! ## Push -/

/-- What is sent when a group's row may have changed. -/
def editIfChanged (old new : Row) : List Change := if aggRowsEqual old new then [] else [.edit (.leaf new) (.leaf old)]

/-- `push_global`. -/
def pushGlobal (st : ReduceStorage) (change : Change) : ReduceStorage × List Change :=
  match st globalKey with
  | none => (st, [])
  | some (count, accs) =>
    let moved : Option (Int × List ReduceAcc) :=
      match change with
      | .add node => some (count + 1, op.accApply accs node.row 1)
      | .remove node => some (count - 1, op.accApply accs node.row (-1))
      | .edit node old => some (count, op.accApply (op.accApply accs old.row (-1)) node.row 1)
      | .child _ _ _ => none
    match moved with
    | none => (st, [])
    | some s => (st.set globalKey s, editIfChanged (op.aggRow [] count accs) (op.aggRow [] s.1 s.2))

/-- `grouped_delta`. -/
def groupedDelta (st : ReduceStorage) (row : Row) (delta : Int) : ReduceStorage × List Change :=
  let vals := op.groupVals row
  let key := groupKey vals
  match st key with
  | none =>
    if op.eager && decide (0 < delta) then
      let accs := op.accApply op.newAccs row 1
      (st.set key (delta, accs), [.add (.leaf (op.aggRow vals delta accs))])
    else (st, [])
  | some (oldCount, oldAccs) =>
    let newCount := max (oldCount + delta) 0
    let newAccs := op.accApply oldAccs row delta
    let oldRow := op.aggRow vals oldCount oldAccs
    let newRow := op.aggRow vals newCount newAccs
    match decide (0 < oldCount), decide (0 < newCount) with
    | false, true => (st.set key (newCount, newAccs), [.add (.leaf newRow)])
    | true, true => (st.set key (newCount, newAccs), editIfChanged oldRow newRow)
    | true, false => (if op.eager then st.del key else st.set key (newCount, newAccs), [.remove (.leaf oldRow)])
    | false, false => (st.set key (newCount, newAccs), [])

/-- `grouped_edit`. -/
def groupedEdit (st : ReduceStorage) (oldIn newIn : Row) : ReduceStorage × List Change :=
  let vals := op.groupVals newIn
  let key := groupKey vals
  match st key with
  | none => (st, [])
  | some (count, oldAccs) =>
    let newAccs := op.accApply (op.accApply oldAccs oldIn (-1)) newIn 1
    (st.set key (count, newAccs), editIfChanged (op.aggRow vals count oldAccs) (op.aggRow vals count newAccs))

/-- `push`. -/
def push (st : ReduceStorage) (change : Change) : ReduceStorage × List Change :=
  match op.partitionKey with
  | none => op.pushGlobal st change
  | some _ =>
    match change with
    | .add node => op.groupedDelta st node.row 1
    | .remove node => op.groupedDelta st node.row (-1)
    | .edit node old => op.groupedEdit st old.row node.row
    | .child _ _ _ => (st, [])

/-! ## Accumulators are folds -/

section
variable {op} {l l' : List Row} {r : Row}

/-- The cell is no float. -/
def NonFloat (v : Value) : Prop := ∀ f, v ≠ .float f

/-- What a cell adds to a sum and to a count of values. -/
@[grind] def intPart : Value → Int
  | .int i => i.toInt
  | _ => 0

@[grind] def nonNullPart : Value → Int
  | .null => 0
  | .absent => 0
  | _ => 1

/-- The accumulator of a column of rows. -/
def accOf (c : Nat) (l : List Row) : ReduceAcc :=
  { intSum := (l.map fun r => intPart (r.cell c)).sum, nonNull := (l.map fun r => nonNullPart (r.cell c)).sum }

theorem accDelta_eq {v : Value} (hv : NonFloat v) (a : ReduceAcc) (sign : Int) :
    accDelta a v sign = { a with intSum := a.intSum + sign * intPart v, nonNull := a.nonNull + sign * nonNullPart v } := by
  cases v with
  | float f => exact absurd rfl (hv f)
  | int i => simp [accDelta, intPart, nonNullPart]
  | absent => simp [accDelta, intPart, nonNullPart]
  | null => simp [accDelta, intPart, nonNullPart]
  | bool b => simp [accDelta, intPart, nonNullPart]
  | str b => simp [accDelta, intPart, nonNullPart]
  | json b => simp [accDelta, intPart, nonNullPart]

theorem accOf_perm (h : l.Perm l') (c : Nat) : accOf c l = accOf c l' := by
  simp only [accOf, ReduceAcc.mk.injEq, true_and, and_true]
  exact ⟨(h.map _).sum_eq, (h.map _).sum_eq⟩

theorem accDelta_add {c : Nat} (hr : NonFloat (r.cell c)) : accDelta (accOf c l) (r.cell c) 1 = accOf c (r :: l) := by
  rw [accDelta_eq hr]
  simp [accOf, Int.add_comm]

theorem accDelta_remove {c : Nat} (hr : NonFloat (r.cell c)) : accDelta (accOf c (r :: l)) (r.cell c) (-1) = accOf c l := by
  rw [accDelta_eq hr]
  simp only [accOf, List.map_cons, List.sum_cons, ReduceAcc.mk.injEq, true_and, and_true]
  omega

/-- The accumulators of a list of rows. -/
def accsOf (op : Reduce) (l : List Row) : List ReduceAcc := op.summed.map fun c => accOf c l

/-- The summed cells of the row are no floats. -/
def Summable (op : Reduce) (r : Row) : Prop := ∀ c ∈ op.summed, NonFloat (r.cell c)

theorem accsOf_nil : op.accsOf [] = op.newAccs := rfl

theorem accsOf_perm (h : l.Perm l') : op.accsOf l = op.accsOf l' := List.map_congr_left fun c _ => accOf_perm h c

theorem accApply_map (f : Nat → ReduceAcc) (r : Row) (sign : Int) :
    op.accApply (op.summed.map f) r sign = op.summed.map fun c => accDelta (f c) (r.cell c) sign := by
  rw [accApply, List.zipWith_map_right]
  simp

theorem accApply_add (hr : op.Summable r) : op.accApply (op.accsOf l) r 1 = op.accsOf (r :: l) := by
  rw [accsOf, accApply_map]
  exact List.map_congr_left fun c hc => accDelta_add (hr c hc)

theorem accApply_remove (hr : op.Summable r) : op.accApply (op.accsOf (r :: l)) r (-1) = op.accsOf l := by
  rw [accsOf, accApply_map]
  exact List.map_congr_left fun c hc => accDelta_remove (hr c hc)

theorem nonNull_nonneg (c : Nat) (l : List Row) : 0 ≤ (accOf c l).nonNull := by
  refine List.sum_nonneg fun x hx => ?_
  obtain ⟨r, -, rfl⟩ := List.mem_map.mp hx
  cases r.cell c <;> simp [nonNullPart]

theorem sumCell_eq {c : Nat} (h : aggValEq (match sumValue (accOf c l) with | .ok v => v | .error _ => .null)
    (match sumValue (accOf c l') with | .ok v => v | .error _ => .null) = true) :
    (match sumValue (accOf c l) with | .ok v => v | .error _ => Value.null) =
      (match sumValue (accOf c l') with | .ok v => v | .error _ => .null) := by
  have hcell : ∀ l : List Row, (match sumValue (accOf c l) with | .ok v => v | .error _ => Value.null) = .null ∨
      ∃ i, (match sumValue (accOf c l) with | .ok v => v | .error _ => Value.null) = .int i := by
    intro l
    have hfloat : (accOf c l).floatCount = 0 := rfl
    unfold sumValue
    rw [hfloat]
    split_ifs
    · exact Or.inl rfl
    · exact Or.inr ⟨_, rfl⟩
    · exact Or.inl rfl
    · contradiction
  rcases hcell l with ha | ⟨i, ha⟩ <;> rcases hcell l' with hb | ⟨j, hb⟩ <;> rw [ha, hb] at h ⊢ <;> simp [aggValEq] at h
  rw [h]

/-- An average of integers that compares equal is the same double: it is never the negative zero. -/
theorem avgCell_eq {c : Nat} (h : aggValEq (avgValue (accOf c l)) (avgValue (accOf c l')) = true) :
    avgValue (accOf c l) = avgValue (accOf c l') := by
  have hcell : ∀ l : List Row, avgValue (accOf c l) = .null ∨ ∃ f, avgValue (accOf c l) = .float f ∧ f ≠ F64.negZero := by
    intro l
    unfold avgValue
    split_ifs with hnull
    · exact Or.inl rfl
    · refine Or.inr ⟨_, rfl, ?_⟩
      have hpos := nonNull_nonneg c l
      exact F64.div_ne_negZero (accOf c l).intSum (by omega) (by omega)
  rcases hcell l with ha | ⟨f, ha, hf⟩ <;> rcases hcell l' with hb | ⟨g, hb, hg⟩ <;> rw [ha, hb] at h ⊢
  · cases h
  · cases h
  · rw [F64.eq_of_feq hf hg h]

theorem aggCells_eq {n n' : Int} : ∀ aggs : List AggSpec,
    ((aggCells aggs n ((aggs.filterMap AggSpec.col).map fun c => accOf c l)).zip
      (aggCells aggs n' ((aggs.filterMap AggSpec.col).map fun c => accOf c l'))).all (fun p => aggValEq p.1 p.2) = true →
    aggCells aggs n ((aggs.filterMap AggSpec.col).map fun c => accOf c l) =
      aggCells aggs n' ((aggs.filterMap AggSpec.col).map fun c => accOf c l') := by
  intro aggs
  induction aggs with
  | nil => intro _; rfl
  | cons a aggs ih =>
    intro h
    cases a with
    | count =>
      simp only [List.filterMap_cons, AggSpec.col, aggCells, List.zip_cons_cons, List.all_cons, Bool.and_eq_true] at h ⊢
      rw [ih h.2]
      have hcount := h.1
      simp only [aggValEq, beq_iff_eq] at hcount
      rw [hcount]
    | sum c =>
      simp only [List.filterMap_cons, AggSpec.col, List.map_cons, aggCells, List.zip_cons_cons, List.all_cons, Bool.and_eq_true] at h ⊢
      rw [ih h.2, sumCell_eq h.1]
    | avg c =>
      simp only [List.filterMap_cons, AggSpec.col, List.map_cons, aggCells, List.zip_cons_cons, List.all_cons, Bool.and_eq_true] at h ⊢
      rw [ih h.2, avgCell_eq h.1]

/-- Rows of one group that `agg_rows_equal` does not tell apart have the same aggregates. -/
theorem aggRowsEqual_cells {vals : List Value} {n n' : Int} (h : aggRowsEqual (op.aggRow vals n (op.accsOf l)) (op.aggRow vals n' (op.accsOf l')) = true) :
    aggCells op.aggs n (op.accsOf l) = aggCells op.aggs n' (op.accsOf l') := by
  simp only [aggRowsEqual, aggRow, Bool.and_eq_true] at h
  rw [List.zip_append rfl, List.all_append, Bool.and_eq_true] at h
  exact aggCells_eq op.aggs h.2.2

end

end Reduce

end Rindle
