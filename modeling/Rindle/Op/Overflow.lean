/-
  Rindle.Op.Overflow — the groups whose integer sum is no i64 (`rust/src/op/reduce.rs`,
  `Graph::take_runtime_error` of `rust/src/graph.rs`).

  Reduce counts the slots whose total is out of range as it writes and deletes them, so that an
  error is raised as long as there is one. Every path of a push or a fetch goes through `writeAt`
  and `delAt` (`push_written`, `fetch_written`), and these keep the count (`Written.counted`).
  A slot's integer parts are those of its group's rows whatever floats are among them, so what is
  counted are the groups whose rows add up to no i64 (`overflow_counted`).
-/

import Mathlib.Data.Set.Card
import Rindle.Op.ReduceRuns

set_option linter.dupNamespace false

namespace Rindle.Reduce

/-- `sum_total_out_of_range`, over the rest of the columns. -/
def totalOutOfRange : List AggSpec → List ReduceAcc → Bool
  | [], _ => false
  | .count :: aggs, accs => totalOutOfRange aggs accs
  | .sum _ :: aggs, a :: accs =>
    if 0 < a.nonNull ∧ a.floatCount = 0 ∧ ¬ (-2 ^ 63 ≤ a.intSum ∧ a.intSum < 2 ^ 63) then true else totalOutOfRange aggs accs
  | .avg _ :: aggs, _ :: accs => totalOutOfRange aggs accs
  | _, [] => false

/-- The slots and `overflowed`. -/
structure Slots where
  st : ReduceStorage := fun _ => none
  overflowed : Int := 0

section
variable (op : Reduce)

def sumTotalOutOfRange (accs : List ReduceAcc) : Bool := totalOutOfRange op.aggs accs

/-- `track_overflow`. -/
def trackOverflow (overflowed : Int) (old new : Option (List ReduceAcc)) : Int :=
  match old.any op.sumTotalOutOfRange, new.any op.sumTotalOutOfRange with
  | false, true => overflowed + 1
  | true, false => overflowed - 1
  | _, _ => overflowed

/-- `write_at`. -/
def writeAt (s : Slots) (key : List UInt8) (v : Int × List ReduceAcc) : Slots :=
  { st := s.st.set key v, overflowed := op.trackOverflow s.overflowed ((s.st key).map (·.2)) (some v.2) }

/-- `del_at`. -/
def delAt (s : Slots) (key : List UInt8) : Slots :=
  { st := s.st.del key, overflowed := op.trackOverflow s.overflowed ((s.st key).map (·.2)) none }

end

/-! The operator again, over slots with their counter. -/

namespace Slots

section
variable (op : Reduce)

def readOrFold (up : Upstream) (s : Slots) (key : List UInt8) (req : FetchRequest) : Option (Slots × (Int × List ReduceAcc)) :=
  match s.st key with
  | some v => some (s, v)
  | none => (op.fold up req).map fun v => (op.writeAt s key v, v)

def fetchOneGroup (up : Upstream) (s : Slots) (vals : List Value) : Option (Slots × List Node) := do
  let (s, v) ← readOrFold op up s (groupKey vals) { constraint := some (op.inputConstraint vals) }
  some (s, if 0 < v.1 then [.leaf (op.aggRow vals v.1 v.2)] else [])

def fetchAll (up : Upstream) (s : Slots) : Option (Slots × List Node) := do
  let nodes ← up {}
  let groups := (nodes.map Node.row).foldl op.fileRow []
  let s := groups.foldl (fun s g => op.writeAt s g.key g.state) s
  let rows := groups.map fun g => op.aggRow g.vals g.state.1 g.state.2
  some (s, (rows.mergeSort fun a b => rowCmp op.outSort a b != .gt).map .leaf)

def fetch (up : Upstream) (s : Slots) (req : FetchRequest) : Option (Slots × List Node) :=
  match op.partitionKey with
  | none => do
    let (s, v) ← readOrFold op up s globalKey {}
    some (s, [.leaf (op.aggRow [] v.1 v.2)])
  | some pk =>
    let single := if op.eager then none else req.constraint.filter fun c => constraintMatchesPartitionKey c (List.range pk.length)
    match single with
    | some c => fetchOneGroup op up s (groupValsFromConstraint c pk.length)
    | none => fetchAll op up s

def pushGlobal (s : Slots) (change : Change) : Slots × List Change :=
  match s.st globalKey with
  | none => (s, [])
  | some (count, accs) =>
    let moved : Option (Int × List ReduceAcc) :=
      match change with
      | .add node => some (count + 1, op.accApply accs node.row 1)
      | .remove node => some (count - 1, op.accApply accs node.row (-1))
      | .edit node old => some (count, op.accApply (op.accApply accs old.row (-1)) node.row 1)
      | .child _ _ _ => none
    match moved with
    | none => (s, [])
    | some v => (op.writeAt s globalKey v, editIfChanged (op.aggRow [] count accs) (op.aggRow [] v.1 v.2))

def groupedDelta (s : Slots) (row : Row) (delta : Int) : Slots × List Change :=
  let vals := op.groupVals row
  let key := groupKey vals
  match s.st key with
  | none =>
    if op.eager && decide (0 < delta) then
      let accs := op.accApply op.newAccs row 1
      (op.writeAt s key (delta, accs), [.add (.leaf (op.aggRow vals delta accs))])
    else (s, [])
  | some (oldCount, oldAccs) =>
    let newCount := max (oldCount + delta) 0
    let newAccs := op.accApply oldAccs row delta
    let oldRow := op.aggRow vals oldCount oldAccs
    let newRow := op.aggRow vals newCount newAccs
    match decide (0 < oldCount), decide (0 < newCount) with
    | false, true => (op.writeAt s key (newCount, newAccs), [.add (.leaf newRow)])
    | true, true => (op.writeAt s key (newCount, newAccs), editIfChanged oldRow newRow)
    | true, false => (if op.eager then op.delAt s key else op.writeAt s key (newCount, newAccs), [.remove (.leaf oldRow)])
    | false, false => (op.writeAt s key (newCount, newAccs), [])

def groupedEdit (s : Slots) (oldIn newIn : Row) : Slots × List Change :=
  let vals := op.groupVals newIn
  let key := groupKey vals
  match s.st key with
  | none => (s, [])
  | some (count, oldAccs) =>
    let newAccs := op.accApply (op.accApply oldAccs oldIn (-1)) newIn 1
    (op.writeAt s key (count, newAccs), editIfChanged (op.aggRow vals count oldAccs) (op.aggRow vals count newAccs))

def push (s : Slots) (change : Change) : Slots × List Change :=
  match op.partitionKey with
  | none => pushGlobal op s change
  | some _ =>
    match change with
    | .add node => groupedDelta op s node.row 1
    | .remove node => groupedDelta op s node.row (-1)
    | .edit node old => groupedEdit op s old.row node.row
    | .child _ _ _ => (s, [])

end

end Slots

/-! `take_runtime_error`: what was parked first, then a source's error or a count above zero. -/

inductive Polled (ε : Type) where
  | source (parked : Option ε)
  | reduce (overflowed : Int)
  | other

@[grind] def poll {ε : Type} (overflow : ε) : List (Polled ε) → Except ε Unit × List (Polled ε)
  | [] => (.ok (), [])
  | .source (some err) :: nodes => (.error err, .source none :: nodes)
  | .source none :: nodes => ((poll overflow nodes).1, .source none :: (poll overflow nodes).2)
  | .reduce n :: nodes =>
    if 0 < n then (.error overflow, .reduce n :: nodes) else ((poll overflow nodes).1, .reduce n :: (poll overflow nodes).2)
  | .other :: nodes => ((poll overflow nodes).1, .other :: (poll overflow nodes).2)

/-- `take_runtime_error`: the result, the slot of parked errors and the nodes after it. -/
def takeRuntimeError {ε : Type} (overflow : ε) (parked : Option ε) (nodes : List (Polled ε)) :
    Except ε Unit × Option ε × List (Polled ε) :=
  match parked with
  | some err => (.error err, none, nodes)
  | none => ((poll overflow nodes).1, none, (poll overflow nodes).2)

/-! ## The same operator -/

section
variable {op : Reduce} {up : Upstream} {s : Slots}

theorem Slots.readOrFold_st (key : List UInt8) (req : FetchRequest) :
    (Slots.readOrFold op up s key req).map (fun r => (r.1.st, r.2)) = op.readOrFold up s.st key req := by
  unfold Slots.readOrFold Reduce.readOrFold
  cases s.st key with
  | some v => rfl
  | none =>
    rw [Option.map_map]
    rfl

theorem foldl_writeAt_st (groups : List Group) : ∀ s : Slots,
    (groups.foldl (fun s g => op.writeAt s g.key g.state) s).st = groups.foldl (fun st g => st.set g.key g.state) s.st := by
  induction groups with
  | nil => intro s; rfl
  | cons g groups ih =>
    intro s
    rw [List.foldl_cons, List.foldl_cons, ih]
    rfl

theorem Slots.fetch_st (req : FetchRequest) :
    (Slots.fetch op up s req).map (fun r => (r.1.st, r.2)) = op.fetch up s.st req := by
  unfold Slots.fetch Reduce.fetch
  cases op.partitionKey with
  | none =>
    simp only [← Slots.readOrFold_st]
    cases Slots.readOrFold op up s globalKey {} <;> rfl
  | some pk =>
    simp only
    generalize (if op.eager = true then none
      else Option.filter (fun c => constraintMatchesPartitionKey c (List.range pk.length)) req.constraint) = single
    cases single with
    | some c =>
      simp only [Slots.fetchOneGroup, Reduce.fetchOneGroup, ← Slots.readOrFold_st]
      cases Slots.readOrFold op up s _ _ <;> rfl
    | none =>
      simp only [Slots.fetchAll, Reduce.fetchAll]
      cases up {} with
      | none => rfl
      | some nodes => simp only [Option.bind_eq_bind, Option.bind_some, Option.map_some, foldl_writeAt_st]

theorem Slots.push_st (change : Change) :
    ((Slots.push op s change).1.st, (Slots.push op s change).2) = op.push s.st change := by
  have hdelta : ∀ row delta, ((Slots.groupedDelta op s row delta).1.st, (Slots.groupedDelta op s row delta).2) = op.groupedDelta s.st row delta := by
    intro row delta
    unfold Slots.groupedDelta Reduce.groupedDelta
    cases hst : s.st (groupKey (op.groupVals row)) with
    | none =>
      simp only [hst]
      split <;> rfl
    | some v =>
      simp only [hst]
      cases decide (0 < v.1) with
      | false => cases decide (0 < max (v.1 + delta) 0) <;> rfl
      | true =>
        cases decide (0 < max (v.1 + delta) 0) with
        | true => rfl
        | false => cases op.eager <;> rfl
  unfold Slots.push Reduce.push
  cases op.partitionKey with
  | none =>
    simp only [Slots.pushGlobal, Reduce.pushGlobal]
    cases hst : s.st globalKey with
    | none => rfl
    | some v => cases change <;> rfl
  | some pk =>
    cases change with
    | add node => exact hdelta _ _
    | remove node => exact hdelta _ _
    | edit node old =>
      simp only [Slots.groupedEdit, Reduce.groupedEdit]
      cases hst : s.st (groupKey (op.groupVals node.row)) with
      | none => rfl
      | some v => rfl
    | child node rel c => rfl

/-! ## The counter -/

/-- The slot's total is out of range. -/
def Over (op : Reduce) (slot : Option (Int × List ReduceAcc)) : Prop := (slot.map (·.2)).any op.sumTotalOutOfRange = true

/-- The counter is the number of slots out of range. -/
def Counted (op : Reduce) (s : Slots) : Prop :=
  {g | op.Over (s.st g)}.Finite ∧ s.overflowed = ({g | op.Over (s.st g)}.ncard : Int)

/-- What a push or a fetch does to the slots: it writes some and deletes some. -/
inductive Written (op : Reduce) : Slots → Slots → Prop
  | refl (s : Slots) : Written op s s
  | write {s s' : Slots} (key : List UInt8) (v : Int × List ReduceAcc) : Written op s s' → Written op s (op.writeAt s' key v)
  | del {s s' : Slots} (key : List UInt8) : Written op s s' → Written op s (op.delAt s' key)

/-- The count kept through a change of one slot. -/
theorem counted_change {st st' : ReduceStorage} {n : Int} {key : List UInt8} (hother : ∀ g, g ≠ key → st' g = st g)
    (h : op.Counted ⟨st, n⟩) : op.Counted ⟨st', op.trackOverflow n ((st key).map (·.2)) ((st' key).map (·.2))⟩ := by
  obtain ⟨hfin, hcount⟩ := h
  have hother' : ∀ g, g ≠ key → (op.Over (st' g) ↔ op.Over (st g)) := fun g hg => by rw [hother g hg]
  by_cases hold : op.Over (st key)
  · have hold' : ((st key).map (·.2)).any op.sumTotalOutOfRange = true := hold
    by_cases hnew : op.Over (st' key)
    · have hnew' : ((st' key).map (·.2)).any op.sumTotalOutOfRange = true := hnew
      have hset : {g | op.Over (st' g)} = {g | op.Over (st g)} := by
        ext g
        by_cases hg : g = key
        · exact ⟨fun _ => hg ▸ hold, fun _ => hg ▸ hnew⟩
        · exact hother' g hg
      simp only [Counted, hset, trackOverflow, hold', hnew']
      exact ⟨hfin, hcount⟩
    · have hnew' : ((st' key).map (·.2)).any op.sumTotalOutOfRange = false := Bool.eq_false_iff.mpr hnew
      have hset : {g | op.Over (st' g)} = {g | op.Over (st g)} \ {key} := by
        ext g
        by_cases hg : g = key
        · exact ⟨fun h => absurd (hg ▸ h) hnew, fun h => absurd hg h.2⟩
        · exact ⟨fun h => ⟨(hother' g hg).mp h, hg⟩, fun h => (hother' g hg).mpr h.1⟩
      simp only [Counted, hset, trackOverflow, hold', hnew']
      refine ⟨hfin.sdiff, ?_⟩
      have hcard := Set.ncard_sdiff_singleton_add_one (show key ∈ {g | op.Over (st g)} from hold) hfin
      have hcount : n = ({g | op.Over (st g)}.ncard : Int) := hcount
      omega
  · have hold' : ((st key).map (·.2)).any op.sumTotalOutOfRange = false := Bool.eq_false_iff.mpr hold
    by_cases hnew : op.Over (st' key)
    · have hnew' : ((st' key).map (·.2)).any op.sumTotalOutOfRange = true := hnew
      have hset : {g | op.Over (st' g)} = insert key {g | op.Over (st g)} := by
        ext g
        by_cases hg : g = key
        · exact ⟨fun _ => Or.inl hg, fun _ => hg ▸ hnew⟩
        · exact ⟨fun h => Or.inr ((hother' g hg).mp h), fun h => (hother' g hg).mpr (h.resolve_left hg)⟩
      simp only [Counted, hset, trackOverflow, hold', hnew']
      refine ⟨hfin.insert key, ?_⟩
      rw [Set.ncard_insert_of_notMem (show key ∉ {g | op.Over (st g)} from hold) hfin]
      have hcount : n = ({g | op.Over (st g)}.ncard : Int) := hcount
      omega
    · have hnew' : ((st' key).map (·.2)).any op.sumTotalOutOfRange = false := Bool.eq_false_iff.mpr hnew
      have hset : {g | op.Over (st' g)} = {g | op.Over (st g)} := by
        ext g
        by_cases hg : g = key
        · exact ⟨fun h => absurd (hg ▸ h) hnew, fun h => absurd (hg ▸ h) hold⟩
        · exact hother' g hg
      simp only [Counted, hset, trackOverflow, hold', hnew']
      exact ⟨hfin, hcount⟩

theorem Written.counted {s s' : Slots} (h : op.Written s s') (hs : op.Counted s) : op.Counted s' := by
  induction h with
  | refl => exact hs
  | @write s' key v _ ih =>
    have h := counted_change (show ∀ g, g ≠ key → s'.st.set key v g = s'.st g from fun g hg => set_other hg v) ih
    rw [set_self] at h
    exact h
  | @del s' key _ ih =>
    have h := counted_change (show ∀ g, g ≠ key → s'.st.del key g = s'.st g from fun g hg => if_neg hg) ih
    rw [show s'.st.del key key = none from if_pos rfl] at h
    exact h

theorem counted_start : op.Counted {} := by
  have hnone : {g | op.Over (({} : Slots).st g)} = ∅ := Set.eq_empty_of_forall_notMem fun g hg => by cases hg
  rw [Counted, hnone]
  exact ⟨Set.finite_empty, by simp⟩

/-- A total that leaves the range is counted, and no longer once it is back. -/
example : let op : Reduce := { aggs := [.sum 0] }
    let s := op.writeAt {} [] (1, [{ intSum := 2 ^ 63, nonNull := 1 }])
    s.overflowed = 1 ∧ (op.writeAt s [] (2, [{ intSum := 2 ^ 63 - 1, nonNull := 2 }])).overflowed = 0 := by decide +kernel

theorem foldl_written (groups : List Group) : ∀ s' : Slots, op.Written s s' →
    op.Written s (groups.foldl (fun s g => op.writeAt s g.key g.state) s') := by
  induction groups with
  | nil => exact fun _ h => h
  | cons g groups ih => exact fun s' h => ih _ (h.write g.key g.state)

theorem readOrFold_written {key : List UInt8} {req : FetchRequest} {r : Slots × (Int × List ReduceAcc)}
    (h : Slots.readOrFold op up s key req = some r) : op.Written s r.1 := by
  unfold Slots.readOrFold at h
  cases hst : s.st key with
  | some v =>
    rw [hst] at h
    rw [← Option.some.inj h]
    exact .refl s
  | none =>
    rw [hst] at h
    obtain ⟨v, -, rfl⟩ := Option.map_eq_some_iff.mp h
    exact (Written.refl s).write key v

theorem fetch_written {req : FetchRequest} {r : Slots × List Node} (h : Slots.fetch op up s req = some r) : op.Written s r.1 := by
  unfold Slots.fetch at h
  cases hpk : op.partitionKey with
  | none =>
    simp only [hpk] at h
    obtain ⟨r', hr', h⟩ := Option.bind_eq_some_iff.mp h
    rw [← Option.some.inj h]
    exact readOrFold_written hr'
  | some pk =>
    simp only [hpk] at h
    split at h
    · obtain ⟨r', hr', h⟩ := Option.bind_eq_some_iff.mp h
      rw [← Option.some.inj h]
      exact readOrFold_written hr'
    · obtain ⟨nodes, -, h⟩ := Option.bind_eq_some_iff.mp h
      rw [← Option.some.inj h]
      exact foldl_written _ s (.refl s)

theorem push_written (change : Change) : op.Written s (Slots.push op s change).1 := by
  have hone : ∀ key v, op.Written s (op.writeAt s key v) := fun key v => (Written.refl s).write key v
  have hdelta : ∀ row delta, op.Written s (Slots.groupedDelta op s row delta).1 := by
    intro row delta
    unfold Slots.groupedDelta
    cases hst : s.st (groupKey (op.groupVals row)) with
    | none =>
      simp only [hst]
      split
      · exact hone _ _
      · exact .refl s
    | some v =>
      simp only [hst]
      split
      · exact hone _ _
      · exact hone _ _
      · split
        · exact (Written.refl s).del _
        · exact hone _ _
      · exact hone _ _
  unfold Slots.push
  cases op.partitionKey with
  | none =>
    simp only [Slots.pushGlobal]
    cases hst : s.st globalKey with
    | none => exact .refl s
    | some v =>
      cases change with
      | child node rel c => exact .refl s
      | _ => exact hone _ _
  | some pk =>
    cases change with
    | add node => exact hdelta _ _
    | remove node => exact hdelta _ _
    | edit node old =>
      simp only [Slots.groupedEdit]
      cases hst : s.st (groupKey (op.groupVals node.row)) with
      | none => exact .refl s
      | some v => exact hone _ _
    | child node rel c => exact .refl s

/-! ## The rows behind a slot -/

def floatPart : Value → Int
  | .float _ => 1
  | _ => 0

/-- What of an accumulator is exact. -/
def exact (a : ReduceAcc) : Int × Int × Int := (a.intSum, a.nonNull, a.floatCount)

def parts (v : Value) : Int × Int × Int := (intPart v, nonNullPart v, floatPart v)

/-- A column's integers, values and floats. -/
def totals (c : Nat) (l : List Row) : Int × Int × Int := (l.map fun r => parts (r.cell c)).sum

/-- The slot has the count and the exact parts of these rows. -/
def Folds (op : Reduce) (l : List Row) (v : Int × List ReduceAcc) : Prop :=
  v.1 = l.length ∧ v.2.map exact = op.summed.map fun c => totals c l

variable {l l' rows rows' : List Row} {row old : Row} {v : Int × List ReduceAcc} {accs : List ReduceAcc}

theorem exact_accDelta (a : ReduceAcc) (v : Value) (sign : Int) : exact (accDelta a v sign) = exact a + sign • parts v := by
  cases v <;> simp [accDelta, exact, parts, intPart, nonNullPart, floatPart]

theorem exact_accApply {f : Nat → Int × Int × Int} (h : accs.map exact = op.summed.map f) (row : Row) (sign : Int) :
    (op.accApply accs row sign).map exact = op.summed.map fun c => f c + sign • parts (row.cell c) := by
  unfold accApply
  generalize op.summed = cols at h
  induction cols generalizing accs with
  | nil => rw [List.map_eq_nil_iff.mp h]; rfl
  | cons c cols ih =>
    cases accs with
    | nil => cases h
    | cons a accs =>
      rw [List.map_cons, List.map_cons, List.cons.injEq] at h
      rw [List.zipWith_cons_cons, List.map_cons, List.map_cons, ih h.2, exact_accDelta, h.1]

theorem totals_perm (h : l.Perm l') (c : Nat) : totals c l = totals c l' := (h.map _).sum_eq

theorem totals_cons (c : Nat) (row : Row) (l : List Row) : totals c (row :: l) = parts (row.cell c) + totals c l := by
  rw [totals, List.map_cons, List.sum_cons]
  rfl

theorem Folds.perm (h : l.Perm l') (hv : op.Folds l v) : op.Folds l' v := by
  refine ⟨by rw [hv.1, h.length_eq], ?_⟩
  rw [hv.2]
  exact List.map_congr_left fun c _ => totals_perm h c

theorem Folds.nil : op.Folds [] (0, op.newAccs) := by
  refine ⟨rfl, ?_⟩
  rw [newAccs, List.map_map]
  rfl

theorem Folds.add (h : op.Folds l v) (row : Row) : op.Folds (row :: l) (v.1 + 1, op.accApply v.2 row 1) := by
  refine ⟨by rw [h.1, List.length_cons]; omega, ?_⟩
  rw [exact_accApply h.2]
  refine List.map_congr_left fun c _ => ?_
  rw [one_zsmul, totals_cons, add_comm]

theorem Folds.remove (h : op.Folds l v) (hmem : row ∈ l) : op.Folds (l.erase row) (v.1 + -1, op.accApply v.2 row (-1)) := by
  have hlen := List.length_pos_of_mem hmem
  refine ⟨by rw [h.1, List.length_erase_of_mem hmem]; omega, ?_⟩
  rw [exact_accApply h.2]
  refine List.map_congr_left fun c _ => ?_
  rw [totals_perm (List.perm_cons_erase hmem), totals_cons]
  simp

theorem Folds.edit (h : op.Folds l v) (hmem : old ∈ l) (row : Row) :
    op.Folds (row :: l.erase old) (v.1, op.accApply (op.accApply v.2 old (-1)) row 1) := by
  have hedit := (h.remove hmem).add row
  rwa [show v.1 + -1 + 1 = v.1 by omega] at hedit

theorem Folds.foldl (l : List Row) : op.Folds l (l.foldl op.foldRow (0, op.newAccs)) := by
  have hrun : ∀ (l seen : List Row) (v : Int × List ReduceAcc), op.Folds seen v → op.Folds (l.reverse ++ seen) (l.foldl op.foldRow v) := by
    intro l
    induction l with
    | nil => exact fun _ _ h => h
    | cons row l ih =>
      intro seen v h
      have hrest := ih (row :: seen) _ (h.add row)
      rw [List.reverse_cons, List.append_assoc]
      exact hrest
  have h := hrun l [] _ Folds.nil
  rw [List.append_nil] at h
  exact h.perm (List.reverse_perm l)

/-- The column's cells have no float, some value, and integers that add up to no i64. -/
def SumOut (c : Nat) (l : List Row) : Prop :=
  (∀ r ∈ l, NonFloat (r.cell c)) ∧ (∃ r ∈ l, nonNullPart (r.cell c) = 1) ∧
    ¬ (-2 ^ 63 ≤ (l.map fun r => intPart (r.cell c)).sum ∧ (l.map fun r => intPart (r.cell c)).sum < 2 ^ 63)

theorem totals_eq (c : Nat) (l : List Row) : totals c l =
    ((l.map fun r => intPart (r.cell c)).sum, (l.map fun r => nonNullPart (r.cell c)).sum, (l.map fun r => floatPart (r.cell c)).sum) := by
  induction l with
  | nil => rfl
  | cons row l ih =>
    rw [totals_cons, ih]
    rfl

/-- The test on exact totals is the one on rows. -/
theorem sumOut_iff (c : Nat) (l : List Row) :
    (0 < (totals c l).2.1 ∧ (totals c l).2.2 = 0 ∧ ¬ (-2 ^ 63 ≤ (totals c l).1 ∧ (totals c l).1 < 2 ^ 63)) ↔ SumOut c l := by
  rw [totals_eq]
  have hvalues : ∀ l : List Row, 0 ≤ (l.map fun r => nonNullPart (r.cell c)).sum ∧
      (0 < (l.map fun r => nonNullPart (r.cell c)).sum ↔ ∃ r ∈ l, nonNullPart (r.cell c) = 1) := by
    intro l
    induction l with
    | nil => simp
    | cons row l ih =>
      rw [List.map_cons, List.sum_cons, List.exists_mem_cons_iff]
      have hcell : nonNullPart (row.cell c) = 0 ∨ nonNullPart (row.cell c) = 1 := by cases row.cell c <;> simp [nonNullPart]
      rw [← ih.2]
      rcases hcell with h | h
      · rw [h]
        simp [ih.1]
      · rw [h]
        refine ⟨by omega, ?_⟩
        simp
        omega
  have hfloats : ∀ l : List Row, 0 ≤ (l.map fun r => floatPart (r.cell c)).sum ∧
      ((l.map fun r => floatPart (r.cell c)).sum = 0 ↔ ∀ r ∈ l, NonFloat (r.cell c)) := by
    intro l
    induction l with
    | nil => simp
    | cons row l ih =>
      rw [List.map_cons, List.sum_cons, List.forall_mem_cons, ← ih.2]
      by_cases hrow : NonFloat (row.cell c)
      · have hcell : floatPart (row.cell c) = 0 := by
          cases h : row.cell c with
          | float f => exact absurd h (hrow f)
          | _ => rfl
        rw [hcell]
        simp [ih.1, hrow]
      · have hcell : floatPart (row.cell c) = 1 := by
          cases h : row.cell c with
          | float f => rfl
          | _ => exact absurd (fun f hf => by rw [h] at hf; cases hf) hrow
        rw [hcell]
        refine ⟨by omega, ?_⟩
        simp only [hrow, false_and, iff_false]
        omega
  simp only [(hvalues l).2, (hfloats l).2, SumOut]
  tauto

/-- A slot of its rows is out of range exactly if a summed column of theirs is. -/
theorem Folds.out_iff (h : op.Folds l v) : op.sumTotalOutOfRange v.2 = true ↔ ∃ c, AggSpec.sum c ∈ op.aggs ∧ SumOut c l := by
  have hgo : ∀ (aggs : List AggSpec) (accs : List ReduceAcc), accs.map exact = (aggs.filterMap AggSpec.col).map (fun c => totals c l) →
      (totalOutOfRange aggs accs = true ↔ ∃ c, AggSpec.sum c ∈ aggs ∧ SumOut c l) := by
    intro aggs
    induction aggs with
    | nil => intro accs _; simp [totalOutOfRange]
    | cons agg aggs ih =>
      intro accs hmap
      cases agg with
      | count =>
        have hrest := ih accs hmap
        simpa [totalOutOfRange] using hrest
      | sum c =>
        cases accs with
        | nil => cases hmap
        | cons a accs =>
          have hmap' : exact a = totals c l ∧ accs.map exact = (aggs.filterMap AggSpec.col).map fun c => totals c l := List.cons.inj hmap
          have htest := sumOut_iff c l
          rw [← hmap'.1] at htest
          rw [totalOutOfRange]
          split
          · rename_i hout
            exact ⟨fun _ => ⟨c, List.mem_cons_self, htest.mp hout⟩, fun _ => rfl⟩
          rename_i hin
          rw [ih accs hmap'.2]
          constructor
          · intro hc
            obtain ⟨c', hmem, hout⟩ := hc
            exact ⟨c', List.mem_cons_of_mem _ hmem, hout⟩
          · intro hc
            obtain ⟨c', hmem, hout⟩ := hc
            rcases List.mem_cons.mp hmem with heq | hmem
            · cases heq
              exact absurd (htest.mpr hout) hin
            · exact ⟨c', hmem, hout⟩
      | avg c =>
        cases accs with
        | nil => cases hmap
        | cons a accs =>
          have hrest := ih accs (List.cons.inj hmap).2
          simpa [totalOutOfRange] using hrest
  exact hgo op.aggs v.2 h.2

/-- The integers of `n` rows stay within `n` times an i64. -/
theorem Folds.narrow (h : op.Folds l v) : ∀ a ∈ v.2, |a.intSum| ≤ l.length * 2 ^ 63 := by
  have hsum : ∀ (c : Nat) (l : List Row), |(l.map fun r => intPart (r.cell c)).sum| ≤ l.length * 2 ^ 63 := by
    intro c l
    induction l with
    | nil => simp
    | cons row l ih =>
      have hcell : |intPart (row.cell c)| ≤ 2 ^ 63 := by
        cases hc : row.cell c with
        | int i =>
          have hlo := i.le_toInt
          have hhi := i.toInt_lt
          rw [intPart, abs_le]
          omega
        | _ => simp [intPart]
      have hadd := abs_add_le (intPart (row.cell c)) (l.map fun r => intPart (r.cell c)).sum
      rw [List.map_cons, List.sum_cons, List.length_cons]
      push_cast
      linarith
  intro a ha
  have hmem : exact a ∈ op.summed.map fun c => totals c l := h.2 ▸ List.mem_map_of_mem ha
  obtain ⟨c, -, hc⟩ := List.mem_map.mp hmem
  have hint : a.intSum = (l.map fun r => intPart (r.cell c)).sum := by
    have hc' := congrArg Prod.fst hc
    rw [totals_eq] at hc'
    exact hc'.symm
  rw [hint]
  exact hsum c l

/-! ## Histories -/

def groupOf (op : Reduce) (rows : List Row) (g : List UInt8) : List Row := rows.filter fun r => op.keyOf r = g

/-- The input answers with its rows, in some order. -/
def Answers (up : Upstream) (rows : List Row) : Prop :=
  ∀ c : Option Constraint, ∃ nodes, up { constraint := c } = some nodes ∧ (nodes.map Node.row).Perm (rows.filter (constraintHolds c))

/-- The rows of the input after a change that fits them; an edit stays in its group. -/
inductive Moves (op : Reduce) : Change → List Row → List Row → Prop
  | add (node : Node) (rows : List Row) : Moves op (.add node) rows (node.row :: rows)
  | remove {node : Node} {rows : List Row} (h : node.row ∈ rows) : Moves op (.remove node) rows (rows.erase node.row)
  | edit {node old : Node} {rows : List Row} (h : old.row ∈ rows) (hkey : op.keyOf node.row = op.keyOf old.row) :
      Moves op (.edit node old) rows (node.row :: rows.erase old.row)
  | child (node : Node) (rel : Nat) (c : Change) (rows : List Row) : Moves op (.child node rel c) rows rows

/-- Fetches and pushes over an input of typed rows. An eager reducer is hydrated before anything is pushed. -/
inductive History (op : Reduce) (kinds : Nat → Kind) : List Row → Slots → Prop
  | start (rows : List Row) (htyped : ∀ r ∈ rows, Partition.Typed op.partitionKey kinds r) (h : ¬ op.Eager) : History op kinds rows {}
  | hydrate {rows : List Row} {up : Upstream} {s : Slots} {nodes : List Node} (htyped : ∀ r ∈ rows, Partition.Typed op.partitionKey kinds r)
      (hup : Answers up rows) (h : Slots.fetch op up {} {} = some (s, nodes)) : History op kinds rows s
  | fetch {rows : List Row} {s s' : Slots} {up : Upstream} {nodes : List Node} {p : Option Row} (h : History op kinds rows s)
      (hup : Answers up rows) (hp : op.Asks kinds False p) (hfetch : Slots.fetch op up s (op.request p) = some (s', nodes)) :
      History op kinds rows s'
  | push {rows rows' : List Row} {s : Slots} {change : Change} (h : History op kinds rows s) (hmoves : Moves op change rows rows')
      (htyped : ∀ r ∈ rows', Partition.Typed op.partitionKey kinds r) : History op kinds rows' (Slots.push op s change).1

theorem History.counted (h : op.History kinds rows s) : op.Counted s := by
  induction h with
  | start => exact counted_start
  | hydrate _ _ hfetch => exact (fetch_written hfetch).counted counted_start
  | fetch _ _ _ hfetch ih => exact (fetch_written hfetch).counted ih
  | push _ _ _ ih => exact (push_written _).counted ih

/-- Each slot has the fold of its group's rows, and an eager reducer has one for each group. -/
structure Kept (op : Reduce) (kinds : Nat → Kind) (rows : List Row) (st : ReduceStorage) : Prop where
  typed : ∀ r ∈ rows, Partition.Typed op.partitionKey kinds r
  slots : ∀ g v, st g = some v → op.Folds (op.groupOf rows g) v
  eager : op.Eager → ∀ r ∈ rows, st (op.keyOf r) ≠ none

section
variable {st st' : ReduceStorage} {key : List UInt8}

theorem groupOf_cons (row : Row) (rows : List Row) (g : List UInt8) :
    op.groupOf (row :: rows) g = if op.keyOf row = g then row :: op.groupOf rows g else op.groupOf rows g := by
  rw [groupOf, List.filter_cons]
  by_cases hg : op.keyOf row = g
  · simp [hg, groupOf]
  · simp [hg, groupOf]

theorem groupOf_erase (op : Reduce) (hmem : row ∈ rows) (g : List UInt8) :
    (op.groupOf (rows.erase row) g).Perm (if op.keyOf row = g then (op.groupOf rows g).erase row else op.groupOf rows g) := by
  have hperm : (op.groupOf rows g).Perm (op.groupOf (row :: rows.erase row) g) := (List.perm_cons_erase hmem).filter _
  rw [groupOf_cons] at hperm
  split
  · rename_i hg
    rw [if_pos hg] at hperm
    have herase := hperm.erase row
    rw [List.erase_cons_head] at herase
    exact herase.symm
  · rename_i hg
    rw [if_neg hg] at hperm
    exact hperm.symm

theorem mem_groupOf {g : List UInt8} {r : Row} : r ∈ op.groupOf rows g ↔ r ∈ rows ∧ op.keyOf r = g := by simp [groupOf]

/-- A change of one group and its slot. -/
theorem Kept.change (h : op.Kept kinds rows st) (htyped : ∀ r ∈ rows', Partition.Typed op.partitionKey kinds r)
    (hgroups : ∀ g, g ≠ key → (op.groupOf rows' g).Perm (op.groupOf rows g)) (hslots : ∀ g, g ≠ key → st' g = st g)
    (hfolds : ∀ v, st' key = some v → op.Folds (op.groupOf rows' key) v)
    (heager : op.Eager → (∃ r ∈ rows', op.keyOf r = key) → st' key ≠ none) : op.Kept kinds rows' st' := by
  refine ⟨htyped, fun g v hv => ?_, fun he r hr => ?_⟩
  · by_cases hg : g = key
    · subst hg
      exact hfolds v hv
    · rw [hslots g hg] at hv
      exact (h.slots g v hv).perm (hgroups g hg).symm
  · by_cases hg : op.keyOf r = key
    · rw [hg]
      exact heager he ⟨r, hr, hg⟩
    · rw [hslots _ hg]
      have hr' : r ∈ op.groupOf rows (op.keyOf r) := (hgroups _ hg).mem_iff.mp (mem_groupOf.mpr ⟨hr, rfl⟩)
      exact h.eager he r (mem_groupOf.mp hr').1

/-- What `groupedDelta` leaves in the slot. -/
theorem groupedDelta_slot (st : ReduceStorage) (row : Row) (delta : Int) :
    (op.groupedDelta st row delta).1 = match st (op.keyOf row) with
      | none => if op.eager = true ∧ 0 < delta then st.set (op.keyOf row) (delta, op.accApply op.newAccs row 1) else st
      | some v =>
        if op.eager = true ∧ 0 < v.1 ∧ ¬ 0 < v.1 + delta then st.del (op.keyOf row)
        else st.set (op.keyOf row) (max (v.1 + delta) 0, op.accApply v.2 row delta) := by
  unfold groupedDelta keyOf
  cases hst : st (groupKey (op.groupVals row)) with
  | none =>
    simp only [hst]
    by_cases he : op.eager = true ∧ 0 < delta
    · rw [if_pos he, if_pos (by simp [he])]
    · rw [if_neg he, if_neg (by simpa using he)]
  | some v =>
    simp only [hst]
    have hmax : decide (0 < max (v.1 + delta) 0) = decide (0 < v.1 + delta) := by
      rw [decide_eq_decide]
      omega
    rw [hmax]
    by_cases hold : 0 < v.1
    · by_cases hnew : 0 < v.1 + delta
      · simp [hold, hnew]
      · cases he : op.eager <;> simp [hold, hnew]
    · by_cases hnew : 0 < v.1 + delta
      · simp [hold, hnew]
      · simp [hold, hnew]

theorem set_slots (v : Int × List ReduceAcc) : ∀ g, g ≠ key → st.set key v g = st g := fun _ hg => set_other hg v

theorem Kept.push_grouped (h : op.Kept kinds rows st) {change : Change} (hmoves : op.Moves change rows rows')
    (htyped : ∀ r ∈ rows', Partition.Typed op.partitionKey kinds r) {pk : List Nat} (hpk : op.partitionKey = some pk) :
    op.Kept kinds rows' (op.push st change).1 := by
  unfold push
  rw [hpk]
  cases hmoves with
  | add node =>
    show op.Kept kinds _ (op.groupedDelta st node.row 1).1
    have hgroups : ∀ g, g ≠ op.keyOf node.row → (op.groupOf (node.row :: rows) g).Perm (op.groupOf rows g) := by
      intro g hg
      rw [groupOf_cons, if_neg fun heq => hg heq.symm]
    have hgroup : op.groupOf (node.row :: rows) (op.keyOf node.row) = node.row :: op.groupOf rows (op.keyOf node.row) := by
      rw [groupOf_cons, if_pos rfl]
    rw [groupedDelta_slot]
    cases hst : st (op.keyOf node.row) with
    | none =>
      simp only
      by_cases he : op.eager = true ∧ (0 : Int) < 1
      · rw [if_pos he]
        -- an eager reducer without a slot has no row of the group
        have hempty : op.groupOf rows (op.keyOf node.row) = [] := by
          refine List.eq_nil_iff_forall_not_mem.mpr fun r hr => ?_
          obtain ⟨hin, hkey⟩ := mem_groupOf.mp hr
          exact h.eager ⟨by simp [hpk], he.1⟩ r hin (hkey ▸ hst)
        refine h.change htyped hgroups (set_slots _) (fun v hv => ?_) fun _ _ => by simp [set_self]
        rw [set_self] at hv
        rw [hgroup, hempty, ← Option.some.inj hv]
        exact Folds.nil.add node.row
      · rw [if_neg he]
        refine h.change htyped hgroups (fun _ _ => rfl) (fun v hv => ?_) fun heager _ => absurd ⟨heager.2, by omega⟩ he
        rw [hst] at hv
        cases hv
    | some v =>
      have hv := h.slots _ v hst
      have hpos : 0 < v.1 + 1 := by
        rw [hv.1]
        omega
      simp only
      rw [if_neg fun hdead => hdead.2.2 hpos, max_eq_left (le_of_lt hpos)]
      refine h.change htyped hgroups (set_slots _) (fun v' hv' => ?_) fun _ _ => by simp [set_self]
      rw [set_self] at hv'
      rw [hgroup, ← Option.some.inj hv']
      exact hv.add node.row
  | remove hmem =>
    rename_i node
    show op.Kept kinds _ (op.groupedDelta st node.row (-1)).1
    have hgroups : ∀ g, g ≠ op.keyOf node.row → (op.groupOf (rows.erase node.row) g).Perm (op.groupOf rows g) := by
      intro g hg
      have hperm := groupOf_erase op hmem g
      rwa [if_neg fun heq => hg heq.symm] at hperm
    have hgroup : (op.groupOf (rows.erase node.row) (op.keyOf node.row)).Perm ((op.groupOf rows (op.keyOf node.row)).erase node.row) := by
      have hperm := groupOf_erase op hmem (op.keyOf node.row)
      rwa [if_pos rfl] at hperm
    have hin : node.row ∈ op.groupOf rows (op.keyOf node.row) := mem_groupOf.mpr ⟨hmem, rfl⟩
    rw [groupedDelta_slot]
    cases hst : st (op.keyOf node.row) with
    | none =>
      simp only
      rw [if_neg fun he => absurd he.2 (by omega)]
      refine h.change htyped hgroups (fun _ _ => rfl) (fun v hv => ?_) fun heager _ => absurd hst (h.eager heager _ hmem)
      rw [hst] at hv
      cases hv
    | some v =>
      have hv := h.slots _ v hst
      have hfolds := (hv.remove hin).perm hgroup.symm
      have hnonneg : 0 ≤ v.1 + -1 := by
        have hlen := List.length_pos_of_mem hin
        rw [hv.1]
        omega
      simp only
      split
      · rename_i hdead
        -- the group died with its last row
        have hempty : op.groupOf (rows.erase node.row) (op.keyOf node.row) = [] := by
          have hlen := hfolds.1
          have hzero : v.1 + -1 = 0 := by
            have hle := Int.not_lt.mp hdead.2.2
            omega
          rw [hzero] at hlen
          exact List.eq_nil_of_length_eq_zero (by omega)
        refine h.change htyped hgroups (fun g hg => if_neg hg) (fun v hv => ?_) fun _ hex => ?_
        · rw [show st.del (op.keyOf node.row) (op.keyOf node.row) = none from if_pos rfl] at hv
          cases hv
        · obtain ⟨r, hr, hkey⟩ := hex
          exact absurd (mem_groupOf.mpr ⟨hr, hkey⟩) (by rw [hempty]; simp)
      · rw [max_eq_left hnonneg]
        refine h.change htyped hgroups (set_slots _) (fun v' hv' => ?_) fun _ _ => by simp [set_self]
        rw [set_self] at hv'
        rw [← Option.some.inj hv']
        exact hfolds
  | edit hmem hkey =>
    rename_i node old
    show op.Kept kinds _ (op.groupedEdit st old.row node.row).1
    have hgroups : ∀ g, g ≠ op.keyOf node.row → (op.groupOf (node.row :: rows.erase old.row) g).Perm (op.groupOf rows g) := by
      intro g hg
      have hperm := groupOf_erase op hmem g
      rw [if_neg fun heq => hg (heq.symm.trans hkey.symm)] at hperm
      rw [groupOf_cons, if_neg fun heq => hg heq.symm]
      exact hperm
    have hgroup : (op.groupOf (node.row :: rows.erase old.row) (op.keyOf node.row)).Perm
        (node.row :: (op.groupOf rows (op.keyOf node.row)).erase old.row) := by
      have hperm := groupOf_erase op hmem (op.keyOf node.row)
      rw [if_pos hkey.symm] at hperm
      rw [groupOf_cons, if_pos rfl]
      exact hperm.cons _
    have hin : old.row ∈ op.groupOf rows (op.keyOf node.row) := mem_groupOf.mpr ⟨hmem, hkey.symm⟩
    simp only [groupedEdit]
    cases hst : st (op.keyOf node.row) with
    | none =>
      rw [show groupKey (op.groupVals node.row) = op.keyOf node.row from rfl, hst]
      refine h.change htyped hgroups (fun _ _ => rfl) (fun v hv => ?_) fun heager _ => absurd (hkey ▸ hst) (h.eager heager _ hmem)
      exact absurd (hst.symm.trans hv) (by simp)
    | some v =>
      rw [show groupKey (op.groupVals node.row) = op.keyOf node.row from rfl, hst]
      have hv := h.slots _ v hst
      refine h.change htyped hgroups (set_slots _) (fun v' hv' => ?_) fun _ _ => by simp [set_self]
      rw [← Option.some.inj ((set_self _).symm.trans hv')]
      exact (hv.edit hin node.row).perm hgroup.symm
  | child node rel c => exact h

theorem groupOf_global (hpk : op.partitionKey = none) (rows : List Row) : op.groupOf rows globalKey = rows :=
  List.filter_eq_self.mpr fun r _ => by simp [keyOf_global hpk]

theorem Kept.push_global (h : op.Kept kinds rows st) {change : Change} (hmoves : op.Moves change rows rows')
    (htyped : ∀ r ∈ rows', Partition.Typed op.partitionKey kinds r) (hpk : op.partitionKey = none) :
    op.Kept kinds rows' (op.push st change).1 := by
  have hgroups : ∀ g, g ≠ globalKey → (op.groupOf rows' g).Perm (op.groupOf rows g) := by
    intro g hg
    have hnone : ∀ rows, op.groupOf rows g = [] := fun rows =>
      List.filter_eq_nil_iff.mpr fun r _ => by simpa [keyOf_global hpk] using fun heq => hg heq.symm
    rw [hnone, hnone]
  have hlazy : op.Eager → (∃ r ∈ rows', op.keyOf r = globalKey) → (op.push st change).1 globalKey ≠ none := fun he => absurd hpk he.1
  unfold push at hlazy ⊢
  simp only [hpk, pushGlobal] at hlazy ⊢
  cases hst : st globalKey with
  | none =>
    rw [hst] at hlazy
    refine h.change htyped hgroups (fun _ _ => rfl) (fun v hv => ?_) hlazy
    exact absurd (hst.symm.trans hv) (by simp)
  | some v =>
    rw [hst] at hlazy
    have hv := h.slots _ v hst
    rw [groupOf_global hpk] at hv
    have hset : ∀ v', op.Folds rows' v' → op.Kept kinds rows' (st.set globalKey v') := by
      intro v' hv'
      refine h.change htyped hgroups (set_slots _) (fun w hw => ?_) fun he => absurd hpk he.1
      rw [set_self] at hw
      rw [groupOf_global hpk, ← Option.some.inj hw]
      exact hv'
    cases hmoves with
    | add node => exact hset _ (hv.add node.row)
    | remove hmem => exact hset _ (hv.remove hmem)
    | edit hmem hkey => exact hset _ (hv.edit hmem _)
    | child node rel c => exact h

theorem fold_folds {c : Option Constraint} (hup : Answers up rows) {v : Int × List ReduceAcc} (h : op.fold up { constraint := c } = some v) :
    op.Folds (rows.filter (constraintHolds c)) v := by
  obtain ⟨nodes, hnodes, hperm⟩ := hup c
  rw [fold, hnodes] at h
  rw [← Option.some.inj h]
  exact (Folds.foldl _).perm hperm

/-- A fetch of one group keeps its slot or folds it from the input. -/
theorem Kept.readOrFold (h : op.Kept kinds rows st) (hup : Answers up rows) {c : Option Constraint}
    (hgroup : (rows.filter (constraintHolds c)).Perm (op.groupOf rows key)) {r : ReduceStorage × (Int × List ReduceAcc)}
    (hread : op.readOrFold up st key { constraint := c } = some r) : op.Kept kinds rows r.1 := by
  unfold Reduce.readOrFold at hread
  cases hst : st key with
  | some v =>
    rw [hst] at hread
    rw [← Option.some.inj hread]
    exact h
  | none =>
    rw [hst] at hread
    obtain ⟨v, hv, rfl⟩ := Option.map_eq_some_iff.mp hread
    refine h.change h.typed (fun _ _ => .refl _) (set_slots _) (fun w hw => ?_) fun _ _ => by simp [set_self]
    rw [← Option.some.inj ((set_self _).symm.trans hw)]
    exact (fold_folds hup hv).perm hgroup

theorem foldAll_slots (op : Reduce) (st : ReduceStorage) (nodes : List Node) (g : List UInt8) :
    (((nodes.map Node.row).foldl op.fileRow []).foldl (fun st g => st.set g.key g.state) st) g = st g ∧
        (∀ y ∈ nodes.map Node.row, op.keyOf y ≠ g) ∨
      (((nodes.map Node.row).foldl op.fileRow []).foldl (fun st g => st.set g.key g.state) st) g =
        some ((op.groupOf (nodes.map Node.row) g).foldl op.foldRow (0, op.newAccs)) := by
  have hfiled : op.Filed (nodes.map Node.row) _ := filed_all _
  rw [store_all g _ _ hfiled.nodup]
  have hfound := hfiled.found g
  cases hfind : find ((nodes.map Node.row).foldl op.fileRow []) g with
  | none =>
    rw [hfind] at hfound
    exact Or.inl ⟨rfl, hfound⟩
  | some group =>
    rw [hfind] at hfound
    exact Or.inr (congrArg some hfound.2.2)

/-- A full fold rewrites the slot of every group of the input. -/
theorem fetchAll_kept (htyped : ∀ r ∈ rows, Partition.Typed op.partitionKey kinds r)
    (hslots : ∀ g v, st g = some v → op.Folds (op.groupOf rows g) v) (hup : Answers up rows) {r : ReduceStorage × List Node}
    (hfetch : op.fetchAll up st = some r) : op.Kept kinds rows r.1 := by
  obtain ⟨nodes, hnodes, h⟩ := Option.bind_eq_some_iff.mp hfetch
  obtain ⟨nodes', hnodes', hperm⟩ := hup none
  obtain rfl : nodes = nodes' := Option.some.inj (hnodes.symm.trans hnodes')
  have hall : rows.filter (constraintHolds none) = rows := List.filter_eq_self.mpr fun _ _ => rfl
  rw [hall] at hperm
  rw [← Option.some.inj h]
  refine ⟨htyped, fun g v hv => ?_, fun _ r hr hnone => ?_⟩
  · rcases foldAll_slots op st nodes g with ⟨hsame, -⟩ | hslot
    · exact hslots g v (hsame.symm.trans hv)
    · rw [← Option.some.inj (hslot.symm.trans hv)]
      exact (Folds.foldl _).perm (hperm.filter _)
  · rcases foldAll_slots op st nodes (op.keyOf r) with ⟨-, hempty⟩ | hslot
    · exact hempty r (hperm.mem_iff.mpr hr) rfl
    · exact absurd (hslot.symm.trans hnone) (by simp)

theorem Kept.fetch (h : op.Kept kinds rows st) (hup : Answers up rows) {p : Option Row} (hp : op.Asks kinds False p)
    {r : ReduceStorage × List Node} (hfetch : op.fetch up st (op.request p) = some r) : op.Kept kinds rows r.1 := by
  cases hpk : op.partitionKey with
  | none =>
    unfold Reduce.fetch at hfetch
    simp only [hpk] at hfetch
    obtain ⟨r', hread, hr⟩ := Option.bind_eq_some_iff.mp hfetch
    rw [← Option.some.inj hr]
    refine h.readOrFold hup (c := none) ?_ hread
    rw [groupOf_global hpk]
    exact List.Perm.of_eq (List.filter_eq_self.mpr fun _ _ => rfl)
  | some pk =>
    by_cases hone : op.eager = false ∧ ∃ q, p = some q
    · obtain ⟨hlazy, q, rfl⟩ := hone
      obtain ⟨hproper, -⟩ := hp (by simp [hpk]) hlazy q rfl
      rw [fetch_request_one hpk hlazy] at hfetch
      obtain ⟨r', hread, hr⟩ := Option.bind_eq_some_iff.mp hfetch
      rw [← Option.some.inj hr]
      refine h.readOrFold hup ?_ hread
      rw [inputConstraint_groupVals hpk]
      refine List.Perm.of_eq (List.filter_congr fun x hx => ?_)
      have hkey : _ ↔ Partition.keyFromRow op.partitionKey keyPrefix x = Partition.keyFromRow op.partitionKey keyPrefix q :=
        Partition.inPart_iff_key hproper (h.typed x hx)
      rw [← keyOf_eq, ← keyOf_eq] at hkey
      exact Bool.eq_iff_iff.mpr (hkey.trans decide_eq_true_iff.symm)
    · rw [fetch_request_all hpk hone] at hfetch
      exact fetchAll_kept h.typed h.slots hup hfetch

theorem History.kept (h : op.History kinds rows s) : op.Kept kinds rows s.st := by
  induction h with
  | start rows htyped hlazy => exact ⟨htyped, fun g v hv => (by cases hv), fun he => absurd he hlazy⟩
  | hydrate htyped hup hfetch =>
    rename_i rows up s nodes
    have hst : (Slots.fetch op up {} {}).map _ = _ := Slots.fetch_st {}
    rw [hfetch] at hst
    by_cases he : op.Eager
    · obtain ⟨pk, hpk⟩ := Option.ne_none_iff_exists'.mp he.1
      have hall : op.fetch up (fun _ => none) (op.request none) = _ := fetch_request_all hpk fun hone => by simp [he.2] at hone
      exact fetchAll_kept htyped (fun g v hv => (by cases hv)) hup (hall.symm.trans hst.symm)
    · have hnew : op.Kept kinds rows fun _ => none := ⟨htyped, fun g v hv => (by cases hv), fun h => absurd h he⟩
      exact hnew.fetch (p := none) hup (fun _ _ q hq => by cases hq) hst.symm
  | fetch h hup hp hfetch ih =>
    rename_i rows s s' up nodes p
    have hst : (Slots.fetch op up s (op.request p)).map _ = _ := Slots.fetch_st (op.request p)
    rw [hfetch] at hst
    exact ih.fetch hup hp hst.symm
  | push h hmoves htyped ih =>
    rename_i rows rows' s change
    have hst : (Slots.push op s change).1.st = (op.push s.st change).1 := congrArg Prod.fst (Slots.push_st change)
    rw [hst]
    cases hpk : op.partitionKey with
    | none => exact ih.push_global hmoves htyped hpk
    | some pk => exact ih.push_grouped hmoves htyped hpk

/-! ## The error -/

/-- Nothing a poll stops at. -/
def Calm {ε : Type} : Polled ε → Prop
  | .source parked => parked = none
  | .reduce n => n ≤ 0
  | .other => True

theorem poll_calm {ε : Type} (overflow : ε) {pre : List (Polled ε)} (hpre : ∀ n ∈ pre, Calm n) (rest : List (Polled ε)) :
    (poll overflow (pre ++ rest)).1 = (poll overflow rest).1 := by
  induction pre with
  | nil => rfl
  | cons node pre ih =>
    obtain ⟨hnode, hrest⟩ := List.forall_mem_cons.mp hpre
    cases node with
    | source parked =>
      rw [show parked = none from hnode]
      exact ih hrest
    | reduce n =>
      have hn : n ≤ 0 := hnode
      rw [List.cons_append, poll, if_neg (by omega)]
      exact ih hrest
    | other => exact ih hrest

/-- With nothing else to report, the error is raised exactly where the counter is above zero. -/
theorem takeRuntimeError_iff {ε : Type} (overflow : ε) {pre post : List (Polled ε)} (hpre : ∀ n ∈ pre, Calm n) (hpost : ∀ n ∈ post, Calm n)
    (n : Int) : (takeRuntimeError overflow none (pre ++ .reduce n :: post)).1 = if 0 < n then .error overflow else .ok () := by
  show (poll overflow (pre ++ .reduce n :: post)).1 = _
  rw [poll_calm overflow hpre, poll]
  split
  · rfl
  · have h := poll_calm overflow hpost []
    rw [List.append_nil] at h
    exact h

/-! ## The groups out of range -/

/-- The groups with a slot whose rows add up to no i64 in some summed column. -/
def outOfRange (op : Reduce) (rows : List Row) (st : ReduceStorage) : Set (List UInt8) :=
  {g | st g ≠ none ∧ ∃ c, AggSpec.sum c ∈ op.aggs ∧ SumOut c (op.groupOf rows g)}

theorem Kept.over_iff (h : op.Kept kinds rows st) (g : List UInt8) : op.Over (st g) ↔ g ∈ op.outOfRange rows st := by
  cases hst : st g with
  | none =>
    refine ⟨fun ho => (by cases ho), fun ho => absurd hst ho.1⟩
  | some v =>
    have hout := (h.slots g v hst).out_iff
    constructor
    · intro ho
      exact ⟨by simp [hst], hout.mp ho⟩
    · intro ho
      exact hout.mpr ho.2

theorem abs_accDelta (a : ReduceAcc) (x : Value) {sign : Int} (hsign : sign = 1 ∨ sign = -1) :
    |(accDelta a x sign).intSum| ≤ |a.intSum| + 2 ^ 63 := by
  have hint : (accDelta a x sign).intSum = a.intSum + sign * intPart x := by
    cases x <;> simp [accDelta, intPart]
  have hcell : |sign * intPart x| ≤ 2 ^ 63 := by
    have hx : |intPart x| ≤ 2 ^ 63 := by
      cases x with
      | int i =>
        have hlo := i.le_toInt
        have hhi := i.toInt_lt
        rw [intPart, abs_le]
        omega
      | _ => simp [intPart]
    rcases hsign with rfl | rfl
    · rwa [one_mul]
    · rwa [neg_one_mul, abs_neg]
  rw [hint]
  have hadd := abs_add_le a.intSum (sign * intPart x)
  linarith

/-- Over any history the counter is the number of groups with a slot whose rows add up to no i64 in a
    summed column (of an eager reducer: of all such groups), and the error is raised exactly where there
    is one. The accumulators stay within an i64 for each row of the group and each cell on its way in or
    out, and in a fold for each row folded. -/
theorem overflow_counted {ε : Type} (h : op.History kinds rows s) (overflow : ε) :
    (op.outOfRange rows s.st).Finite ∧ s.overflowed = ((op.outOfRange rows s.st).ncard : Int) ∧
      (op.Eager → op.outOfRange rows s.st = {g | ∃ c, AggSpec.sum c ∈ op.aggs ∧ SumOut c (op.groupOf rows g)}) ∧
      (∀ pre post : List (Polled ε), (∀ n ∈ pre, Calm n) → (∀ n ∈ post, Calm n) →
        (takeRuntimeError overflow none (pre ++ .reduce s.overflowed :: post)).1 =
          if 0 < (op.outOfRange rows s.st).ncard then .error overflow else .ok ()) ∧
      (∀ l : List Row, ∀ a ∈ (l.foldl op.foldRow (0, op.newAccs)).2, |a.intSum| ≤ l.length * 2 ^ 63) ∧
      ∀ g v, s.st g = some v → ∀ a ∈ v.2, ∀ x y : Value,
        |a.intSum| ≤ (op.groupOf rows g).length * 2 ^ 63 ∧
        |(accDelta a x 1).intSum| ≤ ((op.groupOf rows g).length + 1) * 2 ^ 63 ∧
        |(accDelta a x (-1)).intSum| ≤ ((op.groupOf rows g).length + 1) * 2 ^ 63 ∧
        |(accDelta (accDelta a x (-1)) y 1).intSum| ≤ ((op.groupOf rows g).length + 2) * 2 ^ 63 := by
  have hkept := h.kept
  obtain ⟨hfin, hcount⟩ := h.counted
  have hset : {g | op.Over (s.st g)} = op.outOfRange rows s.st := Set.ext fun g => hkept.over_iff g
  rw [hset] at hfin hcount
  refine ⟨hfin, hcount, fun he => ?_, fun pre post hpre hpost => ?_, fun l => (Folds.foldl l).narrow, fun g v hv a ha x y => ?_⟩
  · refine Set.ext fun g => ⟨fun hg => hg.2, fun hg => ⟨?_, hg⟩⟩
    obtain ⟨c, -, -, ⟨r, hr, -⟩, -⟩ := hg
    obtain ⟨hin, hkey⟩ := mem_groupOf.mp hr
    exact hkey ▸ hkept.eager he r hin
  · rw [takeRuntimeError_iff overflow hpre hpost, hcount]
    by_cases hpos : 0 < (op.outOfRange rows s.st).ncard
    · rw [if_pos hpos, if_pos (by omega)]
    · rw [if_neg hpos, if_neg (by omega)]
  · have hnarrow := (hkept.slots g v hv).narrow a ha
    have hin := abs_accDelta a x (Or.inl rfl)
    have hout := abs_accDelta a x (Or.inr rfl)
    have hswap := abs_accDelta (accDelta a x (-1)) y (Or.inl rfl)
    refine ⟨hnarrow, ?_, ?_, ?_⟩ <;> linarith

/-- The total of a column. -/
def sumOf : Reduce := { aggs := [.sum 0] }

/-- Hydrated at the largest i64 and given one more, the counter goes to one. -/
theorem overflow_counted_sumOf : ∃ s, sumOf.History (fun _ => .number) [[.int 1], [.int 0x7fffffffffffffff]] s ∧ s.overflowed = 1 ∧
    s.overflowed = ((sumOf.outOfRange [[.int 1], [.int 0x7fffffffffffffff]] s.st).ncard : Int) := by
  have hup : Answers (fun req => some (([[Value.int 0x7fffffffffffffff]].filter (constraintHolds req.constraint)).map Node.leaf))
      [[.int 0x7fffffffffffffff]] := by
    intro c
    refine ⟨_, rfl, ?_⟩
    rw [List.map_map]
    exact List.Perm.of_eq (List.map_id _)
  have hydrated : sumOf.History (fun _ => .number) [[.int 0x7fffffffffffffff]] _ :=
    .hydrate (fun r _ c hc => by cases hc) hup rfl
  have hpushed := History.push hydrated (.add (.leaf [.int 1]) _) (fun r _ c hc => by cases hc)
  exact ⟨_, hpushed, by decide, (overflow_counted hpushed ()).2.1⟩

end

end

end Rindle.Reduce
