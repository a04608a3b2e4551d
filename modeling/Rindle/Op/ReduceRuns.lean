/-
  Rindle.Op.ReduceRuns — Reduce over the history of its source.

  A slot has the fold of its group's rows (`Inv`). Downstream has one row for each group it was
  given, with the group's aggregates (`Answer`): what a push sends takes the row before to the row
  after, and a fetch by an operator with no slots returns the same (`reduce_incremental`).
  A global reducer keeps its row, an eager one has a slot exactly for the groups with rows, and a
  lazy one keeps the slot of every group it was asked for.
-/

import Rindle.Lib.Sample
import Rindle.Op.Reduce
import Rindle.Op.Fed

set_option linter.dupNamespace false

namespace Rindle.Reduce

/-! ## The rows of a group -/

section
variable (op : Reduce)

def keyOf (r : Row) : List UInt8 := groupKey (op.groupVals r)

/-- The group of a row that is sent. -/
def outKey (r : Row) : List UInt8 := groupKey (r.take op.cols.length)

/-- The rows of `U` in the group, each once. -/
structure GroupRows (U : Set Row) (g : List UInt8) (l : List Row) : Prop where
  nodup : l.Nodup
  mem : ∀ r, r ∈ l ↔ r ∈ U ∧ op.keyOf r = g

/-- A row of the table: its group cells have their columns' types, the summed ones are no floats. If
    `plain` the group cells are no floats either. -/
structure Fits (kinds : Nat → Kind) (plain : Prop) (r : Row) : Prop where
  typed : Partition.Typed op.partitionKey kinds r
  summable : op.Summable r
  plain : plain → ∀ c ∈ op.cols, NonFloat (r.cell c)

/-- Cells that name a group. -/
structure Names (plain : Prop) (g : List UInt8) (vals : List Value) : Prop where
  length : vals.length = op.cols.length
  key : groupKey vals = g
  plain : plain → ∀ v ∈ vals, NonFloat v

/-- A group has a row: always the global one. -/
@[grind] def alive (l : List Row) : Bool := op.partitionKey.isNone || !l.isEmpty

/-- The row of a group with the rows `l`. -/
@[grind] def rowOf (vals : List Value) (l : List Row) : Row := op.aggRow vals l.length (op.accsOf l)

/-- What downstream has of a group with the rows `l`. -/
def Shown (plain : Prop) (g : List UInt8) (l : List Row) (o : Option Row) : Prop :=
  if op.alive l then ∃ vals, op.Names plain g vals ∧ o = some (op.rowOf vals l) else o = none

/-- What downstream should have of a group. -/
def Answer (plain : Prop) (U : Set Row) (g : List UInt8) (o : Option Row) : Prop :=
  ∃ l, op.GroupRows U g l ∧ op.Shown plain g l o

end

variable {op : Reduce} {kinds : Nat → Kind} {plain : Prop} {U : Set Row} {g : List UInt8} {l l' : List Row} {r : Row} {vals : List Value}

theorem keyOf_eq (r : Row) : op.keyOf r = Partition.keyFromRow op.partitionKey keyPrefix r := (Partition.keyFromRow_eq r).symm

theorem cols_global (h : op.partitionKey = none) : op.cols = [] := by
  rw [cols, Partition.cols, h]
  rfl

theorem keyOf_global (h : op.partitionKey = none) (r : Row) : op.keyOf r = globalKey := by
  rw [keyOf, groupVals, cols_global h]
  rfl

theorem outKey_rowOf (h : op.Names plain g vals) (l : List Row) : op.outKey (op.rowOf vals l) = g := by
  rw [outKey, rowOf, aggRow, ← h.length, List.take_left, h.key]

theorem Fits.names (h : op.Fits kinds plain r) : op.Names plain (op.keyOf r) (op.groupVals r) := by
  refine ⟨by simp [groupVals], rfl, fun hplain v hv => ?_⟩
  obtain ⟨c, hc, rfl⟩ := List.mem_map.mp hv
  exact h.plain hplain c hc

theorem GroupRows.perm (h : op.GroupRows U g l) (h' : op.GroupRows U g l') : l.Perm l' :=
  (List.perm_ext_iff_of_nodup h.nodup h'.nodup).mpr fun r => (h.mem r).trans (h'.mem r).symm

theorem alive_perm (h : l.Perm l') : op.alive l = op.alive l' := by
  rw [alive, alive, h.isEmpty_eq]

theorem rowOf_perm (h : l.Perm l') (vals : List Value) : op.rowOf vals l = op.rowOf vals l' := by
  rw [rowOf, rowOf, h.length_eq, accsOf_perm h]

theorem Shown.perm {o : Option Row} (h : l.Perm l') (hs : op.Shown plain g l o) : op.Shown plain g l' o := by
  unfold Shown at hs ⊢
  rw [← alive_perm h]
  simpa only [rowOf_perm h] using hs

/-! ## Rows that answer alike -/

/-- The same group and the same aggregates. -/
def Alike (op : Reduce) (a b : Row) : Prop := op.outKey a = op.outKey b ∧ a.drop op.cols.length = b.drop op.cols.length

instance (op : Reduce) (a b : Row) : Decidable (op.Alike a b) := inferInstanceAs (Decidable (_ ∧ _))

theorem rowOf_drop (h : op.Names plain g vals) (l : List Row) : (op.rowOf vals l).drop op.cols.length = aggCells op.aggs l.length (op.accsOf l) := by
  rw [rowOf, aggRow, ← h.length, List.drop_left]

theorem canon_inj {a b : Value} (ha : NonFloat a) (hb : NonFloat b) (h : CanonVal.of a = CanonVal.of b) : a = b := by
  cases a with
  | float f => exact absurd rfl (ha f)
  | _ =>
    cases b with
    | float f => exact absurd rfl (hb f)
    | _ => cases h <;> rfl

/-- Without floats a group has one name. -/
theorem Names.unique {vals' : List Value} (hplain : plain) (h : op.Names plain g vals) (h' : op.Names plain g vals') : vals = vals' := by
  have hmap : vals.map CanonVal.of = vals'.map CanonVal.of := encodeStateKey_inj.mp (h.key.trans h'.key.symm)
  exact map_inj_on (fun a ha b hb => canon_inj (h.plain hplain a ha) (h'.plain hplain b hb)) hmap

/-- Two answers for a group: a row of each, or none. -/
theorem Answer.alike {o o' : Option Row} (h : op.Answer plain U g o) (h' : op.Answer plain U g o') :
    Option.Rel op.Alike o o' ∧ (plain → o = o') := by
  obtain ⟨l, hl, hs⟩ := h
  obtain ⟨l', hl', hs'⟩ := h'
  replace hs' := hs'.perm (hl'.perm hl)
  unfold Shown at hs hs'
  by_cases halive : op.alive l = true
  · rw [if_pos halive] at hs hs'
    obtain ⟨vals, hn, rfl⟩ := hs
    obtain ⟨vals', hn', rfl⟩ := hs'
    refine ⟨Option.Rel.some ⟨?_, ?_⟩, fun hplain => by rw [hn.unique hplain hn']⟩
    · rw [outKey_rowOf hn, outKey_rowOf hn']
    · rw [rowOf_drop hn, rowOf_drop hn']
  · rw [if_neg halive] at hs hs'
    rw [hs, hs']
    exact ⟨Option.Rel.none, fun _ => rfl⟩

/-! ## What downstream has -/

/-- Rows by group. -/
abbrev Output := List UInt8 → Option Row

section
variable (op : Reduce)

def Output.put (held : Output) (g : List UInt8) (o : Option Row) : Output := fun k => if k = g then o else held k

/-- The row is one downstream has. -/
def Has (held : Output) (r : Row) : Prop := ∃ o, held (op.outKey r) = some o ∧ op.Alike o r

instance (held : Output) (r : Row) : Decidable (op.Has held r) :=
  match h : held (op.outKey r) with
  | none => isFalse fun hex => by obtain ⟨o, ho, -⟩ := hex; rw [h] at ho; cases ho
  | some o => decidable_of_iff (op.Alike o r) ⟨fun ha => ⟨o, h, ha⟩, fun ⟨o', ho, ha⟩ => Option.some.inj (h.symm.trans ho) ▸ ha⟩

/-- Downstream after a change, if it fits. Only changes to the groups it watches reach it. -/
def hold (watch : List UInt8 → Bool) (held : Output) (c : Change) : Option Output :=
  if watch (op.outKey c.primaryRow) then
    match c with
    | .add n => if held (op.outKey n.row) = none then some (held.put (op.outKey n.row) (some n.row)) else none
    | .remove n => if op.Has held n.row then some (held.put (op.outKey n.row) none) else none
    | .edit n old =>
      if op.Has held old.row ∧ op.outKey old.row = op.outKey n.row then some (held.put (op.outKey n.row) (some n.row)) else none
    | .child _ _ _ => some held
  else some held

/-- What is sent as the rows of a group go from `l` to `l'`. -/
@[grind] def sends (vals : List Value) (l l' : List Row) : List Change :=
  if op.alive l then
    if op.alive l' then editIfChanged (op.rowOf vals l) (op.rowOf vals l') else [.remove (.leaf (op.rowOf vals l))]
  else if op.alive l' then [.add (.leaf (op.rowOf vals l'))] else []

end

@[simp] theorem Output.put_self (held : Output) (g : List UInt8) (o : Option Row) : held.put g o g = o := if_pos rfl

theorem Output.put_other {held : Output} {k : List UInt8} (h : k ≠ g) (o : Option Row) : held.put g o k = held k := if_neg h

theorem Shown.has {held : Output} {vals' : List Value} (hn : op.Names plain g vals) (hn' : op.Names plain g vals')
    (h : held g = some (op.rowOf vals' l)) : op.Has held (op.rowOf vals l) := by
  refine ⟨op.rowOf vals' l, ?_, ?_, ?_⟩
  · rw [outKey_rowOf hn]
    exact h
  · rw [outKey_rowOf hn, outKey_rowOf hn']
  · rw [rowOf_drop hn, rowOf_drop hn']

/-- What is sent takes what downstream has of the group from `l` to `l'`. -/
theorem sends_hold {watch : List UInt8 → Bool} {held : Output} (l' : List Row) (hn : op.Names plain g vals)
    (hshown : watch g = true → op.Shown plain g l (held g)) :
    ∃ held', (op.sends vals l l').foldlM (op.hold watch) held = some held' ∧ (∀ k, k ≠ g → held' k = held k) ∧
      (watch g = true → op.Shown plain g l' (held' g)) := by
  have hkey := outKey_rowOf hn
  by_cases hw : watch g = true
  · replace hshown := hshown hw
    unfold Shown at hshown
    unfold sends
    by_cases hl : op.alive l = true
    · rw [if_pos hl] at hshown ⊢
      obtain ⟨vals', hn', hrow⟩ := hshown
      have hhas := Shown.has hn hn' hrow
      by_cases hl' : op.alive l' = true
      · rw [if_pos hl', editIfChanged]
        by_cases hsame : aggRowsEqual (op.rowOf vals l) (op.rowOf vals l') = true
        · -- the row is not sent, and it is the same but for how the group is written
          rw [if_pos hsame]
          refine ⟨held, rfl, fun _ _ => rfl, fun _ => ?_⟩
          rw [Shown, if_pos hl']
          refine ⟨vals', hn', ?_⟩
          rw [hrow, rowOf, rowOf, aggRow, aggRow, aggRowsEqual_cells hsame]
        · rw [if_neg hsame]
          refine ⟨held.put g (some (op.rowOf vals l')), ?_, fun k hk => Output.put_other hk _, fun _ => ?_⟩
          · simp [hold, Change.primaryRow, hkey, hw, hhas]
          · rw [Shown, if_pos hl', Output.put_self]
            exact ⟨vals, hn, rfl⟩
      · rw [if_neg hl']
        refine ⟨held.put g none, ?_, fun k hk => Output.put_other hk _, fun _ => ?_⟩
        · simp [hold, Change.primaryRow, hkey, hw, hhas]
        · rw [Shown, if_neg hl', Output.put_self]
    · rw [if_neg hl] at hshown ⊢
      by_cases hl' : op.alive l' = true
      · rw [if_pos hl']
        refine ⟨held.put g (some (op.rowOf vals l')), ?_, fun k hk => Output.put_other hk _, fun _ => ?_⟩
        · simp [hold, Change.primaryRow, hkey, hw, hshown]
        · rw [Shown, if_pos hl', Output.put_self]
          exact ⟨vals, hn, rfl⟩
      · rw [if_neg hl']
        refine ⟨held, rfl, fun _ _ => rfl, fun _ => ?_⟩
        rw [Shown, if_neg hl']
        exact hshown
  · refine ⟨held, ?_, fun _ _ => rfl, fun h => absurd h hw⟩
    unfold sends editIfChanged
    split_ifs <;> simp [hold, Change.primaryRow, hkey, hw]

/-! ## One push -/

/-- The rows of the group of a change, after it. -/
def moved : SourceChange Row → List Row → List Row
  | .add r, l => r :: l
  | .remove r, l => l.erase r
  | .edit old row, l => row :: l.erase old

/-- A grouped reducer that was hydrated whole. -/
def Eager (op : Reduce) : Prop := op.partitionKey ≠ none ∧ op.eager = true

/-- The slots after the rows of a group became `l`. -/
@[grind] def stored (op : Reduce) (st : ReduceStorage) (g : List UInt8) (l : List Row) : ReduceStorage :=
  if op.eager && !op.alive l then st.del g else st.set g (l.length, op.accsOf l)

section
variable {st : ReduceStorage} {old row : Row} {δ : SourceChange Row} {pk : List Nat}

theorem set_self (s : Int × List ReduceAcc) : st.set g s g = some s := if_pos rfl

theorem set_other {k : List UInt8} (h : k ≠ g) (s : Int × List ReduceAcc) : st.set g s k = st k := if_neg h

theorem accApply_erase (hr : op.Summable r) (hmem : r ∈ l) : op.accApply (op.accsOf l) r (-1) = op.accsOf (l.erase r) := by
  rw [accsOf_perm (List.perm_cons_erase hmem), accApply_remove hr]

theorem length_erase_int (hmem : r ∈ l) : ((l.erase r).length : Int) = (l.length : Int) - 1 := by
  have := List.length_pos_of_mem hmem
  rw [List.length_erase_of_mem hmem]
  omega

theorem accApply_swap (ho : op.Summable old) (hr : op.Summable row) (hmem : old ∈ l) :
    op.accApply (op.accApply (op.accsOf l) old (-1)) row 1 = op.accsOf (row :: l.erase old) := by
  rw [accApply_erase ho hmem, accApply_add hr]

theorem length_swap_int (hmem : old ∈ l) (row : Row) : ((row :: l.erase old).length : Int) = l.length := by
  have := length_erase_int hmem
  rw [List.length_cons]
  omega

/-- What a change needs of the rows of its group: a row that goes is there, and sums are of integers. -/
structure Applies (op : Reduce) (δ : SourceChange Row) (l : List Row) : Prop where
  key : op.Summable δ.key
  result : ∀ r, δ.result = some r → op.Summable r
  mem : (∀ r, δ ≠ .add r) → δ.key ∈ l

theorem pushGlobal_eq (hpk : op.partitionKey = none) (h : op.Applies δ l) (hst : st globalKey = some ((l.length : Int), op.accsOf l)) :
    op.pushGlobal st (.ofSource δ) = (op.stored st globalKey (moved δ l), op.sends [] l (moved δ l)) := by
  have halive : ∀ l, op.alive l = true := fun l => by simp [alive, hpk]
  simp only [stored, sends, halive, if_true, Bool.not_true, Bool.and_false, Bool.false_eq_true, if_false, rowOf]
  unfold pushGlobal
  cases δ with
  | add r =>
    have hr : op.Summable r := h.key
    simp only [hst, Change.ofSource, Node.leaf_row, moved, accApply_add hr, List.length_cons, Nat.cast_add, Nat.cast_one]
  | remove r =>
    have hr : op.Summable r := h.key
    have hmem : r ∈ l := h.mem fun _ h => by cases h
    simp only [hst, Change.ofSource, Node.leaf_row, moved, accApply_erase hr hmem, length_erase_int hmem]
  | edit old row =>
    have ho : op.Summable old := h.key
    have hmem : old ∈ l := h.mem fun _ h => by cases h
    simp only [hst, Change.ofSource, Node.leaf_row, moved, accApply_swap ho (h.result row rfl) hmem, length_swap_int hmem]

theorem alive_grouped (hpk : op.partitionKey ≠ none) (l : List Row) : op.alive l = !l.isEmpty := by
  rw [alive, Option.isNone_eq_false_iff.mpr (Option.isSome_iff_ne_none.mpr hpk), Bool.false_or]

theorem count_pos (l : List Row) : decide ((0 : Int) < l.length) = !l.isEmpty := by
  cases l with
  | nil => rfl
  | cons x l => exact decide_eq_true (by rw [List.length_cons]; omega)

theorem isEmpty_of_mem (h : r ∈ l) : l.isEmpty = false := by
  cases l with
  | nil => cases h
  | cons x l => rfl

theorem groupedDelta_add (hpk : op.partitionKey ≠ none) (hr : op.Summable r)
    (hst : st (op.keyOf r) = some ((l.length : Int), op.accsOf l)) :
    op.groupedDelta st r 1 = (op.stored st (op.keyOf r) (r :: l), op.sends (op.groupVals r) l (r :: l)) := by
  unfold groupedDelta
  have hst : st (groupKey (op.groupVals r)) = some ((l.length : Int), op.accsOf l) := hst
  have hlen : max ((l.length : Int) + 1) 0 = ((r :: l).length : Int) := by
    rw [List.length_cons]
    omega
  simp only [hst, hlen, accApply_add hr, count_pos, stored, sends, alive_grouped hpk, List.isEmpty_cons, Bool.not_false, Bool.not_true,
    Bool.and_false, Bool.false_eq_true, if_true, if_false]
  cases l with
  | nil => rfl
  | cons x l => rfl

theorem groupedDelta_remove (hpk : op.partitionKey ≠ none) (hr : op.Summable r) (hmem : r ∈ l)
    (hst : st (op.keyOf r) = some ((l.length : Int), op.accsOf l)) :
    op.groupedDelta st r (-1) = (op.stored st (op.keyOf r) (l.erase r), op.sends (op.groupVals r) l (l.erase r)) := by
  unfold groupedDelta
  have hst : st (groupKey (op.groupVals r)) = some ((l.length : Int), op.accsOf l) := hst
  have hpos := List.length_pos_of_mem hmem
  have hlen : max ((l.length : Int) + -1) 0 = ((l.erase r).length : Int) := by
    rw [length_erase_int hmem]
    omega
  simp only [hst, hlen, accApply_erase hr hmem, count_pos, stored, sends, alive_grouped hpk, isEmpty_of_mem hmem, Bool.not_false, if_true]
  cases herase : l.erase r with
  | nil =>
    cases heager : op.eager
    · rfl
    · rfl
  | cons x rest =>
    simp only [List.isEmpty_cons, Bool.not_false, Bool.not_true, Bool.and_false, Bool.false_eq_true, if_true, if_false]
    rfl

theorem groupedEdit_eq (hpk : op.partitionKey ≠ none) (ho : op.Summable old) (hr : op.Summable row) (hmem : old ∈ l)
    (hst : st (op.keyOf row) = some ((l.length : Int), op.accsOf l)) :
    op.groupedEdit st old row = (op.stored st (op.keyOf row) (row :: l.erase old), op.sends (op.groupVals row) l (row :: l.erase old)) := by
  unfold groupedEdit
  have hst : st (groupKey (op.groupVals row)) = some ((l.length : Int), op.accsOf l) := hst
  simp only [hst, accApply_swap ho hr hmem, stored, sends, alive_grouped hpk, isEmpty_of_mem hmem, List.isEmpty_cons, Bool.not_false, Bool.not_true,
    Bool.and_false, Bool.false_eq_true, if_true, if_false, rowOf, length_swap_int hmem]
  rfl

/-- A push to a group with a slot. -/
theorem push_slot (h : op.Applies δ l) (hfits : op.Fits kinds plain δ.key) (hfits' : ∀ r, δ.result = some r → op.Fits kinds plain r)
    (hkey : ∀ r, δ.result = some r → op.keyOf r = op.keyOf δ.key) (hst : st (op.keyOf δ.key) = some ((l.length : Int), op.accsOf l)) :
    ∃ vals, op.Names plain (op.keyOf δ.key) vals ∧
      op.push st (.ofSource δ) = (op.stored st (op.keyOf δ.key) (moved δ l), op.sends vals l (moved δ l)) := by
  unfold push
  cases hpk : op.partitionKey with
  | none =>
    have hglobal := keyOf_global hpk δ.key
    rw [hglobal] at hst ⊢
    refine ⟨[], ⟨by simp [cols_global hpk], rfl, fun _ v hv => by cases hv⟩, pushGlobal_eq hpk h hst⟩
  | some pk =>
    have hpk : op.partitionKey ≠ none := by simp [hpk]
    cases δ with
    | add r => exact ⟨_, hfits.names, groupedDelta_add hpk h.key hst⟩
    | remove r => exact ⟨_, hfits.names, groupedDelta_remove hpk h.key (h.mem fun _ h => by cases h) hst⟩
    | edit old row =>
      have hkey : op.keyOf row = op.keyOf old := hkey row rfl
      have hnames := (hfits' row rfl).names
      have hst : st (op.keyOf old) = some ((l.length : Int), op.accsOf l) := hst
      show ∃ vals, op.Names plain (op.keyOf old) vals ∧ op.groupedEdit st old row = (op.stored st (op.keyOf old) _, _)
      rw [← hkey] at hst ⊢
      exact ⟨_, hnames, groupedEdit_eq hpk h.key (h.result row rfl) (h.mem fun _ h => by cases h) hst⟩

/-- A push to a group without a slot: it is dropped, unless the group begins with it. -/
theorem push_none (hkey : ∀ r, δ.result = some r → op.keyOf r = op.keyOf δ.key) (hst : st (op.keyOf δ.key) = none) :
    (∃ r, δ = .add r ∧ op.Eager) ∨ (op.Eager → ∀ r, δ ≠ .add r) ∧ op.push st (.ofSource δ) = (st, []) := by
  unfold push
  cases hpk : op.partitionKey with
  | none =>
    rw [keyOf_global hpk] at hst
    exact Or.inr ⟨fun heager => absurd hpk heager.1, by simp [pushGlobal, hst]⟩
  | some pk =>
    cases δ with
    | add r =>
      have hst : st (groupKey (op.groupVals r)) = none := hst
      by_cases heager : op.eager = true
      · exact Or.inl ⟨r, rfl, by simp [hpk], heager⟩
      · exact Or.inr ⟨fun h => absurd h.2 heager, by simp [groupedDelta, Change.ofSource, hst, heager]⟩
    | remove r =>
      have hst : st (groupKey (op.groupVals r)) = none := hst
      exact Or.inr ⟨fun _ r h => (by cases h), by simp [groupedDelta, Change.ofSource, hst]⟩
    | edit old row =>
      have hst : st (groupKey (op.groupVals row)) = none := (congrArg st (hkey row rfl)).trans hst
      exact Or.inr ⟨fun _ r h => (by cases h), by simp [groupedEdit, Change.ofSource, hst]⟩

theorem push_birth (heager : op.Eager) (hr : op.Summable r) (hst : st (op.keyOf r) = none) :
    op.push st (.add (.leaf r)) = (op.stored st (op.keyOf r) [r], op.sends (op.groupVals r) [] [r]) := by
  unfold push
  cases hpk : op.partitionKey with
  | none => exact absurd hpk heager.1
  | some pk =>
    have hst : st (groupKey (op.groupVals r)) = none := hst
    have haccs : op.accApply op.newAccs r 1 = op.accsOf [r] := by rw [← accsOf_nil, accApply_add hr]
    simp [groupedDelta, hst, heager.2, haccs, stored, sends, alive_grouped heager.1, keyOf, rowOf]

/-! ## Every group -/

theorem GroupRows.change (h : op.GroupRows U (op.keyOf δ.key) l) (hv : ValidChange pk U δ)
    (hkey : ∀ r, δ.result = some r → op.keyOf r = op.keyOf δ.key) :
    op.GroupRows (applyChange U δ) (op.keyOf δ.key) (moved δ l) := by
  cases δ with
  | add r =>
    have hnew : r ∉ l := fun hmem => hv r ((h.mem r).mp hmem).1 Std.ReflCmp.compare_self
    refine ⟨List.nodup_cons.mpr ⟨hnew, h.nodup⟩, fun x => ?_⟩
    have hmem := h.mem x
    simp only [moved, applyChange, List.mem_cons, Set.mem_insert_iff, hmem]
    constructor
    · rintro (rfl | ⟨hx, hk⟩)
      · exact ⟨Or.inl rfl, rfl⟩
      · exact ⟨Or.inr hx, hk⟩
    · rintro ⟨rfl | hx, hk⟩
      · exact Or.inl rfl
      · exact Or.inr ⟨hx, hk⟩
  | remove r =>
    refine ⟨h.nodup.erase r, fun x => ?_⟩
    have hmem := h.mem x
    simp only [moved, applyChange, h.nodup.mem_erase_iff, Set.mem_sdiff, Set.mem_singleton_iff, hmem]
    tauto
  | edit old row =>
    have hrow : op.keyOf row = op.keyOf old := hkey row rfl
    have hnew : row ∉ l.erase old := by
      intro hmem
      obtain ⟨hne, hl⟩ := h.nodup.mem_erase_iff.mp hmem
      exact hv.2 row ((h.mem row).mp hl).1 hne Std.ReflCmp.compare_self
    refine ⟨List.nodup_cons.mpr ⟨hnew, h.nodup.erase old⟩, fun x => ?_⟩
    have hmem := h.mem x
    simp only [moved, applyChange, List.mem_cons, h.nodup.mem_erase_iff, Set.mem_insert_iff, Set.mem_sdiff, Set.mem_singleton_iff, hmem]
    constructor
    · rintro (rfl | ⟨hne, hx, hk⟩)
      · exact ⟨Or.inl rfl, hrow⟩
      · exact ⟨Or.inr ⟨hx, hne⟩, hk⟩
    · rintro ⟨rfl | ⟨hx, hne⟩, hk⟩
      · exact Or.inl rfl
      · exact Or.inr ⟨hne, hx, hk⟩

/-- A change keeps the rows of the other groups. -/
theorem mem_change_other (hkey : ∀ r, δ.result = some r → op.keyOf r = op.keyOf δ.key) (hne : op.keyOf δ.key ≠ g) (hr : op.keyOf r = g) :
    r ∈ applyChange U δ ↔ r ∈ U := by
  have hnew : (Overlays.ofChange δ).add ≠ some r := by
    intro hadd
    have hres : δ.result = some r := by cases δ <;> exact hadd
    exact hne ((hkey r hres).symm.trans hr)
  have hold : (Overlays.ofChange δ).remove ≠ some r := by
    intro hrem
    have hrow : δ.key = r := by
      cases δ with
      | add a => cases hrem
      | remove a => exact Option.some.inj hrem
      | edit old row => exact Option.some.inj hrem
    exact hne (hrow ▸ hr)
  rw [MemorySource.mem_applyChange]
  simp [hnew, hold]

theorem GroupRows.other (h : op.GroupRows U g l) (hkey : ∀ r, δ.result = some r → op.keyOf r = op.keyOf δ.key)
    (hne : op.keyOf δ.key ≠ g) : op.GroupRows (applyChange U δ) g l := by
  refine ⟨h.nodup, fun r => (h.mem r).trans ?_⟩
  constructor
  · exact fun hr => ⟨(mem_change_other hkey hne hr.2).mpr hr.1, hr.2⟩
  · exact fun hr => ⟨(mem_change_other hkey hne hr.2).mp hr.1, hr.2⟩

/-- Every slot has the fold of its group's rows. -/
structure Inv (op : Reduce) (kinds : Nat → Kind) (plain : Prop) (U : Set Row) (st : ReduceStorage) : Prop where
  fits : ∀ r ∈ U, op.Fits kinds plain r
  slots : ∀ g s, st g = some s → ∃ l, op.GroupRows U g l ∧ s = ((l.length : Int), op.accsOf l)

/-- Downstream has the answer for each group it watches. Eager, the groups with slots are those with rows;
    otherwise a watched group has a slot. -/
structure Held (op : Reduce) (kinds : Nat → Kind) (plain : Prop) (watch : List UInt8 → Bool) (U : Set Row) (st : ReduceStorage)
    (held : Output) : Prop where
  inv : op.Inv kinds plain U st
  answers : ∀ g, watch g = true → op.Answer plain U g (held g)
  eager : op.Eager → ∀ g, st g ≠ none ↔ ∃ x ∈ U, op.keyOf x = g
  kept : ∀ g, watch g = true → op.Eager ∨ st g ≠ none

/-- A change whose rows fit; an edit keeps the group. -/
structure Admitted (op : Reduce) (kinds : Nat → Kind) (plain : Prop) (δ : SourceChange Row) : Prop where
  fits : ∀ r, δ.result = some r → op.Fits kinds plain r
  kept : ∀ old row, δ = .edit old row → op.partitionKey.all (partitionKeyUnchanged old row) = true

section
variable (hv : ValidChange pk U δ) (hfits : ∀ r ∈ U, op.Fits kinds plain r) (hadm : op.Admitted kinds plain δ)
include hv hfits hadm

theorem Admitted.result_key (hr : δ.result = some r) : op.keyOf r = op.keyOf δ.key := by
  rw [keyOf_eq, keyOf_eq]
  exact Partition.result_key hv (fun x hx => (hfits x hx).typed) ⟨fun x hx => (hadm.fits x hx).typed, hadm.kept⟩ hr

theorem Admitted.fits_key : op.Fits kinds plain δ.key := by
  cases δ with
  | add r => exact hadm.fits r rfl
  | remove r => exact hfits r hv
  | edit old row => exact hfits old hv.1

theorem Admitted.fits_after : ∀ r ∈ applyChange U δ, op.Fits kinds plain r := by
  intro r hr
  rcases MemorySource.mem_applyChange.mp hr with hadd | ⟨hr, -⟩
  · exact hadm.fits r (by cases δ <;> exact hadd)
  · exact hfits r hr

theorem Admitted.applies (hl : op.GroupRows U (op.keyOf δ.key) l) : op.Applies δ l := by
  refine ⟨(hadm.fits_key hv hfits).summable, fun r hr => (hadm.fits r hr).summable, fun hne => (hl.mem _).mpr ⟨?_, rfl⟩⟩
  cases δ with
  | add r => exact absurd rfl (hne r)
  | remove r => exact hv
  | edit old row => exact hv.1

end

theorem stored_self (st : ReduceStorage) (g : List UInt8) (l : List Row) :
    op.stored st g l g = if op.eager && !op.alive l then none else some ((l.length : Int), op.accsOf l) := by
  unfold stored
  split
  · simp [ReduceStorage.del]
  · simp [ReduceStorage.set]

theorem stored_other {k : List UInt8} (h : k ≠ g) (l : List Row) : op.stored st g l k = st k := by
  unfold stored
  split
  · simp [ReduceStorage.del, h]
  · simp [ReduceStorage.set, h]

/-- A group's rows become `l'` and what is sent says so. -/
theorem Held.stored {watch : List UInt8 → Bool} {held : Output} (hheld : op.Held kinds plain watch U st held) (hv : ValidChange pk U δ)
    (hadm : op.Admitted kinds plain δ) (hl : op.GroupRows U (op.keyOf δ.key) l) (hn : op.Names plain (op.keyOf δ.key) vals) :
    ∃ held', (op.sends vals l (moved δ l)).foldlM (op.hold watch) held = some held' ∧
      op.Held kinds plain watch (applyChange U δ) (op.stored st (op.keyOf δ.key) (moved δ l)) held' := by
  have hkey : ∀ r, δ.result = some r → op.keyOf r = op.keyOf δ.key := fun r hr => hadm.result_key hv hheld.inv.fits hr
  have hl' := hl.change hv hkey
  have hshown : watch (op.keyOf δ.key) = true → op.Shown plain (op.keyOf δ.key) l (held (op.keyOf δ.key)) := by
    intro hw
    obtain ⟨l0, hl0, hs0⟩ := hheld.answers _ hw
    exact hs0.perm (hl0.perm hl)
  obtain ⟨held', hfold, hframe, hshown'⟩ := sends_hold (moved δ l) hn hshown
  refine ⟨held', hfold, ⟨hadm.fits_after hv hheld.inv.fits, fun g s hs => ?_⟩, fun g hw => ?_, fun heager g => ?_, fun g hw => ?_⟩
  · by_cases hg : g = op.keyOf δ.key
    · subst hg
      rw [stored_self] at hs
      split at hs
      · cases hs
      · exact ⟨_, hl', (Option.some.inj hs).symm⟩
    · rw [stored_other hg] at hs
      obtain ⟨l0, hl0, rfl⟩ := hheld.inv.slots g s hs
      exact ⟨l0, hl0.other hkey (Ne.symm hg), rfl⟩
  · by_cases hg : g = op.keyOf δ.key
    · subst hg
      exact ⟨_, hl', hshown' hw⟩
    · rw [hframe g hg]
      obtain ⟨l0, hl0, hs0⟩ := hheld.answers g hw
      exact ⟨l0, hl0.other hkey (Ne.symm hg), hs0⟩
  · by_cases hg : g = op.keyOf δ.key
    · subst hg
      rw [stored_self, heager.2, alive_grouped heager.1]
      cases hcase : moved δ l with
      | nil =>
        rw [hcase] at hl'
        refine ⟨fun h => absurd rfl h, fun ⟨x, hx, hxk⟩ => ?_⟩
        cases (hl'.mem x).mpr ⟨hx, hxk⟩
      | cons y rest =>
        rw [hcase] at hl'
        exact ⟨fun _ => ⟨y, (hl'.mem y).mp List.mem_cons_self⟩, fun _ => by simp⟩
    · rw [stored_other hg, hheld.eager heager g]
      constructor
      · rintro ⟨x, hx, hxk⟩
        exact ⟨x, (mem_change_other hkey (Ne.symm hg) hxk).mpr hx, hxk⟩
      · rintro ⟨x, hx, hxk⟩
        exact ⟨x, (mem_change_other hkey (Ne.symm hg) hxk).mp hx, hxk⟩
  · rcases hheld.kept g hw with heager | hslot
    · exact Or.inl heager
    · by_cases hg : g = op.keyOf δ.key
      · subst hg
        by_cases heager : op.Eager
        · exact Or.inl heager
        · refine Or.inr ?_
          rw [stored_self, if_neg]
          · simp
          · intro h
            simp only [Bool.and_eq_true, Bool.not_eq_true'] at h
            refine heager ⟨fun hpk => ?_, h.1⟩
            simp [alive, hpk] at h
      · rw [stored_other hg]
        exact Or.inr hslot

/-- At most one change is sent. -/
theorem sends_short (vals : List Value) (l l' : List Row) : (op.sends vals l l').length ≤ 1 := by
  unfold sends editIfChanged
  split_ifs <;> simp

/-- What a push sends takes each watched group's answer to the one after. -/
theorem push_held {watch : List UInt8 → Bool} {held : Output} (hheld : op.Held kinds plain watch U st held) (hv : ValidChange pk U δ)
    (hadm : op.Admitted kinds plain δ) :
    ∃ held', (op.push st (.ofSource δ)).2.foldlM (op.hold watch) held = some held' ∧ (op.push st (.ofSource δ)).2.length ≤ 1 ∧
      op.Held kinds plain watch (applyChange U δ) (op.push st (.ofSource δ)).1 held' := by
  have hfits := hheld.inv.fits
  have hkey : ∀ r, δ.result = some r → op.keyOf r = op.keyOf δ.key := fun r hr => hadm.result_key hv hfits hr
  cases hst : st (op.keyOf δ.key) with
  | some s =>
    obtain ⟨l, hl, rfl⟩ := hheld.inv.slots _ s hst
    obtain ⟨vals, hn, hpush⟩ := push_slot (hadm.applies hv hfits hl) (hadm.fits_key hv hfits) hadm.fits hkey hst
    obtain ⟨held', hfold, hheld'⟩ := hheld.stored hv hadm hl hn
    rw [hpush]
    exact ⟨held', hfold, sends_short _ _ _, hheld'⟩
  | none =>
    rcases push_none hkey hst with ⟨r, rfl, heager⟩ | ⟨hne, hpush⟩
    · have hl : op.GroupRows U (op.keyOf r) [] := by
        refine ⟨List.nodup_nil, fun x => ⟨fun hx => (by cases hx), fun ⟨hx, hxk⟩ => ?_⟩⟩
        exact absurd hst ((hheld.eager heager _).mpr ⟨x, hx, hxk⟩)
      have hfit := hadm.fits r rfl
      obtain ⟨held', hfold, hheld'⟩ := hheld.stored hv hadm hl hfit.names
      have hpush : op.push st (.ofSource (.add r)) = _ := push_birth heager hfit.summable hst
      rw [hpush]
      exact ⟨held', hfold, sends_short _ _ _, hheld'⟩
    · rw [hpush]
      have hlazy : ¬ op.Eager := by
        intro heager
        refine (hheld.eager heager _).mpr ⟨δ.key, ?_, rfl⟩ hst
        cases δ with
        | add r => exact absurd rfl (hne heager r)
        | remove r => exact hv
        | edit old row => exact hv.1
      refine ⟨held, rfl, by simp, ⟨hadm.fits_after hv hfits, fun g s hs => ?_⟩, fun g hw => ?_, fun heager => absurd heager hlazy, hheld.kept⟩
      · obtain ⟨l, hl, rfl⟩ := hheld.inv.slots g s hs
        refine ⟨l, hl.other hkey fun hg => ?_, rfl⟩
        have hs : st g = some _ := hs
        rw [hg, hs] at hst
        cases hst
      · obtain ⟨l, hl, hs⟩ := hheld.answers g hw
        refine ⟨l, hl.other hkey fun hg => ?_, hs⟩
        exact (hheld.kept g hw).elim hlazy fun hslot => hslot (hg ▸ hst)

/-! ## Fetch -/

section
variable {up : Upstream} {sort : SortSpec} {rows : List Row} {p : Row}

/-- A fetch of every group, or of the group of a row. -/
def request (op : Reduce) (p : Option Row) : FetchRequest :=
  { constraint := p.map fun p => (List.range op.cols.length).zip (op.groupVals p) }

theorem groupValsFromConstraint_request (vals : List Value) :
    groupValsFromConstraint ((List.range vals.length).zip vals) vals.length = vals := by
  refine List.ext_getElem (by simp [groupValsFromConstraint]) fun i h1 h2 => ?_
  have hfind : ((List.range vals.length).zip vals).find? (fun q => q.1 == i) = some (i, vals.get ⟨i, h2⟩) := by
    rw [List.find?_eq_some_iff_getElem]
    refine ⟨by simp, i, by simpa using h2, by simp, fun j hj => ?_⟩
    simp only [List.getElem_zip, List.getElem_range, Bool.not_eq_eq_eq_not, Bool.not_true, beq_eq_false_iff_ne]
    omega
  simp [groupValsFromConstraint, hfind]

def find (groups : List Group) (k : List UInt8) : Option Group := groups.find? fun g => g.key = k

/-- The group of `row` with it in. -/
def withRow (op : Reduce) (row : Row) : Option Group → Group
  | none => ⟨op.keyOf row, op.groupVals row, op.foldRow (0, op.newAccs) row⟩
  | some g => { g with state := op.foldRow g.state row }

theorem fileRow_cons (g : Group) (groups : List Group) (row : Row) : op.fileRow (g :: groups) row =
    if g.key = op.keyOf row then { g with state := op.foldRow g.state row } :: groups else g :: op.fileRow groups row := rfl

theorem find_fileRow (row : Row) (k : List UInt8) : ∀ groups : List Group, find (op.fileRow groups row) k =
    if k = op.keyOf row then some (op.withRow row (find groups (op.keyOf row))) else find groups k := by
  intro groups
  induction groups with
  | nil =>
    by_cases hk : k = op.keyOf row
    · subst hk
      simp [fileRow, find, withRow, keyOf]
    · rw [if_neg hk]
      simpa [fileRow, find, keyOf] using fun h => hk h.symm
  | cons g groups ih =>
    rw [fileRow_cons]
    by_cases hg : g.key = op.keyOf row
    · rw [if_pos hg]
      by_cases hk : k = op.keyOf row
      · subst hk
        simp [find, hg, withRow]
      · have hgk : g.key ≠ k := fun h => hk (h.symm.trans hg)
        rw [if_neg hk]
        simp [find, hgk]
    · rw [if_neg hg]
      by_cases hgk : g.key = k
      · have hk : k ≠ op.keyOf row := fun h => hg (hgk.trans h)
        rw [if_neg hk]
        simp [find, hgk]
      · have hcons : ∀ (gs : List Group), find (g :: gs) k = find gs k := fun gs => by simp [find, hgk]
        have hcons' : find (g :: groups) (op.keyOf row) = find groups (op.keyOf row) := by simp [find, hg]
        rw [hcons, hcons, ih, hcons']

theorem mem_keys_fileRow (row : Row) {k : List UInt8} : ∀ groups : List Group, k ∈ (op.fileRow groups row).map Group.key →
    k = op.keyOf row ∨ k ∈ groups.map Group.key := by
  intro groups
  induction groups with
  | nil => intro h; exact Or.inl (List.mem_singleton.mp h)
  | cons g groups ih =>
    rw [fileRow_cons]
    split
    · exact fun h => Or.inr h
    · intro h
      rw [List.map_cons, List.mem_cons] at h ⊢
      rcases h with h | h
      · exact Or.inr (Or.inl h)
      · exact (ih h).imp_right Or.inr

theorem nodup_fileRow (row : Row) : ∀ groups : List Group, (groups.map Group.key).Nodup → ((op.fileRow groups row).map Group.key).Nodup := by
  intro groups
  induction groups with
  | nil => intro _; simp [fileRow]
  | cons g groups ih =>
    intro h
    rw [List.map_cons, List.nodup_cons] at h
    rw [fileRow_cons]
    split
    · exact List.nodup_cons.mpr h
    · rename_i hg
      refine List.nodup_cons.mpr ⟨fun hmem => ?_, ih h.2⟩
      exact (mem_keys_fileRow row groups hmem).elim hg h.1

/-- The groups of the rows `seen`. -/
structure Filed (op : Reduce) (seen : List Row) (groups : List Group) : Prop where
  nodup : (groups.map Group.key).Nodup
  found : ∀ k, match find groups k with
    | none => ∀ y ∈ seen, op.keyOf y ≠ k
    | some g => g.key = k ∧ (∃ y ∈ seen, g.vals = op.groupVals y ∧ op.keyOf y = k) ∧
        g.state = (seen.filter fun y => op.keyOf y = k).foldl op.foldRow (0, op.newAccs)

theorem Filed.step {seen : List Row} {groups : List Group} (h : op.Filed seen groups) (row : Row) :
    op.Filed (seen ++ [row]) (op.fileRow groups row) := by
  refine ⟨nodup_fileRow row groups h.nodup, fun k => ?_⟩
  rw [find_fileRow]
  have hk0 := h.found k
  by_cases hk : k = op.keyOf row
  · subst hk
    rw [if_pos rfl]
    cases hfind : find groups (op.keyOf row) with
    | none =>
      rw [hfind] at hk0
      refine ⟨rfl, ⟨row, by simp, rfl, rfl⟩, ?_⟩
      have hnone : seen.filter (fun y => op.keyOf y = op.keyOf row) = [] :=
        List.filter_eq_nil_iff.mpr fun y hy => by simpa using hk0 y hy
      rw [List.filter_append, hnone]
      simp [withRow]
    | some g =>
      rw [hfind] at hk0
      obtain ⟨hkey, ⟨y, hy, hvals, hyk⟩, hstate⟩ := hk0
      refine ⟨hkey, ⟨y, List.mem_append_left _ hy, hvals, hyk⟩, ?_⟩
      rw [List.filter_append, List.foldl_append, ← hstate]
      simp [withRow]
  · rw [if_neg hk]
    have hrow : op.keyOf row ≠ k := fun h => hk h.symm
    have hfilter : (seen ++ [row]).filter (fun y => op.keyOf y = k) = seen.filter fun y => op.keyOf y = k := by
      rw [List.filter_append]
      simp [hrow]
    cases hfind : find groups k with
    | none =>
      rw [hfind] at hk0
      intro y hy
      rcases List.mem_append.mp hy with hy | hy
      · exact hk0 y hy
      · rw [List.mem_singleton.mp hy]
        exact hrow
    | some g =>
      rw [hfind] at hk0
      obtain ⟨hkey, ⟨y, hy, hvals, hyk⟩, hstate⟩ := hk0
      refine ⟨hkey, ⟨y, List.mem_append_left _ hy, hvals, hyk⟩, ?_⟩
      rw [hfilter]
      exact hstate

theorem filed_all (rows : List Row) : op.Filed rows (rows.foldl op.fileRow []) := by
  have hrun : ∀ (rows seen : List Row) (groups : List Group), op.Filed seen groups → op.Filed (seen ++ rows) (rows.foldl op.fileRow groups) := by
    intro rows
    induction rows with
    | nil => intro seen groups h; rwa [List.append_nil]
    | cons row rows ih =>
      intro seen groups h
      rw [List.foldl_cons, show seen ++ row :: rows = (seen ++ [row]) ++ rows by simp]
      exact ih _ _ (h.step row)
  exact hrun rows [] [] ⟨by simp, fun k y hy => by cases hy⟩

theorem store_all (k : List UInt8) : ∀ (groups : List Group) (st : ReduceStorage), (groups.map Group.key).Nodup →
    groups.foldl (fun st g => st.set g.key g.state) st k = match find groups k with | some g => some g.state | none => st k := by
  intro groups
  induction groups with
  | nil => intro st _; rfl
  | cons g groups ih =>
    intro st h
    rw [List.map_cons, List.nodup_cons] at h
    rw [List.foldl_cons, ih _ h.2]
    by_cases hg : g.key = k
    · have hnone : find groups k = none := by
        refine List.find?_eq_none.mpr fun g' hg' hk => h.1 ?_
        rw [hg, ← of_decide_eq_true hk]
        exact List.mem_map_of_mem hg'
      have hself : find (g :: groups) k = some g := by simp [find, hg]
      rw [hnone, hself, ← hg]
      exact set_self _
    · have hcons : find (g :: groups) k = find groups k := by simp [find, hg]
      rw [hcons, set_other (Ne.symm hg)]

/-- What a fetch returned, by group. -/
def Output.of (op : Reduce) (nodes : List Node) : Output := fun k => (nodes.map Node.row).find? fun r => op.outKey r = k

/-- The groups a fetch answers for: the global one, every group, or of a lazy reducer the one asked for. -/
def asked (op : Reduce) (p : Option Row) (g : List UInt8) : Bool :=
  match op.partitionKey with
  | none => g == globalKey
  | some _ => op.eager || p.all fun q => op.keyOf q == g

/-- A group a lazy reducer is asked for has no null. -/
def Asks (op : Reduce) (kinds : Nat → Kind) (plain : Prop) (p : Option Row) : Prop :=
  op.partitionKey ≠ none → op.eager = false → ∀ q, p = some q →
    Partition.Proper op.partitionKey kinds q ∧ (plain → ∀ c ∈ op.cols, NonFloat (q.cell c))

/-- What a fetch does: right slots, none lost, and the answers for the groups fetched. -/
structure Fetched (op : Reduce) (kinds : Nat → Kind) (plain : Prop) (p : Option Row) (U : Set Row) (st st' : ReduceStorage)
    (nodes : List Node) : Prop where
  inv : op.Inv kinds plain U st'
  mono : ∀ k, st k ≠ none → st' k ≠ none
  eager : op.Eager → ∀ k, st' k ≠ none ↔ st k ≠ none ∨ ∃ x ∈ U, op.keyOf x = k
  answers : ∀ g, op.asked p g = true → op.Answer plain U g (Output.of op nodes g)
  sorted : (nodes.map Node.row).Pairwise fun a b => rowCmp op.outSort a b ≠ .gt
  nodup : ((nodes.map Node.row).map op.outKey).Nodup

theorem Inv.set (hinv : op.Inv kinds plain U st) (hl : op.GroupRows U g l) : op.Inv kinds plain U (st.set g ((l.length : Int), op.accsOf l)) := by
  refine ⟨hinv.fits, fun k s hs => ?_⟩
  by_cases hk : k = g
  · subst hk
    rw [set_self] at hs
    exact ⟨l, hl, (Option.some.inj hs).symm⟩
  · rw [set_other hk] at hs
    exact hinv.slots k s hs

theorem inputConstraint_groupVals {pk : List Nat} (hpk : op.partitionKey = some pk) (p : Row) :
    some (op.inputConstraint (op.groupVals p)) = Partition.constraintFor op.partitionKey p := by
  have hcols : op.cols = pk := by rw [cols, Partition.cols, hpk, Option.getD_some]
  rw [inputConstraint, groupVals, Partition.constraintFor, hpk, Option.map_some, hcols, Option.some_inj]
  refine List.ext_getElem (by simp) fun i _ _ => by simp

/-- The fetch of one group by a lazy reducer. -/
theorem fetch_request_one {pk : List Nat} (hpk : op.partitionKey = some pk) (hlazy : op.eager = false) (p : Row) :
    op.fetch up st (op.request (some p)) = op.fetchOneGroup up st (op.groupVals p) := by
  have hcols : op.cols = pk := by rw [cols, Partition.cols, hpk, Option.getD_some]
  have hlength : (op.groupVals p).length = op.cols.length := by simp [groupVals]
  have hrange : constraintMatchesPartitionKey ((List.range op.cols.length).zip (op.groupVals p)) (List.range pk.length) = true := by
    simp only [constraintMatchesPartitionKey, Bool.and_eq_true, beq_iff_eq, List.all_eq_true, List.any_eq_true]
    refine ⟨by simp [hlength, hcols], fun i hi => ?_⟩
    rw [← hcols, ← hlength, List.mem_range] at hi
    have hlen : i < ((List.range op.cols.length).zip (op.groupVals p)).length := by simpa [← hlength] using hi
    exact ⟨_, List.getElem_mem hlen, by simp⟩
  have hvals : groupValsFromConstraint ((List.range op.cols.length).zip (op.groupVals p)) pk.length = op.groupVals p := by
    have h := groupValsFromConstraint_request (op.groupVals p)
    rw [hlength] at h
    rwa [← hcols]
  simp only [fetch, hpk, request, hlazy, Option.map_some, Option.filter_some, hrange, if_true, Bool.false_eq_true, if_false, hvals]

/-- Every other fetch folds the whole input. -/
theorem fetch_request_all {pk : List Nat} {p : Option Row} (hpk : op.partitionKey = some pk) (hone : ¬ (op.eager = false ∧ ∃ q, p = some q)) :
    op.fetch up st (op.request p) = op.fetchAll up st := by
  simp only [fetch, hpk, request]
  cases heager : op.eager with
  | true => rfl
  | false =>
    cases p with
    | none => rfl
    | some q => exact absurd ⟨heager, q, rfl⟩ hone

end

end

/-! ## Histories -/

/-- Between pushes the reducer is fetched from. -/
def operator (op : Reduce) : Operator ReduceStorage (Option Row) where
  push _ st change := some (op.push st change)
  act up st p := (op.fetch up st (op.request p)).map (·.1)

/-- A row is only asked to fit; that edits keep the group is the source's doing. -/
def Fitting (op : Reduce) (kinds : Nat → Kind) (plain : Prop) (δ : SourceChange Row) : Prop :=
  ∀ r, δ.result = some r → op.Fits kinds plain r

theorem Fitting.admitted {δ : SourceChange Row} (h : op.Fitting kinds plain δ) (hkeep : Fed.KeepsCols op.cols δ) : op.Admitted kinds plain δ := by
  refine ⟨h, fun old row hedit => Partition.unchanged_iff.mpr fun c hc => ?_⟩
  exact SList.eq_comm.mp (Value.joinEq_iff.mp (hkeep old row hedit c hc)).2.2

section
variable {s : MemorySource} {id : ConnId} {conn : Connection} {R : Set Row}

end

end Rindle.Reduce
