/-
  Rindle.Row — rows, sorts and the row comparator (`rust/src/value.rs`).

  `compareRows` is the source's: it panics (`none`) on a column outside the row and on two
  cells of different types. `rowCmp` continues it to a total preorder on all rows, and
  `compareRows_eq` says they agree on rows of one table (`Row.Fits`), the precondition the
  source states for every tree. What is built on rows uses `rowCmp`.
-/

import Rindle.Value
import Rindle.Lib.SortedList

set_option linter.dupNamespace false

namespace Rindle

abbrev Row := List Value

/-- `Sort`: `(column, ascending)` pairs. -/
abbrev SortSpec := List (Nat × Bool)

/-- `apply_dir`. -/
def applyDir (o : Ordering) (asc : Bool) : Ordering := if asc then o else o.swap

/-- `compare_cell`: integers and floats are decided from the raw cells. -/
def compareCell (a b : Row) (c : Nat) : Option Ordering :=
  match a[c]?, b[c]? with
  | some (.int x), some (.int y) => some (compare x y)
  | some (.float x), some (.float y) => some (F64.totalCmp x y)
  | some x, some y => compareValues x y
  | _, _ => none

/-- `compare_rows`. The source unrolls sorts of one and two columns. -/
def compareRows : SortSpec → Row → Row → Option Ordering
  | [], _, _ => some .eq
  | (c, asc) :: sort, a, b =>
    match compareCell a b c with
    | none => none
    | some o => if applyDir o asc = .eq then compareRows sort a b else some (applyDir o asc)

/-! ## Full rows -/

/-- The loop of `full_row_equal`. -/
def cellsEqual : List (Value × Value) → Option Bool
  | [] => some true
  | (x, y) :: l =>
    match compareValues x y with
    | none => none
    | some .eq => cellsEqual l
    | some _ => some false

/-- `full_row_equal`. -/
def fullRowEqual (a b : Row) : Option Bool := if a.length = b.length then cellsEqual (a.zip b) else some false

/-! ## The total order -/

namespace Row

/-- The cell of a column; a row is wide enough for every column it is asked for. -/
@[grind] def cell (r : Row) (c : Nat) : Value := r[c]?.getD .absent

/-- A row of a table whose columns hold cells of these kinds. -/
def Fits (kinds : List Kind) (r : Row) : Prop := List.Forall₂ (fun k v => v.fits k = true) kinds r

instance (kinds : List Kind) (r : Row) : Decidable (r.Fits kinds) := inferInstanceAs (Decidable (List.Forall₂ _ _ _))

theorem Fits.cell {kinds : List Kind} {r : Row} (h : r.Fits kinds) {c : Nat} {k : Kind} (hk : kinds[c]? = some k) :
    r[c]? = some (r.cell c) ∧ (r.cell c).fits k = true := by
  induction h generalizing c with
  | nil => simp at hk
  | cons hv _ ih =>
    cases c with
    | zero => simp at hk; subst hk; exact ⟨rfl, hv⟩
    | succ c => simpa [Row.cell] using ih (c := c) (by simpa using hk)

end Row

/-- One sort column. -/
def cellCmp (c : Nat) : Bool → Row → Row → Ordering
  | true, a, b => Value.cmp (a.cell c) (b.cell c)
  | false, a, b => Value.cmp (b.cell c) (a.cell c)

def rowCmp : SortSpec → Row → Row → Ordering
  | [] => fun _ _ => .eq
  | (c, asc) :: sort => compareLex (cellCmp c asc) (rowCmp sort)

instance cellCmp_trans (c : Nat) : ∀ asc : Bool, Std.TransCmp (cellCmp c asc)
  | true => SList.transCmp_comap Value.cmp fun r : Row => r.cell c
  | false => SList.transCmp_comap (fun a b => Value.cmp b a) fun r : Row => r.cell c

instance rowCmp_trans : ∀ sort : SortSpec, Std.TransCmp (rowCmp sort)
  | [] => { eq_swap := rfl, isLE_trans := fun _ _ => rfl }
  | (c, asc) :: sort =>
    have := rowCmp_trans sort
    inferInstanceAs (Std.TransCmp (compareLex (cellCmp c asc) (rowCmp sort)))

@[simp] theorem rowCmp_nil (a b : Row) : rowCmp [] a b = .eq := rfl

@[simp] theorem rowCmp_cons (c : Nat) (asc : Bool) (sort : SortSpec) (a b : Row) :
    rowCmp ((c, asc) :: sort) a b = (cellCmp c asc a b).then (rowCmp sort a b) := rfl

theorem cellCmp_eq_eq {c : Nat} {asc : Bool} {a b : Row} :
    cellCmp c asc a b = .eq ↔ Value.cmp (a.cell c) (b.cell c) = .eq := by
  cases asc
  · exact Std.OrientedCmp.eq_comm
  · rfl

theorem applyDir_cmp (c : Nat) (asc : Bool) (a b : Row) : applyDir (Value.cmp (a.cell c) (b.cell c)) asc = cellCmp c asc a b := by
  cases asc with
  | true => rfl
  | false => exact Std.OrientedCmp.eq_swap.symm

/-- Rows tie under a sort when they tie on each of its columns. -/
theorem rowCmp_eq_eq {sort : SortSpec} {a b : Row} :
    rowCmp sort a b = .eq ↔ ∀ p ∈ sort, Value.cmp (a.cell p.1) (b.cell p.1) = .eq := by
  induction sort with
  | nil => simp
  | cons p sort ih =>
    obtain ⟨c, asc⟩ := p
    simp [Ordering.then_eq_eq, cellCmp_eq_eq, ih]

/-- A sort over a table's columns. -/
def SortSpec.Within (sort : SortSpec) (kinds : List Kind) : Prop := ∀ p ∈ sort, p.1 < kinds.length

instance (sort : SortSpec) (kinds : List Kind) : Decidable (sort.Within kinds) :=
  inferInstanceAs (Decidable (∀ p ∈ sort, p.1 < kinds.length))

theorem compareCell_eq {kinds : List Kind} {a b : Row} (ha : a.Fits kinds) (hb : b.Fits kinds) {c : Nat}
    (hc : c < kinds.length) : compareCell a b c = some (Value.cmp (a.cell c) (b.cell c)) := by
  obtain ⟨k, hk⟩ : ∃ k, kinds[c]? = some k := ⟨kinds[c], List.getElem?_eq_getElem hc⟩
  obtain ⟨ha1, ha2⟩ := ha.cell hk
  obtain ⟨hb1, hb2⟩ := hb.cell hk
  have h := compareValues_eq ha2 hb2
  unfold compareCell
  rw [ha1, hb1]
  cases hx : a.cell c <;> cases hy : b.cell c <;> rw [hx, hy] at h <;> exact h

/-- On the rows of one table `compare_rows` does not panic and is the total order. -/
theorem compareRows_eq {kinds : List Kind} {sort : SortSpec} (hs : sort.Within kinds) {a b : Row} (ha : a.Fits kinds)
    (hb : b.Fits kinds) : compareRows sort a b = some (rowCmp sort a b) := by
  induction sort with
  | nil => rfl
  | cons p sort ih =>
    obtain ⟨c, asc⟩ := p
    rw [compareRows, compareCell_eq ha hb (hs (c, asc) List.mem_cons_self)]
    simp only [applyDir_cmp, rowCmp_cons, ih fun q hq => hs q (List.mem_cons_of_mem _ hq)]
    cases cellCmp c asc a b <;> rfl

/-! ## The rows of one table -/

/-- A row with the types of its table. -/
structure TypedRow (kinds : List Kind) where
  row : Row
  fits : row.Fits kinds
  deriving DecidableEq

namespace TypedRow

variable {kinds : List Kind}

def cmp (sort : SortSpec) (a b : TypedRow kinds) : Ordering := rowCmp sort a.row b.row

instance (sort : SortSpec) : Std.TransCmp (cmp sort : TypedRow kinds → TypedRow kinds → Ordering) :=
  SList.transCmp_comap (rowCmp sort) TypedRow.row

/-- `full_row_equal` on the rows of one table, where it does not panic. -/
def same (a b : TypedRow kinds) : Bool := (a.row.zip b.row).all fun p => Value.cmp p.1 p.2 == .eq

theorem same_refl (a : TypedRow kinds) : same a a = true := by
  unfold same
  rw [List.all_eq_true]
  intro p hp
  obtain ⟨i, hi, rfl⟩ := List.getElem_of_mem hp
  rw [List.getElem_zip, beq_iff_eq]
  exact Std.ReflCmp.compare_self

theorem fullRowEqual_eq (a b : TypedRow kinds) : fullRowEqual a.row b.row = some (same a b) := by
  obtain ⟨a, ha⟩ := a
  obtain ⟨b, hb⟩ := b
  have hlen : a.length = b.length := ha.length_eq.symm.trans hb.length_eq
  simp only [fullRowEqual, if_pos hlen, same]
  clear hlen
  induction ha generalizing b with
  | nil => cases hb; rfl
  | cons hx _ ih =>
    cases hb with
    | cons hy hb =>
      rw [List.zip_cons_cons, cellsEqual, compareValues_eq hx hy, List.all_cons]
      cases h : Value.cmp _ _
      · rfl
      · rw [ih _ hb]; simp
      · rfl

end TypedRow

end Rindle
