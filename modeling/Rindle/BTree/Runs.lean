/-
  Rindle.BTree.Runs — runs of the tree against runs of the sorted map.

  A run is a finite sequence of `add` and `delete`; what each call returns is recorded. The
  sorted map takes the same steps. The main result is that the two agree on every answer
  and on the rows, and that the tree passes its checker, after every run from the empty
  tree or a bulk load.
-/

import Rindle.BTree.Tree
import Rindle.Row

namespace Rindle

inductive TreeOp (α : Type) where
  | add (key : α)
  | delete (key : α)

variable {α : Type} (cmp : α → α → Ordering)

namespace BTree

def step (t : BTree α) : TreeOp α → BTree α × Bool
  | .add key => t.add cmp key
  | .delete key => t.delete cmp key

def run (t : BTree α) : List (TreeOp α) → BTree α × List Bool
  | [] => (t, [])
  | op :: ops => ((run (t.step cmp op).1 ops).1, (t.step cmp op).2 :: (run (t.step cmp op).1 ops).2)

end BTree

namespace SList

/-- A step of the sorted map; the answer says whether an added key is new, a deleted one there. -/
def step (l : List α) : TreeOp α → List α × Bool
  | .add key => (insert cmp key l, (find cmp key l).isNone)
  | .delete key => (erase cmp key l, (find cmp key l).isSome)

def run (l : List α) : List (TreeOp α) → List α × List Bool
  | [] => (l, [])
  | op :: ops => ((run (step cmp l op).1 ops).1, (step cmp l op).2 :: (run (step cmp l op).1 ops).2)

end SList

namespace BTree

variable {cmp} [Std.TransCmp cmp]

/-- A step keeps the invariant and is the map's step. -/
theorem step_refines {t : BTree α} (ht : t.Valid cmp) (op : TreeOp α) :
    (t.step cmp op).1.Valid cmp ∧ (t.step cmp op).1.rows = (SList.step cmp t.rows op).1 ∧
      (t.step cmp op).2 = (SList.step cmp t.rows op).2 := by
  cases op with
  | add key => exact add_spec ht key
  | delete key => exact delete_spec ht key

theorem run_refines (ops : List (TreeOp α)) : ∀ {t : BTree α}, t.Valid cmp →
    (t.run cmp ops).1.Valid cmp ∧ (t.run cmp ops).1.rows = (SList.run cmp t.rows ops).1 ∧
      (t.run cmp ops).2 = (SList.run cmp t.rows ops).2 := by
  induction ops with
  | nil => intro t ht; exact ⟨ht, rfl, rfl⟩
  | cons op ops ih =>
    intro t ht
    obtain ⟨hv, hr, ha⟩ := step_refines ht op
    obtain ⟨hv', hr', ha'⟩ := ih hv
    rw [hr] at hr' ha'
    exact ⟨hv', hr', by rw [run, SList.run, ha, ha']⟩

/-- Where a run starts: a new tree, or a bulk load of a strictly sorted list. -/
inductive Starts (cmp : α → α → Ordering) : BTree α → List α → Prop where
  | new : Starts cmp empty []
  | loaded {l : List α} (hl : SList.Sorted cmp l) : Starts cmp (fromSorted l) l

omit [Std.TransCmp cmp] in
theorem Starts.valid {t : BTree α} {l : List α} (h : Starts cmp t l) : t.Valid cmp ∧ t.rows = l := by
  cases h with
  | new => exact ⟨valid_empty, by simp [empty, BNode.emptyLeaf, rows]⟩
  | loaded hl => exact fromSorted_spec hl

/-- The tree over the rows of one table is the sorted map, and keeps its invariants. -/
theorem tree_refines_sorted_map {kinds : List Kind} {sort : SortSpec} (hsort : sort.Within kinds)
    {t : BTree (TypedRow kinds)} {l : List (TypedRow kinds)} (hstart : Starts (TypedRow.cmp sort) t l)
    (ops : List (TreeOp (TypedRow kinds))) :
    let t' := (t.run (TypedRow.cmp sort) ops).1
    let m := (SList.run (TypedRow.cmp sort) l ops).1
    (∀ a b : TypedRow kinds, compareRows sort a.row b.row = some (TypedRow.cmp sort a b)) ∧
      t'.checkInvariants (TypedRow.cmp sort) = .ok () ∧
      (t.run (TypedRow.cmp sort) ops).2 = (SList.run (TypedRow.cmp sort) l ops).2 ∧
      SList.Sorted (TypedRow.cmp sort) m ∧ t'.rows = m ∧ t'.len = m.length ∧
      (∀ key, t'.get (TypedRow.cmp sort) key = SList.find (TypedRow.cmp sort) key m) ∧
      (∀ key, t'.has (TypedRow.cmp sort) key = (SList.find (TypedRow.cmp sort) key m).isSome) ∧
      (∀ key, SList.find (TypedRow.cmp sort) key m = none →
        (t'.delete (TypedRow.cmp sort) key).1.rows = m ∧ (t'.delete (TypedRow.cmp sort) key).2 = false) := by
  intro t' m
  obtain ⟨hv, hrows⟩ := hstart.valid
  obtain ⟨hv', hr', ha'⟩ := run_refines ops hv
  rw [hrows] at hr' ha'
  have hm : t'.rows = m := hr'
  refine ⟨fun a b => compareRows_eq hsort a.fits b.fits, hv'.checkInvariants, ha', hm ▸ hv'.sorted, hm, ?_, ?_, ?_, ?_⟩
  · rw [len, ← hm]; exact hv'.size_eq
  · intro key; rw [← hm]; exact get_eq hv' key
  · intro key; rw [← hm]; exact has_eq hv' key
  · intro key hnone
    obtain ⟨-, hdel, hfound⟩ := delete_spec hv' key
    rw [hr'] at hdel hfound
    exact ⟨hdel.trans (SList.erase_of_not_mem (SList.find_eq_none.mp hnone)), by rw [hfound, hnone]; rfl⟩

/-- A bulk load of two rows, an overwrite and a deletion. -/
theorem tree_refines_sorted_map_two :
    let kinds := [Kind.number, Kind.str]
    let row (i : Int64) (s : List UInt8) (h : Row.Fits kinds [.int i, .str s]) : TypedRow kinds := ⟨[.int i, .str s], h⟩
    let l := [row 1 [97] (by decide), row 2 [98] (by decide)]
    let ops := [TreeOp.add (row 2 [99] (by decide)), .delete (row 1 [] (by decide)), .delete (row 7 [] (by decide))]
    SList.Sorted (TypedRow.cmp [(0, true)]) l ∧ SortSpec.Within [(0, true)] kinds ∧
      ((fromSorted l).run (TypedRow.cmp [(0, true)]) ops).1.checkInvariants (TypedRow.cmp [(0, true)]) = .ok () ∧
      ((fromSorted l).run (TypedRow.cmp [(0, true)]) ops).2 = [false, true, false] := by
  intro kinds row l ops
  have hl : SList.Sorted (TypedRow.cmp [(0, true)]) l := by decide +kernel
  have hw : SortSpec.Within [(0, true)] kinds := by decide
  obtain ⟨-, hok, hans, -⟩ := tree_refines_sorted_map hw (Starts.loaded hl) ops
  exact ⟨hl, hw, hok, by rw [hans]; decide +kernel⟩

end BTree

end Rindle
