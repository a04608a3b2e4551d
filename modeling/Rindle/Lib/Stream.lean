/-
  Rindle.Lib.Stream — lists in the order of a comparator, ties allowed, and what a stream
  adapter does to them.

  `Rising` is the order a merge or a scan leaves; with ties only between equal elements it
  determines the list (`Rising.eq_of_perm`). A gate that opens once and stays open is a
  filter on a rising list (`dropWhile_eq_filter`). `dirCmp` is a comparator read in either
  direction.
-/

import Rindle.Lib.SortedList

namespace Rindle.SList

variable {α : Type} {cmp : α → α → Ordering}

/-! ## Direction -/

def dirCmp (reverse : Bool) (cmp : α → α → Ordering) (a b : α) : Ordering :=
  if reverse then (cmp a b).swap else cmp a b

instance dirCmp_trans (reverse : Bool) [h : Std.TransCmp cmp] : Std.TransCmp (dirCmp reverse cmp) := by
  cases reverse with
  | false => exact h
  | true =>
    have hswap : dirCmp true cmp = fun a b => cmp b a := by
      funext a b
      exact Std.OrientedCmp.eq_swap.symm
    rw [hswap]
    infer_instance

theorem dirCmp_eq_eq {reverse : Bool} {a b : α} : dirCmp reverse cmp a b = .eq ↔ cmp a b = .eq := by
  cases reverse <;> simp [dirCmp]

theorem sorted_dirCmp [Std.TransCmp cmp] {reverse : Bool} {l : List α} :
    Sorted (dirCmp reverse cmp) (if reverse then l.reverse else l) ↔ Sorted cmp l := by
  cases reverse with
  | false => rfl
  | true =>
    simp only [Sorted, dirCmp, if_true, List.pairwise_reverse, ← Std.OrientedCmp.eq_swap]

/-! ## Rising lists -/

/-- In order, ties allowed. -/
def Rising (cmp : α → α → Ordering) (l : List α) : Prop := l.Pairwise fun a b => cmp a b ≠ .gt

theorem Sorted.rising {l : List α} (h : Sorted cmp l) : Rising cmp l :=
  List.Pairwise.imp (fun {a b} (hab : cmp a b = .lt) => by simp [hab]) h

/-- A sorted list of elements that all tie has at most one. -/
theorem Sorted.short {l : List α} (h : Sorted cmp l) (hties : ∀ a ∈ l, ∀ b ∈ l, cmp a b = .eq) : l = [] ∨ ∃ x, l = [x] := by
  match l, h, hties with
  | [], _, _ => exact Or.inl rfl
  | [x], _, _ => exact Or.inr ⟨x, rfl⟩
  | x :: y :: l, h, hties =>
    have hlt : cmp x y = .lt := (sorted_cons.mp h).1 y List.mem_cons_self
    rw [hties x List.mem_cons_self y (List.mem_cons_of_mem _ List.mem_cons_self)] at hlt
    cases hlt

theorem rising_cons {x : α} {l : List α} : Rising cmp (x :: l) ↔ (∀ b ∈ l, cmp x b ≠ .gt) ∧ Rising cmp l :=
  List.pairwise_cons

theorem rising_append {l m : List α} :
    Rising cmp (l ++ m) ↔ Rising cmp l ∧ Rising cmp m ∧ ∀ a ∈ l, ∀ b ∈ m, cmp a b ≠ .gt :=
  List.pairwise_append

theorem Rising.sublist {l m : List α} (h : Rising cmp m) (hs : l.Sublist m) : Rising cmp l :=
  List.Pairwise.sublist hs h

/-- A gate that opens at the first element past a bound and stays open. -/
theorem dropWhile_eq_filter {p : α → Bool} (hp : ∀ a b, cmp a b ≠ .gt → p a = true → p b = true) {l : List α}
    (hl : Rising cmp l) : l.dropWhile (fun a => !p a) = l.filter p := by
  induction l with
  | nil => rfl
  | cons x l ih =>
    obtain ⟨hx, hl⟩ := rising_cons.mp hl
    by_cases h : p x = true
    · have hall : l.filter p = l := List.filter_eq_self.mpr fun b hb => hp x b (hx b hb) h
      simp [List.dropWhile, h, hall]
    · simp only [Bool.not_eq_true] at h
      simp [List.dropWhile, h, ih hl]

theorem not_gt_iff {a b : α} : cmp a b ≠ .gt ↔ (cmp a b).isLE = true := by
  cases cmp a b <;> simp

section
variable [Std.TransCmp cmp]

theorem not_gt_trans {a b c : α} (h1 : cmp a b ≠ .gt) (h2 : cmp b c ≠ .gt) : cmp a c ≠ .gt := by
  rw [not_gt_iff] at *
  exact Std.TransCmp.isLE_trans h1 h2

theorem not_gt_of_not_lt {a b : α} (h : cmp a b ≠ .lt) : cmp b a ≠ .gt := by
  intro h'
  exact h (gt_iff_lt.mp h')

/-- Two rising lists of the same elements are one list, when only equal elements tie. -/
theorem Rising.eq_of_perm {l m : List α} (hl : Rising cmp l) (hm : Rising cmp m) (hp : l.Perm m)
    (hties : ∀ a ∈ l, ∀ b ∈ l, cmp a b = .eq → a = b) : l = m := by
  refine List.Perm.eq_of_pairwise (fun a b ha hb hab hba => ?_) hl hm hp
  apply hties a ha b (hp.mem_iff.mpr hb)
  cases h : cmp a b with
  | eq => rfl
  | gt => exact absurd h hab
  | lt => exact absurd (gt_iff_lt.mpr h) hba

end

/-- Strictly sorted is rising without repeated keys. -/
theorem Rising.sorted {l : List α} (hl : Rising cmp l) (hne : l.Pairwise fun a b => cmp a b ≠ .eq) : Sorted cmp l := by
  refine List.Pairwise.imp (fun {a b} (h : cmp a b ≠ .gt ∧ cmp a b ≠ .eq) => ?_) (List.Pairwise.and hl hne)
  cases hc : cmp a b with
  | lt => rfl
  | eq => exact absurd hc h.2
  | gt => exact absurd hc h.1

end Rindle.SList
