/-
  Rindle.Lib.Paging — an ordered table, read a page at a time.

  A page is the first `n` entries past a bound, cut at the first one outside a window. In a sorted
  table whose window is left for good, a page that is finished has everything past the bound that is
  inside, and one that is not has everything up to its last entry (`page_complete`): the next page
  starts after that one, whatever happened to the table in between.
-/

import Mathlib.Data.List.TakeWhile
import Rindle.Lib.SortedList

namespace Rindle.Paging

open SList (Sorted)

variable {α : Type} {cmp : α → α → Ordering} {n : Nat} {past inside : α → Bool} {l : List α} {x : α}

/-- The entries a page looks at. -/
def fetched (n : Nat) (past : α → Bool) (l : List α) : List α := (l.filter past).take n

def page (n : Nat) (past inside : α → Bool) (l : List α) : List α := (fetched n past l).takeWhile inside

/-- The window was left, or the page is short. -/
def finished (n : Nat) (past inside : α → Bool) (l : List α) : Bool :=
  (fetched n past l).any (fun x => !inside x) || decide ((fetched n past l).length < n)

theorem mem_fetched (h : x ∈ fetched n past l) : x ∈ l ∧ past x = true := List.mem_filter.mp (List.mem_of_mem_take h)

theorem page_sublist : (page n past inside l).Sublist l :=
  (List.takeWhile_sublist _).trans ((List.take_sublist _ _).trans List.filter_sublist)

theorem mem_page (h : x ∈ page n past inside l) : x ∈ l ∧ past x = true ∧ inside x = true := by
  obtain ⟨hx, hp⟩ := mem_fetched ((List.takeWhile_sublist _).subset h)
  exact ⟨hx, hp, List.mem_takeWhile_imp h⟩

/-- An entry past the bound is looked at, or comes after all that are, and then there are `n` of them. -/
theorem fetched_complete (hl : Sorted cmp l) (hx : x ∈ l) (hp : past x = true) :
    x ∈ fetched n past l ∨ ((fetched n past l).length = n ∧ ∀ y ∈ fetched n past l, cmp y x = .lt) := by
  have hsorted : Sorted cmp (l.filter past) := hl.sublist List.filter_sublist
  have hmem : x ∈ l.filter past := List.mem_filter.mpr ⟨hx, hp⟩
  rw [← List.take_append_drop n (l.filter past)] at hsorted hmem
  rcases List.mem_append.mp hmem with h | h
  · exact Or.inl h
  · refine Or.inr ⟨?_, fun y hy => (SList.sorted_append.mp hsorted).2.2 y hy x h⟩
    have hlen : n < (l.filter past).length := by
      by_contra hle
      rw [List.drop_eq_nil_of_le (by omega)] at h
      cases h
    exact List.length_take_of_le (by omega)

/-- What a page has: everything inside past the bound, or everything up to its last entry. -/
theorem page_complete (hl : Sorted cmp l) (hleave : ∀ a b, past a = true → inside a = false → cmp a b = .lt → inside b = false)
    (hx : x ∈ l) (hp : past x = true) (hi : inside x = true) :
    x ∈ page n past inside l ∨ (finished n past inside l = false ∧ ∀ y ∈ page n past inside l, cmp y x = .lt) := by
  have hsorted : Sorted cmp (fetched n past l) := (hl.sublist List.filter_sublist).sublist (List.take_sublist _ _)
  rcases fetched_complete (n := n) hl hx hp with h | ⟨hlen, hlt⟩
  · -- the entries before one that is inside are inside
    left
    obtain ⟨a, b, hab⟩ := List.append_of_mem h
    rw [hab] at hsorted
    have hbefore : ∀ y ∈ a, inside y = true := by
      intro y hy
      by_contra hn
      have hpast : past y = true := (mem_fetched (n := n) (l := l) (hab ▸ List.mem_append_left _ hy)).2
      have hout := hleave y x hpast (by simpa using hn) ((SList.sorted_append.mp hsorted).2.2 y hy x List.mem_cons_self)
      rw [hi] at hout
      cases hout
    rw [page, hab, List.takeWhile_append_of_pos hbefore, List.takeWhile_cons_of_pos hi]
    exact List.mem_append_right _ List.mem_cons_self
  · right
    refine ⟨?_, fun y hy => hlt y ((List.takeWhile_sublist _).subset hy)⟩
    have hall : ∀ y ∈ fetched n past l, inside y = true := by
      intro y hy
      by_contra hn
      have hout := hleave y x (mem_fetched hy).2 (by simpa using hn) (hlt y hy)
      rw [hi] at hout
      cases hout
    rw [finished, hlen, Bool.or_eq_false_iff]
    refine ⟨?_, by simp⟩
    rw [List.any_eq_false]
    intro y hy
    simp [hall y hy]

/-- A page that is not finished is full. -/
theorem length_page (h : finished n past inside l = false) : (page n past inside l).length = n := by
  rw [finished, Bool.or_eq_false_iff, List.any_eq_false] at h
  obtain ⟨hall, hlen⟩ := h
  have hle : (fetched n past l).length ≤ n := List.length_take_le _ _
  have hpage : page n past inside l = fetched n past l := by
    rw [page, List.takeWhile_eq_self_iff]
    intro y hy
    simpa using hall y hy
  have hge : ¬(fetched n past l).length < n := by simpa using hlen
  rw [hpage]
  omega

/-! ## Prefixes -/

/-- Past a prefix and not under it, nothing that follows is under it. -/
theorem prefix_left {κ : Type} [Ord κ] [Std.TransOrd κ] [Std.LawfulEqOrd κ] : ∀ {p x y : List κ}, compare p x ≠ .gt →
    ¬p <+: x → compare x y = .lt → ¬p <+: y := by
  intro p
  induction p with
  | nil => exact fun _ hx _ => absurd List.nil_prefix hx
  | cons a p ih =>
    intro x y hle hx hlt hy
    obtain ⟨t, rfl⟩ := hy
    cases x with
    | nil => exact hle rfl
    | cons b x =>
      rw [List.compare_cons_cons] at hle
      rw [List.cons_append, List.compare_cons_cons] at hlt
      cases hab : compare a b with
      | gt =>
        rw [hab] at hle
        exact hle rfl
      | lt =>
        rw [Std.OrientedCmp.gt_iff_lt.mpr hab] at hlt
        cases hlt
      | eq =>
        obtain rfl := Std.LawfulEqOrd.compare_eq_iff_eq.mp hab
        rw [hab, Ordering.eq_then] at hle hlt
        exact ih hle (fun h => hx (List.cons_prefix_cons.mpr ⟨rfl, h⟩)) hlt (List.prefix_append p t)

/-- What is under a prefix is not before it. -/
theorem not_lt_of_prefix {κ : Type} [Ord κ] [Std.TransOrd κ] {p x : List κ} (h : p <+: x) : compare x p ≠ .lt := by
  induction p generalizing x with
  | nil => cases x <;> simp
  | cons a p ih =>
    obtain ⟨t, rfl⟩ := h
    have hself : compare a a = .eq := Std.ReflCmp.compare_self
    rw [List.cons_append, List.compare_cons_cons, hself, Ordering.eq_then]
    exact ih (List.prefix_append p t)

end Rindle.Paging
