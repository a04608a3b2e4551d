/-
  Rindle.Lib.Cover — a list merged into the elements that no earlier one covers.

  An element goes to the first kept one that covers it, and is kept itself where there is none
  (`absorb`). So the first element takes everything it covers, and the rest is merged among
  itself: `groups` says who takes whom, and what is kept is each group merged into its leader
  (`foldl_absorb`), provided that merging into an element does not change what it covers.
-/

import Mathlib.Data.List.Perm.Basic
import Mathlib.Tactic.Common

namespace Rindle.Cover

variable {α : Type} (cov : α → α → Bool) (merge : α → α → α)

/-- Into the first element that covers it, or to the end. -/
def absorb (s : α) : List α → List α
  | [] => [s]
  | k :: kept => if cov k s then merge k s :: kept else k :: absorb s kept

/-- What an element leaves. -/
def left (w : α) (rest : List α) : List α := rest.filter fun s => !cov w s

/-- The elements that no earlier leader covers, each with what it covers of the rest. -/
def groups : List α → List (α × List α)
  | [] => []
  | w :: rest => (w, rest.filter (cov w)) :: groups (left cov w rest)
termination_by l => l.length
decreasing_by exact Nat.lt_succ_of_le (List.length_filter_le _ _)

variable {cov merge}

theorem groups_nil : groups cov [] = [] := by rw [groups]

theorem groups_cons (w : α) (rest : List α) :
    groups cov (w :: rest) = (w, rest.filter (cov w)) :: groups cov (left cov w rest) := by rw [groups]

/-- The first element kept takes its own, the others are merged as if it was not there. -/
theorem foldl_absorb_cons (hmerge : ∀ k s, cov (merge k s) = cov k) (k : α) (kept l : List α) :
    l.foldl (fun kept s => absorb cov merge s kept) (k :: kept) =
      (l.filter (cov k)).foldl merge k :: (l.filter fun s => !cov k s).foldl (fun kept s => absorb cov merge s kept) kept := by
  induction l generalizing k kept with
  | nil => rfl
  | cons s l ih =>
    rw [List.foldl_cons, absorb]
    by_cases h : cov k s = true
    · rw [if_pos h, ih, hmerge, List.filter_cons_of_pos h, List.filter_cons_of_neg (by simp [h])]
      rfl
    · rw [if_neg h, ih, List.filter_cons_of_neg h, List.filter_cons_of_pos (by simpa using h)]
      rfl

theorem foldl_absorb (hmerge : ∀ k s, cov (merge k s) = cov k) (l : List α) :
    l.foldl (fun kept s => absorb cov merge s kept) [] = (groups cov l).map fun g => g.2.foldl merge g.1 := by
  induction l using groups.induct cov with
  | case1 => rw [groups_nil]; rfl
  | case2 w rest ih =>
    rw [groups_cons, List.map_cons, List.foldl_cons, ← ih]
    exact foldl_absorb_cons hmerge w [] rest

/-- Everything is in a group whose leader covers it. -/
theorem mem_groups (hrefl : ∀ s, cov s s = true) {l : List α} {s : α} (h : s ∈ l) :
    ∃ g ∈ groups cov l, cov g.1 s = true ∧ (g.1 = s ∨ s ∈ g.2) := by
  induction l using groups.induct cov with
  | case1 => cases h
  | case2 w rest ih =>
    rw [groups_cons]
    by_cases hw : cov w s = true
    · refine ⟨_, List.mem_cons_self, hw, ?_⟩
      rcases List.mem_cons.mp h with rfl | h
      · exact Or.inl rfl
      · exact Or.inr (List.mem_filter.mpr ⟨h, hw⟩)
    · have hs : s ∈ left cov w rest := by
        rcases List.mem_cons.mp h with rfl | h
        · exact absurd (hrefl _) hw
        · exact List.mem_filter.mpr ⟨h, by simpa using hw⟩
      obtain ⟨g, hg, hcov⟩ := ih hs
      exact ⟨g, List.mem_cons_of_mem _ hg, hcov⟩

/-- The leaders keep the order of the list. -/
theorem leaders_sublist (l : List α) : ((groups cov l).map (·.1)).Sublist l := by
  induction l using groups.induct cov with
  | case1 => rw [groups_nil]; exact List.Sublist.refl _
  | case2 w rest ih =>
    rw [groups_cons]
    exact (ih.trans List.filter_sublist).cons_cons w

/-- No leader covers a later one. -/
theorem leaders_apart (l : List α) : (groups cov l).Pairwise fun g g' => cov g.1 g'.1 = false := by
  induction l using groups.induct cov with
  | case1 => rw [groups_nil]; exact List.Pairwise.nil
  | case2 w rest ih =>
    rw [groups_cons]
    refine List.pairwise_cons.mpr ⟨fun g hg => ?_, ih⟩
    have hmem : g.1 ∈ left cov w rest := (leaders_sublist _).subset (List.mem_map_of_mem hg)
    simpa using (List.mem_filter.mp hmem).2

end Rindle.Cover
