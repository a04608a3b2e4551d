/-
  Rindle.Lib.BreadthFirst — a breadth-first search, by the order in which it visits.

  A node is visited when it is taken from the queue for the first time, and its successors join the
  queue then. What is visited is what the queue leads to (`subset`, `closed`), each node once
  (`nodup`); and the nodes at the front of the queue come before everything they lead to (`split`).
-/

import Mathlib.Algebra.GroupWithZero.Nat
import Mathlib.Data.List.Basic
import Mathlib.Data.List.Nodup
import Mathlib.Tactic.Common

namespace Rindle.BreadthFirst

variable {α : Type}

/-- From a queue, with what was seen before, the search visits these nodes in this order. -/
inductive Visits (succ : α → List α) : List α → List α → List α → Prop
  | done (seen : List α) : Visits succ [] seen []
  | again {x : α} {queue seen order : List α} : x ∈ seen → Visits succ queue seen order → Visits succ (x :: queue) seen order
  | visit {x : α} {queue seen order : List α} : x ∉ seen → Visits succ (queue ++ succ x) (x :: seen) order →
      Visits succ (x :: queue) seen (x :: order)

/-- The edges out of the nodes not yet seen. -/
def pending [DecidableEq α] (succ : α → List α) (nodes seen : List α) : Nat :=
  ((nodes.filter fun x => x ∉ seen).map fun x => (succ x).length).sum

section
variable {succ : α → List α} {queue seen order : List α}

theorem Visits.not_seen (h : Visits succ queue seen order) : ∀ x ∈ order, x ∉ seen := by
  induction h with
  | done => exact fun _ hx => by cases hx
  | again _ _ ih => exact ih
  | visit hnew _ ih =>
    intro y hy
    rcases List.mem_cons.mp hy with rfl | hy
    · exact hnew
    · exact fun hs => ih y hy (List.mem_cons_of_mem _ hs)

theorem Visits.nodup (h : Visits succ queue seen order) : order.Nodup := by
  induction h with
  | done => exact List.nodup_nil
  | again _ _ ih => exact ih
  | visit _ hrest ih => exact List.nodup_cons.mpr ⟨fun hx => hrest.not_seen _ hx List.mem_cons_self, ih⟩

/-- Nothing is visited that the queue does not lead to. -/
theorem Visits.subset (h : Visits succ queue seen order) {S : α → Prop} (hclosed : ∀ x, S x → ∀ y ∈ succ x, S y)
    (hqueue : ∀ x ∈ queue, S x) : ∀ x ∈ order, S x := by
  induction h with
  | done => exact fun _ hx => by cases hx
  | again _ _ ih => exact ih fun x hx => hqueue x (List.mem_cons_of_mem _ hx)
  | @visit x queue seen order _ _ ih =>
    have hx : S x := hqueue x List.mem_cons_self
    have hqueue' : ∀ y ∈ queue ++ succ x, S y := by
      intro y hy
      rcases List.mem_append.mp hy with hy | hy
      · exact hqueue y (List.mem_cons_of_mem _ hy)
      · exact hclosed x hx y hy
    intro y hy
    rcases List.mem_cons.mp hy with rfl | hy
    · exact hx
    · exact ih hqueue' y hy

theorem Visits.queued (h : Visits succ queue seen order) : ∀ x ∈ queue, x ∈ seen ∨ x ∈ order := by
  induction h with
  | done => exact fun _ hx => by cases hx
  | again hseen _ ih =>
    intro y hy
    rcases List.mem_cons.mp hy with rfl | hy
    · exact Or.inl hseen
    · exact ih y hy
  | visit _ _ ih =>
    intro y hy
    rcases List.mem_cons.mp hy with rfl | hy
    · exact Or.inr List.mem_cons_self
    · rcases ih y (List.mem_append_left _ hy) with hs | ho
      · rcases List.mem_cons.mp hs with rfl | hs
        · exact Or.inr List.mem_cons_self
        · exact Or.inl hs
      · exact Or.inr (List.mem_cons_of_mem _ ho)

/-- What is visited leads to nothing that is not. -/
theorem Visits.closed (h : Visits succ queue seen order) : ∀ x ∈ order, ∀ y ∈ succ x, y ∈ seen ∨ y ∈ order := by
  induction h with
  | done => exact fun _ hx => by cases hx
  | again _ _ ih => exact ih
  | @visit x queue seen order _ hrest ih =>
    have hback : ∀ y, y ∈ x :: seen ∨ y ∈ order → y ∈ seen ∨ y ∈ x :: order := by
      intro y hy
      rcases hy with hs | ho
      · rcases List.mem_cons.mp hs with rfl | hs
        · exact Or.inr List.mem_cons_self
        · exact Or.inl hs
      · exact Or.inr (List.mem_cons_of_mem _ ho)
    intro z hz y hy
    rcases List.mem_cons.mp hz with rfl | hz
    · exact hback y (hrest.queued y (List.mem_append_right _ hy))
    · exact hback y (ih z hz y hy)

/-- The front of the queue is visited first; what it leads to joins the rest. -/
theorem Visits.split {front : List α} : ∀ {queue seen order : List α}, Visits succ (front ++ queue) seen order →
    ∃ first rest, order = first ++ rest ∧ (∀ x, x ∈ first ↔ x ∈ front ∧ x ∉ seen) ∧
      Visits succ (queue ++ first.flatMap succ) (first.reverse ++ seen) rest := by
  induction front with
  | nil =>
    intro queue seen order h
    refine ⟨[], order, rfl, fun x => by simp, ?_⟩
    rw [List.flatMap_nil, List.append_nil]
    exact h
  | cons x front ih =>
    intro queue seen order h
    rw [List.cons_append] at h
    cases h with
    | again hseen h =>
      obtain ⟨first, rest, horder, hfirst, hrest⟩ := ih h
      refine ⟨first, rest, horder, fun y => ?_, hrest⟩
      rw [hfirst, List.mem_cons]
      constructor
      · exact fun hy => ⟨Or.inr hy.1, hy.2⟩
      · intro hy
        refine ⟨hy.1.resolve_left ?_, hy.2⟩
        rintro rfl
        exact hy.2 hseen
    | @visit _ _ _ order hnew h =>
      rw [List.append_assoc] at h
      obtain ⟨first, rest, horder, hfirst, hrest⟩ := ih h
      refine ⟨x :: first, rest, by rw [horder, List.cons_append], fun y => ?_, ?_⟩
      · rw [List.mem_cons, hfirst, List.mem_cons, List.mem_cons]
        constructor
        · intro hy
          rcases hy with rfl | hy
          · exact ⟨Or.inl rfl, hnew⟩
          · exact ⟨Or.inr hy.1, fun hs => hy.2 (Or.inr hs)⟩
        · intro hy
          by_cases hxy : y = x
          · exact Or.inl hxy
          · exact Or.inr ⟨hy.1.resolve_left hxy, fun hs => hs.elim hxy hy.2⟩
      · rw [List.flatMap_cons, ← List.append_assoc, List.reverse_cons, List.append_assoc first.reverse]
        exact hrest

/-- The queue, and what its front leads to, is visited before everything else. -/
theorem Visits.front {front back : List α} (h : Visits succ (front ++ back) [] order) :
    ∃ first rest, order = first ++ rest ∧ ∀ x, x ∈ first ↔ x ∈ front ∨ x ∈ back ∨ ∃ a ∈ front, x ∈ succ a := by
  obtain ⟨o₁, r₁, rfl, ho₁, h₁⟩ := h.split
  obtain ⟨o₂, r₂, rfl, ho₂, h₂⟩ := h₁.split
  obtain ⟨o₃, r₃, rfl, ho₃, -⟩ := h₂.split
  have hfront : ∀ x, x ∈ o₁ ↔ x ∈ front := fun x => by rw [ho₁]; simp
  refine ⟨o₁ ++ o₂ ++ o₃, r₃, by simp, fun x => ?_⟩
  simp only [List.mem_append, ho₂, ho₃, List.mem_reverse, hfront, List.mem_flatMap, List.append_nil]
  constructor
  · intro h
    rcases h with (h | h) | h
    · exact Or.inl h
    · exact Or.inr (Or.inl h.1)
    · exact Or.inr (Or.inr h.1)
  · intro h
    by_cases h₁ : x ∈ front
    · exact Or.inl (Or.inl h₁)
    · by_cases h₂ : x ∈ back
      · exact Or.inl (Or.inr ⟨h₂, h₁⟩)
      · exact Or.inr ⟨(h.resolve_left h₁).resolve_left h₂, fun hn => hn.elim (fun hn => h₂ hn.1) h₁⟩

/-- Whatever was visited is visited once, so the edges pending only get fewer. -/
theorem pending_visit [DecidableEq α] {nodes : List α} {x : α} (hx : x ∉ seen) (hnode : x ∈ nodes ∨ succ x = []) :
    (succ x).length + pending succ nodes (x :: seen) ≤ pending succ nodes seen := by
  unfold pending
  induction nodes with
  | nil =>
    rcases hnode with hnode | hnode
    · cases hnode
    · rw [hnode]
      simp
  | cons y nodes ih =>
    have hmono : ∀ l : List α, ((l.filter fun z => z ∉ x :: seen).map fun z => (succ z).length).sum ≤
        ((l.filter fun z => z ∉ seen).map fun z => (succ z).length).sum := by
      intro l
      induction l with
      | nil => exact Nat.le_refl _
      | cons z l ihl =>
        by_cases hz : z ∈ seen
        · simpa [hz] using ihl
        · by_cases hzx : z = x
          · subst hzx
            simp only [List.mem_cons, true_or, not_true_eq_false, decide_false, Bool.false_eq_true, not_false_eq_true,
              List.filter_cons_of_neg, hz, decide_true, List.filter_cons_of_pos, List.map_cons, List.sum_cons] at ihl ⊢
            omega
          · simp only [List.mem_cons, hzx, hz, or_self, not_false_eq_true, decide_true, List.filter_cons_of_pos, List.map_cons,
              List.sum_cons] at ihl ⊢
            omega
    by_cases hyx : y = x
    · subst hyx
      have := hmono nodes
      simp only [List.mem_cons, true_or, not_true_eq_false, decide_false, Bool.false_eq_true, not_false_eq_true,
        List.filter_cons_of_neg, hx, decide_true, List.filter_cons_of_pos, List.map_cons, List.sum_cons] at this ⊢
      omega
    · have ih := ih (hnode.imp_left fun hm => (List.mem_cons.mp hm).resolve_left fun h => hyx h.symm)
      by_cases hy : y ∈ seen
      · simpa [hy] using ih
      · simp only [List.mem_cons, hyx, hy, or_self, not_false_eq_true, decide_true, List.filter_cons_of_pos, List.map_cons,
          List.sum_cons] at ih ⊢
        omega

end

end Rindle.BreadthFirst
