/-
  Rindle.Source.Splice — the overlay splice and the stages behind it, as operations on lists.

  A splice is the scan without the removed row and with the added one (`overlaySplice_perm`),
  in order if the scan is (`overlaySplice_rising`); what sorts after both rows is left alone
  (`overlaySplice_append`). `selectRows` is the rest of a fetch: start gate, constraint, filter.
-/

import Mathlib.Data.List.TakeWhile
import Rindle.Source.Memory

namespace Rindle

section
variable {α : Type} {cmp : α → α → Ordering}

/-- The scan without the removed row. -/
@[grind] def dropRemoved (cmp : α → α → Ordering) (remove : Option α) (l : List α) : List α :=
  match remove with
  | none => l
  | some r => SList.erase cmp r l

@[simp] theorem overlaySplice_nil (add remove : Option α) : overlaySplice cmp add remove [] = add.toList := by
  rw [overlaySplice]

@[simp] theorem overlaySplice_none (l : List α) : overlaySplice cmp none none l = l := by
  induction l with
  | nil => rfl
  | cons x l ih => simp [overlaySplice, ih]

theorem dropRemoved_sublist (remove : Option α) (l : List α) : (dropRemoved cmp remove l).Sublist l := by
  cases remove with
  | none => exact List.Sublist.refl _
  | some r => exact SList.erase_sublist l

section
variable [Std.TransCmp cmp]

theorem dropRemoved_cons {remove : Option α} {x : α} {l : List α} :
    dropRemoved cmp remove (x :: l) =
      if remove.any (fun r => cmp r x == .eq) then l else x :: dropRemoved cmp remove l := by
  cases remove with
  | none => rfl
  | some r =>
    simp only [dropRemoved, SList.erase, Option.any_some, beq_iff_eq]
    by_cases h : cmp x r = .eq
    · rw [if_pos h, if_pos (SList.eq_comm.mp h)]
    · rw [if_neg h, if_neg fun h' => h (SList.eq_comm.mp h')]

theorem overlaySplice_perm (add remove : Option α) (l : List α) :
    (overlaySplice cmp add remove l).Perm (add.toList ++ dropRemoved cmp remove l) := by
  induction l generalizing add remove with
  | nil => cases remove <;> simp [dropRemoved, SList.erase]
  | cons x l ih =>
    rw [overlaySplice, dropRemoved_cons]
    have hrest : ∀ later : Option α,
        (if remove.any (fun r => cmp r x == .eq) then overlaySplice cmp later none l
          else x :: overlaySplice cmp later remove l).Perm
        (later.toList ++ if remove.any (fun r => cmp r x == .eq) then l else x :: dropRemoved cmp remove l) := by
      intro later
      split
      · exact ih later none
      · exact ((ih later remove).cons x).trans List.perm_middle.symm
    by_cases ha : (add.any fun a => cmp a x == .lt) = true
    · simp only [ha, if_true]
      exact (hrest none).append_left _
    · simp only [ha, Bool.false_eq_true, if_false]
      exact hrest add

theorem mem_overlaySplice {add remove : Option α} {l : List α} {x : α} (h : x ∈ overlaySplice cmp add remove l) :
    add = some x ∨ x ∈ l := by
  rw [(overlaySplice_perm add remove l).mem_iff, List.mem_append] at h
  rcases h with h | h
  · exact Or.inl (by simpa using h)
  · exact Or.inr ((dropRemoved_sublist remove l).subset h)

/-- A splice into a rising list is rising: everything before the added row is at or before it. -/
theorem overlaySplice_rising {l : List α} (hl : SList.Rising cmp l) (add remove : Option α) :
    SList.Rising cmp (overlaySplice cmp add remove l) := by
  induction l generalizing add remove with
  | nil => cases add <;> simp [SList.Rising]
  | cons x l ih =>
    obtain ⟨hx, hl⟩ := SList.rising_cons.mp hl
    rw [overlaySplice]
    have hrest : ∀ later : Option α, (∀ a, later = some a → cmp x a ≠ .gt) →
        SList.Rising cmp (if remove.any (fun r => cmp r x == .eq) then overlaySplice cmp later none l
          else x :: overlaySplice cmp later remove l) := by
      intro later hlater
      split
      · exact ih hl later none
      · refine SList.rising_cons.mpr ⟨fun b hb => ?_, ih hl later remove⟩
        rcases mem_overlaySplice hb with h | h
        · exact hlater b h
        · exact hx b h
    by_cases ha : (add.any fun a => cmp a x == .lt) = true
    · simp only [ha, if_true]
      cases add with
      | none => cases ha
      | some a =>
        have hax : cmp a x = .lt := by simpa using ha
        refine SList.rising_cons.mpr ⟨fun b hb => ?_, hrest none fun _ h => by cases h⟩
        have hb : b = x ∨ b ∈ l := by
          split at hb
          · exact Or.inr ((mem_overlaySplice hb).resolve_left (by simp))
          · rcases List.mem_cons.mp hb with rfl | hb
            · exact Or.inl rfl
            · exact Or.inr ((mem_overlaySplice hb).resolve_left (by simp))
        have hle : cmp a x ≠ .gt := by simp [hax]
        rcases hb with rfl | hb
        · exact hle
        · exact SList.not_gt_trans hle (hx b hb)
    · simp only [ha, Bool.false_eq_true, if_false]
      refine hrest add fun a haa => ?_
      subst haa
      exact SList.not_gt_of_not_lt (by simpa using ha)

end

/-- Rows that sort after the added one and do not tie the removed one come out as they are. -/
theorem overlaySplice_append {add remove : Option α} {l m : List α} (ha : ∀ a, add = some a → ∀ b ∈ m, cmp a b = .lt)
    (hr : ∀ r, remove = some r → ∀ b ∈ m, cmp r b ≠ .eq) :
    overlaySplice cmp add remove (l ++ m) = overlaySplice cmp add remove l ++ m := by
  have hpass : ∀ (m : List α) (remove : Option α), (∀ r, remove = some r → ∀ b ∈ m, cmp r b ≠ .eq) →
      overlaySplice cmp none remove m = m := by
    intro m
    induction m with
    | nil => intro _ _; rfl
    | cons b m ih =>
      intro remove hr
      have hb : (remove.any fun r => cmp r b == .eq) = false := by
        cases remove with
        | none => rfl
        | some r => simpa using hr r rfl b List.mem_cons_self
      simp [overlaySplice, hb, ih remove fun r h c hc => hr r h c (List.mem_cons_of_mem _ hc)]
  induction l generalizing add remove with
  | nil =>
    rw [List.nil_append, overlaySplice_nil]
    cases add with
    | none => exact hpass m remove hr
    | some a =>
      cases m with
      | nil => simp
      | cons b m =>
        have hab : (cmp a b == .lt) = true := by simpa using ha a rfl b List.mem_cons_self
        have hb : (remove.any fun r => cmp r b == .eq) = false := by
          cases remove with
          | none => rfl
          | some r => simpa using hr r rfl b List.mem_cons_self
        have htail := hpass m remove fun r h c hc => hr r h c (List.mem_cons_of_mem _ hc)
        simp [overlaySplice, hab, hb, htail]
  | cons x l ih =>
    have hrest : ∀ later : Option α, (∀ a, later = some a → ∀ b ∈ m, cmp a b = .lt) →
        (if remove.any (fun r => cmp r x == .eq) then overlaySplice cmp later none (l ++ m)
          else x :: overlaySplice cmp later remove (l ++ m)) =
        (if remove.any (fun r => cmp r x == .eq) then overlaySplice cmp later none l
          else x :: overlaySplice cmp later remove l) ++ m := by
      intro later hlater
      split
      · exact ih hlater fun _ h => by cases h
      · rw [ih hlater hr, List.cons_append]
    rw [List.cons_append, overlaySplice, overlaySplice]
    by_cases hx : (add.any fun a => cmp a x == .lt) = true
    · simp only [hx, if_true]
      rw [hrest none (by simp), List.append_assoc]
    · simp only [hx, Bool.false_eq_true, if_false]
      exact hrest add ha

/-! ## The stages behind the splice -/

/-- Skip to the gate, stop at the constraint, filter. -/
def selectRows (gate within accepts : α → Bool) (rows : List α) : List α :=
  ((rows.dropWhile fun r => !gate r).takeWhile within).filter accepts

variable {gate within accepts : α → Bool}

theorem selectRows_nil_of_none {rows : List α} (h : ∀ r ∈ rows, ¬ (within r = true ∧ accepts r = true)) :
    selectRows gate within accepts rows = [] := by
  rw [selectRows, List.filter_eq_nil_iff]
  intro r hr ha
  have hmem : r ∈ rows := (List.dropWhile_sublist _).subset ((List.takeWhile_sublist _).subset hr)
  exact h r hmem ⟨List.mem_takeWhile_imp hr, ha⟩

/-- Rows at the end that the constraint or the filter refuses do not matter. -/
theorem selectRows_append {l m : List α} (hm : ∀ r ∈ m, ¬ (within r = true ∧ accepts r = true)) :
    selectRows gate within accepts (l ++ m) = selectRows gate within accepts l := by
  have htake : ∀ l : List α, ((l ++ m).takeWhile within).filter accepts = (l.takeWhile within).filter accepts := by
    intro l
    induction l with
    | nil =>
      rw [List.nil_append, List.takeWhile_nil, List.filter_nil, List.filter_eq_nil_iff]
      intro r hr ha
      exact hm r ((List.takeWhile_sublist _).subset hr) ⟨List.mem_takeWhile_imp hr, ha⟩
    | cons x l ih =>
      rw [List.cons_append, List.takeWhile_cons, List.takeWhile_cons]
      split
      · rw [List.filter_cons, List.filter_cons, ih]
      · rfl
  induction l with
  | nil =>
    rw [List.nil_append, selectRows_nil_of_none hm]
    rfl
  | cons x l ih =>
    unfold selectRows at ih ⊢
    rw [List.cons_append, List.dropWhile_cons, List.dropWhile_cons]
    split
    · exact ih
    · exact htake (x :: l)

/-- On rows in order, all within the constraint, the stages are one filter. -/
theorem selectRows_rising {l : List α} (hl : SList.Rising cmp l)
    (hgate : ∀ a b, cmp a b ≠ .gt → gate a = true → gate b = true) (hw : ∀ r ∈ l, within r = true) :
    selectRows gate within accepts l = l.filter fun r => gate r && (within r && accepts r) := by
  have htake : (l.filter gate).takeWhile within = l.filter gate :=
    List.takeWhile_eq_self_iff.mpr fun r hr => hw r (List.mem_of_mem_filter hr)
  rw [selectRows, SList.dropWhile_eq_filter hgate hl, htake, List.filter_filter]
  refine List.filter_congr fun r hr => ?_
  rw [hw r hr, Bool.true_and, Bool.and_comm]

theorem selectRows_singleton (x : α) :
    selectRows gate within accepts [x] = if gate x && (within x && accepts x) then [x] else [] := by
  unfold selectRows
  cases hg : gate x <;> cases hw : within x <;> cases ha : accepts x <;> simp [List.dropWhile, hg, hw, ha]

end

end Rindle
