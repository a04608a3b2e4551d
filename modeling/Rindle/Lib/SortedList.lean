/-
  Rindle.Lib.SortedList — finite sets and maps as strictly sorted lists under a comparator.

  `cmp` is a total preorder: two elements it calls equal have one key, and a list holds at
  most one element for each key. `find`, `insert` (overwriting) and `erase` are the map's
  operations. They work at one place of the list, so they can be done in the middle of a
  concatenation whose other parts lie strictly below and above the key (`find_mid`,
  `insert_mid`, `erase_mid`).
-/

import Mathlib.Data.List.Basic
import Mathlib.Data.List.Sort
import Mathlib.Data.List.Perm.Basic
import Mathlib.Data.List.Nodup
import Mathlib.Tactic.Common

namespace Rindle.SList

variable {α : Type} (cmp : α → α → Ordering)

/-- Strictly ascending. -/
def Sorted (l : List α) : Prop := l.Pairwise fun a b => cmp a b = .lt

/-- The element with the key of `k`. -/
def find (k : α) : List α → Option α
  | [] => none
  | x :: xs => if cmp x k = .eq then some x else find k xs

/-- Add `k`, in place of the element with its key if there is one. -/
def insert (k : α) : List α → List α
  | [] => [k]
  | x :: xs =>
    match cmp x k with
    | .lt => x :: insert k xs
    | .eq => k :: xs
    | .gt => k :: x :: xs

/-- Drop the element with the key of `k`. -/
def erase (k : α) : List α → List α
  | [] => []
  | x :: xs => if cmp x k = .eq then xs else x :: erase k xs

instance (l : List α) : Decidable (Sorted cmp l) := inferInstanceAs (Decidable (l.Pairwise _))

variable {cmp}

theorem find_nil (k : α) : find cmp k [] = none := rfl

theorem find_cons (k x : α) (xs : List α) : find cmp k (x :: xs) = if cmp x k = .eq then some x else find cmp k xs := rfl

theorem insert_nil (k : α) : insert cmp k [] = [k] := rfl

theorem insert_cons (k x : α) (xs : List α) : insert cmp k (x :: xs) =
    match cmp x k with
    | .lt => x :: insert cmp k xs
    | .eq => k :: xs
    | .gt => k :: x :: xs := rfl

theorem erase_nil (k : α) : erase cmp k [] = [] := rfl

theorem erase_cons (k x : α) (xs : List α) : erase cmp k (x :: xs) = if cmp x k = .eq then xs else x :: erase cmp k xs := rfl

/-! ## Comparators -/

/-- A comparator read through a function. -/
theorem transCmp_comap {β γ : Type} (cmp : γ → γ → Ordering) [h : Std.TransCmp cmp] (f : β → γ) :
    Std.TransCmp fun a b => cmp (f a) (f b) where
  eq_swap := h.eq_swap
  isLE_trans := h.isLE_trans

/-! ## Sorted lists -/

theorem sorted_append {l m : List α} :
    Sorted cmp (l ++ m) ↔ Sorted cmp l ∧ Sorted cmp m ∧ ∀ a ∈ l, ∀ b ∈ m, cmp a b = .lt :=
  List.pairwise_append

variable {k : α} {l : List α}

theorem sorted_cons {x : α} :
    Sorted cmp (x :: l) ↔ (∀ b ∈ l, cmp x b = .lt) ∧ Sorted cmp l := List.pairwise_cons

theorem sorted_nil : Sorted cmp ([] : List α) := List.Pairwise.nil

theorem Sorted.sublist {l m : List α} (h : Sorted cmp m) (hs : l.Sublist m) : Sorted cmp l :=
  List.Pairwise.sublist hs h

variable [Std.TransCmp cmp]

theorem gt_iff_lt {a b : α} : cmp a b = .gt ↔ cmp b a = .lt := Std.OrientedCmp.gt_iff_lt

theorem eq_comm {a b : α} : cmp a b = .eq ↔ cmp b a = .eq := Std.OrientedCmp.eq_comm

theorem lt_trans {a b c : α} (h1 : cmp a b = .lt) (h2 : cmp b c = .lt) : cmp a c = .lt := Std.TransCmp.lt_trans h1 h2

theorem not_lt_of_lt {a b : α} (h : cmp a b = .lt) : cmp b a ≠ .lt := by
  intro h'
  rw [← gt_iff_lt, h] at h'
  cases h'

/-- Two elements of a sorted list with one key are one element. -/
theorem Sorted.eq_of_cmp (h : Sorted cmp l) {a b : α} (ha : a ∈ l) (hb : b ∈ l)
    (hab : cmp a b = .eq) : a = b := by
  induction l with
  | nil => cases ha
  | cons x l ih =>
    rw [sorted_cons] at h
    rcases List.mem_cons.mp ha with rfl | ha'
    · rcases List.mem_cons.mp hb with rfl | hb'
      · rfl
      · rw [h.1 b hb'] at hab; cases hab
    · rcases List.mem_cons.mp hb with rfl | hb'
      · have := h.1 a ha'
        rw [eq_comm, this] at hab; cases hab
      · exact ih h.2 ha' hb'

theorem Sorted.nodup (h : Sorted cmp l) : l.Nodup :=
  List.Pairwise.imp (S := (· ≠ ·)) (fun {a b} hab e => by rw [e] at hab; exact not_lt_of_lt hab hab) h

/-- A sorted list is determined by its elements. -/
theorem Sorted.ext {l m : List α} (hl : Sorted cmp l) (hm : Sorted cmp m) (h : ∀ x, x ∈ l ↔ x ∈ m) : l = m := by
  have hp : l.Perm m := (List.perm_ext_iff_of_nodup hl.nodup hm.nodup).mpr h
  exact List.Perm.eq_of_pairwise (fun a b _ _ hab hba => absurd hba (not_lt_of_lt (show cmp a b = .lt from hab))) hl hm hp

/-! ## Finding -/

omit [Std.TransCmp cmp] in
theorem find_some {k x : α} (h : find cmp k l = some x) : x ∈ l ∧ cmp x k = .eq := by
  induction l with
  | nil => cases h
  | cons y l ih =>
    simp only [find_cons] at h
    split at h
    · cases h; exact ⟨List.mem_cons_self, ‹_›⟩
    · exact ⟨List.mem_cons_of_mem _ (ih h).1, (ih h).2⟩

omit [Std.TransCmp cmp] in
theorem find_eq_none : find cmp k l = none ↔ ∀ x ∈ l, cmp x k ≠ .eq := by
  induction l with
  | nil => simp [find_nil]
  | cons y l ih =>
    simp only [find_cons]
    split
    · simp_all
    · simp_all

theorem find_eq_some {k x : α} (hl : Sorted cmp l) :
    find cmp k l = some x ↔ x ∈ l ∧ cmp x k = .eq := by
  refine ⟨find_some, fun ⟨hx, hk⟩ => ?_⟩
  cases h : find cmp k l with
  | none => exact absurd hk (find_eq_none.mp h x hx)
  | some y =>
    obtain ⟨hy, hyk⟩ := find_some h
    rw [hl.eq_of_cmp hy hx (Std.TransCmp.eq_trans hyk (eq_comm.mp hk))]

omit [Std.TransCmp cmp] in
theorem find_append (l m : List α) : find cmp k (l ++ m) = (find cmp k l).or (find cmp k m) := by
  induction l with
  | nil => simp [find_nil]
  | cons y l ih =>
    simp only [List.cons_append, find_cons]
    split
    · rfl
    · exact ih

omit [Std.TransCmp cmp] in
/-- Only the middle part can hold the key. -/
theorem find_mid {A B C : List α} (hA : ∀ a ∈ A, cmp a k ≠ .eq) (hC : ∀ c ∈ C, cmp c k ≠ .eq) :
    find cmp k (A ++ B ++ C) = find cmp k B := by
  rw [find_append, find_append, find_eq_none.mpr hA, find_eq_none.mpr hC]
  simp

/-! ## Inserting -/

omit [Std.TransCmp cmp] in
theorem insert_append_left {A B : List α} (hA : ∀ a ∈ A, cmp a k = .lt) :
    insert cmp k (A ++ B) = A ++ insert cmp k B := by
  induction A with
  | nil => rfl
  | cons x A ih =>
    simp only [List.cons_append, insert_cons, hA x List.mem_cons_self]
    rw [ih fun a ha => hA a (List.mem_cons_of_mem _ ha)]

omit [Std.TransCmp cmp] in
theorem insert_append_right {B C : List α} (hC : ∀ c ∈ C, cmp c k = .gt) :
    insert cmp k (B ++ C) = insert cmp k B ++ C := by
  induction B with
  | nil =>
    cases C with
    | nil => rfl
    | cons c C => simp [insert_cons, insert_nil, hC c List.mem_cons_self]
  | cons x B ih =>
    simp only [List.cons_append, insert_cons]
    cases cmp x k <;> simp [ih]

omit [Std.TransCmp cmp] in
/-- An insertion happens in the part of the list that the key falls in. -/
theorem insert_mid {A B C : List α} (hA : ∀ a ∈ A, cmp a k = .lt) (hC : ∀ c ∈ C, cmp c k = .gt) :
    insert cmp k (A ++ B ++ C) = A ++ insert cmp k B ++ C := by
  rw [insert_append_right hC, insert_append_left hA]

theorem mem_insert {k x : α} (hl : Sorted cmp l) :
    x ∈ insert cmp k l ↔ x = k ∨ (x ∈ l ∧ cmp x k ≠ .eq) := by
  induction l with
  | nil => simp [insert_nil]
  | cons y l ih =>
    rw [sorted_cons] at hl
    simp only [insert_cons]
    split
    · rename_i h
      rw [List.mem_cons, ih hl.2, List.mem_cons]
      constructor
      · rintro (rfl | h' | h')
        · exact Or.inr ⟨Or.inl rfl, by rw [h]; exact fun h => Ordering.noConfusion h⟩
        · exact Or.inl h'
        · exact Or.inr ⟨Or.inr h'.1, h'.2⟩
      · rintro (h' | ⟨h' | h', hn⟩)
        · exact Or.inr (Or.inl h')
        · exact Or.inl h'
        · exact Or.inr (Or.inr ⟨h', hn⟩)
    · rename_i h
      rw [List.mem_cons, List.mem_cons]
      constructor
      · rintro (h' | h')
        · exact Or.inl h'
        · refine Or.inr ⟨Or.inr h', fun hx => ?_⟩
          have := hl.1 x h'
          rw [Std.TransCmp.congr_left h, eq_comm.mp hx] at this
          cases this
      · rintro (h' | ⟨rfl | h', hn⟩)
        · exact Or.inl h'
        · exact absurd h hn
        · exact Or.inr h'
    · rename_i h
      rw [List.mem_cons, List.mem_cons]
      refine or_congr_right ⟨fun h' => ⟨h', fun hx => ?_⟩, fun h' => h'.1⟩
      rcases h' with rfl | h'
      · rw [h] at hx; cases hx
      · have := lt_trans (gt_iff_lt.mp h) (hl.1 x h')
        rw [eq_comm.mp hx] at this; cases this

theorem sorted_insert (hl : Sorted cmp l) : Sorted cmp (insert cmp k l) := by
  induction l with
  | nil => exact List.pairwise_singleton _ _
  | cons y l ih =>
    have hl' := sorted_cons.mp hl
    simp only [insert_cons]
    split
    · rename_i h
      refine sorted_cons.mpr ⟨fun b hb => ?_, ih hl'.2⟩
      rcases (mem_insert hl'.2).mp hb with rfl | ⟨hb, -⟩
      · exact h
      · exact hl'.1 b hb
    · rename_i h
      refine sorted_cons.mpr ⟨fun b hb => ?_, hl'.2⟩
      rw [← Std.TransCmp.congr_left h]
      exact hl'.1 b hb
    · rename_i h
      refine sorted_cons.mpr ⟨fun b hb => ?_, hl⟩
      rcases List.mem_cons.mp hb with rfl | hb
      · exact gt_iff_lt.mp h
      · exact lt_trans (gt_iff_lt.mp h) (hl'.1 b hb)

theorem length_insert (hl : Sorted cmp l) :
    (insert cmp k l).length = l.length + if (find cmp k l).isSome then 0 else 1 := by
  induction l with
  | nil => rfl
  | cons y l ih =>
    have hl' := sorted_cons.mp hl
    simp only [insert_cons]
    split
    · rename_i h
      have hf : find cmp k (y :: l) = find cmp k l := by simp [find_cons, h]
      rw [hf, List.length_cons, ih hl'.2, List.length_cons]
      omega
    · rename_i h
      simp [find_cons, h]
    · rename_i h
      have hn : find cmp k l = none := find_eq_none.mpr fun x hx hk => by
        have := lt_trans (gt_iff_lt.mp h) (hl'.1 x hx)
        rw [eq_comm.mp hk] at this; cases this
      simp [find_cons, h, hn]

/-! ## Erasing -/

omit [Std.TransCmp cmp] in
theorem erase_append_left {A B : List α} (hA : ∀ a ∈ A, cmp a k ≠ .eq) :
    erase cmp k (A ++ B) = A ++ erase cmp k B := by
  induction A with
  | nil => rfl
  | cons x A ih =>
    simp only [List.cons_append, erase_cons, if_neg (hA x List.mem_cons_self)]
    rw [ih fun a ha => hA a (List.mem_cons_of_mem _ ha)]

omit [Std.TransCmp cmp] in
theorem erase_of_not_mem (h : ∀ x ∈ l, cmp x k ≠ .eq) : erase cmp k l = l := by
  have := erase_append_left (B := []) h
  simpa [erase_nil] using this

omit [Std.TransCmp cmp] in
theorem erase_append_right {B C : List α} (hC : ∀ c ∈ C, cmp c k ≠ .eq) :
    erase cmp k (B ++ C) = erase cmp k B ++ C := by
  induction B with
  | nil => exact erase_of_not_mem hC
  | cons x B ih =>
    simp only [List.cons_append, erase_cons]
    split <;> simp [ih]

omit [Std.TransCmp cmp] in
/-- An erasure happens in the part of the list that the key falls in. -/
theorem erase_mid {A B C : List α} (hA : ∀ a ∈ A, cmp a k ≠ .eq) (hC : ∀ c ∈ C, cmp c k ≠ .eq) :
    erase cmp k (A ++ B ++ C) = A ++ erase cmp k B ++ C := by
  rw [erase_append_right hC, erase_append_left hA]

omit [Std.TransCmp cmp] in
theorem erase_sublist (l : List α) : (erase cmp k l).Sublist l := by
  induction l with
  | nil => exact List.Sublist.refl _
  | cons x l ih =>
    simp only [erase_cons]
    split
    · exact List.sublist_cons_self _ _
    · exact ih.cons_cons _

omit [Std.TransCmp cmp] in
theorem sorted_erase (hl : Sorted cmp l) : Sorted cmp (erase cmp k l) :=
  hl.sublist (erase_sublist l)

theorem mem_erase {k x : α} (hl : Sorted cmp l) : x ∈ erase cmp k l ↔ x ∈ l ∧ cmp x k ≠ .eq := by
  induction l with
  | nil => simp [erase_nil]
  | cons y l ih =>
    have hl' := sorted_cons.mp hl
    simp only [erase_cons]
    split
    · rename_i h
      refine ⟨fun hx => ⟨List.mem_cons_of_mem _ hx, fun hk => ?_⟩, fun ⟨hx, hk⟩ => ?_⟩
      · have := hl'.1 x hx
        rw [Std.TransCmp.congr_left h, eq_comm.mp hk] at this; cases this
      · rcases List.mem_cons.mp hx with rfl | hx
        · exact absurd h hk
        · exact hx
    · rename_i h
      rw [List.mem_cons, ih hl'.2, List.mem_cons]
      constructor
      · rintro (rfl | h')
        · exact ⟨Or.inl rfl, h⟩
        · exact ⟨Or.inr h'.1, h'.2⟩
      · rintro ⟨rfl | h', hk⟩
        · exact Or.inl rfl
        · exact Or.inr ⟨h', hk⟩

theorem find_insert {k r : α} (hl : Sorted cmp l) :
    find cmp k (insert cmp r l) = if cmp r k = .eq then some r else find cmp k l := by
  by_cases h : cmp r k = .eq
  · rw [if_pos h, find_eq_some (sorted_insert hl), mem_insert hl]
    exact ⟨Or.inl rfl, h⟩
  · rw [if_neg h]
    apply Option.ext
    intro x
    rw [find_eq_some (sorted_insert hl), find_eq_some hl, mem_insert hl]
    constructor
    · rintro ⟨rfl | hx, hk⟩
      · exact absurd hk h
      · exact ⟨hx.1, hk⟩
    · rintro ⟨hx, hk⟩
      exact ⟨Or.inr ⟨hx, fun hr => h (Std.TransCmp.eq_trans (eq_comm.mp hr) hk)⟩, hk⟩

theorem find_erase {k r : α} (hl : Sorted cmp l) :
    find cmp k (erase cmp r l) = if cmp r k = .eq then none else find cmp k l := by
  by_cases h : cmp r k = .eq
  · rw [if_pos h, find_eq_none]
    intro x hx hk
    exact ((mem_erase hl).mp hx).2 (Std.TransCmp.eq_trans hk (eq_comm.mp h))
  · rw [if_neg h]
    apply Option.ext
    intro x
    rw [find_eq_some (sorted_erase hl), find_eq_some hl, mem_erase hl]
    constructor
    · exact fun ⟨hx, hk⟩ => ⟨hx.1, hk⟩
    · exact fun ⟨hx, hk⟩ => ⟨⟨hx, fun hr => h (Std.TransCmp.eq_trans (eq_comm.mp hr) hk)⟩, hk⟩

omit [Std.TransCmp cmp] in
theorem length_erase (l : List α) :
    (erase cmp k l).length + (if (find cmp k l).isSome then 1 else 0) = l.length := by
  induction l with
  | nil => rfl
  | cons x l ih =>
    simp only [erase_cons, find_cons]
    split
    · simp
    · rw [List.length_cons, List.length_cons]; omega

end Rindle.SList
