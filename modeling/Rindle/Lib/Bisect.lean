/-
  Rindle.Lib.Bisect — binary search over a list.

  `bisect p l` is the loop `while lo < hi { mid = (lo + hi) / 2; if p(l[mid]) { lo = mid + 1 }
  else { hi = mid } }`; `search` is the variant that stops at an element equal to the key.
  The interval shrinks at every turn, so as many turns as there are elements suffice.

  `binarySearchBy` is the standard library's `slice::binary_search_by`: it halves the interval
  down to one element and compares once more.
-/

import Rindle.Lib.SortedList

namespace Rindle

variable {α : Type}

def bisectGo (p : α → Bool) (l : List α) : Nat → Nat → Nat → Nat
  | 0, lo, _ => lo
  | n + 1, lo, hi =>
    if lo < hi then
      match l[(lo + hi) / 2]? with
      | some x => if p x then bisectGo p l n ((lo + hi) / 2 + 1) hi else bisectGo p l n lo ((lo + hi) / 2)
      | none => lo
    else lo

/-- The first index at which `p` fails, when `p` holds on an initial part of the list. -/
def bisect (p : α → Bool) (l : List α) : Nat := bisectGo p l l.length 0 l.length

def searchGo (cmp : α → α → Ordering) (l : List α) (key : α) : Nat → Nat → Nat → Except Nat Nat
  | 0, lo, _ => .error lo
  | n + 1, lo, hi =>
    if lo < hi then
      match l[(lo + hi) / 2]? with
      | some x =>
        match cmp x key with
        | .lt => searchGo cmp l key n ((lo + hi) / 2 + 1) hi
        | .gt => searchGo cmp l key n lo ((lo + hi) / 2)
        | .eq => .ok ((lo + hi) / 2)
      | none => .error lo
    else .error lo

/-- `ok i`: `key` is at `i`; `error i`: it would go in at `i`. -/
def search (cmp : α → α → Ordering) (l : List α) (key : α) : Except Nat Nat := searchGo cmp l key l.length 0 l.length

/-- Where the halving ends, from `base` with `size` elements left. -/
def halve (f : α → Ordering) (l : List α) : Nat → Nat → Nat → Nat
  | 0, base, _ => base
  | n + 1, base, size =>
    if 1 < size then
      match l[base + size / 2]? with
      | some x => halve f l n (if f x = .gt then base else base + size / 2) (size - size / 2)
      | none => base
    else base

/-- `binary_search_by`; `f` orders an element against what is sought. -/
def binarySearchBy (f : α → Ordering) (l : List α) : Except Nat Nat :=
  match l[halve f l l.length 0 l.length]? with
  | none => .error 0
  | some x =>
    match f x with
    | .eq => .ok (halve f l l.length 0 l.length)
    | .lt => .error (halve f l l.length 0 l.length + 1)
    | .gt => .error (halve f l l.length 0 l.length)

/-- The index either way: `unwrap_or_else(|e| e)`. -/
def searchPos : Except Nat Nat → Nat
  | .ok p => p
  | .error p => p

theorem bisectGo_eq (p : α → Bool) {A B : List α} (hA : ∀ a ∈ A, p a = true) (hB : ∀ b ∈ B, p b = false) :
    ∀ n lo hi, lo ≤ A.length → A.length ≤ hi → hi ≤ (A ++ B).length → hi - lo ≤ n →
      bisectGo p (A ++ B) n lo hi = A.length := by
  intro n
  induction n with
  | zero => intro lo hi h1 h2 h3 h4; simp only [bisectGo]; omega
  | succ n ih =>
    intro lo hi h1 h2 h3 h4
    simp only [bisectGo]
    split
    · have hm : (lo + hi) / 2 < (A ++ B).length := by omega
      rw [List.getElem?_eq_getElem hm]
      by_cases hlt : (lo + hi) / 2 < A.length
      · have hp : p (A ++ B)[(lo + hi) / 2] = true := by
          rw [List.getElem_append_left hlt]; exact hA _ (List.getElem_mem hlt)
        simp only [hp, if_true]
        exact ih _ _ (by omega) h2 h3 (by omega)
      · have hp : p (A ++ B)[(lo + hi) / 2] = false := by
          rw [List.getElem_append_right (by omega)]; exact hB _ (List.getElem_mem _)
        simp only [hp]
        exact ih _ _ h1 (by omega) (by omega) (by omega)
    · omega

theorem bisect_eq (p : α → Bool) {A B : List α} (hA : ∀ a ∈ A, p a = true) (hB : ∀ b ∈ B, p b = false) :
    bisect p (A ++ B) = A.length :=
  bisectGo_eq p hA hB _ _ _ (by omega) (by simp) (by omega) (by omega)

section
variable {cmp : α → α → Ordering}

theorem searchGo_eq {key : α} {A E C : List α} (hA : ∀ a ∈ A, cmp a key = .lt) (hC : ∀ c ∈ C, cmp c key = .gt)
    (hE : E = [] ∨ ∃ x, E = [x] ∧ cmp x key = .eq) :
    ∀ n lo hi, lo ≤ A.length → A.length + E.length ≤ hi → hi ≤ (A ++ E ++ C).length → hi - lo ≤ n →
      searchGo cmp (A ++ E ++ C) key n lo hi = if E = [] then .error A.length else .ok A.length := by
  intro n
  induction n with
  | zero =>
    intro lo hi h1 h2 h3 h4
    have hE0 : E = [] := List.eq_nil_of_length_eq_zero (by omega)
    simp only [searchGo, hE0, if_true]
    congr 1
    omega
  | succ n ih =>
    intro lo hi h1 h2 h3 h4
    simp only [searchGo]
    split
    · have hm : (lo + hi) / 2 < (A ++ E ++ C).length := by omega
      rw [List.getElem?_eq_getElem hm]
      by_cases hlt : (lo + hi) / 2 < A.length
      · have hp : cmp (A ++ E ++ C)[(lo + hi) / 2] key = .lt := by
          simp only [List.append_assoc]
          rw [List.getElem_append_left hlt]; exact hA _ (List.getElem_mem hlt)
        simp only [hp]
        exact ih _ _ (by omega) h2 h3 (by omega)
      · by_cases hge : A.length + E.length ≤ (lo + hi) / 2
        · have hp : cmp (A ++ E ++ C)[(lo + hi) / 2] key = .gt := by
            rw [List.getElem_append_right (by simp; omega)]; exact hC _ (List.getElem_mem _)
          simp only [hp]
          exact ih _ _ h1 (by omega) (by omega) (by omega)
        · rcases hE with rfl | ⟨x, rfl, hx⟩
          · simp at hge; omega
          · have he : (lo + hi) / 2 = A.length := by simp at hge; omega
            simp [he, hx]
    · have hE0 : E = [] := List.eq_nil_of_length_eq_zero (by omega)
      simp only [hE0, if_true]
      congr 1
      omega

theorem search_eq {key : α} {A E C : List α} (hA : ∀ a ∈ A, cmp a key = .lt) (hC : ∀ c ∈ C, cmp c key = .gt)
    (hE : E = [] ∨ ∃ x, E = [x] ∧ cmp x key = .eq) :
    search cmp (A ++ E ++ C) key = if E = [] then .error A.length else .ok A.length :=
  searchGo_eq hA hC hE _ _ _ (by omega) (by simp) (by omega) (by omega)

end

theorem halve_map {β : Type} (f : β → Ordering) (g : α → β) (l : List α) :
    ∀ n base size, halve f (l.map g) n base size = halve (fun x => f (g x)) l n base size := by
  intro n
  induction n with
  | zero => intro base size; rfl
  | succ n ih =>
    intro base size
    simp only [halve, List.getElem?_map]
    cases l[base + size / 2]? with
    | none => rfl
    | some x => simp only [Option.map_some, ih]

/-- Only the order of the elements against what is sought matters. -/
theorem binarySearchBy_map {β : Type} (f : β → Ordering) (g : α → β) (l : List α) :
    binarySearchBy f (l.map g) = binarySearchBy (fun x => f (g x)) l := by
  simp only [binarySearchBy, halve_map, List.length_map, List.getElem?_map]
  cases l[halve (fun x => f (g x)) l l.length 0 l.length]? with
  | none => rfl
  | some x => rfl

/-- The halving keeps the last element that is not above what is sought. -/
theorem halve_eq {f : α → Ordering} {A B : List α} (hA : ∀ a ∈ A, f a ≠ .gt) (hB : ∀ b ∈ B, f b = .gt) :
    ∀ n base size, 1 ≤ size → size ≤ n → base ≤ A.length - 1 → A.length ≤ base + size → base + size ≤ (A ++ B).length →
      halve f (A ++ B) n base size = A.length - 1 := by
  intro n
  induction n with
  | zero => intro base size h1 h2; omega
  | succ n ih =>
    intro base size h1 h2 h3 h4 h5
    simp only [halve]
    split
    · have hm : base + size / 2 < (A ++ B).length := by omega
      rw [List.getElem?_eq_getElem hm]
      by_cases hlt : base + size / 2 < A.length
      · have hp : f (A ++ B)[base + size / 2] ≠ .gt := by
          rw [List.getElem_append_left hlt]; exact hA _ (List.getElem_mem hlt)
        simp only [hp, if_false]
        exact ih _ _ (by omega) (by omega) (by omega) (by omega) (by omega)
      · have hp : f (A ++ B)[base + size / 2] = .gt := by
          rw [List.getElem_append_right (by omega)]; exact hB _ (List.getElem_mem _)
        simp only [hp, if_true]
        exact ih _ _ (by omega) (by omega) (by omega) (by omega) (by omega)
    · omega

theorem binarySearchBy_eq {f : α → Ordering} {A E C : List α} (hA : ∀ a ∈ A, f a = .lt) (hC : ∀ c ∈ C, f c = .gt)
    (hE : E = [] ∨ ∃ x, E = [x] ∧ f x = .eq) :
    binarySearchBy f (A ++ E ++ C) = if E = [] then .error A.length else .ok A.length := by
  have hAE : ∀ a ∈ A ++ E, f a ≠ .gt := by
    intro a ha
    rcases List.mem_append.mp ha with ha | ha
    · simp [hA a ha]
    · rcases hE with rfl | ⟨x, rfl, hx⟩
      · cases ha
      · rw [List.mem_singleton.mp ha, hx]; decide
  by_cases hnil : A ++ E ++ C = []
  · obtain ⟨rfl, rfl, rfl⟩ : A = [] ∧ E = [] ∧ C = [] := by simpa using hnil
    rfl
  have hpos : 1 ≤ (A ++ E ++ C).length := List.length_pos_of_ne_nil hnil
  have hend := halve_eq hAE hC (A ++ E ++ C).length 0 (A ++ E ++ C).length hpos (Nat.le_refl _) (by omega)
    (by simp) (by omega)
  simp only [binarySearchBy, hend]
  rcases hE with rfl | ⟨x, rfl, hx⟩
  · simp only [List.append_nil, if_true] at *
    rcases List.eq_nil_or_concat A with rfl | ⟨A, a, rfl⟩
    · cases C with
      | nil => exact absurd rfl hnil
      | cons c C => simp [hC c (by simp)]
    · have ha : f a = .lt := hA a (by simp)
      simp [ha]
  · simp [hx]

namespace SList

variable {cmp : α → α → Ordering}

/-- A sorted list cut where a condition that holds of an initial part ends. -/
theorem cut {p : α → Bool} (hp : ∀ a b, cmp a b = .lt → p b = true → p a = true) {l : List α} (hl : Sorted cmp l) :
    ∃ A B, l = A ++ B ∧ (∀ a ∈ A, p a = true) ∧ (∀ b ∈ B, p b = false) ∧ bisect p l = A.length := by
  have key : ∃ A B, l = A ++ B ∧ (∀ a ∈ A, p a = true) ∧ ∀ b ∈ B, p b = false := by
    induction l with
    | nil => exact ⟨[], [], rfl, by simp, by simp⟩
    | cons x l ih =>
      obtain ⟨hx, hl'⟩ := sorted_cons.mp hl
      by_cases hpx : p x = true
      · obtain ⟨A, B, rfl, hA, hB⟩ := ih hl'
        exact ⟨x :: A, B, rfl, by simpa [hpx] using hA, hB⟩
      · refine ⟨[], x :: l, rfl, by simp, fun b hb => ?_⟩
        rcases List.mem_cons.mp hb with rfl | hb
        · simpa using hpx
        · cases hpb : p b with
          | false => rfl
          | true => exact absurd (hp x b (hx b hb) hpb) hpx
  obtain ⟨A, B, rfl, hA, hB⟩ := key
  exact ⟨A, B, rfl, hA, hB, bisect_eq p hA hB⟩

variable [Std.TransCmp cmp]

/-- A sorted list around a key: what is below, the element with the key if any, what is above. -/
theorem split3 (k : α) {l : List α} (hl : Sorted cmp l) :
    ∃ A E C, l = A ++ E ++ C ∧ (∀ a ∈ A, cmp a k = .lt) ∧ (∀ c ∈ C, cmp c k = .gt) ∧
      (E = [] ∨ ∃ x, E = [x] ∧ cmp x k = .eq) := by
  induction l with
  | nil => exact ⟨[], [], [], rfl, by simp, by simp, Or.inl rfl⟩
  | cons y l ih =>
    obtain ⟨hy, hl'⟩ := sorted_cons.mp hl
    cases h : cmp y k with
    | lt =>
      obtain ⟨A, E, C, rfl, hA, hC, hE⟩ := ih hl'
      exact ⟨y :: A, E, C, rfl, by simpa [h] using hA, hC, hE⟩
    | eq =>
      refine ⟨[], [y], l, rfl, by simp, fun c hc => ?_, Or.inr ⟨y, rfl, h⟩⟩
      rw [gt_iff_lt, ← Std.TransCmp.congr_left h]
      exact hy c hc
    | gt =>
      refine ⟨[], [], y :: l, rfl, by simp, fun c hc => ?_, Or.inl rfl⟩
      rcases List.mem_cons.mp hc with rfl | hc
      · exact h
      · rw [gt_iff_lt]
        exact lt_trans (gt_iff_lt.mp h) (hy c hc)

end SList

end Rindle
