/-
  Rindle.Lib.Window — the first `n` elements of a sorted list, cut at the last of them.

  `Cut n A b B`: the list `A ++ b :: B` with the window `A ++ [b]`; nothing is left over unless
  the window is full. A change of the list changes the window by what crosses the cut: the
  lemmas here give the new cut for an element added, removed or moved on either side of it.
  `scanFrom` reads the list from an element on, in either direction; at a cut it is one of the
  two sides.
-/

import Rindle.Lib.Stream

namespace Rindle.SList

variable {α : Type} {cmp : α → α → Ordering}

/-! ## Scans -/

/-- The elements from `b` on, without those that tie it if `after`. -/
def scanFrom (cmp : α → α → Ordering) (b : α) (after reverse : Bool) (l : List α) : List α :=
  (if reverse then l.reverse else l).filter fun r =>
    if after then dirCmp reverse cmp r b == .gt else dirCmp reverse cmp r b != .lt

section
variable {b : α} {X M Y : List α}

/-- `X` before `b`, `M` at it, `Y` after it. -/
structure Around (cmp : α → α → Ordering) (b : α) (X M Y : List α) : Prop where
  before : ∀ x ∈ X, cmp x b = .lt
  at_ : ∀ x ∈ M, cmp x b = .eq
  past : ∀ x ∈ Y, cmp x b = .gt

theorem Around.forward (h : Around cmp b X M Y) : scanFrom cmp b false false (X ++ M ++ Y) = M ++ Y := by
  have hX : X.filter (fun r => cmp r b != .lt) = [] := List.filter_eq_nil_iff.mpr fun x hx => by simp [h.before x hx]
  have hM : M.filter (fun r => cmp r b != .lt) = M := List.filter_eq_self.mpr fun x hx => by simp [h.at_ x hx]
  have hY : Y.filter (fun r => cmp r b != .lt) = Y := List.filter_eq_self.mpr fun x hx => by simp [h.past x hx]
  simp [scanFrom, dirCmp, hX, hM, hY]

theorem Around.forwardAfter (h : Around cmp b X M Y) : scanFrom cmp b true false (X ++ M ++ Y) = Y := by
  have hX : X.filter (fun r => cmp r b == .gt) = [] := List.filter_eq_nil_iff.mpr fun x hx => by simp [h.before x hx]
  have hM : M.filter (fun r => cmp r b == .gt) = [] := List.filter_eq_nil_iff.mpr fun x hx => by simp [h.at_ x hx]
  have hY : Y.filter (fun r => cmp r b == .gt) = Y := List.filter_eq_self.mpr fun x hx => by simp [h.past x hx]
  simp [scanFrom, dirCmp, hX, hM, hY]

theorem Around.backward (h : Around cmp b X M Y) : scanFrom cmp b false true (X ++ M ++ Y) = M.reverse ++ X.reverse := by
  have hX : X.reverse.filter (fun r => (cmp r b).swap != .lt) = X.reverse :=
    List.filter_eq_self.mpr fun x hx => by simp [h.before x (List.mem_reverse.mp hx)]
  have hM : M.reverse.filter (fun r => (cmp r b).swap != .lt) = M.reverse :=
    List.filter_eq_self.mpr fun x hx => by simp [h.at_ x (List.mem_reverse.mp hx)]
  have hY : Y.reverse.filter (fun r => (cmp r b).swap != .lt) = [] :=
    List.filter_eq_nil_iff.mpr fun x hx => by simp [h.past x (List.mem_reverse.mp hx)]
  simp [scanFrom, dirCmp, hX, hM, hY]

theorem Around.backwardAfter (h : Around cmp b X M Y) : scanFrom cmp b true true (X ++ M ++ Y) = X.reverse := by
  have hX : X.reverse.filter (fun r => (cmp r b).swap == .gt) = X.reverse :=
    List.filter_eq_self.mpr fun x hx => by simp [h.before x (List.mem_reverse.mp hx)]
  have hM : M.reverse.filter (fun r => (cmp r b).swap == .gt) = [] :=
    List.filter_eq_nil_iff.mpr fun x hx => by simp [h.at_ x (List.mem_reverse.mp hx)]
  have hY : Y.reverse.filter (fun r => (cmp r b).swap == .gt) = [] :=
    List.filter_eq_nil_iff.mpr fun x hx => by simp [h.past x (List.mem_reverse.mp hx)]
  simp [scanFrom, dirCmp, hX, hM, hY]

end

/-! ## The cut -/

/-- `A ++ b :: B` with the window `A ++ [b]` of at most `n` elements. -/
structure Cut (cmp : α → α → Ordering) (n : Nat) (A : List α) (b : α) (B : List α) : Prop where
  sorted : Sorted cmp (A ++ b :: B)
  le : A.length + 1 ≤ n
  full : B = [] ∨ A.length + 1 = n

/-- How many elements are in the window, and one that ties the last of them. -/
inductive Window (cmp : α → α → Ordering) (n : Nat) : List α → Nat → Option α → Prop
  | empty : Window cmp n [] 0 none
  | cut {A : List α} {b : α} {B : List α} {bound : α} :
      Cut cmp n A b B → cmp bound b = .eq → Window cmp n (A ++ b :: B) (A.length + 1) (some bound)

variable {n : Nat} {A B : List α} {b : α}

theorem Cut.take (h : Cut cmp n A b B) : (A ++ b :: B).take n = A ++ [b] := by
  rcases h.full with rfl | hn
  · exact List.take_of_length_le (by simpa using h.le)
  · rw [← hn, List.append_cons, List.take_left' (by simp)]

theorem Cut.window_sorted (h : Cut cmp n A b B) : Sorted cmp (A ++ [b]) := by
  rw [← h.take]
  exact h.sorted.sublist (List.take_sublist _ _)

theorem Cut.pos (h : Cut cmp n A b B) : 0 < n := by
  have := h.le
  omega

variable {l : List α}

/-- A list with something in it has a cut. -/
theorem exists_cut (hl : Sorted cmp l) (hne : l ≠ []) (hn : 0 < n) :
    ∃ A b B, l = A ++ b :: B ∧ Cut cmp n A b B := by
  have hlen : 0 < l.length := List.length_pos_iff.mpr hne
  have hi : min n l.length - 1 < l.length := by omega
  have hsplit : l = l.take (min n l.length - 1) ++ l[min n l.length - 1] :: l.drop (min n l.length - 1 + 1) := by
    rw [List.getElem_cons_drop, List.take_append_drop]
  have htake : (l.take (min n l.length - 1)).length = min n l.length - 1 := by
    rw [List.length_take]
    omega
  refine ⟨_, _, _, hsplit, ⟨hsplit ▸ hl, by omega, ?_⟩⟩
  by_cases h : l.length ≤ n
  · exact Or.inl (List.drop_eq_nil_of_le (by omega))
  · exact Or.inr (by omega)

theorem Window.size_eq {size : Nat} {bound : Option α} (h : Window cmp n l size bound) : size = min n l.length := by
  cases h with
  | empty => simp
  | cut hc _ =>
    have hle := hc.le
    rcases hc.full with rfl | hn
    · simp only [List.length_append, List.length_cons, List.length_nil]
      omega
    · simp only [List.length_append, List.length_cons]
      omega

/-- The bound ties the last element of the window. -/
theorem Window.bound_eq {size : Nat} {bound : Option α} (h : Window cmp n l size bound) :
    (bound = none ↔ size = 0) ∧ ∀ b, bound = some b → ∃ x, (l.take n).getLast? = some x ∧ cmp b x = .eq := by
  cases h with
  | empty => simp
  | cut hc hb =>
    refine ⟨by simp, fun b h => ?_⟩
    rw [hc.take, List.getLast?_concat]
    exact ⟨_, rfl, Option.some.inj h ▸ hb⟩

theorem exists_window (hl : Sorted cmp l) (hn : 0 < n) (hrefl : ∀ a : α, cmp a a = .eq) :
    Window cmp n l (l.take n).length (l.take n).getLast? := by
  by_cases hne : l = []
  · subst hne
    simpa using Window.empty
  · obtain ⟨A, b, B, rfl, hc⟩ := exists_cut hl hne hn
    rw [hc.take, List.getLast?_concat, List.length_append]
    exact Window.cut hc (hrefl b)

theorem Cut.before (h : Cut cmp n A b B) : ∀ x ∈ A, cmp x b = .lt := fun x hx =>
  (sorted_append.mp h.sorted).2.2 x hx b List.mem_cons_self

theorem Cut.past (h : Cut cmp n A b B) : ∀ y ∈ B, cmp b y = .lt := (sorted_cons.mp (sorted_append.mp h.sorted).2.1).1

theorem Cut.sortedA (h : Cut cmp n A b B) : Sorted cmp A := (sorted_append.mp h.sorted).1

theorem Cut.sortedB (h : Cut cmp n A b B) : Sorted cmp B := (sorted_cons.mp (sorted_append.mp h.sorted).2.1).2

theorem mem_insert_self {k : α} : k ∈ insert cmp k l := by
  induction l with
  | nil => exact List.mem_cons_self
  | cons x l ih =>
    rw [insert]
    cases cmp x k with
    | lt => exact List.mem_cons_of_mem _ ih
    | eq => exact List.mem_cons_self
    | gt => exact List.mem_cons_self

/-- The first of a list an element is added to: the element, or the old first one. -/
theorem insert_head {k : α} (hk : ∀ x ∈ l, cmp x k ≠ .eq) :
    ∃ y l', insert cmp k l = y :: l' ∧ ((y = k ∧ l' = l) ∨ (cmp y k = .lt ∧ l ≠ [])) := by
  cases l with
  | nil => exact ⟨k, [], rfl, Or.inl ⟨rfl, rfl⟩⟩
  | cons x l =>
    cases hx : cmp x k with
    | lt => exact ⟨x, insert cmp k l, by rw [insert, hx], Or.inr ⟨hx, by simp⟩⟩
    | eq => exact absurd hx (hk x List.mem_cons_self)
    | gt => exact ⟨k, x :: l, by rw [insert, hx], Or.inl ⟨rfl, rfl⟩⟩

theorem insert_all_before {k : α} (hk : ∀ x ∈ l, cmp x k = .lt) : insert cmp k l = l ++ [k] := by
  have h : insert cmp k (l ++ []) = l ++ insert cmp k [] := insert_append_left hk
  rwa [List.append_nil] at h

section
variable [Std.TransCmp cmp]

theorem Cut.across (h : Cut cmp n A b B) : ∀ x ∈ A, ∀ y ∈ B, cmp x y = .lt := fun x hx y hy =>
  lt_trans (h.before x hx) (h.past y hy)

/-- Around an element that ties the cut. -/
theorem around_of {bound : α} (hb : cmp bound b = .eq) {X Y : List α} (hX : ∀ x ∈ X, cmp x b = .lt) (hY : ∀ y ∈ Y, cmp b y = .lt)
    {M : List α} (hM : ∀ m ∈ M, m = b) : Around cmp bound X M Y := by
  refine ⟨fun x hx => ?_, fun m hm => ?_, fun y hy => ?_⟩
  · exact Std.TransCmp.lt_of_lt_of_eq (hX x hx) (eq_comm.mp hb)
  · rw [hM m hm]
    exact eq_comm.mp hb
  · exact gt_iff_lt.mpr (Std.TransCmp.lt_of_eq_of_lt hb (hY y hy))

/-! ## Changes at the cut -/

variable {k : α}

theorem insert_before (hk : cmp k b = .lt) (hB : ∀ y ∈ B, cmp b y = .lt) :
    insert cmp k (A ++ b :: B) = insert cmp k A ++ b :: B := by
  apply insert_append_right
  intro c hc
  rcases List.mem_cons.mp hc with rfl | hc
  · exact gt_iff_lt.mpr hk
  · exact gt_iff_lt.mpr (lt_trans hk (hB c hc))

theorem insert_past (hk : cmp b k = .lt) (hA : ∀ x ∈ A, cmp x b = .lt) :
    insert cmp k (A ++ b :: B) = A ++ b :: insert cmp k B := by
  rw [insert_append_left fun x hx => lt_trans (hA x hx) hk, insert, hk]

theorem erase_before (hk : cmp k b = .lt) (hB : ∀ y ∈ B, cmp b y = .lt) :
    erase cmp k (A ++ b :: B) = erase cmp k A ++ b :: B := by
  apply erase_append_right
  intro c hc heq
  have hkc : cmp k c = .lt := by
    rcases List.mem_cons.mp hc with rfl | hc
    · exact hk
    · exact lt_trans hk (hB c hc)
  rw [eq_comm.mp heq] at hkc
  cases hkc

theorem erase_at (hk : cmp k b = .eq) (hA : ∀ x ∈ A, cmp x b = .lt) : erase cmp k (A ++ b :: B) = A ++ B := by
  rw [erase_append_left, erase, if_pos (eq_comm.mp hk)]
  intro x hx heq
  have hxb : cmp x b = .eq := Std.TransCmp.eq_trans heq hk
  rw [hA x hx] at hxb
  cases hxb

theorem erase_past (hk : cmp b k = .lt) (hA : ∀ x ∈ A, cmp x b = .lt) :
    erase cmp k (A ++ b :: B) = A ++ b :: erase cmp k B := by
  have hne : ∀ x, cmp x k = .lt → cmp x k ≠ .eq := fun x h h' => by rw [h] at h'; cases h'
  rw [erase_append_left fun x hx => hne x (lt_trans (hA x hx) hk), erase, if_neg (hne b hk)]

/-- An element with a new key makes the list longer by one. -/
theorem length_insert_new {l : List α} (hl : Sorted cmp l) (hk : ∀ x ∈ l, cmp x k ≠ .eq) :
    (insert cmp k l).length = l.length + 1 := by
  rw [length_insert hl, find_eq_none.mpr hk]
  rfl

theorem length_erase_mem {l : List α} (hl : Sorted cmp l) (hk : k ∈ l) : (erase cmp k l).length + 1 = l.length := by
  have hfind : find cmp k l = some k := (find_eq_some hl).mpr ⟨hk, Std.ReflCmp.compare_self⟩
  have hlen : (erase cmp k l).length + (if (find cmp k l).isSome then 1 else 0) = l.length := length_erase l
  rw [hfind] at hlen
  exact hlen

/-- The last of a sorted list. -/
theorem le_last {l : List α} {y k : α} (hl : Sorted cmp (l ++ [y])) (hk : k ∈ l ++ [y]) : cmp k y ≠ .gt := by
  rcases List.mem_append.mp hk with hk | hk
  · have hlt : cmp k y = .lt := (sorted_append.mp hl).2.2 k hk y List.mem_cons_self
    simp [hlt]
  · have hself : cmp y y = .eq := Std.ReflCmp.compare_self
    rw [List.mem_singleton.mp hk, hself]
    decide

end

end Rindle.SList
