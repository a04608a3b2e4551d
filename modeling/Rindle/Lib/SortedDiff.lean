/-
  Rindle.Lib.SortedDiff — the edit script between two sorted maps.

  `diff` merges two descending lists and writes down where they differ: a row of the first
  only, a row of the second only, or one key with two rows that are not the `same`.
  `mem_diff` says which changes are in the script, `diff_desc` that each key occurs once, in
  descending order, and `patch_diff` that applying the script to the first map gives the
  second, row by row up to `same`.
-/

import Rindle.Lib.SortedList

namespace Rindle.SList

/-- One change of a map. -/
inductive Delta (α : Type) where
  | add (row : α)
  | remove (row : α)
  | edit (old row : α)

namespace Delta

variable {α : Type}

/-- A row with the key the change is about. -/
def key : Delta α → α
  | .add row => row
  | .remove row => row
  | .edit old _ => old

/-- What the map holds under the key afterwards. -/
def result : Delta α → Option α
  | .add row => some row
  | .remove _ => none
  | .edit _ row => some row

/-- A row that the change neither drops nor overwrites. -/
def Leaves (cmp : α → α → Ordering) : Delta α → α → Prop
  | .add row, x => cmp x row ≠ .eq
  | .remove row, x => cmp x row ≠ .eq
  | .edit old row, x => cmp x old ≠ .eq ∧ cmp x row ≠ .eq

/-- The change meets the map it was made for: it adds an absent key, drops a row that is there, or
    rewrites one under its key. -/
def Fits (cmp : α → α → Ordering) (l : List α) : Delta α → Prop
  | .add row => ∀ x ∈ l, cmp x row ≠ .eq
  | .remove row => row ∈ l
  | .edit old row => old ∈ l ∧ cmp old row = .eq

/-- An edit replaces a row by one of the same key. -/
def Keyed (cmp : α → α → Ordering) : Delta α → Prop
  | .edit old row => cmp old row = .eq
  | _ => True

end Delta

variable {α : Type} (cmp : α → α → Ordering) (same : α → α → Bool)

/-- Apply a change: an edit drops the old row, then adds the new one. -/
def patch (l : List α) : Delta α → List α
  | .add row => insert cmp row l
  | .remove row => erase cmp row l
  | .edit old row => insert cmp row (erase cmp old l)

/-- The script from the first descending list to the second. -/
def diff : List α → List α → List (Delta α)
  | [], [] => []
  | a :: A, [] => .remove a :: diff A []
  | [], b :: B => .add b :: diff [] B
  | a :: A, b :: B =>
    match cmp b a with
    | .lt => .remove a :: diff A (b :: B)
    | .gt => .add b :: diff (a :: A) B
    | .eq => if same a b then diff A B else .edit a b :: diff A B
termination_by A B => A.length + B.length

/-- Strictly descending. -/
def Desc (l : List α) : Prop := l.Pairwise fun a b => cmp b a = .lt

/-- The places where two maps differ. -/
def Differs (A B : List α) : Delta α → Prop
  | .remove a => a ∈ A ∧ ∀ b ∈ B, cmp b a ≠ .eq
  | .add b => b ∈ B ∧ ∀ a ∈ A, cmp b a ≠ .eq
  | .edit a b => a ∈ A ∧ b ∈ B ∧ cmp b a = .eq ∧ same a b = false

variable {cmp same}

theorem desc_cons {x : α} {l : List α} : Desc cmp (x :: l) ↔ (∀ b ∈ l, cmp b x = .lt) ∧ Desc cmp l :=
  List.pairwise_cons

theorem desc_reverse {l : List α} : Desc cmp l.reverse ↔ Sorted cmp l := by
  unfold Desc Sorted
  rw [List.pairwise_reverse]

@[simp] theorem diff_nil_right (A : List α) : diff cmp same A [] = A.map .remove := by
  induction A with
  | nil => rw [diff]; rfl
  | cons a A ih => rw [diff, ih]; rfl

@[simp] theorem diff_nil_left (B : List α) : diff cmp same [] B = B.map .add := by
  induction B with
  | nil => rw [diff]; rfl
  | cons b B ih => rw [diff, ih]; rfl

/-- The first list is ahead. -/
theorem diff_remove {a : α} {A B : List α} (h : ∀ b ∈ B, cmp b a = .lt) :
    diff cmp same (a :: A) B = .remove a :: diff cmp same A B := by
  cases B with
  | nil => simp
  | cons b B => rw [diff, h b List.mem_cons_self]

/-- The second list is ahead. -/
theorem diff_add {b : α} {A B : List α} (h : ∀ a ∈ A, cmp b a = .gt) :
    diff cmp same A (b :: B) = .add b :: diff cmp same A B := by
  cases A with
  | nil => simp
  | cons a A => rw [diff, h a List.mem_cons_self]

theorem diff_tie {a b : α} {A B : List α} (h : cmp b a = .eq) :
    diff cmp same (a :: A) (b :: B) = if same a b then diff cmp same A B else .edit a b :: diff cmp same A B := by
  rw [diff, h]

section
variable [Std.TransCmp cmp]

/-- A common first part contributes nothing. -/
theorem diff_append_left (hsame : ∀ a, same a a = true) (W A B : List α) :
    diff cmp same (W ++ A) (W ++ B) = diff cmp same A B := by
  induction W with
  | nil => rfl
  | cons w W ih =>
    rw [List.cons_append, List.cons_append, diff_tie Std.ReflCmp.compare_self, if_pos (hsame w), ih]

/-- What lies above the first of a list lies above all of it. -/
theorem above_all {a b : α} {B : List α} (hB : Desc cmp (b :: B)) (hba : cmp b a = .lt) : ∀ y ∈ b :: B, cmp y a = .lt :=
  List.forall_mem_cons.mpr ⟨hba, fun y hy => lt_trans ((desc_cons.mp hB).1 y hy) hba⟩

/-- The script is the set of differences. -/
theorem mem_diff (d : Delta α) : ∀ (A B : List α), Desc cmp A → Desc cmp B →
    (d ∈ diff cmp same A B ↔ Differs cmp same A B d)
  | [], [], _, _ => by cases d <;> simp [Differs]
  | a :: A, [], _, _ => by cases d <;> simp [Differs]
  | [], b :: B, _, _ => by cases d <;> simp [Differs]
  | a :: A, b :: B, hA, hB => by
    have hA' := desc_cons.mp hA
    have hB' := desc_cons.mp hB
    have ha : ∀ x ∈ A, cmp x a ≠ .eq := fun x hx h => by rw [hA'.1 x hx] at h; cases h
    have hb : ∀ y ∈ B, cmp y b ≠ .eq := fun y hy h => by rw [hB'.1 y hy] at h; cases h
    cases hba : cmp b a with
    | lt =>
      -- `a` lies above all of the second list
      have hall := above_all hB hba
      have hne : ∀ y ∈ b :: B, cmp y a ≠ .eq := fun y hy h => by rw [hall y hy] at h; cases h
      rw [diff_remove hall, List.mem_cons, mem_diff d A (b :: B) hA'.2 hB]
      cases d with
      | remove r =>
        simp only [Differs, Delta.remove.injEq, List.mem_cons (a := r) (l := A)]
        by_cases hr : r = a
        · subst hr
          simpa using hne
        · simp [hr]
      | add r =>
        simp only [Differs, reduceCtorEq, false_or]
        refine ⟨fun ⟨h1, h2⟩ => ⟨h1, fun x hx => ?_⟩, fun ⟨h1, h2⟩ => ⟨h1, fun x hx => h2 x (List.mem_cons_of_mem _ hx)⟩⟩
        rcases List.mem_cons.mp hx with rfl | hx
        · exact hne r h1
        · exact h2 x hx
      | edit o r =>
        simp only [Differs, reduceCtorEq, false_or]
        refine ⟨fun ⟨h1, h2⟩ => ⟨List.mem_cons_of_mem _ h1, h2⟩, fun ⟨h1, h2, h3, h4⟩ => ⟨?_, h2, h3, h4⟩⟩
        rcases List.mem_cons.mp h1 with rfl | h1
        · exact absurd h3 (hne r h2)
        · exact h1
    | gt =>
      have hall : ∀ x ∈ a :: A, cmp b x = .gt := fun x hx => gt_iff_lt.mpr (above_all hA (gt_iff_lt.mp hba) x hx)
      have hne : ∀ x ∈ a :: A, cmp b x ≠ .eq := fun x hx h => by rw [hall x hx] at h; cases h
      rw [diff_add hall, List.mem_cons, mem_diff d (a :: A) B hA hB'.2]
      cases d with
      | remove r =>
        simp only [Differs, reduceCtorEq, false_or]
        refine ⟨fun ⟨h1, h2⟩ => ⟨h1, fun y hy => ?_⟩, fun ⟨h1, h2⟩ => ⟨h1, fun y hy => h2 y (List.mem_cons_of_mem _ hy)⟩⟩
        rcases List.mem_cons.mp hy with rfl | hy
        · exact hne r h1
        · exact h2 y hy
      | add r =>
        simp only [Differs, Delta.add.injEq, List.mem_cons (a := r) (l := B)]
        by_cases hr : r = b
        · subst hr
          simpa using hne
        · simp [hr]
      | edit o r =>
        simp only [Differs, reduceCtorEq, false_or]
        refine ⟨fun ⟨h1, h2, h3⟩ => ⟨h1, List.mem_cons_of_mem _ h2, h3⟩, fun ⟨h1, h2, h3, h4⟩ => ⟨h1, ?_, h3, h4⟩⟩
        rcases List.mem_cons.mp h2 with rfl | h2
        · exact absurd h3 (hne o h1)
        · exact h2
    | eq =>
      have hbA : ∀ x ∈ A, cmp b x ≠ .eq := fun x hx h =>
        ha x hx (eq_comm.mp (Std.TransCmp.eq_trans (eq_comm.mp hba) h))
      have hBa : ∀ y ∈ B, cmp y a ≠ .eq := fun y hy h => hb y hy (Std.TransCmp.eq_trans h (eq_comm.mp hba))
      have hrest : Differs cmp same (a :: A) (b :: B) d ↔
          Differs cmp same A B d ∨ (d = .edit a b ∧ same a b = false) := by
        cases d with
        | remove r =>
          simp only [Differs, reduceCtorEq, false_and, or_false, List.forall_mem_cons]
          constructor
          · rintro ⟨h1, h2, h3⟩
            rcases List.mem_cons.mp h1 with rfl | h1
            · exact absurd hba h2
            · exact ⟨h1, h3⟩
          · exact fun ⟨h1, h2⟩ => ⟨List.mem_cons_of_mem _ h1, hbA r h1, h2⟩
        | add r =>
          simp only [Differs, reduceCtorEq, false_and, or_false, List.forall_mem_cons]
          constructor
          · rintro ⟨h1, h2, h3⟩
            rcases List.mem_cons.mp h1 with rfl | h1
            · exact absurd hba h2
            · exact ⟨h1, h3⟩
          · exact fun ⟨h1, h2⟩ => ⟨List.mem_cons_of_mem _ h1, hBa r h1, h2⟩
        | edit o r =>
          simp only [Differs, Delta.edit.injEq]
          constructor
          · rintro ⟨h1, h2, h3, h4⟩
            rcases List.mem_cons.mp h1 with rfl | h1 <;> rcases List.mem_cons.mp h2 with rfl | h2
            · exact Or.inr ⟨⟨rfl, rfl⟩, h4⟩
            · exact absurd h3 (hBa r h2)
            · exact absurd h3 (hbA o h1)
            · exact Or.inl ⟨h1, h2, h3, h4⟩
          · rintro (⟨h1, h2, h3, h4⟩ | ⟨⟨rfl, rfl⟩, h4⟩)
            · exact ⟨List.mem_cons_of_mem _ h1, List.mem_cons_of_mem _ h2, h3, h4⟩
            · exact ⟨List.mem_cons_self, List.mem_cons_self, hba, h4⟩
      rw [diff_tie hba, hrest]
      by_cases hs : same a b = true
      · rw [if_pos hs, mem_diff d A B hA'.2 hB'.2]
        simp [hs]
      · rw [if_neg hs, List.mem_cons, mem_diff d A B hA'.2 hB'.2]
        simp only [Bool.not_eq_true] at hs
        simp [hs, or_comm]
termination_by A B => A.length + B.length

omit [Std.TransCmp cmp] in
/-- Every key of the script is a key of one of the lists. -/
theorem Differs.key_mem {A B : List α} {d : Delta α} (h : Differs cmp same A B d) : d.key ∈ A ∨ d.key ∈ B := by
  cases d with
  | remove r => exact Or.inl h.1
  | add r => exact Or.inr h.1
  | edit o r => exact Or.inl h.1

/-- Each key occurs once, in descending order. -/
theorem diff_desc : ∀ (A B : List α), Desc cmp A → Desc cmp B →
    (diff cmp same A B).Pairwise fun d e => cmp e.key d.key = .lt
  | [], [], _, _ => by simp
  | a :: A, [], hA, _ => by
    rw [diff_nil_right, List.pairwise_map]
    exact hA
  | [], b :: B, _, hB => by
    rw [diff_nil_left, List.pairwise_map]
    exact hB
  | a :: A, b :: B, hA, hB => by
    have hA' := desc_cons.mp hA
    have hB' := desc_cons.mp hB
    cases hba : cmp b a with
    | lt =>
      have hall := above_all hB hba
      rw [diff_remove hall, List.pairwise_cons]
      refine ⟨fun e he => ?_, diff_desc A (b :: B) hA'.2 hB⟩
      rcases ((mem_diff e A (b :: B) hA'.2 hB).mp he).key_mem with h | h
      · exact hA'.1 _ h
      · exact hall _ h
    | gt =>
      have hall := above_all hA (gt_iff_lt.mp hba)
      rw [diff_add fun x hx => gt_iff_lt.mpr (hall x hx), List.pairwise_cons]
      refine ⟨fun e he => ?_, diff_desc (a :: A) B hA hB'.2⟩
      rcases ((mem_diff e (a :: A) B hA hB'.2).mp he).key_mem with h | h
      · exact hall _ h
      · exact hB'.1 _ h
    | eq =>
      have hrest := diff_desc A B hA'.2 hB'.2
      rw [diff_tie hba]
      by_cases hs : same a b = true
      · rw [if_pos hs]
        exact hrest
      · rw [if_neg hs, List.pairwise_cons]
        refine ⟨fun e he => ?_, hrest⟩
        rcases ((mem_diff e A B hA'.2 hB'.2).mp he).key_mem with h | h
        · exact hA'.1 _ h
        · rw [show Delta.key (.edit a b) = a from rfl, ← Std.TransCmp.congr_right hba]
          exact hB'.1 _ h
termination_by A B => A.length + B.length

/-! ## Applying a script -/

theorem sorted_patch {l : List α} (hl : Sorted cmp l) (d : Delta α) : Sorted cmp (patch cmp l d) := by
  cases d with
  | add r => exact sorted_insert hl
  | remove r => exact sorted_erase hl
  | edit o r => exact sorted_insert (sorted_erase hl)

theorem sorted_patches {l : List α} (hl : Sorted cmp l) (D : List (Delta α)) : Sorted cmp (D.foldl (patch cmp) l) := by
  induction D generalizing l with
  | nil => exact hl
  | cons d D ih => exact ih (sorted_patch hl d)

/-- A change acts on its own key only. -/
theorem find_patch {l : List α} (hl : Sorted cmp l) {d : Delta α} (hd : d.Keyed cmp) (k : α) :
    find cmp k (patch cmp l d) = if cmp d.key k = .eq then d.result else find cmp k l := by
  cases d with
  | add r => exact find_insert hl
  | remove r => exact find_erase hl
  | edit o r =>
    have hk : cmp r k = .eq ↔ cmp o k = .eq := by rw [← Std.TransCmp.congr_left (show cmp o r = .eq from hd)]
    rw [patch, find_insert (sorted_erase hl), find_erase hl]
    show _ = if cmp o k = .eq then some r else find cmp k l
    by_cases h : cmp o k = .eq
    · rw [if_pos (hk.mpr h), if_pos h]
    · rw [if_neg (mt hk.mp h), if_neg h, if_neg h]

/-- A script with distinct keys, read back key by key. -/
theorem find_patches (D : List (Delta α)) : ∀ {l : List α}, Sorted cmp l → (∀ d ∈ D, d.Keyed cmp) →
    (D.Pairwise fun d e => cmp e.key d.key = .lt) → ∀ k,
      find cmp k (D.foldl (patch cmp) l) =
        match D.find? fun d => cmp d.key k == .eq with
        | none => find cmp k l
        | some d => d.result := by
  induction D with
  | nil => intro l _ _ _ k; rfl
  | cons d D ih =>
    intro l hl hkey hD k
    obtain ⟨hd, hD'⟩ := List.pairwise_cons.mp hD
    rw [List.foldl_cons, ih (sorted_patch hl d) (fun e he => hkey e (List.mem_cons_of_mem _ he)) hD' k,
      find_patch hl (hkey d List.mem_cons_self) k, List.find?_cons]
    by_cases h : cmp d.key k = .eq
    · -- no later change has this key
      have hnone : D.find? (fun d => cmp d.key k == .eq) = none := by
        rw [List.find?_eq_none]
        intro e he
        have := hd e he
        rw [Std.TransCmp.congr_right h] at this
        simp [this]
      simp [h, hnone]
    · have hk : (cmp d.key k == .eq) = false := by simpa using h
      rw [if_neg h, hk]

/-- Maps with the same keys, related key by key, are related row by row. -/
theorem forall₂_of_keys {P : α → α → Prop} : ∀ {l m : List α}, Sorted cmp l → Sorted cmp m →
    (∀ x ∈ l, ∃ y ∈ m, cmp x y = .eq ∧ P x y) → (∀ y ∈ m, ∃ x ∈ l, cmp x y = .eq) → List.Forall₂ P l m
  | [], [], _, _, _, _ => List.Forall₂.nil
  | [], y :: m, _, _, _, h => by obtain ⟨x, hx, -⟩ := h y List.mem_cons_self; cases hx
  | x :: l, [], _, _, h, _ => by obtain ⟨y, hy, -⟩ := h x List.mem_cons_self; cases hy
  | x :: l, y :: m, hl, hm, h1, h2 => by
    have hl' := sorted_cons.mp hl
    have hm' := sorted_cons.mp hm
    have hxy : cmp x y = .eq := by
      obtain ⟨y', hy', hxy', -⟩ := h1 x List.mem_cons_self
      obtain ⟨x', hx', hxy''⟩ := h2 y List.mem_cons_self
      rcases List.mem_cons.mp hy' with rfl | hy'
      · exact hxy'
      · rcases List.mem_cons.mp hx' with rfl | hx'
        · exact hxy''
        · -- `y < y'` ties with `x < x'` ties with `y`
          have h3 := hm'.1 y' hy'
          rw [← Std.TransCmp.congr_right hxy'] at h3
          have h4 := hl'.1 x' hx'
          rw [Std.TransCmp.congr_right hxy''] at h4
          exact absurd h3 (not_lt_of_lt h4)
    have hP : P x y := by
      obtain ⟨y', hy', hxy', hP⟩ := h1 x List.mem_cons_self
      rcases List.mem_cons.mp hy' with rfl | hy'
      · exact hP
      · have h3 := hm'.1 y' hy'
        rw [← Std.TransCmp.congr_left hxy, hxy'] at h3
        cases h3
    refine List.Forall₂.cons hP (forall₂_of_keys hl'.2 hm'.2 (fun z hz => ?_) fun z hz => ?_)
    · obtain ⟨w, hw, hzw, hPw⟩ := h1 z (List.mem_cons_of_mem _ hz)
      rcases List.mem_cons.mp hw with rfl | hw
      · have h3 := hl'.1 z hz
        rw [Std.TransCmp.congr_left hxy, eq_comm.mp hzw] at h3
        cases h3
      · exact ⟨w, hw, hzw, hPw⟩
    · obtain ⟨w, hw, hwz⟩ := h2 z (List.mem_cons_of_mem _ hz)
      rcases List.mem_cons.mp hw with rfl | hw
      · have h3 := hm'.1 z hz
        rw [← Std.TransCmp.congr_left hxy, hwz] at h3
        cases h3
      · exact ⟨w, hw, hwz⟩

/-- Applying the script gives the second map, row by row up to `same`. -/
theorem patch_diff (hsame : ∀ a, same a a = true) {l m : List α} (hl : Sorted cmp l) (hm : Sorted cmp m) :
    List.Forall₂ (fun x y => cmp x y = .eq ∧ same x y = true)
      ((diff cmp same l.reverse m.reverse).foldl (patch cmp) l) m := by
  have hld := desc_reverse.mpr hl
  have hmd := desc_reverse.mpr hm
  have hmem : ∀ d, d ∈ diff cmp same l.reverse m.reverse ↔ Differs cmp same l.reverse m.reverse d :=
    fun d => mem_diff d _ _ hld hmd
  have hdesc : (diff cmp same l.reverse m.reverse).Pairwise fun d e => cmp e.key d.key = .lt := diff_desc _ _ hld hmd
  generalize diff cmp same l.reverse m.reverse = D at hmem hdesc
  have hkeyed : ∀ d ∈ D, d.Keyed cmp := by
    intro d hd
    cases d with
    | add r => trivial
    | remove r => trivial
    | edit o r => exact eq_comm.mp ((hmem _).mp hd).2.2.1
  have hfind := find_patches D hl hkeyed hdesc
  refine forall₂_of_keys (sorted_patches hl D) hm (fun x hx => ?_) fun y hy => ?_
  · -- a row of the result: from the script, or kept from the first map
    have hx' := (find_eq_some (sorted_patches hl D)).mpr ⟨hx, Std.ReflCmp.compare_self⟩
    rw [hfind x] at hx'
    cases hD : D.find? fun d => cmp d.key x == .eq with
    | none =>
      rw [hD] at hx'
      have hxl := (find_some hx').1
      have hno : ∀ d ∈ D, cmp d.key x ≠ .eq := by simpa using List.find?_eq_none.mp hD
      by_cases hin : ∃ y ∈ m, cmp y x = .eq
      · obtain ⟨y, hy, hyx⟩ := hin
        refine ⟨y, hy, eq_comm.mp hyx, eq_comm.mp hyx, ?_⟩
        by_contra hs
        refine hno (.edit x y) ((hmem _).mpr ⟨?_, ?_, hyx, by simpa using hs⟩) Std.ReflCmp.compare_self
        · simpa using hxl
        · simpa using hy
      · refine absurd Std.ReflCmp.compare_self (hno (.remove x) ((hmem _).mpr ⟨by simpa using hxl, fun y hy h => ?_⟩))
        exact hin ⟨y, by simpa using hy, h⟩
    | some d =>
      rw [hD] at hx'
      have hd := (hmem d).mp (List.mem_of_find?_eq_some hD)
      cases d with
      | remove r => cases hx'
      | add r =>
        cases hx'
        exact ⟨x, by simpa using hd.1, Std.ReflCmp.compare_self, Std.ReflCmp.compare_self, hsame x⟩
      | edit o r =>
        cases hx'
        exact ⟨x, by simpa using hd.2.1, Std.ReflCmp.compare_self, Std.ReflCmp.compare_self, hsame x⟩
  · have key : find cmp y (D.foldl (patch cmp) l) ≠ none := by
      rw [hfind y]
      cases hD : D.find? fun d => cmp d.key y == .eq with
      | none =>
        have hno : ∀ d ∈ D, cmp d.key y ≠ .eq := by simpa using List.find?_eq_none.mp hD
        intro hnone
        refine hno (.add y) ((hmem _).mpr ⟨by simpa using hy, fun a ha h => ?_⟩) Std.ReflCmp.compare_self
        exact find_eq_none.mp hnone a (by simpa using ha) (eq_comm.mp h)
      | some d =>
        have hd := (hmem d).mp (List.mem_of_find?_eq_some hD)
        have hk : cmp d.key y = .eq := by simpa using List.find?_some hD
        cases d with
        | remove r => exact absurd (eq_comm.mp hk) (hd.2 y (by simpa using hy))
        | add r => simp [Delta.result]
        | edit o r => simp [Delta.result]
    obtain ⟨x, hx⟩ := Option.ne_none_iff_exists'.mp key
    exact ⟨x, find_some hx⟩

/-- What a patched map holds: the change's row, and the rows it leaves. -/
theorem mem_patch {l : List α} (hl : Sorted cmp l) {d : Delta α} {x : α} :
    x ∈ patch cmp l d ↔ d.result = some x ∨ (x ∈ l ∧ d.Leaves cmp x) := by
  cases d with
  | add r =>
    rw [patch, mem_insert hl, Delta.result, Option.some.injEq]
    exact or_congr_left ⟨Eq.symm, Eq.symm⟩
  | remove r => simp [patch, mem_erase hl, Delta.result, Delta.Leaves]
  | edit o r =>
    rw [patch, mem_insert (sorted_erase hl), mem_erase hl, Delta.result, Option.some.injEq, and_assoc]
    exact or_congr_left ⟨Eq.symm, Eq.symm⟩

theorem mem_patches (D : List (Delta α)) : ∀ {l : List α}, Sorted cmp l → ∀ {x : α}, x ∈ D.foldl (patch cmp) l →
    x ∈ l ∨ ∃ d ∈ D, d.result = some x := by
  induction D with
  | nil => intro l _ x hx; exact Or.inl hx
  | cons d D ih =>
    intro l hl x hx
    rcases ih (sorted_patch hl d) hx with h | ⟨e, he, hr⟩
    · rcases (mem_patch hl).mp h with h | h
      · exact Or.inr ⟨d, List.mem_cons_self, h⟩
      · exact Or.inl h.1
    · exact Or.inr ⟨e, List.mem_cons_of_mem _ he, hr⟩

/-- Where `same` rows of the two maps are equal, the script leads to the second map exactly. -/
theorem patch_diff_eq (hsame : ∀ a, same a a = true) {l m : List α} (hl : Sorted cmp l) (hm : Sorted cmp m)
    (heq : ∀ a ∈ l, ∀ b ∈ m, same a b = true → a = b) :
    (diff cmp same l.reverse m.reverse).foldl (patch cmp) l = m := by
  have hrel := patch_diff hsame hl hm
  have hmem : ∀ x ∈ (diff cmp same l.reverse m.reverse).foldl (patch cmp) l, ∀ y ∈ m, cmp x y = .eq →
      same x y = true → x = y := by
    intro x hx y hy hk hs
    rcases mem_patches _ hl hx with h | ⟨d, hd, hr⟩
    · exact heq x h y hy hs
    · have hxm : x ∈ m := by
        have := (mem_diff d _ _ (desc_reverse.mpr hl) (desc_reverse.mpr hm)).mp hd
        cases d with
        | remove r => cases hr
        | add r => cases hr; simpa using this.1
        | edit o r => cases hr; simpa using this.2.1
      exact hm.eq_of_cmp hxm hy hk
  have hpoint : List.Forall₂ (· = ·) ((diff cmp same l.reverse m.reverse).foldl (patch cmp) l) m := by
    rw [List.forall₂_iff_get] at hrel ⊢
    refine ⟨hrel.1, fun i h1 h2 => ?_⟩
    obtain ⟨hk, hs⟩ := hrel.2 i h1 h2
    exact hmem _ (List.get_mem _ _) _ (List.get_mem _ _) hk hs
  rwa [List.forall₂_eq_eq_eq] at hpoint

/-- The changes of a script meet the first map, and are keyed. -/
theorem fits_of_diff {l m : List α} (hl : Sorted cmp l) (hm : Sorted cmp m) {d : Delta α}
    (hd : d ∈ diff cmp same l.reverse m.reverse) : d.Fits cmp l ∧ d.Keyed cmp := by
  have hdiff := (mem_diff d _ _ (desc_reverse.mpr hl) (desc_reverse.mpr hm)).mp hd
  cases d with
  | add r =>
    refine ⟨?_, trivial⟩
    intro x hx h
    exact hdiff.2 x (by simpa using hx) (eq_comm.mp h)
  | remove r => exact ⟨List.mem_reverse.mp hdiff.1, trivial⟩
  | edit a b => exact ⟨⟨List.mem_reverse.mp hdiff.1, eq_comm.mp hdiff.2.2.1⟩, eq_comm.mp hdiff.2.2.1⟩

/-- A change still meets the map after another of a different key. -/
theorem Delta.Fits.patch {l : List α} (hl : Sorted cmp l) {d e : Delta α} (hd : d.Keyed cmp) (he : e.Fits cmp l)
    (hne : cmp d.key e.key ≠ .eq) : e.Fits cmp (patch cmp l d) := by
  have hfind : find cmp e.key (SList.patch cmp l d) = find cmp e.key l := by rw [find_patch hl hd, if_neg hne]
  have hkeep : ∀ r, e.key = r → r ∈ l → r ∈ SList.patch cmp l d := by
    intro r hr hmem
    rw [hr, (find_eq_some hl).mpr ⟨hmem, Std.ReflCmp.compare_self⟩] at hfind
    exact (find_some hfind).1
  cases e with
  | add r =>
    have hnone : find cmp r l = none := find_eq_none.mpr he
    rw [show (Delta.add r).key = r from rfl, hnone] at hfind
    exact find_eq_none.mp hfind
  | remove r => exact hkeep r rfl he
  | edit a b => exact ⟨hkeep a rfl he.1, he.2⟩

end

end Rindle.SList
