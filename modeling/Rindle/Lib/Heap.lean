/-
  Rindle.Lib.Heap — a binary min-heap in a list, root first.

  `siftUp` and `siftDown` exchange an entry with its parent or with its smaller child until
  the order holds. Each starts from a heap that is ordered but for one position (`UpOrder`,
  `DownOrder`) and ends ordered (`siftUp_ordered`, `siftDown_ordered`), with the same entries.
-/

import Rindle.Lib.Stream

namespace Rindle.Heap

variable {β : Type} (cmp : β → β → Ordering)

/-! ## The sifts -/

/-- `swap`. -/
def swapAt (h : List β) (i j : Nat) : List β :=
  match h[i]?, h[j]? with
  | some a, some b => (h.set i b).set j a
  | _, _ => h

def lessAt (h : List β) (i j : Nat) : Bool :=
  match h[i]?, h[j]? with
  | some a, some b => cmp a b == .lt
  | _, _ => false

/-- `siftUp` with its number of turns bounded. -/
def siftUpGo : Nat → List β → Nat → List β
  | 0, h, _ => h
  | n + 1, h, i =>
    if i = 0 then h
    else if !lessAt cmp h i ((i - 1) / 2) then h
    else siftUpGo n (swapAt h i ((i - 1) / 2)) ((i - 1) / 2)

def siftUp (h : List β) (i : Nat) : List β := siftUpGo cmp i h i

/-- The least of a position and its two children. -/
def smallest (h : List β) (i : Nat) : Nat :=
  let l := 2 * i + 1
  let r := l + 1
  let s := if l < h.length && lessAt cmp h l i then l else i
  if r < h.length && lessAt cmp h r s then r else s

/-- `siftDown` with its number of turns bounded. -/
def siftDownGo : Nat → List β → Nat → List β
  | 0, h, _ => h
  | n + 1, h, i => if smallest cmp h i = i then h else siftDownGo n (swapAt h i (smallest cmp h i)) (smallest cmp h i)

def siftDown (h : List β) (i : Nat) : List β := siftDownGo cmp h.length h i

variable {cmp}

/-! ## Exchanging two entries -/

theorem swapAt_perm (h : List β) (i j : Nat) : (swapAt h i j).Perm h := by
  unfold swapAt
  split
  · rename_i a b hi hj
    obtain ⟨hi', rfl⟩ := List.getElem?_eq_some_iff.mp hi
    obtain ⟨hj', rfl⟩ := List.getElem?_eq_some_iff.mp hj
    exact List.set_set_perm hi' hj'
  · exact List.Perm.refl _

theorem length_swapAt (h : List β) (i j : Nat) : (swapAt h i j).length = h.length := (swapAt_perm h i j).length_eq

variable {h : List β}

theorem getElem?_swapAt {i j : Nat} (hi : i < h.length) (hj : j < h.length) (k : Nat) :
    (swapAt h i j)[k]? = if k = j then h[i]? else if k = i then h[j]? else h[k]? := by
  have hi' : h[i]? = some h[i] := List.getElem?_eq_getElem hi
  have hj' : h[j]? = some h[j] := List.getElem?_eq_getElem hj
  simp only [swapAt, hi', hj', List.getElem?_set, List.length_set]
  by_cases h1 : k = j
  · simp [h1, hj]
  · by_cases h2 : k = i
    · subst h2
      simp [hi, h1, Ne.symm h1]
    · simp [h1, h2, Ne.symm h1, Ne.symm h2]

theorem siftUpGo_perm (n : Nat) (h : List β) (i : Nat) : (siftUpGo cmp n h i).Perm h := by
  induction n generalizing h i with
  | zero => exact List.Perm.refl _
  | succ n ih =>
    unfold siftUpGo
    split
    · exact List.Perm.refl _
    · split
      · exact List.Perm.refl _
      · exact (ih _ _).trans (swapAt_perm h i _)

theorem siftDownGo_perm (n : Nat) (h : List β) (i : Nat) : (siftDownGo cmp n h i).Perm h := by
  induction n generalizing h i with
  | zero => exact List.Perm.refl _
  | succ n ih =>
    unfold siftDownGo
    split
    · exact List.Perm.refl _
    · exact (ih _ _).trans (swapAt_perm h i _)

theorem siftUp_perm (h : List β) (i : Nat) : (siftUp cmp h i).Perm h := siftUpGo_perm i h i

theorem siftDown_perm (h : List β) (i : Nat) : (siftDown cmp h i).Perm h := siftDownGo_perm h.length h i

/-! ## Entries read through a function -/

section
variable {γ : Type} (f : γ → β)

theorem lessAt_map (h : List γ) (i j : Nat) : lessAt cmp (h.map f) i j = lessAt (fun a b => cmp (f a) (f b)) h i j := by
  unfold lessAt
  rw [List.getElem?_map, List.getElem?_map]
  cases h[i]? <;> cases h[j]? <;> rfl

theorem swapAt_map (h : List γ) (i j : Nat) : swapAt (h.map f) i j = (swapAt h i j).map f := by
  unfold swapAt
  rw [List.getElem?_map, List.getElem?_map]
  cases h[i]? with
  | none => rfl
  | some a =>
    cases h[j]? with
    | none => rfl
    | some b => simp only [Option.map_some, List.map_set]

theorem siftUpGo_map (n : Nat) (h : List γ) (i : Nat) :
    siftUpGo cmp n (h.map f) i = (siftUpGo (fun a b => cmp (f a) (f b)) n h i).map f := by
  induction n generalizing h i with
  | zero => rfl
  | succ n ih =>
    unfold siftUpGo
    rw [lessAt_map, swapAt_map, ih]
    split
    · rfl
    · split <;> rfl

theorem smallest_map (h : List γ) (i : Nat) : smallest cmp (h.map f) i = smallest (fun a b => cmp (f a) (f b)) h i := by
  simp only [smallest, lessAt_map, List.length_map]

theorem siftDownGo_map (n : Nat) (h : List γ) (i : Nat) :
    siftDownGo cmp n (h.map f) i = (siftDownGo (fun a b => cmp (f a) (f b)) n h i).map f := by
  induction n generalizing h i with
  | zero => rfl
  | succ n ih =>
    unfold siftDownGo
    rw [smallest_map, swapAt_map, ih]
    split <;> rfl

theorem siftUp_map (h : List γ) (i : Nat) : siftUp cmp (h.map f) i = (siftUp (fun a b => cmp (f a) (f b)) h i).map f :=
  siftUpGo_map f i h i

theorem siftDown_map (h : List γ) (i : Nat) : siftDown cmp (h.map f) i = (siftDown (fun a b => cmp (f a) (f b)) h i).map f := by
  rw [siftDown, List.length_map]
  exact siftDownGo_map f h.length h i

end

/-! ## The order -/

/-- The entry at `p` is at or before the one at `c`; a missing entry is in order. -/
def Le (cmp : β → β → Ordering) (h : List β) (p c : Nat) : Prop :=
  ∀ a b, h[p]? = some a → h[c]? = some b → cmp a b ≠ .gt

/-- Every entry is at or after its parent. -/
def Ordered (cmp : β → β → Ordering) (h : List β) : Prop := ∀ c, 0 < c → Le cmp h ((c - 1) / 2) c

/-- Ordered but between `i` and its parent; the children of `i` are at or after that parent. -/
def UpOrder (cmp : β → β → Ordering) (h : List β) (i : Nat) : Prop :=
  (∀ c, 0 < c → c ≠ i → Le cmp h ((c - 1) / 2) c) ∧
    (0 < i → ∀ c, 0 < c → (c - 1) / 2 = i → Le cmp h ((i - 1) / 2) c)

/-- Ordered but between `i` and its children; they are at or after the parent of `i`. -/
def DownOrder (cmp : β → β → Ordering) (h : List β) (i : Nat) : Prop :=
  (∀ c, 0 < c → (c - 1) / 2 ≠ i → Le cmp h ((c - 1) / 2) c) ∧
    (0 < i → ∀ c, 0 < c → (c - 1) / 2 = i → Le cmp h ((i - 1) / 2) c)

theorem le_of_less {i j : Nat} (hl : lessAt cmp h i j = true) : Le cmp h i j := by
  intro a b ha hb
  simp only [lessAt, ha, hb, beq_iff_eq] at hl
  simp [hl]

/-- `Le` on an exchanged heap, read off the old one. -/
theorem le_swapAt {i j p c : Nat} (hi : i < h.length) (hj : j < h.length) (p' c' : Nat)
    (hp : p' = if p = j then i else if p = i then j else p) (hc : c' = if c = j then i else if c = i then j else c)
    (hle : Le cmp h p' c') : Le cmp (swapAt h i j) p c := by
  intro a b ha hb
  rw [getElem?_swapAt hi hj] at ha hb
  apply hle a b
  · rw [hp, ← ha]; split_ifs <;> rfl
  · rw [hc, ← hb]; split_ifs <;> rfl

theorem UpOrder.finish {i : Nat} (ho : UpOrder cmp h i) (hi : 0 < i → Le cmp h ((i - 1) / 2) i) :
    Ordered cmp h := by
  intro c hc
  by_cases he : c = i
  · subst he; exact hi hc
  · exact ho.1 c hc he

theorem DownOrder.finish {i : Nat} (ho : DownOrder cmp h i) (hl : Le cmp h i (2 * i + 1))
    (hr : Le cmp h i (2 * i + 2)) : Ordered cmp h := by
  intro c hc
  by_cases he : (c - 1) / 2 = i
  · have : c = 2 * i + 1 ∨ c = 2 * i + 2 := by omega
    rcases this with rfl | rfl
    · rw [he]; exact hl
    · rw [he]; exact hr
  · exact ho.1 c hc he

section
variable [Std.TransCmp cmp]

theorem le_refl (h : List β) (i : Nat) : Le cmp h i i := by
  intro a b ha hb
  rw [ha, Option.some.injEq] at hb
  subst hb
  have : cmp a a = .eq := Std.ReflCmp.compare_self
  simp [this]

variable {h : List β}

theorem Le.trans {i j k : Nat} (h1 : Le cmp h i j) (h2 : Le cmp h j k) (hj : j < h.length) :
    Le cmp h i k := by
  intro a c ha hc
  have hb : h[j]? = some h[j] := List.getElem?_eq_getElem hj
  exact SList.not_gt_trans (h1 a _ ha hb) (h2 _ c hb hc)

theorem le_of_not_less {i j : Nat} (hl : lessAt cmp h i j = false) : Le cmp h j i := by
  intro b a hb ha
  simp only [lessAt, ha, hb, beq_eq_false_iff_ne] at hl
  exact SList.not_gt_of_not_lt hl

theorem Ordered.root (ho : Ordered cmp h) : ∀ i, Le cmp h 0 i := by
  intro i
  induction i using Nat.strongRecOn with
  | ind i ih =>
    by_cases h0 : i = 0
    · subst h0; exact le_refl h 0
    · have hp := ih ((i - 1) / 2) (by omega)
      have hc := ho i (by omega)
      intro a b ha hb
      obtain ⟨hi, -⟩ := List.getElem?_eq_some_iff.mp hb
      exact hp.trans hc (by omega) a b ha hb

/-! ## Sifting up -/

theorem UpOrder.move {i : Nat} (ho : UpOrder cmp h i) (hi : 0 < i) (hlen : i < h.length)
    (hl : lessAt cmp h i ((i - 1) / 2) = true) : UpOrder cmp (swapAt h i ((i - 1) / 2)) ((i - 1) / 2) := by
  obtain ⟨p, hp⟩ : ∃ p, p = (i - 1) / 2 := ⟨_, rfl⟩
  rw [← hp] at hl ⊢
  have hpl : p < h.length := by omega
  have hup : ∀ c, 0 < c → (c - 1) / 2 = i → Le cmp h p c := fun c hc hci => hp ▸ ho.2 hi c hc hci
  refine ⟨fun c hc hne => ?_, fun hp0 c hc hcp => ?_⟩
  · by_cases hci : c = i
    · exact le_swapAt hlen hpl i p (by rw [if_pos (by omega)]) (by rw [if_neg (by omega), if_pos hci])
        (le_of_less hl)
    · by_cases hcp : (c - 1) / 2 = p
      · refine le_swapAt hlen hpl i c (by rw [if_pos hcp]) (by rw [if_neg hne, if_neg hci]) ?_
        exact (le_of_less hl).trans (hcp ▸ ho.1 c hc hci) hpl
      · by_cases hcc : (c - 1) / 2 = i
        · exact le_swapAt hlen hpl p c (by rw [if_neg hcp, if_pos hcc]) (by rw [if_neg hne, if_neg hci])
            (hup c hc hcc)
        · exact le_swapAt hlen hpl ((c - 1) / 2) c (by rw [if_neg hcp, if_neg hcc])
            (by rw [if_neg hne, if_neg hci]) (ho.1 c hc hci)
  · have hg : (p - 1) / 2 ≠ p ∧ (p - 1) / 2 ≠ i := by omega
    have hgp : Le cmp h ((p - 1) / 2) p := ho.1 p hp0 (by omega)
    by_cases hci : c = i
    · exact le_swapAt hlen hpl ((p - 1) / 2) p (by rw [if_neg hg.1, if_neg hg.2])
        (by rw [if_neg (by omega), if_pos hci]) hgp
    · refine le_swapAt hlen hpl ((p - 1) / 2) c (by rw [if_neg hg.1, if_neg hg.2])
        (by rw [if_neg (by omega), if_neg hci]) ?_
      exact hgp.trans (hcp ▸ ho.1 c hc hci) hpl

theorem siftUpGo_ordered (n : Nat) {i : Nat} (hn : i ≤ n) (hlen : i < h.length) (ho : UpOrder cmp h i) :
    Ordered cmp (siftUpGo cmp n h i) := by
  induction n generalizing h i with
  | zero => exact ho.finish (by omega)
  | succ n ih =>
    unfold siftUpGo
    by_cases h0 : i = 0
    · rw [if_pos h0]; exact ho.finish (by omega)
    · rw [if_neg h0]
      by_cases hl : lessAt cmp h i ((i - 1) / 2) = true
      · rw [if_neg (by simp [hl])]
        exact ih (by omega) (by rw [length_swapAt]; omega) (ho.move (by omega) hlen hl)
      · rw [if_pos (by simpa using hl)]
        exact ho.finish fun _ => le_of_not_less (by simpa using hl)

/-- A new last entry is sifted into place. -/
theorem siftUp_ordered (ho : Ordered cmp h) (b : β) : Ordered cmp (siftUp cmp (h ++ [b]) h.length) := by
  refine siftUpGo_ordered _ (Nat.le_refl _) (by simp) ⟨fun c hc hne a d ha hd => ?_, fun _ c hc hcp a d ha hd => ?_⟩
  · obtain ⟨hcl, -⟩ := List.getElem?_eq_some_iff.mp hd
    rw [List.length_append, List.length_singleton] at hcl
    rw [List.getElem?_append_left (by omega)] at ha hd
    exact ho c hc a d ha hd
  · obtain ⟨hcl, -⟩ := List.getElem?_eq_some_iff.mp hd
    rw [List.length_append, List.length_singleton] at hcl
    omega

/-! ## Sifting down -/

theorem smallest_spec {i : Nat} (hi : i < h.length) :
    smallest cmp h i < h.length ∧
      (smallest cmp h i = i ∨ smallest cmp h i = 2 * i + 1 ∨ smallest cmp h i = 2 * i + 2) ∧
      Le cmp h (smallest cmp h i) i ∧ Le cmp h (smallest cmp h i) (2 * i + 1) ∧
      Le cmp h (smallest cmp h i) (2 * i + 2) := by
  have habs : ∀ {j k : Nat}, ¬ k < h.length → Le cmp h j k := fun {j k} hk a b _ hb =>
    absurd (List.getElem?_eq_some_iff.mp hb).1 hk
  obtain ⟨s, hs⟩ : ∃ s, s = if 2 * i + 1 < h.length && lessAt cmp h (2 * i + 1) i then 2 * i + 1 else i := ⟨_, rfl⟩
  have hspec : s < h.length ∧ (s = i ∨ s = 2 * i + 1) ∧ Le cmp h s i ∧ Le cmp h s (2 * i + 1) := by
    rw [hs]
    by_cases hl : 2 * i + 1 < h.length
    · by_cases hless : lessAt cmp h (2 * i + 1) i = true
      · simp only [hl, hless, decide_true, Bool.and_self, if_true]
        exact ⟨trivial, Or.inr trivial, le_of_less hless, le_refl h _⟩
      · simp only [Bool.not_eq_true] at hless
        simp only [hl, hless, decide_true, Bool.and_false, Bool.false_eq_true, if_false]
        exact ⟨hi, Or.inl trivial, le_refl h _, le_of_not_less hless⟩
    · simp only [hl, decide_false, Bool.false_and, Bool.false_eq_true, if_false]
      exact ⟨hi, Or.inl trivial, le_refl h _, habs hl⟩
  obtain ⟨hsl, hsc, hsi, hs1⟩ := hspec
  unfold smallest
  simp only [← hs]
  by_cases hr : 2 * i + 1 + 1 < h.length
  · by_cases hless : lessAt cmp h (2 * i + 1 + 1) s = true
    · simp only [hr, hless, decide_true, Bool.and_self, if_true]
      have hle := le_of_less hless
      exact ⟨trivial, Or.inr (Or.inr trivial), hle.trans hsi hsl, hle.trans hs1 hsl, le_refl h _⟩
    · simp only [Bool.not_eq_true] at hless
      simp only [hr, hless, decide_true, Bool.and_false, Bool.false_eq_true, if_false]
      exact ⟨hsl, by omega, hsi, hs1, le_of_not_less hless⟩
  · simp only [hr, decide_false, Bool.false_and, Bool.false_eq_true, if_false]
    exact ⟨hsl, by omega, hsi, hs1, habs hr⟩

omit [Std.TransCmp cmp] in
theorem DownOrder.move {i s : Nat} (ho : DownOrder cmp h i) (hi : i < h.length) (hs : s < h.length)
    (hsc : s = 2 * i + 1 ∨ s = 2 * i + 2) (hsi : Le cmp h s i) (hl : Le cmp h s (2 * i + 1))
    (hr : Le cmp h s (2 * i + 2)) : DownOrder cmp (swapAt h i s) s := by
  refine ⟨fun c hc hne => ?_, fun hs0 c hc hcs => ?_⟩
  · by_cases hci : c = i
    · refine le_swapAt hi hs ((c - 1) / 2) s (by rw [if_neg hne, if_neg (by omega)])
        (by rw [if_neg (by omega), if_pos hci]) ?_
      subst hci
      exact ho.2 hc s (by omega) (by omega)
    · by_cases hcp : (c - 1) / 2 = i
      · by_cases hcs : c = s
        · exact le_swapAt hi hs s i (by rw [if_neg hne, if_pos hcp]) (by rw [if_pos hcs]) hsi
        · refine le_swapAt hi hs s c (by rw [if_neg hne, if_pos hcp]) (by rw [if_neg hcs, if_neg hci]) ?_
          have : c = 2 * i + 1 ∨ c = 2 * i + 2 := by omega
          rcases this with rfl | rfl
          · exact hl
          · exact hr
      · exact le_swapAt hi hs ((c - 1) / 2) c (by rw [if_neg hne, if_neg hcp])
          (by rw [if_neg (by omega), if_neg hci]) (ho.1 c hc hcp)
  · refine le_swapAt hi hs s c (by rw [if_neg (by omega), if_pos (by omega)])
      (by rw [if_neg (by omega), if_neg (by omega)]) ?_
    exact hcs ▸ ho.1 c hc (by omega)

theorem siftDownGo_ordered (n : Nat) {i : Nat} (hn : h.length ≤ n + i) (hi : i < h.length)
    (ho : DownOrder cmp h i) : Ordered cmp (siftDownGo cmp n h i) := by
  induction n generalizing h i with
  | zero => omega
  | succ n ih =>
    obtain ⟨hsl, hsc, hsi, hl, hr⟩ := @smallest_spec _ cmp _ h i hi
    unfold siftDownGo
    by_cases he : smallest cmp h i = i
    · rw [he] at hl hr
      rw [if_pos he]
      exact ho.finish hl hr
    · rw [if_neg he]
      have hsc' : smallest cmp h i = 2 * i + 1 ∨ smallest cmp h i = 2 * i + 2 := hsc.resolve_left he
      exact ih (by rw [length_swapAt]; omega) (by rw [length_swapAt]; exact hsl) (ho.move hi hsl hsc' hsi hl hr)

/-- A heap with another root is sifted back into order. -/
theorem siftDown_ordered (ho : Ordered cmp h) (b : β) (hne : 0 < h.length) :
    Ordered cmp (siftDown cmp (h.set 0 b) 0) := by
  refine siftDownGo_ordered _ (by simp) (by simpa using hne) ⟨fun c hc hne0 a d ha hd => ?_, by omega⟩
  rw [List.getElem?_set_ne (by omega)] at ha hd
  exact ho c hc a d ha hd

end

end Rindle.Heap
