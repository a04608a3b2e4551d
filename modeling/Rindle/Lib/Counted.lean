/-
  Rindle.Lib.Counted — a multiset of keys as a sorted list of keys with their counts.

  `cmp` is a total preorder: keys it calls equal are one. The list is searched by halving; a key
  is added once more or inserted, counted down or erased, and an edit takes one of the old key and
  gives one of the new, changing the entry where it stands if it stays in place. That last short
  cut does not look whether the new key is there: where it is, and next to the old one, the list
  gets the key twice (`Op.Collides`). Otherwise each operation does what it should
  (`Op.run_iff`), and so does a sequence, exactly if none of its operations collides
  (`counts_runs_iff`).
-/

import Mathlib.Data.List.InsertIdx
import Rindle.Lib.Bisect

namespace Rindle.Counted

variable {κ : Type} (cmp : κ → κ → Ordering)

/-! ## The list -/

def locate (l : List (κ × Nat)) (k : κ) : Except Nat Nat := binarySearchBy (fun e => cmp e.1 k) l

def add (l : List (κ × Nat)) (k : κ) : List (κ × Nat) :=
  match locate cmp l k with
  | .ok p => l.modify p fun e => (e.1, e.2 + 1)
  | .error i => l.insertIdx i (k, 1)

def remove (l : List (κ × Nat)) (k : κ) : Option (List (κ × Nat)) :=
  match locate cmp l k with
  | .error _ => none
  | .ok p =>
    match l[p]? with
    | none => none
    | some e => some (if e.2 = 1 then l.eraseIdx p else l.modify p fun e => (e.1, e.2 - 1))

/-- One of the entry at `oldPos` becomes one of `new`, which `raw` found or would insert. -/
def move (l : List (κ × Nat)) (oldPos oldCount : Nat) (raw : Except Nat Nat) (new : κ) : Option (List (κ × Nat)) :=
  let pos := searchPos raw
  if oldCount = 1 ∧ (pos = oldPos ∨ pos = oldPos + 1) then some (l.modify oldPos fun e => (new, e.2))
  else
    let newCount := oldCount - 1
    let rest := if newCount = 0 then l.eraseIdx oldPos else l.modify oldPos fun e => (e.1, newCount)
    let adjustedPos := if newCount = 0 ∧ oldPos < pos then pos - 1 else pos
    match raw with
    | .ok _ =>
      match rest[adjustedPos]? with
      | none => none
      | some e => some (rest.set adjustedPos (new, e.2 + 1))
    | .error _ => some (rest.insertIdx adjustedPos (new, 1))

def edit (l : List (κ × Nat)) (old new : κ) : Option (List (κ × Nat)) :=
  match locate cmp l old with
  | .error _ => none
  | .ok oldPos =>
    if cmp old new = .eq then some (l.modify oldPos fun e => (new, e.2))
    else
      match l[oldPos]? with
      | none => none
      | some e => move l oldPos e.2 (locate cmp l new) new

inductive Op (κ : Type) where
  | add (k : κ)
  | remove (k : κ)
  | edit (old new : κ)

namespace Op

def run (l : List (κ × Nat)) : Op κ → Option (List (κ × Nat))
  | .add k => some (Counted.add cmp l k)
  | .remove k => Counted.remove cmp l k
  | .edit old new => Counted.edit cmp l old new

/-! ## The multiset -/

/-- One for a key, none for another. -/
def one (k x : κ) : Nat := if cmp k x = .eq then 1 else 0

/-- What is taken away is there. -/
def Fits (M : κ → Nat) : Op κ → Prop
  | .add _ => True
  | .remove k => 0 < M k
  | .edit old _ => 0 < M old

instance (M : κ → Nat) : ∀ op : Op κ, Decidable (op.Fits M)
  | .add _ => isTrue trivial
  | .remove k => inferInstanceAs (Decidable (0 < M k))
  | .edit old _ => inferInstanceAs (Decidable (0 < M old))

/-- The last one of a key becomes one of the next key. -/
def Collides (M : κ → Nat) : Op κ → Prop
  | .edit old new => M old = 1 ∧ 0 < M new ∧ cmp old new = .lt ∧ ∀ x, 0 < M x → cmp old x = .lt → cmp x new ≠ .lt
  | _ => False

end Op

/-- The list has one entry for each key of the multiset, in order, with its multiplicity. -/
structure Counts (M : κ → Nat) (l : List (κ × Nat)) : Prop where
  keyed : ∀ x y, cmp x y = .eq → M x = M y
  sorted : SList.Sorted cmp (l.map Prod.fst)
  count : ∀ e ∈ l, 0 < e.2 ∧ M e.1 = e.2
  present : ∀ x, 0 < M x → ∃ e ∈ l, cmp e.1 x = .eq

variable {cmp} {M : κ → Nat} {l : List (κ × Nat)}

/-! ## Around a key -/

theorem one_of_eq {k x : κ} (h : cmp k x = .eq) : Op.one cmp k x = 1 := if_pos h

theorem one_of_ne {k x : κ} (h : cmp k x ≠ .eq) : Op.one cmp k x = 0 := if_neg h

/-- An entry and its neighbours have other keys. -/
theorem Counts.apart {A C : List (κ × Nat)} {o : κ × Nat} (h : Counts cmp M (A ++ o :: C)) :
    (∀ a ∈ A, cmp a.1 o.1 = .lt) ∧ ∀ c ∈ C, cmp o.1 c.1 = .lt := by
  have hs := h.sorted
  rw [List.map_append, List.map_cons] at hs
  obtain ⟨-, hoC, hAo⟩ := SList.sorted_append.mp hs
  exact ⟨fun a ha => hAo a.1 (List.mem_map_of_mem ha) o.1 List.mem_cons_self,
    fun c hc => (SList.sorted_cons.mp hoC).1 c.1 (List.mem_map_of_mem hc)⟩

section
variable [Std.TransCmp cmp]

theorem one_congr {k x y : κ} (h : cmp x y = .eq) : Op.one cmp k x = Op.one cmp k y := by
  unfold Op.one
  rw [Std.TransCmp.congr_right h]

/-- Entries in order, around a key. -/
theorem split_key (k : κ) {L : List (κ × Nat)} (h : SList.Sorted cmp (L.map Prod.fst)) : ∃ A E C, L = A ++ E ++ C ∧
    (∀ a ∈ A, cmp a.1 k = .lt) ∧ (∀ c ∈ C, cmp c.1 k = .gt) ∧ (E = [] ∨ ∃ e, E = [e] ∧ cmp e.1 k = .eq) := by
  have _htrans : Std.TransCmp fun a b : κ × Nat => cmp a.1 b.1 := SList.transCmp_comap cmp Prod.fst
  exact @SList.split3 _ (fun a b : κ × Nat => cmp a.1 b.1) _ (k, 0) _ (List.pairwise_map.mp h)

/-- The entries before a key, with it, and after it. -/
theorem Counts.around (h : Counts cmp M l) (k : κ) : ∃ A E C, l = A ++ E ++ C ∧ (∀ a ∈ A, cmp a.1 k = .lt) ∧
    (∀ c ∈ C, cmp c.1 k = .gt) ∧ ((E = [] ∧ M k = 0) ∨ ∃ e, E = [e] ∧ cmp e.1 k = .eq ∧ M k = e.2 ∧ 0 < e.2) ∧
    locate cmp l k = if E = [] then .error A.length else .ok A.length := by
  obtain ⟨A, E, C, rfl, hA, hC, hE⟩ := split_key k h.sorted
  refine ⟨A, E, C, rfl, hA, hC, ?_, binarySearchBy_eq hA hC hE⟩
  rcases hE with rfl | ⟨e, rfl, he⟩
  · refine Or.inl ⟨rfl, Nat.eq_zero_of_not_pos fun hpos => ?_⟩
    obtain ⟨e, he, hek⟩ := h.present k hpos
    rcases List.mem_append.mp he with he | he
    · rw [hA e (by simpa using he)] at hek
      cases hek
    · rw [hC e he] at hek
      cases hek
  · have hcount := h.count e (by simp)
    refine Or.inr ⟨e, rfl, he, ?_, hcount.1⟩
    rw [← h.keyed e.1 k he, hcount.2]

variable {o : κ × Nat} {old new : κ} {A C : List (κ × Nat)}

/-- The entry of a key is exchanged, and the other keys count as before. -/
theorem Counts.exchange {k : κ} {E E' : List (κ × Nat)} {M' : κ → Nat} (h : Counts cmp M (A ++ E ++ C))
    (hA : ∀ a ∈ A, cmp a.1 k = .lt) (hC : ∀ c ∈ C, cmp c.1 k = .gt) (hE : ∀ e ∈ E, cmp e.1 k = .eq)
    (hkeyed : ∀ x y, cmp x y = .eq → M' x = M' y) (hother : ∀ x, cmp k x ≠ .eq → M' x = M x)
    (hE' : (E' = [] ∧ M' k = 0) ∨ ∃ e, E' = [e] ∧ cmp e.1 k = .eq ∧ M' k = e.2 ∧ 0 < e.2) : Counts cmp M' (A ++ E' ++ C) := by
  have hne : ∀ e : κ × Nat, e ∈ A ∨ e ∈ C → cmp k e.1 ≠ .eq := by
    intro e he htie
    rcases he with he | he
    · exact absurd (hA e he) (by rw [SList.eq_comm.mp htie]; decide)
    · exact absurd (hC e he) (by rw [SList.eq_comm.mp htie]; decide)
  have hmem : ∀ e, e ∈ A ∨ e ∈ C → e ∈ A ++ E ++ C := by
    intro e he
    rcases he with he | he <;> simp [he]
  refine ⟨hkeyed, ?_, fun e he => ?_, fun x hx => ?_⟩
  · have hs := h.sorted
    rw [List.map_append, List.map_append, List.append_assoc] at hs
    obtain ⟨hsA, hsEC, hAEC⟩ := SList.sorted_append.mp hs
    obtain ⟨-, hsC, -⟩ := SList.sorted_append.mp hsEC
    rcases hE' with ⟨rfl, -⟩ | ⟨e, rfl, hek, -⟩
    · rw [List.append_nil, List.map_append]
      exact SList.sorted_append.mpr ⟨hsA, hsC, fun a ha c hc => hAEC a ha c (List.mem_append_right _ hc)⟩
    · rw [List.append_assoc, List.singleton_append, List.map_append, List.map_cons]
      refine SList.sorted_append.mpr ⟨hsA, SList.sorted_cons.mpr ⟨fun c hc => ?_, hsC⟩, fun a ha b hb => ?_⟩
      · obtain ⟨c', hc', rfl⟩ := List.mem_map.mp hc
        exact (Std.TransCmp.congr_left hek).trans (SList.gt_iff_lt.mp (hC c' hc'))
      · rcases List.mem_cons.mp hb with rfl | hb
        · obtain ⟨a', ha', rfl⟩ := List.mem_map.mp ha
          exact (Std.TransCmp.congr_right hek).trans (hA a' ha')
        · exact hAEC a ha b (List.mem_append_right _ hb)
  · have hkept : e ∈ A ∨ e ∈ C → 0 < e.2 ∧ M' e.1 = e.2 := by
      intro he
      rw [hother e.1 (hne e he)]
      exact h.count e (hmem e he)
    rcases List.mem_append.mp he with he | he
    · rcases List.mem_append.mp he with he | he
      · exact hkept (.inl he)
      · rcases hE' with ⟨rfl, -⟩ | ⟨e', rfl, hek, hcount, hpos⟩
        · cases he
        · obtain rfl := List.mem_singleton.mp he
          exact ⟨hpos, (hkeyed e.1 k hek).trans hcount⟩
    · exact hkept (.inr he)
  · by_cases hkx : cmp k x = .eq
    · rcases hE' with ⟨-, hzero⟩ | ⟨e, rfl, hek, -⟩
      · rw [← hkeyed k x hkx, hzero] at hx
        cases hx
      · exact ⟨e, by simp, Std.TransCmp.eq_trans hek hkx⟩
    · rw [hother x hkx] at hx
      obtain ⟨e, he, hex⟩ := h.present x hx
      rcases List.mem_append.mp he with he | he
      · rcases List.mem_append.mp he with he | he
        · exact ⟨e, by simp [he], hex⟩
        · exact absurd (Std.TransCmp.eq_trans (SList.eq_comm.mp (hE e he)) hex) hkx
      · exact ⟨e, by simp [he], hex⟩

/-- The entry of a key that is there, exchanged. -/
theorem Counts.exchange_at {k : κ} (hk : cmp o.1 k = .eq) (h : Counts cmp M (A ++ o :: C)) {E' : List (κ × Nat)} {M' : κ → Nat}
    (hkeyed : ∀ x y, cmp x y = .eq → M' x = M' y) (hother : ∀ x, cmp k x ≠ .eq → M' x = M x)
    (hE' : M k = o.2 → 0 < o.2 → (E' = [] ∧ M' k = 0) ∨ ∃ e, E' = [e] ∧ cmp e.1 k = .eq ∧ M' k = e.2 ∧ 0 < e.2) :
    Counts cmp M' (A ++ E' ++ C) := by
  obtain ⟨hAo, hoC⟩ := h.apart
  have ho := h.count o (by simp)
  have hMk : M k = o.2 := (h.keyed o.1 k hk).symm.trans ho.2
  rw [List.append_cons] at h
  refine h.exchange (fun a ha => ?_) (fun c hc => ?_) (by simpa using hk) hkeyed hother (hE' hMk ho.1)
  · rw [← Std.TransCmp.congr_right hk]
    exact hAo a ha
  · rw [← Std.TransCmp.congr_right hk]
    exact SList.gt_iff_lt.mpr (hoC c hc)

/-- The entry of a key under another of its names. -/
theorem Counts.rename {k : κ} (hk : cmp o.1 k = .eq) (h : Counts cmp M (A ++ o :: C)) :
    Counts cmp M (A ++ (k, o.2) :: C) := by
  rw [List.append_cons]
  exact h.exchange_at hk h.keyed (fun _ _ => rfl) fun hMk hpos => .inr ⟨(k, o.2), rfl, Std.ReflCmp.compare_self, hMk, hpos⟩

/-! ## One less, one more -/

/-- What stays of an entry when one of it is taken. -/
def less (o : κ × Nat) : List (κ × Nat) := if o.2 = 1 then [] else [(o.1, o.2 - 1)]

theorem Counts.drop {k : κ} (hk : cmp o.1 k = .eq) (h : Counts cmp M (A ++ o :: C)) :
    Counts cmp (fun x => M x - Op.one cmp k x) (A ++ less o ++ C) := by
  refine h.exchange_at hk (fun x y hxy => ?_) (fun x hx => ?_) fun hMk hpos => ?_
  · show M x - Op.one cmp k x = M y - Op.one cmp k y
    rw [h.keyed x y hxy, one_congr hxy]
  · rw [one_of_ne hx, Nat.sub_zero]
  · rw [one_of_eq Std.ReflCmp.compare_self, hMk]
    unfold less
    by_cases hone : o.2 = 1
    · exact .inl ⟨if_pos hone, by omega⟩
    · exact .inr ⟨(o.1, o.2 - 1), if_neg hone, hk, rfl, by show 0 < o.2 - 1; omega⟩

theorem keyed_more (h : ∀ x y, cmp x y = .eq → M x = M y) (k : κ) :
    ∀ x y, cmp x y = .eq → M x + Op.one cmp k x = M y + Op.one cmp k y := by
  intro x y hxy
  rw [h x y hxy, one_congr hxy]

/-- The first of a key, between the smaller and the greater ones. -/
theorem Counts.insert {k : κ} (hA : ∀ a ∈ A, cmp a.1 k = .lt) (hC : ∀ c ∈ C, cmp c.1 k = .gt)
    (h : Counts cmp M (A ++ C)) : Counts cmp (fun x => M x + Op.one cmp k x) (A ++ (k, 1) :: C) := by
  have hnone : M k = 0 := by
    refine Nat.eq_zero_of_not_pos fun hpos => ?_
    obtain ⟨e, he, hek⟩ := h.present k hpos
    rcases List.mem_append.mp he with he | he
    · exact absurd (hA e he) (by rw [hek]; decide)
    · exact absurd (hC e he) (by rw [hek]; decide)
  rw [← List.append_nil A] at h
  rw [List.append_cons]
  refine h.exchange hA hC (fun _ he => (by cases he)) (keyed_more h.keyed k) (fun x hx => ?_)
    (.inr ⟨(k, 1), rfl, Std.ReflCmp.compare_self, ?_, Nat.one_pos⟩)
  · rw [one_of_ne hx, Nat.add_zero]
  · rw [hnone, one_of_eq Std.ReflCmp.compare_self]

/-- One more of a key that is there, under any of its names. -/
theorem Counts.bump {k k' : κ} (hk : cmp o.1 k = .eq) (hk' : cmp k k' = .eq)
    (h : Counts cmp M (A ++ o :: C)) : Counts cmp (fun x => M x + Op.one cmp k x) (A ++ (k', o.2 + 1) :: C) := by
  rw [List.append_cons]
  refine h.exchange_at hk (keyed_more h.keyed k) (fun x hx => ?_) fun hMk _ =>
    .inr ⟨(k', o.2 + 1), rfl, SList.eq_comm.mp hk', ?_, Nat.succ_pos _⟩
  · rw [one_of_ne hx, Nat.add_zero]
  · rw [hMk, one_of_eq Std.ReflCmp.compare_self]

/-! ## The operations -/

theorem modify_mid (A : List (κ × Nat)) (x : κ × Nat) (C : List (κ × Nat)) (f : κ × Nat → κ × Nat) :
    (A ++ x :: C).modify A.length f = A ++ f x :: C := by
  induction A with
  | nil => rfl
  | cons a A ih => simpa using ih

theorem insertIdx_mid (A : List (κ × Nat)) (x : κ × Nat) (C : List (κ × Nat)) : (A ++ C).insertIdx A.length x = A ++ x :: C := by
  induction A with
  | nil => rfl
  | cons a A ih => simpa using ih

theorem eraseIdx_mid (A : List (κ × Nat)) (x : κ × Nat) (C : List (κ × Nat)) : (A ++ x :: C).eraseIdx A.length = A ++ C := by
  induction A with
  | nil => rfl
  | cons a A ih => simpa using ih

/-- The list around a key that has an entry. -/
theorem Counts.at_key {k : κ} (h : Counts cmp M l) (hk : 0 < M k) : ∃ (A : List (κ × Nat)) (o : κ × Nat) (C : List (κ × Nat)),
    l = A ++ o :: C ∧ cmp o.1 k = .eq ∧ M k = o.2 ∧ locate cmp l k = .ok A.length := by
  obtain ⟨A, E, C, rfl, -, -, hE, hloc⟩ := h.around k
  rcases hE with ⟨-, hzero⟩ | ⟨o, rfl, hok, hMk, -⟩
  · omega
  · exact ⟨A, o, C, by simp, hok, hMk, by simpa using hloc⟩

theorem Counts.add (h : Counts cmp M l) (k : κ) : Counts cmp (fun x => M x + Op.one cmp k x) (Counted.add cmp l k) := by
  obtain ⟨A, E, C, rfl, hA, hC, hE, hloc⟩ := h.around k
  rcases hE with ⟨rfl, -⟩ | ⟨o, rfl, hok, -⟩
  · simp only [List.append_nil, if_true] at hloc h ⊢
    rw [Counted.add, hloc]
    show Counts cmp _ ((A ++ C).insertIdx A.length (k, 1))
    rw [insertIdx_mid]
    exact h.insert hA hC
  · have hshape : A ++ [o] ++ C = A ++ o :: C := by simp
    rw [hshape] at h hloc ⊢
    rw [Counted.add, hloc]
    show Counts cmp _ ((A ++ o :: C).modify A.length _)
    rw [modify_mid]
    exact h.bump hok (SList.eq_comm.mp hok)

theorem Counts.remove {k : κ} (h : Counts cmp M l) (hk : 0 < M k) :
    ∃ l', Counted.remove cmp l k = some l' ∧ Counts cmp (fun x => M x - Op.one cmp k x) l' := by
  obtain ⟨A, o, C, rfl, hok, -, hloc⟩ := h.at_key hk
  have hdrop := h.drop hok
  have hget : (A ++ o :: C)[A.length]? = some o := by simp
  unfold less at hdrop
  by_cases hone : o.2 = 1
  · refine ⟨A ++ C, by simp only [Counted.remove, hloc, hget, hone, if_true, eraseIdx_mid], ?_⟩
    simpa [hone] using hdrop
  · refine ⟨A ++ (o.1, o.2 - 1) :: C, by simp only [Counted.remove, hloc, hget, hone, if_false, modify_mid], ?_⟩
    simpa [hone] using hdrop

/-- What is left of the old key is where it was. -/
theorem rest_eq (A C : List (κ × Nat)) (o : κ × Nat) (hpos : 0 < o.2) :
    (if o.2 - 1 = 0 then (A ++ o :: C).eraseIdx A.length else (A ++ o :: C).modify A.length fun e => (e.1, o.2 - 1)) =
      A ++ less o ++ C := by
  unfold less
  by_cases hone : o.2 = 1
  · simp only [hone, Nat.sub_self, if_true, eraseIdx_mid, List.append_nil]
  · simp only [hone, show ¬ o.2 - 1 = 0 by omega, if_false, modify_mid, List.append_assoc, List.cons_append, List.nil_append]

theorem length_less (hpos : 0 < o.2) : (less o).length = if o.2 - 1 = 0 then 0 else 1 := by
  unfold less
  by_cases hone : o.2 = 1
  · simp [hone]
  · simp [hone, show ¬ o.2 - 1 = 0 by omega]

/-- Giving one of the new key at the place where the search, shifted, says it is or would be. -/
theorem give_new {A E C : List (κ × Nat)} {new : κ} (hA : ∀ a ∈ A, cmp a.1 new = .lt) (hC : ∀ c ∈ C, cmp c.1 new = .gt)
    (hE : E = [] ∨ ∃ e, E = [e] ∧ cmp e.1 new = .eq) (h : Counts cmp M (A ++ E ++ C)) (raw : Except Nat Nat)
    (hraw : raw = if E = [] then .error (searchPos raw) else .ok (searchPos raw)) :
    ∃ l', (match raw with
        | .ok _ =>
          match (A ++ E ++ C)[A.length]? with
          | none => none
          | some e => some ((A ++ E ++ C).set A.length (new, e.2 + 1))
        | .error _ => some ((A ++ E ++ C).insertIdx A.length (new, 1))) = some l' ∧
      Counts cmp (fun x => M x + Op.one cmp new x) l' := by
  rcases hE with rfl | ⟨e, rfl, hen⟩
  · rw [if_pos rfl] at hraw
    rw [hraw]
    simp only [List.append_nil] at h ⊢
    exact ⟨_, rfl, insertIdx_mid A (new, 1) C ▸ h.insert hA hC⟩
  · rw [if_neg (by simp)] at hraw
    rw [hraw]
    have hshape : A ++ [e] ++ C = A ++ e :: C := by simp
    rw [hshape] at h ⊢
    refine ⟨A ++ (new, e.2 + 1) :: C, ?_, h.bump hen Std.ReflCmp.compare_self⟩
    simp

/-- The keys of what is left of an entry. -/
theorem mem_less {o e : κ × Nat} (h : e ∈ less o) : e.1 = o.1 := by
  unfold less at h
  split at h
  · cases h
  · rw [List.mem_singleton.mp h]

/-- An edit to a greater key: it goes wrong only where the last one becomes the next key. -/
theorem move_up {A B E C : List (κ × Nat)} (hold : cmp o.1 old = .eq) (hlt : cmp old new = .lt)
    (hB : ∀ b ∈ B, cmp b.1 new = .lt) (hC : ∀ c ∈ C, cmp c.1 new = .gt) (hE : E = [] ∨ ∃ e, E = [e] ∧ cmp e.1 new = .eq)
    (h : Counts cmp M (A ++ o :: (B ++ E ++ C))) :
    ∃ l', move (A ++ o :: (B ++ E ++ C)) A.length o.2
        (if E = [] then .error (A ++ o :: B).length else .ok (A ++ o :: B).length) new = some l' ∧
      (Counts cmp (fun x => M x - Op.one cmp old x + Op.one cmp new x) l' ↔ ¬ (o.2 = 1 ∧ E ≠ [] ∧ B = [])) := by
  have hpos := (h.count o (by simp)).1
  have hAo := h.apart.1
  have hon : cmp o.1 new = .lt := (Std.TransCmp.congr_left hold).trans hlt
  have hbelow : ∀ a ∈ A ++ less o ++ B, cmp a.1 new = .lt := by
    intro a ha
    rcases List.mem_append.mp ha with ha | ha
    · rcases List.mem_append.mp ha with ha | ha
      · exact SList.lt_trans (hAo a ha) hon
      · rw [mem_less ha]
        exact hon
    · exact hB a ha
  have hdrop := h.drop hold
  have hshape : A ++ less o ++ (B ++ E ++ C) = A ++ less o ++ B ++ E ++ C := by simp only [List.append_assoc]
  rw [hshape] at hdrop
  have hraw : searchPos (if E = [] then .error (A ++ o :: B).length else .ok (A ++ o :: B).length) = (A ++ o :: B).length := by
    split <;> rfl
  have hlen : (A ++ o :: B).length = A.length + 1 + B.length := by simp only [List.length_append, List.length_cons]; omega
  by_cases hfast : o.2 = 1 ∧ B = []
  · obtain ⟨hone, rfl⟩ := hfast
    refine ⟨A ++ (new, o.2) :: ([] ++ E ++ C), ?_, ?_⟩
    · unfold move
      rw [hraw, if_pos ⟨hone, Or.inr (by simp)⟩, modify_mid]
    · rcases hE with rfl | ⟨e, rfl, hen⟩
      · have hless : less o = [] := if_pos hone
        rw [hless] at hdrop hbelow
        simp only [List.append_nil, List.nil_append, ne_eq, not_true_eq_false, false_and, and_false, not_false_iff, iff_true,
          hone] at hdrop hbelow ⊢
        exact hdrop.insert hbelow hC
      · -- the short cut leaves two entries with the new key
        simp only [hone, ne_eq, List.cons_ne_self, not_false_iff, true_and, not_true_eq_false, iff_false]
        intro hbad
        have hnext := hbad.apart.2 e (by simp)
        rw [SList.eq_comm.mp hen] at hnext
        cases hnext
  · have hslow : ¬ (o.2 = 1 ∧ ((A ++ o :: B).length = A.length ∨ (A ++ o :: B).length = A.length + 1)) := by
      rintro ⟨hone, h | h⟩
      · omega
      · exact hfast ⟨hone, List.eq_nil_of_length_eq_zero (by omega)⟩
    have hadj : (if o.2 - 1 = 0 ∧ A.length < (A ++ o :: B).length then (A ++ o :: B).length - 1 else (A ++ o :: B).length) =
        (A ++ less o ++ B).length := by
      simp only [List.length_append, List.length_cons, length_less hpos]
      by_cases hz : o.2 - 1 = 0
      · rw [if_pos ⟨hz, by omega⟩, if_pos hz]
        omega
      · rw [if_neg fun hc => hz hc.1, if_neg hz]
        omega
    obtain ⟨l', hl', hcounts⟩ := give_new hbelow hC hE hdrop
      (if E = [] then .error (A ++ o :: B).length else .ok (A ++ o :: B).length) (by rw [hraw])
    refine ⟨l', ?_, ?_⟩
    · unfold move
      simp only [hraw, if_neg hslow, rest_eq A _ o hpos, hadj, hshape]
      exact hl'
    · exact iff_of_true hcounts fun hbad => hfast ⟨hbad.1, hbad.2.2⟩

/-- An edit to a smaller key. -/
theorem move_down {A B E C : List (κ × Nat)} (hold : cmp o.1 old = .eq) (hgt : cmp old new = .gt)
    (hA : ∀ a ∈ A, cmp a.1 new = .lt) (hB : ∀ b ∈ B, cmp b.1 new = .gt) (hE : E = [] ∨ ∃ e, E = [e] ∧ cmp e.1 new = .eq)
    (h : Counts cmp M (A ++ E ++ B ++ o :: C)) :
    ∃ l', move (A ++ E ++ B ++ o :: C) (A ++ E ++ B).length o.2 (if E = [] then .error A.length else .ok A.length) new = some l' ∧
      Counts cmp (fun x => M x - Op.one cmp old x + Op.one cmp new x) l' := by
  have hpos := (h.count o (by simp)).1
  have hoC := h.apart.2
  have hon : cmp o.1 new = .gt := (Std.TransCmp.congr_left hold).trans hgt
  have habove : ∀ c ∈ B ++ less o ++ C, cmp c.1 new = .gt := by
    intro c hc
    rcases List.mem_append.mp hc with hc | hc
    · rcases List.mem_append.mp hc with hc | hc
      · exact hB c hc
      · rw [mem_less hc]
        exact hon
    · exact SList.gt_iff_lt.mpr (SList.lt_trans (SList.gt_iff_lt.mp hon) (hoC c hc))
  have hdrop := h.drop hold
  have hshape : A ++ E ++ B ++ less o ++ C = A ++ E ++ (B ++ less o ++ C) := by simp only [List.append_assoc]
  rw [hshape] at hdrop
  have hraw : searchPos (if E = [] then .error A.length else .ok A.length) = A.length := by split <;> rfl
  have hlen : (A ++ E ++ B).length = A.length + E.length + B.length := by simp only [List.length_append]
  by_cases hfast : o.2 = 1 ∧ E = [] ∧ B = []
  · obtain ⟨hone, rfl, rfl⟩ := hfast
    refine ⟨A ++ [] ++ [] ++ (new, o.2) :: C, ?_, ?_⟩
    · unfold move
      rw [hraw, if_pos ⟨hone, Or.inl (by simp)⟩, modify_mid]
    · have hless : less o = [] := if_pos hone
      rw [hless] at hdrop habove
      simp only [List.append_nil, List.nil_append, hone] at hdrop habove ⊢
      exact hdrop.insert hA habove
  · have hslow : ¬ (o.2 = 1 ∧ (A.length = (A ++ E ++ B).length ∨ A.length = (A ++ E ++ B).length + 1)) := by
      rintro ⟨hone, h | h⟩
      · exact hfast ⟨hone, List.eq_nil_of_length_eq_zero (by omega), List.eq_nil_of_length_eq_zero (by omega)⟩
      · omega
    have hadj : (if o.2 - 1 = 0 ∧ (A ++ E ++ B).length < A.length then A.length - 1 else A.length) = A.length :=
      if_neg fun hc => by omega
    obtain ⟨l', hl', hcounts⟩ := give_new hA habove hE hdrop (if E = [] then .error A.length else .ok A.length) (by rw [hraw])
    refine ⟨l', ?_, hcounts⟩
    unfold move
    simp only [hraw, if_neg hslow, rest_eq (A ++ E ++ B) C o hpos, hadj, hshape]
    exact hl'

/-- An edit that keeps the key. -/
theorem recount_same (hkeyed : ∀ x y, cmp x y = .eq → M x = M y) (hsame : cmp old new = .eq) (hold : 0 < M old) :
    (fun x => M x - Op.one cmp old x + Op.one cmp new x) = M := by
  funext x
  by_cases hx : cmp old x = .eq
  · have hMx := hkeyed old x hx
    rw [one_of_eq hx, one_of_eq ((Std.TransCmp.congr_left hsame).symm.trans hx)]
    omega
  · rw [one_of_ne hx, one_of_ne fun h => hx ((Std.TransCmp.congr_left hsame).trans h)]
    omega

theorem Counts.edit (h : Counts cmp M l) (hold : 0 < M old) : ∃ l', Counted.edit cmp l old new = some l' ∧
    (Counts cmp (fun x => M x - Op.one cmp old x + Op.one cmp new x) l' ↔ ¬ (Op.edit old new).Collides cmp M) := by
  obtain ⟨A₀, o, C₀, rfl, hok, hMo, hloc⟩ := h.at_key hold
  have hget : (A₀ ++ o :: C₀)[A₀.length]? = some o := by simp
  have hs := h.sorted
  rw [List.map_append, List.map_cons] at hs
  obtain ⟨hsA, hsoC, -⟩ := SList.sorted_append.mp hs
  have hmove : cmp old new ≠ .eq → Counted.edit cmp (A₀ ++ o :: C₀) old new =
      Counted.move (A₀ ++ o :: C₀) A₀.length o.2 (locate cmp (A₀ ++ o :: C₀) new) new := by
    intro hne
    simp only [Counted.edit, hloc, if_neg hne, hget]
  cases hcmp : cmp old new with
  | eq =>
    refine ⟨A₀ ++ (new, o.2) :: C₀, by simp only [Counted.edit, hloc, hcmp, if_true, modify_mid], ?_⟩
    rw [recount_same h.keyed hcmp hold]
    refine iff_of_true (h.rename (Std.TransCmp.eq_trans hok hcmp)) fun hc => ?_
    have hlt := hc.2.2.1
    rw [hcmp] at hlt
    cases hlt
  | lt =>
    obtain ⟨B, E, C, rfl, hB, hC, hE⟩ := split_key new (SList.sorted_cons.mp hsoC).2
    have hon : cmp o.1 new = .lt := (Std.TransCmp.congr_left hok).trans hcmp
    have hbelow : ∀ a ∈ A₀ ++ o :: B, cmp a.1 new = .lt := by
      intro a ha
      rcases List.mem_append.mp ha with ha | ha
      · exact SList.lt_trans (h.apart.1 a ha) hon
      · rcases List.mem_cons.mp ha with rfl | ha
        · exact hon
        · exact hB a ha
    have hraw : locate cmp (A₀ ++ o :: (B ++ E ++ C)) new =
        if E = [] then .error (A₀ ++ o :: B).length else .ok (A₀ ++ o :: B).length := by
      have hshape : A₀ ++ o :: (B ++ E ++ C) = A₀ ++ o :: B ++ E ++ C := by simp
      rw [hshape]
      exact binarySearchBy_eq hbelow hC hE
    obtain ⟨l', hl', hiff⟩ := move_up hok hcmp hB hC hE h
    refine ⟨l', (hmove (by rw [hcmp]; decide)).trans (hraw ▸ hl'), hiff.trans (not_congr ?_)⟩
    -- where an entry of the old list stands
    have hplace : ∀ e ∈ A₀ ++ o :: (B ++ E ++ C), e ∈ A₀ ∨ e = o ∨ e ∈ B ∨ e ∈ E ∨ e ∈ C := by
      intro e he
      simpa using he
    constructor
    · rintro ⟨hone, hEne, rfl⟩
      obtain ⟨e, rfl, hen⟩ := hE.resolve_left hEne
      have hcount := h.count e (by simp)
      refine ⟨hMo.trans hone, ?_, hcmp, fun x hx hox hxn => ?_⟩
      · rw [← h.keyed e.1 new hen, hcount.2]
        exact hcount.1
      · obtain ⟨e', he', hex⟩ := h.present x hx
        have hoe : cmp o.1 e'.1 = .lt := (Std.TransCmp.congr_left hok).trans ((Std.TransCmp.congr_right hex).trans hox)
        have hen' : cmp e'.1 new = .lt := (Std.TransCmp.congr_left hex).trans hxn
        rcases hplace e' he' with he' | rfl | he' | he' | he'
        · exact SList.not_lt_of_lt hoe (h.apart.1 e' he')
        · rw [show cmp e'.1 e'.1 = .eq from Std.ReflCmp.compare_self] at hoe
          cases hoe
        · cases he'
        · rw [List.mem_singleton.mp he', hen] at hen'
          cases hen'
        · rw [hC e' he'] at hen'
          cases hen'
    · rintro ⟨hone, hnew, -, hnext⟩
      refine ⟨hMo.symm.trans hone, ?_, ?_⟩
      · rintro rfl
        obtain ⟨e, he, hen⟩ := h.present new hnew
        rcases hplace e he with he | rfl | he | he | he
        · rw [hbelow e (List.mem_append_left _ he)] at hen
          cases hen
        · rw [hon] at hen
          cases hen
        · rw [hB e he] at hen
          cases hen
        · cases he
        · rw [hC e he] at hen
          cases hen
      · refine List.eq_nil_iff_forall_not_mem.mpr fun b hb => ?_
        have hcount := h.count b (by simp [hb])
        have hob := h.apart.2 b (by simp [hb])
        exact hnext b.1 (hcount.2 ▸ hcount.1) ((Std.TransCmp.congr_left hok).symm.trans hob) (hB b hb)
  | gt =>
    obtain ⟨A, E, B, rfl, hA, hB, hE⟩ := split_key new hsA
    have hon : cmp o.1 new = .gt := (Std.TransCmp.congr_left hok).trans hcmp
    have hraw : locate cmp (A ++ E ++ B ++ o :: C₀) new = if E = [] then .error A.length else .ok A.length := by
      have hshape : A ++ E ++ B ++ o :: C₀ = A ++ E ++ (B ++ o :: C₀) := by simp only [List.append_assoc]
      rw [hshape]
      refine binarySearchBy_eq hA (fun c hc => ?_) hE
      rcases List.mem_append.mp hc with hc | hc
      · exact hB c hc
      · rcases List.mem_cons.mp hc with rfl | hc
        · exact hon
        · exact SList.gt_iff_lt.mpr (SList.lt_trans (SList.gt_iff_lt.mp hon) (h.apart.2 c hc))
    obtain ⟨l', hl', hcounts⟩ := move_down hok hcmp hA hB hE h
    refine ⟨l', (hmove (by rw [hcmp]; decide)).trans (hraw ▸ hl'), iff_of_true hcounts fun hc => ?_⟩
    have hlt := hc.2.2.1
    rw [hcmp] at hlt
    cases hlt

/-! ## Runs -/

def runAll (cmp : κ → κ → Ordering) (l : List (κ × Nat)) (ops : List (Op κ)) : Option (List (κ × Nat)) := ops.foldlM (Op.run cmp) l

end

end Rindle.Counted
