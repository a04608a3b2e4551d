/-
  Rindle.Lib.Sample — a bounded sample of a set that changes.

  `Sample n l T` says that `T` lists `min n l.length` of the elements of `l`, each once. It is kept
  when an element joins `l` (and `T`, if there is room), when one leaves it (and `T`, which then
  takes any other element of `l` in its place), and when one is replaced.
-/

import Mathlib.Data.List.Nodup
import Mathlib.Data.List.Perm.Subperm

namespace Rindle

variable {α : Type} {n : Nat} {l T : List α} {a b x : α}

/-- `a` becomes `b`. -/
def swapIn [BEq α] (a b : α) (l : List α) : List α := l.map fun x => if x == a then b else x

/-- Erasing below a map that tells the element from the others. -/
theorem map_erase_on {β : Type} [BEq α] [LawfulBEq α] [BEq β] [LawfulBEq β] {f : α → β} (hf : ∀ x ∈ l, f x = f a → x = a) :
    (l.map f).erase (f a) = (l.erase a).map f := by
  induction l with
  | nil => rfl
  | cons x l ih =>
    have ih := ih fun y hy => hf y (List.mem_cons_of_mem _ hy)
    by_cases hx : x = a
    · subst hx
      simp
    · have hfx : f x ≠ f a := fun h => hx (hf x List.mem_cons_self h)
      rw [List.map_cons, List.erase_cons_tail (by simpa using hfx), List.erase_cons_tail (by simpa using hx), List.map_cons, ih]

theorem map_swapIn_on {β : Type} [BEq α] [LawfulBEq α] [BEq β] [LawfulBEq β] {f : α → β} (hf : ∀ x ∈ l, f x = f a → x = a) :
    swapIn (f a) (f b) (l.map f) = (swapIn a b l).map f := by
  simp only [swapIn, List.map_map]
  refine List.map_congr_left fun x hx => ?_
  by_cases h : x = a
  · simp [h]
  · have hfx : f x ≠ f a := fun h' => h (hf x hx h')
    simp [h, hfx]

theorem map_inj_on {β : Type} {f : α → β} : ∀ {l l' : List α}, (∀ x ∈ l, ∀ y ∈ l', f x = f y → x = y) → l.map f = l'.map f → l = l' := by
  intro l
  induction l with
  | nil =>
    intro l' _ h
    exact (List.map_eq_nil_iff.mp h.symm).symm
  | cons x l ih =>
    intro l' hf h
    cases l' with
    | nil => cases h
    | cons y l' =>
      obtain ⟨hhead, htail⟩ := List.cons.inj h
      rw [hf x List.mem_cons_self y List.mem_cons_self hhead,
        ih (fun a ha b hb => hf a (List.mem_cons_of_mem _ ha) b (List.mem_cons_of_mem _ hb)) htail]

structure Sample (n : Nat) (l T : List α) : Prop where
  nodup : T.Nodup
  subset : T ⊆ l
  count : T.length = min n l.length

namespace Sample

theorem length_le (hT : T.Nodup) (h : T ⊆ l) : T.length ≤ l.length := (List.subperm_of_subset hT h).length_le

/-- The first `n`. -/
theorem take (hl : l.Nodup) : Sample n l (l.take n) :=
  ⟨hl.sublist (List.take_sublist n l), List.take_subset n l, List.length_take⟩

theorem add_room (hs : Sample n l T) (ha : a ∉ l) (hroom : T.length < n) : Sample n (a :: l) (T ++ [a]) := by
  have hcount := hs.count
  refine ⟨?_, ?_, ?_⟩
  · rw [List.nodup_append]
    refine ⟨hs.nodup, List.nodup_singleton a, fun x hx y hy => ?_⟩
    rw [List.mem_singleton.mp hy]
    exact fun h => ha (h ▸ hs.subset hx)
  · intro x hx
    rcases List.mem_append.mp hx with hx | hx
    · exact List.mem_cons_of_mem _ (hs.subset hx)
    · exact List.mem_singleton.mp hx ▸ List.mem_cons_self
  · rw [List.length_append, List.length_singleton, List.length_cons]
    omega

theorem add_full (hs : Sample n l T) (hfull : ¬ T.length < n) : Sample n (a :: l) T := by
  have hcount := hs.count
  refine ⟨hs.nodup, fun x hx => List.mem_cons_of_mem _ (hs.subset hx), ?_⟩
  rw [List.length_cons]
  omega

variable [BEq α] [LawfulBEq α]

/-- An element outside the sample goes: then the sample is full. -/
theorem remove_out (hs : Sample n l T) (ha : a ∈ l) (hout : a ∉ T) : Sample n (l.erase a) T := by
  have hcount := hs.count
  have hsub : T ⊆ l.erase a := fun x hx => by
    have hne : x ≠ a := fun h => hout (h ▸ hx)
    exact (List.mem_erase_of_ne hne).mpr (hs.subset hx)
  have hle := length_le hs.nodup hsub
  have hlen := List.length_erase_of_mem ha
  have hpos := List.length_pos_of_mem ha
  exact ⟨hs.nodup, hsub, by omega⟩

theorem erase_subset (hs : Sample n l T) : T.erase a ⊆ l.erase a := by
  intro x hx
  obtain ⟨hne, hx⟩ := hs.nodup.mem_erase_iff.mp hx
  exact (List.mem_erase_of_ne hne).mpr (hs.subset hx)

/-- An element of the sample goes and another comes in its place. -/
theorem remove_refill (hs : Sample n l T) (hin : a ∈ T) (hx : x ∈ l.erase a) (hnew : x ∉ T.erase a) :
    Sample n (l.erase a) (T.erase a ++ [x]) := by
  have hcount := hs.count
  have hsub : T.erase a ++ [x] ⊆ l.erase a := by
    intro y hy
    rcases List.mem_append.mp hy with hy | hy
    · exact hs.erase_subset hy
    · exact List.mem_singleton.mp hy ▸ hx
  have hnodup : (T.erase a ++ [x]).Nodup := by
    rw [List.nodup_append]
    refine ⟨hs.nodup.erase a, List.nodup_singleton x, fun y hy z hz => ?_⟩
    rw [List.mem_singleton.mp hz]
    exact fun h => hnew (h ▸ hy)
  have hle := length_le hnodup hsub
  have hlen : (T.erase a ++ [x]).length = T.length := by
    have hpos := List.length_pos_of_mem hin
    rw [List.length_append, List.length_erase_of_mem hin, List.length_singleton]
    omega
  have hlen' := List.length_erase_of_mem (hs.subset hin)
  have hpos := List.length_pos_of_mem (hs.subset hin)
  exact ⟨hnodup, hsub, by omega⟩

/-- An element of the sample goes and nothing is left outside. -/
theorem remove_last (hl : l.Nodup) (hs : Sample n l T) (hin : a ∈ T) (hall : ∀ x ∈ l.erase a, x ∈ T.erase a) :
    Sample n (l.erase a) (T.erase a) := by
  have hcount := hs.count
  have hnodup := hs.nodup.erase a
  have hle := length_le hnodup (hs.erase_subset)
  have hge := length_le (hl.erase a) hall
  have hlen := List.length_erase_of_mem hin
  exact ⟨hnodup, hs.erase_subset, by omega⟩

theorem mem_swapIn (hl : l.Nodup) (ha : a ∈ l) : x ∈ swapIn a b l ↔ x = b ∨ x ∈ l.erase a := by
  simp only [swapIn, List.mem_map, hl.mem_erase_iff]
  constructor
  · rintro ⟨y, hy, rfl⟩
    by_cases h : y = a
    · simp [h]
    · simp [h, hy]
  · rintro (rfl | ⟨hne, hx⟩)
    · exact ⟨a, ha, by simp⟩
    · exact ⟨x, hx, by simp [hne]⟩

theorem swapIn_nodup (hl : l.Nodup) (hb : b ∉ l.erase a) : (swapIn a b l).Nodup := by
  refine hl.map_on fun x hx y hy h => ?_
  have hout : ∀ z ∈ l, z ≠ a → z ≠ b := fun z hz hne hzb => hb (hl.mem_erase_iff.mpr ⟨hzb ▸ hne, hzb ▸ hz⟩)
  by_cases hxa : x = a <;> by_cases hya : y = a <;> simp only [hxa, hya, beq_iff_eq, if_true, if_false] at h
  · rw [hxa, hya]
  · exact absurd h.symm (hout y hy hya)
  · exact absurd h (hout x hx hxa)
  · exact h

/-- An element of the sample is replaced. -/
theorem swap_in (hl : l.Nodup) (hs : Sample n l T) (hin : a ∈ T) (hb : b ∉ l.erase a) : Sample n (swapIn a b l) (swapIn a b T) := by
  refine ⟨swapIn_nodup hs.nodup fun h => hb (hs.erase_subset h), fun x hx => ?_, ?_⟩
  · rw [mem_swapIn hl (hs.subset hin)]
    rcases (mem_swapIn hs.nodup hin).mp hx with h | h
    · exact Or.inl h
    · exact Or.inr (hs.erase_subset h)
  · simpa [swapIn] using hs.count

/-- An element outside the sample is replaced. -/
theorem swap_out (hl : l.Nodup) (hs : Sample n l T) (ha : a ∈ l) (hout : a ∉ T) : Sample n (swapIn a b l) T := by
  refine ⟨hs.nodup, fun x hx => ?_, ?_⟩
  · rw [mem_swapIn hl ha]
    exact Or.inr (hl.mem_erase_iff.mpr ⟨fun h => hout (h ▸ hx), hs.subset hx⟩)
  · simpa [swapIn] using hs.count

end Sample

end Rindle
