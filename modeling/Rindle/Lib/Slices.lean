/-
  Rindle.Lib.Slices — a list cut in consecutive pieces.

  A `Slice` says where it starts, where it stops and what it carries. `Tiles whole i ps j`
  says that `ps` are the pieces of `whole` from `i` to `j`, each starting where the one
  before it stops and each carrying exactly its span: no gap, no overlap. Tilings compose
  (`Tiles.append`), split (`Tiles.split`), survive the list's growth (`Tiles.grow`) and
  spell the span they cover (`Tiles.texts`).
-/

import Mathlib.Data.List.Basic

namespace Rindle.Slices

variable {α : Type}

/-- The entries of `whole` from `i` up to `j`. -/
def slice (whole : List α) (i j : Nat) : List α :=
  (whole.drop i).take (j - i)

theorem length_slice (whole : List α) {i j : Nat} (h : j ≤ whole.length) :
    (slice whole i j).length = j - i := by
  simp only [slice, List.length_take, List.length_drop]
  omega

theorem slice_to_end (whole : List α) (i : Nat) : slice whole i whole.length = whole.drop i := by
  rw [slice]
  exact List.take_of_length_le (by simp)

theorem slice_self (whole : List α) (i : Nat) : slice whole i i = [] := by
  simp [slice]

theorem slice_grow {whole whole' : List α} (hg : whole <+: whole') {i j : Nat} (h : j ≤ whole.length) :
    slice whole' i j = slice whole i j := by
  obtain ⟨more, rfl⟩ := hg
  rw [slice, slice, List.drop_append, List.take_append_of_le_length]
  simp only [List.length_drop]
  omega

theorem take_append_slice (whole : List α) {i j : Nat} (h : i ≤ j) :
    whole.take i ++ slice whole i j = whole.take j := by
  have hj : j = i + (j - i) := by omega
  rw [slice]
  conv => rhs; rw [hj]
  exact (List.take_add (i := i)).symm

theorem slice_append_slice (whole : List α) {i j k : Nat} (hij : i ≤ j) (hjk : j ≤ k) :
    slice whole i j ++ slice whole j k = slice whole i k := by
  have htake : whole.take i ++ (slice whole i j ++ slice whole j k) = whole.take i ++ slice whole i k := by
    rw [← List.append_assoc, take_append_slice whole hij, take_append_slice whole hjk,
      take_append_slice whole (Nat.le_trans hij hjk)]
  exact List.append_cancel_left htake

/-! ## Pieces -/

structure Slice (α : Type) where
  start : Nat
  stop : Nat
  text : List α

def Tiles (whole : List α) : Nat → List (Slice α) → Nat → Prop
  | i, [], j => i = j ∧ i ≤ whole.length
  | i, p :: ps, j =>
    p.start = i ∧ i < p.stop ∧ p.stop ≤ whole.length ∧ p.text = slice whole i p.stop ∧ Tiles whole p.stop ps j

variable {whole : List α} {ps : List (Slice α)}

theorem Tiles.none {i : Nat} (h : i ≤ whole.length) : Tiles whole i [] i :=
  ⟨rfl, h⟩

theorem Tiles.one {i j : Nat} (hij : i < j) (hj : j ≤ whole.length) :
    Tiles whole i [⟨i, j, slice whole i j⟩] j :=
  ⟨rfl, hij, hj, rfl, rfl, hj⟩

theorem Tiles.bounds {i j : Nat} (h : Tiles whole i ps j) :
    i ≤ j ∧ j ≤ whole.length := by
  induction ps generalizing i with
  | nil =>
    obtain ⟨rfl, hi⟩ := h
    exact ⟨Nat.le_refl i, hi⟩
  | cons p ps ih =>
    obtain ⟨-, hlt, -, -, hrest⟩ := h
    have := ih hrest
    omega

theorem Tiles.append {ps qs : List (Slice α)} {i j k : Nat} (hp : Tiles whole i ps j)
    (hq : Tiles whole j qs k) : Tiles whole i (ps ++ qs) k := by
  induction ps generalizing i with
  | nil =>
    obtain ⟨rfl, -⟩ := hp
    exact hq
  | cons p ps ih =>
    obtain ⟨hs, hlt, hle, ht, hrest⟩ := hp
    exact ⟨hs, hlt, hle, ht, ih hrest⟩

theorem Tiles.split {ps qs : List (Slice α)} {i k : Nat} (h : Tiles whole i (ps ++ qs) k) :
    ∃ j, Tiles whole i ps j ∧ Tiles whole j qs k := by
  induction ps generalizing i with
  | nil =>
    refine ⟨i, Tiles.none ?_, h⟩
    have := h.bounds
    omega
  | cons p ps ih =>
    obtain ⟨hs, hlt, hle, ht, hrest⟩ := h
    obtain ⟨j, hp, hq⟩ := ih hrest
    exact ⟨j, ⟨hs, hlt, hle, ht, hp⟩, hq⟩

theorem Tiles.grow {whole whole' : List α} (hg : whole <+: whole') {i j : Nat}
    (h : Tiles whole i ps j) : Tiles whole' i ps j := by
  have hlen := hg.length_le
  induction ps generalizing i with
  | nil =>
    obtain ⟨rfl, hi⟩ := h
    exact Tiles.none (by omega)
  | cons p ps ih =>
    obtain ⟨hs, hlt, hle, ht, hrest⟩ := h
    refine ⟨hs, hlt, by omega, ?_, ih hrest⟩
    rw [slice_grow hg hle, ht]

/-- The pieces spell the span they cover. -/
theorem Tiles.texts {i j : Nat} (h : Tiles whole i ps j) :
    ps.flatMap (·.text) = slice whole i j := by
  induction ps generalizing i with
  | nil =>
    obtain ⟨rfl, -⟩ := h
    simp [slice_self]
  | cons p ps ih =>
    obtain ⟨-, hlt, hle, ht, hrest⟩ := h
    have hb := hrest.bounds
    rw [List.flatMap_cons, ih hrest, ht, slice_append_slice whole (by omega) hb.1]

/-- The text before the first piece and the pieces spell the text up to the last. -/
theorem Tiles.spells {i j : Nat} (h : Tiles whole i ps j) :
    whole.take i ++ ps.flatMap (·.text) = whole.take j := by
  rw [h.texts, take_append_slice whole h.bounds.1]

end Rindle.Slices
