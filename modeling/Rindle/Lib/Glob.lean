/-
  Rindle.Lib.Glob — patterns of fixed runs and wildcards, as languages.

  A piece of a pattern is a run of characters, each tested on its own (`seg`), or any text at all
  (`any`); a pattern is the concatenation of its pieces (`lang`). Two readings of one pattern
  that cut its runs differently, or write a wildcard twice, denote one language.

  A matcher that walks a pattern tries a run where it stands (`mem_seg_mul`) and a wildcard
  everywhere further on (`mem_any_mul`). It may forget the previous wildcard when it meets the
  next one: what the previous one could still reach, the next one reaches too (`forget`).
-/

import Mathlib.Computability.Language

namespace Rindle.Glob

variable {α : Type}

inductive Piece (α : Type) where
  | seg (tests : List (α → Bool))
  | any

/-- The runs a list of tests accepts. -/
def Accepts (tests : List (α → Bool)) (run : List α) : Prop := List.Forall₂ (fun test a => test a = true) tests run

namespace Piece

def lang : Piece α → Language α
  | .seg tests => {run | Accepts tests run}
  | .any => {_run | True}

end Piece

/-- The texts of a pattern. -/
def lang (pieces : List (Piece α)) : Language α := (pieces.map Piece.lang).prod

@[simp] theorem lang_nil : lang ([] : List (Piece α)) = 1 := rfl

@[simp] theorem lang_cons (p : Piece α) (pieces : List (Piece α)) : lang (p :: pieces) = p.lang * lang pieces := List.prod_cons

theorem lang_append (a b : List (Piece α)) : lang (a ++ b) = lang a * lang b := by
  rw [lang, List.map_append, List.prod_append]
  rfl

theorem seg_nil : (Piece.seg ([] : List (α → Bool))).lang = 1 := by
  ext run
  show Accepts [] run ↔ run ∈ (1 : Language α)
  rw [Language.mem_one, Accepts, List.forall₂_nil_left_iff]

theorem seg_append (a b : List (α → Bool)) : (Piece.seg (a ++ b)).lang = (Piece.seg a).lang * (Piece.seg b).lang := by
  ext run
  rw [Language.mem_mul]
  constructor
  · intro h
    have htake := List.forall₂_take a.length h
    have hdrop := List.forall₂_drop a.length h
    rw [List.take_left] at htake
    rw [List.drop_left] at hdrop
    exact ⟨_, htake, _, hdrop, List.take_append_drop a.length run⟩
  · intro h
    obtain ⟨x, hx, y, hy, rfl⟩ := h
    exact List.rel_append hx hy

theorem any_mul_any : (Piece.any : Piece α).lang * Piece.any.lang = Piece.any.lang := by
  ext run
  rw [Language.mem_mul]
  constructor
  · intro _
    exact trivial
  · intro _
    exact ⟨[], trivial, run, trivial, rfl⟩

/-! ## Walking a text -/

theorem mem_seg_mul {tests : List (α → Bool)} {L : Language α} {text : List α} :
    text ∈ (Piece.seg tests).lang * L ↔ Accepts tests (text.take tests.length) ∧ text.drop tests.length ∈ L := by
  rw [Language.mem_mul]
  constructor
  · intro h
    obtain ⟨x, hx, y, hy, rfl⟩ := h
    have hlen : tests.length = x.length := List.Forall₂.length_eq hx
    rw [hlen, List.take_left, List.drop_left]
    exact ⟨hx, hy⟩
  · intro h
    exact ⟨_, h.1, _, h.2, List.take_append_drop _ _⟩

theorem mem_any_mul {L : Language α} {text : List α} :
    text ∈ Piece.any.lang * L ↔ ∃ k, k ≤ text.length ∧ text.drop k ∈ L := by
  rw [Language.mem_mul]
  constructor
  · intro h
    obtain ⟨x, -, y, hy, rfl⟩ := h
    exact ⟨x.length, by simp, by rwa [List.drop_left]⟩
  · intro h
    obtain ⟨k, -, hk⟩ := h
    exact ⟨_, trivial, _, hk, List.take_append_drop k text⟩

/-- The width of a pattern without wildcards. -/
def width : List (Piece α) → Option Nat
  | [] => some 0
  | .seg tests :: pieces => (width pieces).map (tests.length + ·)
  | .any :: _ => none

theorem width_append_seg {pieces : List (Piece α)} {tests : List (α → Bool)} {w : Nat} (h : width pieces = some w) :
    width (pieces ++ [Piece.seg tests]) = some (w + tests.length) := by
  induction pieces generalizing w with
  | nil =>
    rw [width, Option.some.injEq] at h
    subst h
    simp [width]
  | cons p pieces ih =>
    cases p with
    | any => cases h
    | seg front =>
      obtain ⟨w', hw', rfl⟩ := Option.map_eq_some_iff.mp h
      rw [List.cons_append, width, ih hw', Option.map_some, Nat.add_assoc]

/-- Pieces without wildcards take up their width. -/
theorem drop_width {fixed rest : List (Piece α)} {w : Nat} (hw : width fixed = some w) {text : List α}
    (h : text ∈ lang (fixed ++ rest)) : w ≤ text.length ∧ text.drop w ∈ lang rest := by
  induction fixed generalizing w text with
  | nil =>
    rw [width, Option.some.injEq] at hw
    subst hw
    exact ⟨Nat.zero_le _, h⟩
  | cons p fixed ih =>
    cases p with
    | any => cases hw
    | seg tests =>
      obtain ⟨w', hw', rfl⟩ := Option.map_eq_some_iff.mp hw
      rw [List.cons_append, lang_cons, mem_seg_mul] at h
      obtain ⟨hacc, hrest⟩ := h
      have hlen : tests.length = (text.take tests.length).length := List.Forall₂.length_eq hacc
      obtain ⟨hle, hdrop⟩ := ih hw' hrest
      rw [List.length_take] at hlen
      rw [List.length_drop] at hle
      rw [List.drop_drop] at hdrop
      exact ⟨by omega, hdrop⟩

/-- At a wildcard the earlier restart points are of no more use: whatever matches from one of them
    matches from here. -/
theorem forget {fixed rest : List (Piece α)} {w : Nat} (hw : width fixed = some w) {text : List α} {k here : Nat}
    (hhere : here ≤ k + w) (h : text.drop k ∈ lang (fixed ++ Piece.any :: rest)) : text.drop here ∈ lang (.any :: rest) := by
  obtain ⟨-, hdrop⟩ := drop_width hw h
  rw [List.drop_drop, lang_cons, mem_any_mul] at hdrop
  obtain ⟨j, hj, hmem⟩ := hdrop
  rw [lang_cons, mem_any_mul]
  by_cases hlen : here ≤ text.length
  · refine ⟨min (k + w - here + j) (text.length - here), by rw [List.length_drop]; omega, ?_⟩
    rw [List.drop_drop] at hmem ⊢
    by_cases hin : k + w + j ≤ text.length
    · have : here + min (k + w - here + j) (text.length - here) = k + w + j := by omega
      rwa [this]
    · rw [List.drop_eq_nil_of_le (by omega)] at hmem
      rwa [List.drop_eq_nil_of_le (by omega)]
  · refine ⟨0, Nat.zero_le _, ?_⟩
    rw [List.drop_drop] at hmem ⊢
    rw [List.drop_eq_nil_of_le (by omega)] at hmem
    rwa [List.drop_eq_nil_of_le (by omega)]

/-! ## Folding characters -/

section
variable {β : Type}

def Piece.comap (f : α → β) : Piece β → Piece α
  | .seg tests => .seg (tests.map (· ∘ f))
  | .any => .any

/-- To test folded characters is to match the folded text. -/
theorem mem_lang_comap {f : α → β} {pieces : List (Piece β)} {text : List α} :
    text ∈ lang (pieces.map (Piece.comap f)) ↔ text.map f ∈ lang pieces := by
  induction pieces generalizing text with
  | nil => simp [Language.mem_one]
  | cons p pieces ih =>
    cases p with
    | seg tests =>
      rw [List.map_cons, Piece.comap, lang_cons, lang_cons, mem_seg_mul, mem_seg_mul, List.length_map, ih, ← List.map_take,
        ← List.map_drop]
      have hacc : Accepts (tests.map (· ∘ f)) (text.take tests.length) ↔ Accepts tests ((text.take tests.length).map f) := by
        rw [Accepts, Accepts, List.forall₂_map_left_iff, List.forall₂_map_right_iff]
        rfl
      rw [hacc]
    | any =>
      rw [List.map_cons, Piece.comap, lang_cons, lang_cons, mem_any_mul, mem_any_mul, List.length_map]
      simp only [ih, List.map_drop]

end

/-- ASCII lower case. -/
def asciiLower (c : UInt8) : UInt8 := if 65 ≤ c ∧ c ≤ 90 then c + 32 else c

/-- Lower case makes no character that was not there, outside the letters. -/
theorem asciiLower_eq_iff {c d : UInt8} (hlow : d < 97) (hnot : ¬ (65 ≤ d ∧ d ≤ 90)) : asciiLower c = d ↔ c = d := by
  unfold asciiLower
  split
  · rename_i h
    constructor
    · intro heq
      have hnat : (c.toNat + 32) % 256 = d.toNat := congrArg UInt8.toNat heq
      rw [UInt8.le_iff_toNat_le, UInt8.le_iff_toNat_le] at h
      rw [UInt8.lt_iff_toNat_lt] at hlow
      simp only [UInt8.reduceToNat] at h hlow
      omega
    · intro heq
      exact absurd (heq ▸ h) hnot
  · rfl

end Rindle.Glob
