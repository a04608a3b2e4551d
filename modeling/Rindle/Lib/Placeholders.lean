/-
  Rindle.Lib.Placeholders — texts with placeholders, and what they become when each placeholder,
  from the left, is replaced by the next of a list of texts.

  A placeholder is a mark outside quotes. What a quote opens ends at the next mark of its kind,
  so a mark that is doubled inside closes and opens again. `Fills t xs t'` is a text that ends
  outside quotes, has as many placeholders as there are replacements, and becomes `t'`; it goes
  through concatenation (`Fills.append`), and what has no mark in it, or is quoted, is filled by
  nothing (`still_of_plain`, `still_quoted`).
-/

import Mathlib.Data.List.Basic

namespace Rindle

/-- The marks that quote, and the one that is a placeholder. -/
structure Lexicon (α : Type) where
  quotes : List α
  hole : α
  hole_unquoted : hole ∉ quotes

namespace Lexicon

variable {α : Type} [DecidableEq α] (L : Lexicon α)

/-! ## Scanning -/

/-- The quote that is open after a character; `none` is outside quotes. -/
def next : Option α → α → Option α
  | none, c => if c ∈ L.quotes then some c else none
  | some q, c => if c = q then none else some q

def after (m : Option α) (t : List α) : Option α := t.foldl L.next m

/-- How many placeholders a text has. -/
def holes : Option α → List α → Nat
  | _, [] => 0
  | m, c :: t => (if m = none ∧ c = L.hole then 1 else 0) + holes (L.next m c) t

/-- The text with its placeholders replaced, from the left. -/
def fill : Option α → List α → List (List α) → List α
  | _, [], _ => []
  | m, c :: t, xs =>
    if m = none ∧ c = L.hole then
      match xs with
      | [] => c :: fill (L.next m c) t []
      | x :: xs => x ++ fill (L.next m c) t xs
    else c :: fill (L.next m c) t xs

/-- In quotes, with the quote doubled. -/
def quoted (q : α) (s : List α) : List α :=
  q :: (s.flatMap (fun c => if c = q then [q, q] else [c]) ++ [q])

variable {L}

theorem after_append (m : Option α) (t u : List α) : L.after m (t ++ u) = L.after (L.after m t) u :=
  List.foldl_append ..

theorem holes_append (m : Option α) (t u : List α) : L.holes m (t ++ u) = L.holes m t + L.holes (L.after m t) u := by
  induction t generalizing m with
  | nil => simp [holes, after]
  | cons c t ih =>
    simp only [List.cons_append, holes, ih (L.next m c), after, List.foldl_cons]
    omega

/-- The placeholders of the first part take the first replacements. -/
theorem fill_append {m : Option α} {t : List α} {xs : List (List α)} (h : L.holes m t = xs.length) (u : List α) (ys : List (List α)) :
    L.fill m (t ++ u) (xs ++ ys) = L.fill m t xs ++ L.fill (L.after m t) u ys := by
  induction t generalizing m xs with
  | nil =>
    have hxs : xs = [] := List.length_eq_zero_iff.mp h.symm
    subst hxs
    rfl
  | cons c t ih =>
    simp only [holes] at h
    simp only [List.cons_append, fill, after, List.foldl_cons]
    by_cases hc : m = none ∧ c = L.hole
    · simp only [hc, and_self, if_true] at h ⊢
      cases xs with
      | nil =>
        simp only [List.length_nil] at h
        omega
      | cons x xs =>
        simp only [List.length_cons] at h
        simp only [List.cons_append]
        rw [ih (by omega), List.append_assoc]
        rfl
    · simp only [hc, if_false] at h ⊢
      rw [ih (by omega)]
      rfl

/-! ## Texts that are filled -/

variable (L) in
structure Fills (t : List α) (xs : List (List α)) (t' : List α) : Prop where
  closed : L.after none t = none
  holes : L.holes none t = xs.length
  fill : L.fill none t xs = t'

variable (L) in
/-- Nothing to fill. -/
abbrev Still (t : List α) : Prop := L.Fills t [] t

theorem Fills.append {t u t' u' : List α} {xs ys : List (List α)} (h : L.Fills t xs t') (hu : L.Fills u ys u') :
    L.Fills (t ++ u) (xs ++ ys) (t' ++ u') := by
  refine ⟨?_, ?_, ?_⟩
  · rw [after_append, h.closed, hu.closed]
  · rw [holes_append, h.closed, h.holes, hu.holes, List.length_append]
  · rw [fill_append h.holes, h.closed, h.fill, hu.fill]

theorem still_nil : L.Still [] := ⟨rfl, rfl, rfl⟩

/-- A placeholder alone. -/
theorem fills_hole (x : List α) : L.Fills [L.hole] [x] x := by
  have hnext : L.next none L.hole = none := if_neg L.hole_unquoted
  refine ⟨hnext, ?_, ?_⟩
  · simp [Lexicon.holes]
  · simp [Lexicon.fill]

variable (L) in
/-- No character of the text is a mark. -/
def Plain (t : List α) : Prop := ∀ c ∈ t, c ∉ L.quotes ∧ c ≠ L.hole

instance (t : List α) : Decidable (L.Plain t) := inferInstanceAs (Decidable (∀ c ∈ t, c ∉ L.quotes ∧ c ≠ L.hole))

theorem still_of_plain {t : List α} (h : L.Plain t) : L.Still t := by
  induction t with
  | nil => exact still_nil
  | cons c t ih =>
    obtain ⟨hquote, hhole⟩ := h c (List.mem_cons_self ..)
    obtain ⟨hclosed, hholes, hfill⟩ := ih fun d hd => h d (List.mem_cons_of_mem _ hd)
    have hnext : L.next none c = none := if_neg hquote
    refine ⟨?_, ?_, ?_⟩
    · rw [after, List.foldl_cons, hnext]
      exact hclosed
    · simp [Lexicon.holes, hhole, hnext, hholes]
    · simp [Lexicon.fill, hhole, hnext, hfill]

/-- Inside quotes, up to the mark that closes them: the doubled quote goes out and in again. -/
theorem body_quoted {q : α} (hq : q ∈ L.quotes) (s : List α) :
    L.after (some q) (s.flatMap (fun c => if c = q then [q, q] else [c])) = some q ∧
      L.holes (some q) (s.flatMap (fun c => if c = q then [q, q] else [c])) = 0 ∧
      L.fill (some q) (s.flatMap (fun c => if c = q then [q, q] else [c])) [] = s.flatMap (fun c => if c = q then [q, q] else [c]) := by
  induction s with
  | nil => exact ⟨rfl, rfl, rfl⟩
  | cons c s ih =>
    obtain ⟨hafter, hholes, hfill⟩ := ih
    have hhole : ¬q = L.hole := fun h => L.hole_unquoted (h ▸ hq)
    rw [List.flatMap_cons]
    by_cases hc : c = q
    · subst hc
      have hout : L.next (some c) c = none := if_pos rfl
      have hin : L.next none c = some c := if_pos hq
      simp only [if_true, List.cons_append, List.nil_append]
      refine ⟨?_, ?_, ?_⟩
      · rw [after, List.foldl_cons, List.foldl_cons, hout, hin]
        exact hafter
      · simp [Lexicon.holes, hout, hin, hhole, hholes]
      · simp [Lexicon.fill, hout, hin, hhole, hfill]
    · have hstay : L.next (some q) c = some q := if_neg hc
      simp only [hc, if_false, List.cons_append, List.nil_append]
      refine ⟨?_, ?_, ?_⟩
      · rw [after, List.foldl_cons, hstay]
        exact hafter
      · simp [Lexicon.holes, hstay, hholes]
      · simp [Lexicon.fill, hstay, hfill]

theorem still_quoted {q : α} (hq : q ∈ L.quotes) (s : List α) : L.Still (quoted q s) := by
  obtain ⟨hafter, hholes, hfill⟩ := body_quoted hq s
  have hhole : ¬q = L.hole := fun h => L.hole_unquoted (h ▸ hq)
  have hin : L.next none q = some q := if_pos hq
  have hout : L.next (some q) q = none := if_pos rfl
  refine ⟨?_, ?_, ?_⟩
  · rw [quoted, after, List.foldl_cons, hin, List.foldl_append]
    rw [show List.foldl L.next (some q) _ = some q from hafter]
    exact hout
  · rw [quoted, Lexicon.holes, hin, holes_append, hholes, hafter]
    simp [Lexicon.holes, hhole]
  · have hempty : ([] : List (List α)).length = 0 := rfl
    have hlast := fill_append (hholes.trans hempty.symm) [q] []
    simp only [List.append_nil] at hlast
    rw [quoted, Lexicon.fill, if_neg (by simp [hhole]), hin, hlast, hfill, hafter]
    simp [Lexicon.fill]

/-! ## Joined texts -/

/-- Texts that are filled one after the other. -/
inductive FillsAll (L : Lexicon α) : List (List α) → List (List α) → List (List α) → Prop
  | nil : FillsAll L [] [] []
  | cons {t t' : List α} {ts ts' xs ys : List (List α)} : L.Fills t xs t' → FillsAll L ts ys ts' →
      FillsAll L (t :: ts) (xs ++ ys) (t' :: ts')

theorem FillsAll.append {ts ts' us us' xs ys : List (List α)} (h : FillsAll L ts xs ts') (hu : FillsAll L us ys us') :
    FillsAll L (ts ++ us) (xs ++ ys) (ts' ++ us') := by
  induction h with
  | nil => exact hu
  | cons hfirst _ ih =>
    rw [List.append_assoc]
    exact .cons hfirst ih

/-- Texts with a separator between. -/
def join (sep : List α) : List (List α) → List α
  | [] => []
  | [t] => t
  | t :: u :: ts => t ++ (sep ++ join sep (u :: ts))

theorem FillsAll.join {sep : List α} (hsep : L.Still sep) {ts ts' xs : List (List α)} (h : FillsAll L ts xs ts') :
    L.Fills (join sep ts) xs (join sep ts') := by
  induction h with
  | nil => exact still_nil
  | cons hfirst hrest ih =>
    cases hrest with
    | nil => simpa [Lexicon.join] using hfirst
    | cons hsecond hmore => exact hfirst.append (hsep.append ih)

end Lexicon

end Rindle
