/-
  Rindle.Lib.Collation — texts in the order of the units of an encoding.

  Where the units of two different characters differ whatever follows them (`Collates`), the units
  of two texts are ordered as the first characters in which the texts differ (`compare_units`).
  UTF-8 orders characters by code point. UTF-16 spells those past U+FFFF with surrogates, below
  U+E000, and orders them there. So the orders disagree exactly where, of those two characters,
  one is past U+FFFF and the other is from U+E000 to U+FFFF (`splits`, `utf16_utf8`).
-/

import Mathlib.Order.Compare
import Rindle.Lib.Utf8

namespace Rindle.Collation

section
variable {β : Type} [Ord β] {units : Char → List β} {key : Char → Nat}

/-- The order of the first characters in which two texts differ. -/
def charOrder (key : Char → Nat) : List Char → List Char → Ordering
  | [], [] => .eq
  | [], _ :: _ => .lt
  | _ :: _, [] => .gt
  | c :: s, d :: t => if c = d then charOrder key s t else compare (key c) (key d)

/-- Characters are told apart by their units, in the order of their keys. -/
structure Collates (units : Char → List β) (key : Char → Nat) : Prop where
  nonempty : ∀ c, units c ≠ []
  ordered : ∀ c d, c ≠ d → ∀ x y, compare (units c ++ x) (units d ++ y) = compare (key c) (key d)

theorem compare_cons (a b : β) (x y : List β) : compare (a :: x) (b :: y) = (compare a b).then (compare x y) :=
  List.compareLex_cons_cons

theorem compare_append [Std.ReflOrd β] (a x y : List β) : compare (a ++ x) (a ++ y) = compare x y := by
  induction a with
  | nil => rfl
  | cons b a ih => rw [List.cons_append, List.cons_append, compare_cons, Std.ReflOrd.compare_self, ih, Ordering.eq_then]

theorem compare_units [Std.ReflOrd β] (h : Collates units key) (s : List Char) : ∀ t : List Char,
    compare (s.flatMap units) (t.flatMap units) = charOrder key s t := by
  induction s with
  | nil =>
    intro t
    cases t with
    | nil => rfl
    | cons d t =>
      obtain ⟨u, us, hu⟩ := List.exists_cons_of_ne_nil (h.nonempty d)
      rw [List.flatMap_cons, hu]
      rfl
  | cons c s ih =>
    intro t
    cases t with
    | nil =>
      obtain ⟨u, us, hu⟩ := List.exists_cons_of_ne_nil (h.nonempty c)
      rw [List.flatMap_cons, hu]
      rfl
    | cons d t =>
      rw [List.flatMap_cons, List.flatMap_cons, charOrder]
      by_cases hcd : c = d
      · rw [if_pos hcd, hcd, compare_append, ih]
      · rw [if_neg hcd, h.ordered c d hcd]

end

/-! ## UTF-8 -/

theorem byte_compare (a b : UInt8) : compare a b = compare a.toNat b.toNat := by
  rcases Nat.lt_trichotomy a.toNat b.toNat with h | h | h
  · rw [Nat.compare_eq_lt.mpr h]
    exact compareOfLessAndEq_eq_lt.mpr (UInt8.lt_iff_toNat_lt.mpr h)
  · rw [Nat.compare_eq_eq.mpr h, UInt8.toNat_inj.mp h]
    exact Std.ReflOrd.compare_self
  · have hswap : compare b a = .lt := compareOfLessAndEq_eq_lt.mpr (UInt8.lt_iff_toNat_lt.mpr h)
    rw [Nat.compare_eq_gt.mpr h, Std.OrientedOrd.eq_swap, hswap]
    rfl

theorem compare_ofNat {a b : Nat} (ha : a < 256) (hb : b < 256) : compare (UInt8.ofNat a) (UInt8.ofNat b) = compare a b := by
  rw [byte_compare, UInt8.toNat_ofNat_of_lt' ha, UInt8.toNat_ofNat_of_lt' hb]

/-- Two digits are compared as the number they write. -/
theorem compare_digits {q q' r r' base : Nat} (hr : r < base) (hr' : r' < base) (o : Ordering) :
    (compare q q').then ((compare r r').then o) = (compare (base * q + r) (base * q' + r')).then o := by
  rcases Nat.lt_trichotomy q q' with h | h | h
  · have hnum : base * q + r < base * q' + r' := by
      have hmul : base * (q + 1) ≤ base * q' := Nat.mul_le_mul_left base h
      rw [Nat.mul_add] at hmul
      omega
    rw [Nat.compare_eq_lt.mpr h, Nat.compare_eq_lt.mpr hnum]
    rfl
  · subst h
    have hnum : compare (base * q + r) (base * q + r') = compare r r' := by
      simp [compare, compareOfLessAndEq]
    rw [hnum, Std.ReflOrd.compare_self]
    rfl
  · have hnum : base * q' + r' < base * q + r := by
      have hmul : base * (q' + 1) ≤ base * q := Nat.mul_le_mul_left base h
      rw [Nat.mul_add] at hmul
      omega
    rw [Nat.compare_eq_gt.mpr h, Nat.compare_eq_gt.mpr hnum]
    rfl

theorem compare_offset (a b k : Nat) : compare (a + k) (b + k) = compare a b := by
  simp [compare, compareOfLessAndEq]

theorem then_of_ne {a b : Nat} (h : a ≠ b) (o : Ordering) : (compare a b).then o = compare a b := by
  cases hc : compare a b with
  | eq => exact absurd (Nat.compare_eq_eq.mp hc) h
  | lt => rfl
  | gt => rfl

/-- What is before in the first digit is before. -/
theorem lead_lt {a b v w : Nat} (h : a < b) (hvw : v < w) (o : Ordering) : (compare a b).then o = compare v w := by
  rw [Nat.compare_eq_lt.mpr h, Nat.compare_eq_lt.mpr hvw]
  rfl

theorem lead_gt {a b v w : Nat} (h : b < a) (hvw : w < v) (o : Ordering) : (compare a b).then o = compare v w := by
  rw [Nat.compare_eq_gt.mpr h, Nat.compare_eq_gt.mpr hvw]
  rfl

theorem toNat_lt (c : Char) : c.toNat < 1114112 := by
  rcases c.valid with h | h
  · exact Nat.lt_trans h (by decide)
  · exact h.2

theorem utf8_collates : Collates String.utf8EncodeChar Char.toNat := by
  constructor
  · intro c
    unfold String.utf8EncodeChar
    dsimp only
    split <;> [skip; split <;> [skip; split]] <;> exact List.cons_ne_nil _ _
  · intro c d hcd x y
    have hne : c.toNat ≠ d.toNat := fun h => hcd (Char.toNat_inj.mp h)
    have hc := toNat_lt c
    have hd := toNat_lt d
    unfold String.utf8EncodeChar
    change c.val.toNat ≠ d.val.toNat at hne
    change c.val.toNat < _ at hc
    change d.val.toNat < _ at hd
    change _ = compare c.val.toNat d.val.toNat
    generalize c.val.toNat = v at *
    generalize d.val.toNat = w at *
    have two : ∀ n, n < 2048 → 64 * (n / 64 % 32) + n % 64 = n := by omega
    have three : ∀ n, n < 65536 → 64 * (64 * (n / 4096 % 16) + n / 64 % 64) + n % 64 = n := by omega
    have four : ∀ n, n < 1114112 → 64 * (64 * (64 * (n / 262144 % 8) + n / 4096 % 64) + n / 64 % 64) + n % 64 = n := by omega
    have hlow : ∀ n, n % 64 < 64 := by omega
    dsimp only
    -- the first byte tells the lengths apart; at one length the bytes are the digits of the code point
    split <;> [skip; split <;> [skip; split]] <;>
      (split <;> [skip; split <;> [skip; split]]) <;>
      simp (disch := omega) only [List.cons_append, List.nil_append, compare_cons, compare_ofNat, compare_offset] <;>
      try first
        | exact lead_lt (by omega) (by omega) _
        | exact lead_gt (by omega) (by omega) _
    · exact then_of_ne hne _
    · rw [compare_digits (hlow v) (hlow w), two v (by omega), two w (by omega)]
      exact then_of_ne hne _
    · rw [compare_digits (hlow _) (hlow _), compare_digits (hlow v) (hlow w), three v (by omega), three w (by omega)]
      exact then_of_ne hne _
    · rw [compare_digits (hlow _) (hlow _), compare_digits (hlow _) (hlow _), compare_digits (hlow v) (hlow w), four v hc, four w hd]
      exact then_of_ne hne _

/-- The bytes of a text. -/
theorem encode_flatMap (s : String) : Utf8.encode s = s.toList.flatMap String.utf8EncodeChar := by
  rw [Utf8.encode, ← String.utf8Encode_toList]
  simp [List.utf8Encode]

/-! ## UTF-16 -/

/-- The code units of a character: past U+FFFF, a pair of surrogates. -/
def utf16Units (c : Char) : List Nat :=
  if c.toNat < 65536 then [c.toNat] else [55296 + (c.toNat - 65536) / 1024, 56320 + (c.toNat - 65536) % 1024]

def utf16 (s : String) : List Nat := s.toList.flatMap utf16Units

/-- Past U+FFFF, below U+E000. -/
def utf16Key (c : Char) : Nat := if 57344 ≤ c.toNat ∧ c.toNat < 65536 then c.toNat + 1114112 else c.toNat

/-- A character outside the surrogates. -/
theorem not_surrogate (c : Char) : c.toNat < 55296 ∨ 57343 < c.toNat := by
  rcases c.valid with h | h
  · exact Or.inl h
  · exact Or.inr h.1

theorem utf16_collates : Collates utf16Units utf16Key := by
  constructor
  · intro c
    unfold utf16Units
    split <;> exact List.cons_ne_nil _ _
  · intro c d hcd x y
    have hne : c.toNat ≠ d.toNat := fun h => hcd (Char.toNat_inj.mp h)
    have hc := not_surrogate c
    have hd := not_surrogate d
    have hcl := toNat_lt c
    have hdl := toNat_lt d
    unfold utf16Units utf16Key
    generalize c.toNat = v at *
    generalize d.toNat = w at *
    by_cases hv : v < 65536 <;> by_cases hw : w < 65536
    · rw [if_pos hv, if_pos hw]
      simp only [List.cons_append, List.nil_append, compare_cons]
      rcases Nat.lt_or_gt_of_ne hne with h | h
      · refine lead_lt h ?_ _
        split <;> split <;> omega
      · refine lead_gt h ?_ _
        split <;> split <;> omega
    · rw [if_pos hv, if_neg hw]
      simp only [List.cons_append, List.nil_append, compare_cons]
      by_cases h : 57344 ≤ v
      · exact lead_gt (by omega) (by rw [if_neg (by omega), if_pos ⟨h, hv⟩]; omega) _
      · exact lead_lt (by omega) (by rw [if_neg (by omega), if_neg (by omega)]; omega) _
    · rw [if_neg hv, if_pos hw]
      simp only [List.cons_append, List.nil_append, compare_cons]
      by_cases h : 57344 ≤ w
      · exact lead_lt (by omega) (by rw [if_neg (by omega), if_pos ⟨h, hw⟩]; omega) _
      · exact lead_gt (by omega) (by rw [if_neg (by omega), if_neg (by omega)]; omega) _
    · rw [if_neg hv, if_neg hw, if_neg (by omega), if_neg (by omega)]
      simp only [List.cons_append, List.nil_append, compare_cons, Nat.add_comm 55296, Nat.add_comm 56320, compare_offset]
      rw [compare_digits (show (v - 65536) % 1024 < 1024 by omega) (show (w - 65536) % 1024 < 1024 by omega), Nat.div_add_mod,
        Nat.div_add_mod]
      rcases Nat.lt_or_gt_of_ne hne with h | h
      · exact lead_lt (by omega) h _
      · exact lead_gt (by omega) h _

/-! ## Both -/

/-- The first characters in which the texts differ are ordered the other way in UTF-16. -/
def splits : List Char → List Char → Bool
  | c :: s, d :: t =>
    if c = d then splits s t
    else (decide (57344 ≤ c.toNat ∧ c.toNat < 65536) && decide (65536 ≤ d.toNat)) ||
      (decide (65536 ≤ c.toNat) && decide (57344 ≤ d.toNat ∧ d.toNat < 65536))
  | _, _ => false

theorem utf16Key_compare {c d : Char} (hcd : c ≠ d) : compare (utf16Key c) (utf16Key d) =
    if (decide (57344 ≤ c.toNat ∧ c.toNat < 65536) && decide (65536 ≤ d.toNat)) ||
      (decide (65536 ≤ c.toNat) && decide (57344 ≤ d.toNat ∧ d.toNat < 65536))
    then (compare c.toNat d.toNat).swap else compare c.toNat d.toNat := by
  have hne : c.toNat ≠ d.toNat := fun h => hcd (Char.toNat_inj.mp h)
  have hcl := toNat_lt c
  have hdl := toNat_lt d
  unfold utf16Key
  generalize c.toNat = v at *
  generalize d.toNat = w at *
  simp only [Bool.or_eq_true, Bool.and_eq_true, decide_eq_true_eq]
  rcases Nat.lt_or_gt_of_ne hne with h | h
  · rw [Nat.compare_eq_lt.mpr h]
    by_cases hs : 57344 ≤ v ∧ v < 65536 ∧ 65536 ≤ w
    · rw [if_pos (Or.inl ⟨⟨hs.1, hs.2.1⟩, hs.2.2⟩), if_pos ⟨hs.1, hs.2.1⟩, if_neg (by omega)]
      exact Nat.compare_eq_gt.mpr (by omega)
    · have hnot : ¬ ((57344 ≤ v ∧ v < 65536) ∧ 65536 ≤ w ∨ 65536 ≤ v ∧ 57344 ≤ w ∧ w < 65536) := by omega
      rw [if_neg hnot]
      refine Nat.compare_eq_lt.mpr ?_
      split <;> split <;> omega
  · rw [Nat.compare_eq_gt.mpr h]
    by_cases hs : 65536 ≤ v ∧ 57344 ≤ w ∧ w < 65536
    · rw [if_pos (Or.inr hs), if_neg (by omega), if_pos hs.2]
      exact Nat.compare_eq_lt.mpr (by omega)
    · have hnot : ¬ ((57344 ≤ v ∧ v < 65536) ∧ 65536 ≤ w ∨ 65536 ≤ v ∧ 57344 ≤ w ∧ w < 65536) := by omega
      rw [if_neg hnot]
      refine Nat.compare_eq_gt.mpr ?_
      split <;> split <;> omega

/-- UTF-16 orders two texts as UTF-8 does, or, where they split, the other way. -/
theorem utf16_utf8 (s t : String) : compare (utf16 s) (utf16 t) =
    if splits s.toList t.toList then (compare (Utf8.encode s) (Utf8.encode t)).swap else compare (Utf8.encode s) (Utf8.encode t) := by
  rw [utf16, utf16, encode_flatMap, encode_flatMap, compare_units utf16_collates, compare_units utf8_collates]
  generalize s.toList = x
  generalize t.toList = y
  induction x generalizing y with
  | nil => cases y <;> rfl
  | cons c x ih =>
    cases y with
    | nil => rfl
    | cons d y =>
      rw [charOrder, charOrder, splits]
      by_cases hcd : c = d
      · simp only [if_pos hcd]
        exact ih y
      · simp only [if_neg hcd]
        exact utf16Key_compare hcd

end Rindle.Collation
