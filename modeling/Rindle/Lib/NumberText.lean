/-
  Rindle.Lib.NumberText — a double as text, as JavaScript writes numbers.

  A positive number is written with the fewest decimal digits that are read back as it, the
  nearest of those (`shortest`); where the point stands and whether there is an exponent depends
  on its size (`layout`). Some number of digits is always enough, since a double has a finite
  decimal expansion (`shortest_spec`), and a text has one value (`valueOf_layout`): so two finite
  numbers have one text exactly when they are equal, zero and negative zero being so
  (`toText_inj`).
-/

import Mathlib.Algebra.Order.Field.Rat
import Mathlib.Algebra.Order.Field.Power
import Mathlib.Tactic.FieldSimp
import Mathlib.Tactic.Positivity
import Rindle.Lib.Decimal
import Rindle.Lib.Rounding

namespace Rindle.NumberText

open F64 (unit ofRatio unit_pos ofRatio_congr ofRatio_exact)

/-! ## The digits -/

variable (s : Nat) (q : Int)

/-- The double next to `s·10^q`. -/
def fromDecimal : F64 :=
  if 0 ≤ q then ofRatio false (s * 10 ^ q.toNat) 1 else ofRatio false s (10 ^ (-q).toNat)

/-- A number divided by `10^q`, as a fraction. -/
def fraction (x : F64) (q : Int) : Nat × Nat :=
  if 0 ≤ q then (x.scaledAbs, unit * 10 ^ q.toNat) else (x.scaledAbs * 10 ^ (-q).toNat, unit)

/-- The `n` of `10^(n-1) ≤ x < 10^n`. -/
def magnitude (x : F64) : Int :=
  ((List.range 633).find? fun e => decide (x.scaledAbs * 10 ^ 323 < 10 ^ e * unit)).getD 633 - 323

/-- `10^k` has a digit too many. -/
def carry (k s : Nat) (q : Int) : Nat × Int := if s = 10 ^ k then (10 ^ (k - 1), q + 1) else (s, q)

/-- The numbers of `k` digits next to `x` on both sides, where they are read back as `x`; of two,
    the nearer, or the even one. -/
def pick (x : F64) (k : Nat) : Option (Nat × Int) :=
  let q := magnitude x - k
  let n := (fraction x q).1
  let d := (fraction x q).2
  let lo := carry k (n / d) q
  let hi := carry k (n / d + 1) q
  let readsLo := fromDecimal lo.1 lo.2 = x
  let readsHi := fromDecimal hi.1 hi.2 = x
  if readsLo ∧ readsHi then
    if 2 * (n % d) < d ∨ (2 * (n % d) = d ∧ n / d % 2 = 0) then some lo else some hi
  else if readsLo then some lo
  else if readsHi then some hi
  else none

/-- The digits and the exponent of a positive number, as few digits as possible. -/
def shortest (x : F64) : Option (Nat × Int) := (List.range 1400).findSome? fun j => pick x (j + 1)

/-! ## The text -/

/-- The text of `s·10^q`. -/
def layout : List Char :=
  let digits := Nat.toDigits 10 s
  let k : Int := digits.length
  let n := k + q
  if k ≤ n ∧ n ≤ 21 then digits ++ List.replicate (n - k).toNat '0'
  else if 0 < n ∧ n ≤ 21 then digits.take n.toNat ++ '.' :: digits.drop n.toNat
  else if -6 < n ∧ n ≤ 0 then '0' :: '.' :: (List.replicate (-n).toNat '0' ++ digits)
  else
    let e := n - 1
    let mantissa := if k = 1 then digits else digits.take 1 ++ '.' :: digits.drop 1
    mantissa ++ 'e' :: (if 0 < e then '+' else '-') :: Nat.toDigits 10 e.natAbs

/-- A number without its sign. -/
def unsigned (x : F64) : List Char :=
  if x.scaledAbs = 0 then ['0']
  else
    match shortest { x with sign := false } with
    | some (s, q) => layout s q
    | none => []

/-- `Number::toString`. -/
def toText (x : F64) : List Char :=
  if x.isNan then "NaN".toList
  else if x.isInfinite then if x.sign then "-Infinity".toList else "Infinity".toList
  else if x.sign ∧ x.scaledAbs ≠ 0 then '-' :: unsigned x else unsigned x

/-! ## Reading back -/

/-- The decimal as a quotient of naturals. -/
theorem fromDecimal_ratio : ∃ n d : Nat, 0 < d ∧ fromDecimal s q = ofRatio false n d ∧
    (n : ℚ) = s * 10 ^ q * d := by
  by_cases hq : 0 ≤ q
  · refine ⟨s * 10 ^ q.toNat, 1, Nat.one_pos, by rw [fromDecimal, if_pos hq], ?_⟩
    have hpow : (10 : ℚ) ^ q = 10 ^ q.toNat := by rw [← zpow_natCast, Int.toNat_of_nonneg hq]
    rw [hpow]
    push_cast
    ring
  · refine ⟨s, 10 ^ (-q).toNat, Nat.pow_pos (by decide), by rw [fromDecimal, if_neg hq], ?_⟩
    have hpow : (10 : ℚ) ^ q = (10 ^ (-q).toNat)⁻¹ := by
      rw [← zpow_natCast, ← zpow_neg, Int.toNat_of_nonneg (by omega), Int.neg_neg]
    rw [hpow]
    push_cast
    field_simp

/-- Only the value of the decimal counts. -/
theorem fromDecimal_congr {s s' : Nat} {q q' : Int} (h : (s : ℚ) * 10 ^ q = s' * 10 ^ q') : fromDecimal s q = fromDecimal s' q' := by
  obtain ⟨n, d, hd, hread, hn⟩ := fromDecimal_ratio s q
  obtain ⟨m, e, he, hread', hm⟩ := fromDecimal_ratio s' q'
  rw [hread, hread']
  refine ofRatio_congr hd he ?_
  have hcross : (n : ℚ) * e = m * d := by rw [hn, hm, h]; ring
  exact_mod_cast hcross

theorem carry_value {k : Nat} (hk : 0 < k) (s : Nat) (q : Int) :
    ((carry k s q).1 : ℚ) * 10 ^ (carry k s q).2 = s * 10 ^ q := by
  unfold carry
  split
  · rename_i h
    have hpow : (10 : ℚ) ^ k = 10 ^ (k - 1) * 10 := by rw [← pow_succ, Nat.sub_add_cancel hk]
    rw [h]
    push_cast
    rw [hpow, zpow_add₀ (by norm_num), zpow_one]
    ring
  · rfl

theorem pick_reads {x : F64} {k : Nat} {p : Nat × Int} (h : pick x k = some p) : fromDecimal p.1 p.2 = x := by
  unfold pick at h
  dsimp only at h
  split at h
  · rename_i hboth
    split at h
    · rw [← Option.some.inj h]
      exact hboth.1
    · rw [← Option.some.inj h]
      exact hboth.2
  · split at h
    · rename_i hlo
      rw [← Option.some.inj h]
      exact hlo
    · split at h
      · rename_i hhi
        rw [← Option.some.inj h]
        exact hhi
      · cases h

theorem magnitude_le (x : F64) : magnitude x ≤ 310 := by
  unfold magnitude
  cases h : (List.range 633).find? fun e => decide (x.scaledAbs * 10 ^ 323 < 10 ^ e * unit) with
  | none => decide
  | some e =>
    have he : e < 633 := List.mem_range.mp (List.mem_of_find?_eq_some h)
    show (e : Int) - 323 ≤ 310
    omega

theorem unit_dvd_ten {m : Nat} (h : 1074 ≤ m) : unit ∣ 10 ^ m := by
  obtain ⟨a, ha⟩ : ∃ a : Nat, a = 1074 := ⟨_, rfl⟩
  have hunit : unit = 2 ^ a * 2 ^ 0 := F64.unit_split (by omega)
  rw [hunit, Nat.pow_zero, Nat.mul_one]
  exact Nat.dvd_trans (Nat.pow_dvd_pow 2 (by omega)) (pow_dvd_pow_of_dvd (by decide) m)

/-- With 1074 digits behind the point a double is written out. -/
theorem pick_exact {x : F64} (hx : x.isFinite = true) (hs : x.sign = false) {k : Nat} (hk : 0 < k)
    (hall : magnitude x + 1074 ≤ k) : (pick x k).isSome = true := by
  have hneg : ¬ 0 ≤ magnitude x - k := by omega
  have hfraction : fraction x (magnitude x - k) = (x.scaledAbs * 10 ^ (-(magnitude x - k)).toNat, unit) := by
    rw [fraction, if_neg hneg]
  have hdvd : unit ∣ x.scaledAbs * 10 ^ (-(magnitude x - k)).toNat :=
    Nat.dvd_trans (unit_dvd_ten (by omega)) (Nat.dvd_mul_left _ _)
  have hlo : fromDecimal (carry k ((fraction x (magnitude x - k)).1 / (fraction x (magnitude x - k)).2) (magnitude x - k)).1
      (carry k ((fraction x (magnitude x - k)).1 / (fraction x (magnitude x - k)).2) (magnitude x - k)).2 = x := by
    rw [fromDecimal_congr (carry_value hk _ _), hfraction, fromDecimal, if_neg hneg]
    have hexact := @ofRatio_exact x hx (x.scaledAbs * 10 ^ (-(magnitude x - k)).toNat / unit) (10 ^ (-(magnitude x - k)).toNat)
      (Nat.pow_pos (by decide)) (Nat.div_mul_cancel hdvd)
    rw [hs] at hexact
    exact hexact
  unfold pick
  dsimp only
  rw [if_congr (and_iff_right hlo) rfl rfl, if_pos hlo]
  split
  · split <;> rfl
  · rfl

/-- A positive number has its shortest digits, and they are read back as it. -/
theorem shortest_spec {x : F64} (hx : x.isFinite = true) (hs : x.sign = false) :
    ∃ s q, shortest x = some (s, q) ∧ fromDecimal s q = x := by
  cases h : shortest x with
  | none =>
    have hmag := magnitude_le x
    have hnone := List.findSome?_eq_none_iff.mp h 1399 (List.mem_range.mpr (by decide))
    have hsome := pick_exact hx hs (show 0 < 1400 by decide) (by omega)
    rw [hnone] at hsome
    cases hsome
  | some p =>
    obtain ⟨j, -, hj⟩ := List.exists_of_findSome?_eq_some h
    exact ⟨p.1, p.2, rfl, pick_reads hj⟩

/-! ## The value of a text -/

/-- What is behind the `e`. -/
def exponentOf : List Char → Int
  | _ :: '-' :: ds => -(Nat.ofDigitChars 10 ds 0 : Int)
  | _ :: _ :: ds => Nat.ofDigitChars 10 ds 0
  | _ => 0

def valueOf (t : List Char) : ℚ :=
  let m := t.takeWhile (· != 'e')
  let a := m.takeWhile (· != '.')
  let b := (m.dropWhile (· != '.')).drop 1
  (Nat.ofDigitChars 10 (a ++ b) 0 : ℚ) * 10 ^ (exponentOf (t.dropWhile (· != 'e')) - b.length)

/-- Where a run ends, as `takeWhile` and `dropWhile` find it. -/
theorem run_split {α : Type} {p : α → Bool} {a t : List α} (ha : ∀ x ∈ a, p x = true) (ht : ∀ x ∈ t.head?, p x = false) :
    (a ++ t).takeWhile p = a ∧ (a ++ t).dropWhile p = t := by
  have hstop : t.takeWhile p = [] ∧ t.dropWhile p = t := by
    cases t with
    | nil => exact ⟨rfl, rfl⟩
    | cons x t => simp [ht x rfl]
  rw [List.takeWhile_append_of_pos ha, List.dropWhile_append_of_pos ha, hstop.1, hstop.2, List.append_nil]
  exact ⟨rfl, rfl⟩

theorem digit_plain {c : Char} (h : c.isDigit = true) : (c != 'e') = true ∧ (c != '.') = true := by
  constructor
  · rw [bne_iff_ne]
    rintro rfl
    exact absurd h (by decide)
  · rw [bne_iff_ne]
    rintro rfl
    exact absurd h (by decide)

/-- The end of a text: nothing, or an exponent. -/
def Exponent (e : List Char) : Prop := ∀ c ∈ e.head?, c = 'e'

theorem valueOf_whole {a e : List Char} (ha : ∀ c ∈ a, c.isDigit = true) (he : Exponent e) :
    valueOf (a ++ e) = Nat.ofDigitChars 10 a 0 * 10 ^ exponentOf e := by
  obtain ⟨htake, hdrop⟩ := @run_split _ (· != 'e') a e (fun c hc => (digit_plain (ha c hc)).1) fun c hc => by rw [he c hc]; rfl
  obtain ⟨hint, hfrac⟩ := @run_split _ (· != '.') a [] (fun c hc => (digit_plain (ha c hc)).2) (by simp)
  rw [List.append_nil] at hint hfrac
  unfold valueOf
  dsimp only
  rw [htake, hdrop, hint, hfrac, List.drop_nil, List.append_nil]
  simp

theorem valueOf_point {a b e : List Char} (ha : ∀ c ∈ a, c.isDigit = true) (hb : ∀ c ∈ b, c.isDigit = true) (he : Exponent e) :
    valueOf (a ++ '.' :: (b ++ e)) = Nat.ofDigitChars 10 (a ++ b) 0 * 10 ^ (exponentOf e - b.length) := by
  have hplain : ∀ c ∈ a ++ '.' :: b, (c != 'e') = true := by
    intro c hc
    rcases List.mem_append.mp hc with hc | hc
    · exact (digit_plain (ha c hc)).1
    · rcases List.mem_cons.mp hc with rfl | hc
      · decide
      · exact (digit_plain (hb c hc)).1
  obtain ⟨htake, hdrop⟩ := @run_split _ (· != 'e') (a ++ '.' :: b) e hplain fun c hc => by rw [he c hc]; rfl
  obtain ⟨hint, hfrac⟩ := @run_split _ (· != '.') a ('.' :: b) (fun c hc => (digit_plain (ha c hc)).2) fun c hc => by
    rw [← Option.mem_some.mp hc]; rfl
  rw [List.append_assoc, List.cons_append] at htake hdrop
  unfold valueOf
  dsimp only
  rw [htake, hdrop, hint, hfrac, List.drop_one, List.tail_cons]

theorem digits_isDigit : ∀ c ∈ Nat.toDigits 10 s, c.isDigit = true :=
  fun _ hc => Nat.isDigit_of_mem_toDigits (by decide) (by decide) hc

theorem zeros_isDigit (n : Nat) : ∀ c ∈ List.replicate n '0', c.isDigit = true := by
  intro c hc
  rw [List.eq_of_mem_replicate hc]
  decide

theorem exponentOf_signed (e : Int) : exponentOf ('e' :: (if 0 < e then '+' else '-') :: Nat.toDigits 10 e.natAbs) = e := by
  by_cases he : 0 < e
  · rw [if_pos he]
    show ((Nat.ofDigitChars 10 (Nat.toDigits 10 e.natAbs) 0 : Nat) : Int) = e
    rw [Nat.ofDigitChars_ten_toDigits]
    omega
  · rw [if_neg he]
    show -((Nat.ofDigitChars 10 (Nat.toDigits 10 e.natAbs) 0 : Nat) : Int) = e
    rw [Nat.ofDigitChars_ten_toDigits]
    omega

/-- A text has the value it was made from, wherever its point stands. -/
theorem valueOf_layout : valueOf (layout s q) = s * 10 ^ q := by
  have hdigits := digits_isDigit s
  have hback : Nat.ofDigitChars 10 (Nat.toDigits 10 s) 0 = s := Nat.ofDigitChars_ten_toDigits
  have hlen : 0 < (Nat.toDigits 10 s).length := List.length_pos_of_ne_nil Nat.toDigits_ne_nil
  unfold layout
  dsimp only
  generalize Nat.toDigits 10 s = digits at hdigits hback hlen ⊢
  split
  · -- zeros after the digits
    rename_i h
    have hall : ∀ c ∈ digits ++ List.replicate (digits.length + q - digits.length).toNat '0', c.isDigit = true := by
      intro c hc
      rcases List.mem_append.mp hc with hc | hc
      · exact hdigits c hc
      · exact zeros_isDigit _ c hc
    have hwhole := @valueOf_whole _ [] hall (fun c hc => by cases hc)
    rw [List.append_nil] at hwhole
    rw [hwhole, Nat.ofDigitChars_append, hback, Nat.ofDigitChars_replicate_zero]
    have hq : ((10 : ℚ) ^ (digits.length + q - digits.length).toNat) = 10 ^ q := by
      rw [← zpow_natCast]
      congr 1
      omega
    push_cast
    rw [hq]
    simp [exponentOf, mul_comm]
  split
  · -- a point among the digits
    rename_i hn h
    have hpoint := @valueOf_point (digits.take (digits.length + q).toNat) (digits.drop (digits.length + q).toNat) []
      (fun c hc => hdigits c (List.mem_of_mem_take hc)) (fun c hc => hdigits c (List.mem_of_mem_drop hc)) (fun c hc => by cases hc)
    rw [List.append_nil] at hpoint
    rw [hpoint, List.take_append_drop, hback, List.length_drop]
    congr 2
    show (0 : Int) - _ = q
    omega
  split
  · -- zeros before the digits
    rename_i hn hn' h
    have hall : ∀ c ∈ List.replicate (-(digits.length + q)).toNat '0' ++ digits, c.isDigit = true := by
      intro c hc
      rcases List.mem_append.mp hc with hc | hc
      · exact zeros_isDigit _ c hc
      · exact hdigits c hc
    have hpoint := @valueOf_point ['0'] _ [] (by simp) hall (fun c hc => by cases hc)
    rw [List.append_nil, List.singleton_append] at hpoint
    rw [hpoint, List.singleton_append, Nat.ofDigitChars_cons, Nat.ofDigitChars_append, Nat.ofDigitChars_replicate_zero]
    simp only [Nat.mul_zero, Nat.zero_add, Nat.sub_self, hback, List.length_append, List.length_replicate]
    congr 2
    show (0 : Int) - _ = q
    omega
  · -- an exponent
    rename_i hn hn' hn''
    have hexp := exponentOf_signed (digits.length + q - 1)
    split
    · rename_i hone
      rw [valueOf_whole hdigits (fun c hc => (Option.mem_some.mp hc).symm), hexp, hback]
      congr 2
      omega
    · rw [List.append_assoc, List.cons_append]
      rw [valueOf_point (fun c hc => hdigits c (List.mem_of_mem_take hc)) (fun c hc => hdigits c (List.mem_of_mem_drop hc))
        (fun c hc => (Option.mem_some.mp hc).symm), hexp, List.take_append_drop, hback, List.length_drop]
      congr 2
      omega

/-! ## One text for a number -/

/-- The characters of a number's text. -/
def isNumberChar (c : Char) : Bool := c.isDigit || c == '.' || c == 'e' || c == '+' || c == '-'

theorem digit_number {c : Char} (h : c.isDigit = true) : isNumberChar c = true := by simp [isNumberChar, h]

theorem layout_chars : ∀ c ∈ layout s q, isNumberChar c = true := by
  have hdigits : ∀ n : Nat, ∀ c ∈ Nat.toDigits 10 n, isNumberChar c = true := fun n c hc => digit_number (digits_isDigit n c hc)
  have hzeros : ∀ n : Nat, ∀ c ∈ List.replicate n '0', isNumberChar c = true := fun n c hc => digit_number (zeros_isDigit n c hc)
  have htake : ∀ n m : Nat, ∀ c ∈ (Nat.toDigits 10 n).take m, isNumberChar c = true :=
    fun n _ c hc => hdigits n c (List.mem_of_mem_take hc)
  have hdrop : ∀ n m : Nat, ∀ c ∈ (Nat.toDigits 10 n).drop m, isNumberChar c = true :=
    fun n _ c hc => hdigits n c (List.mem_of_mem_drop hc)
  have hsign : ∀ e : Int, isNumberChar (if 0 < e then '+' else '-') = true := by
    intro e
    split <;> decide
  have hpoint : isNumberChar '.' = true ∧ isNumberChar 'e' = true ∧ isNumberChar '0' = true := by decide
  unfold layout
  dsimp only
  rw [← List.all_eq_true]
  simp only [← List.all_eq_true] at hdigits hzeros htake hdrop
  split
  · rw [List.all_append, hdigits, hzeros]; rfl
  split
  · rw [List.all_append, List.all_cons, htake, hdrop, hpoint.1]; rfl
  split
  · rw [List.all_cons, List.all_cons, List.all_append, hzeros, hdigits, hpoint.1, hpoint.2.2]; rfl
  · rw [List.all_append, List.all_cons, List.all_cons, hsign, hdigits, hpoint.2.1]
    split
    · rw [hdigits]; rfl
    · rw [List.all_append, List.all_cons, htake, hdrop, hpoint.1]; rfl

theorem layout_head : ∃ c t, layout s q = c :: t ∧ c.isDigit = true := by
  have hdigits := digits_isDigit s
  obtain ⟨d, ds, hd⟩ := List.exists_cons_of_ne_nil (@Nat.toDigits_ne_nil s 10)
  rw [hd] at hdigits
  have hfirst : d.isDigit = true := hdigits d List.mem_cons_self
  unfold layout
  rw [hd]
  dsimp only
  split
  · exact ⟨d, _, rfl, hfirst⟩
  split
  · rename_i h
    have hone : ((d :: ds).length + q).toNat = ((d :: ds).length + q).toNat - 1 + 1 := by omega
    rw [hone, List.take_succ_cons]
    exact ⟨d, _, rfl, hfirst⟩
  split
  · exact ⟨'0', _, rfl, by decide⟩
  · split
    · exact ⟨d, _, rfl, hfirst⟩
    · exact ⟨d, _, rfl, hfirst⟩

variable {x y : F64}

/-- A number that is not zero is written as its shortest digits. -/
theorem unsigned_spec (hx : x.isFinite = true) (h : x.scaledAbs ≠ 0) :
    ∃ s q, unsigned x = layout s q ∧ fromDecimal s q = { x with sign := false } := by
  obtain ⟨s, q, hshort, hread⟩ := @shortest_spec { x with sign := false } hx rfl
  exact ⟨s, q, by rw [unsigned, if_neg h, hshort], hread⟩

/-- No decimal with the value zero is read as a number that is not. -/
theorem layout_ne_zero {s : Nat} {q : Int} (hread : (fromDecimal s q).scaledAbs ≠ 0) : layout s q ≠ ['0'] := by
  intro htext
  have hvalue := valueOf_layout s q
  rw [htext] at hvalue
  have hzero : valueOf ['0'] = 0 := by
    have hwhole := @valueOf_whole ['0'] [] (by simp) (fun c hc => by cases hc)
    rw [List.append_nil] at hwhole
    rw [hwhole]
    simp [Nat.ofDigitChars_cons]
  have hsame : fromDecimal s q = fromDecimal 0 0 := fromDecimal_congr (by rw [← hvalue, hzero]; simp)
  rw [hsame] at hread
  have hnone : fromDecimal 0 0 = .zero := by
    rw [fromDecimal, if_pos (Int.le_refl 0), Nat.zero_mul]
    exact @ofRatio_exact .zero rfl 0 1 Nat.one_pos (by rw [Nat.zero_mul]; rfl)
  rw [hnone] at hread
  exact hread rfl

theorem unsigned_inj (hx : x.isFinite = true) (hy : y.isFinite = true) (h : unsigned x = unsigned y) : x.scaledAbs = y.scaledAbs := by
  have hnone : ∀ z : F64, z.scaledAbs = 0 → unsigned z = ['0'] := fun z hz => by rw [unsigned, if_pos hz]
  by_cases hx0 : x.scaledAbs = 0
  · by_cases hy0 : y.scaledAbs = 0
    · rw [hx0, hy0]
    · obtain ⟨s, q, htext, hread⟩ := unsigned_spec hy hy0
      rw [hnone x hx0, htext] at h
      exact absurd h.symm (layout_ne_zero (by rw [hread]; exact hy0))
  · obtain ⟨s, q, htext, hread⟩ := unsigned_spec hx hx0
    by_cases hy0 : y.scaledAbs = 0
    · rw [hnone y hy0, htext] at h
      exact absurd h (layout_ne_zero (by rw [hread]; exact hx0))
    · obtain ⟨s', q', htext', hread'⟩ := unsigned_spec hy hy0
      rw [htext, htext'] at h
      have hvalue : (s : ℚ) * 10 ^ q = s' * 10 ^ q' := by rw [← valueOf_layout, h, valueOf_layout]
      have hsame : ({ x with sign := false } : F64) = { y with sign := false } := by
        rw [← hread, ← hread']
        exact fromDecimal_congr hvalue
      show ({ x with sign := false } : F64).scaledAbs = ({ y with sign := false } : F64).scaledAbs
      rw [hsame]

theorem unsigned_chars (hx : x.isFinite = true) : (∀ c ∈ unsigned x, isNumberChar c = true) ∧
    ∃ c t, unsigned x = c :: t ∧ c.isDigit = true := by
  by_cases h : x.scaledAbs = 0
  · rw [unsigned, if_pos h]
    exact ⟨by simp [isNumberChar], '0', [], rfl, by decide⟩
  · obtain ⟨s, q, htext, -⟩ := unsigned_spec hx h
    rw [htext]
    exact ⟨layout_chars s q, layout_head s q⟩

theorem toText_finite (hx : x.isFinite = true) : toText x = if x.sign ∧ x.scaledAbs ≠ 0 then '-' :: unsigned x else unsigned x := by
  have hnan := F64.finite_not_nan hx
  have hinf : x.isInfinite = false := by
    simp only [F64.isFinite, bne_iff_ne] at hx
    simp [F64.isInfinite, hx]
  rw [toText, hnan, hinf, if_neg Bool.false_ne_true, if_neg Bool.false_ne_true]

/-- A number is written with digits and signs, and starts with one of them. -/
theorem toText_chars (hx : x.isFinite = true) : (∀ c ∈ toText x, isNumberChar c = true) ∧
    ∃ c t, toText x = c :: t ∧ (c.isDigit = true ∨ c = '-') := by
  obtain ⟨hchars, c, t, hhead, hdigit⟩ := unsigned_chars hx
  rw [toText_finite hx]
  split
  · refine ⟨?_, '-', _, rfl, Or.inr rfl⟩
    intro d hd
    rcases List.mem_cons.mp hd with rfl | hd
    · decide
    · exact hchars d hd
  · exact ⟨hchars, c, t, hhead, Or.inl hdigit⟩

/-- Two finite numbers have one text exactly when they are equal as numbers. -/
theorem toText_inj (hx : x.isFinite = true) (hy : y.isFinite = true) : toText x = toText y ↔ x.scaled = y.scaled := by
  have hzero : ∀ {z : F64}, z.scaledAbs = 0 → z.scaled = 0 := by
    intro z hz
    unfold F64.scaled
    rw [hz]
    split <;> rfl
  obtain ⟨-, c, t, hxc, hxd⟩ := unsigned_chars hx
  obtain ⟨-, d, u, hyc, hyd⟩ := unsigned_chars hy
  have hminus : ∀ {e : Char} {l m : List Char}, e.isDigit = true → '-' :: l ≠ e :: m := by
    intro e l m he heq
    rw [← (List.cons.inj heq).1] at he
    exact absurd he (by decide)
  rw [toText_finite hx, toText_finite hy]
  constructor
  · intro h
    split at h <;> split at h
    · rename_i hxs hys
      have habs := unsigned_inj hx hy (List.cons.inj h).2
      rw [F64.scaled, F64.scaled, if_pos hxs.1, if_pos hys.1, habs]
    · rw [hyc] at h
      exact absurd h (hminus hyd)
    · rw [hxc] at h
      exact absurd h.symm (hminus hxd)
    · rename_i hxs hys
      have habs := unsigned_inj hx hy h
      by_cases h0 : x.scaledAbs = 0
      · rw [hzero h0, hzero (habs ▸ h0)]
      · rw [F64.scaled, F64.scaled, if_neg (fun hs => hxs ⟨hs, h0⟩), if_neg (fun hs => hys ⟨hs, habs ▸ h0⟩), habs]
  · intro h
    have habs : x.scaledAbs = y.scaledAbs := by
      unfold F64.scaled at h
      split at h <;> split at h <;> omega
    have hmag : x.mag = y.mag := by
      have hlt := F64.scaledAbs_lt_iff (a := x) (b := y)
      have hgt := F64.scaledAbs_lt_iff (a := y) (b := x)
      omega
    have hbare : ({ x with sign := false } : F64) = { y with sign := false } := F64.ext_fields rfl hmag
    have hsame : unsigned x = unsigned y := by rw [unsigned, unsigned, habs, hbare]
    have hsign : (x.sign = true ∧ x.scaledAbs ≠ 0) ↔ (y.sign = true ∧ y.scaledAbs ≠ 0) := by
      unfold F64.scaled at h
      rw [habs] at h ⊢
      refine and_congr_left fun hne => ?_
      split at h <;> split at h <;> rename_i hxs hys
      · exact iff_of_true hxs hys
      · omega
      · omega
      · exact iff_of_false hxs hys
    rw [hsame, if_congr hsign rfl rfl]

end Rindle.NumberText
