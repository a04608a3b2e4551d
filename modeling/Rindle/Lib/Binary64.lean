/-
  Rindle.Lib.Binary64 — IEEE 754 doubles as exact integers.

  A double is its three bit fields, so every bit pattern (both zeros, the infinities
  and every NaN payload) is a value of `F64` and no two are identified. Its magnitude
  is read as an integer in units of 2^-1074; an infinity or a NaN continues the same
  formula past the largest finite double, so one integer (`rank`) orders all bit
  patterns the way `total_cmp` does, and an integer `x` can be put on the same scale
  (`intRank x`).

  The operations are the ones a comparison of an `i64` with an `f64` needs: the sign and
  class tests, the IEEE comparisons, `trunc`, and the saturating cast `as i64`.
-/

import Mathlib.Tactic.Ring
import Mathlib.Tactic.Linarith
import Mathlib.Algebra.Order.Group.Int

namespace Rindle

/-- A binary64 value: sign bit, biased exponent, fraction. -/
structure F64 where
  sign : Bool
  expo : Fin 2048
  frac : Fin (2 ^ 52)
  deriving DecidableEq

namespace F64

instance : NeZero 2048 := ⟨by decide⟩

instance : NeZero (2 ^ 52) := ⟨by decide⟩

variable (f : F64)

/-- The 64-bit word. -/
def toBits : Nat := (if f.sign then 2 ^ 63 else 0) + f.expo.val * 2 ^ 52 + f.frac.val

/-- The double of a 64-bit word. -/
def ofBits (w : Nat) : F64 :=
  ⟨2 ^ 63 ≤ w, ⟨w / 2 ^ 52 % 2048, Nat.mod_lt _ (by decide)⟩, ⟨w % 2 ^ 52, Nat.mod_lt _ (by decide)⟩⟩

/-- The word without its sign bit. -/
def mag : Nat := f.expo.val * 2 ^ 52 + f.frac.val

def isNan : Bool := f.expo.val == 2047 && f.frac.val != 0
def isFinite : Bool := f.expo.val != 2047
def isSignNegative : Bool := f.sign
def isSignPositive : Bool := !f.sign

/-- The magnitude in units of 2^-1074 (a subnormal has no hidden bit). -/
def scaledAbs : Nat :=
  if f.expo.val = 0 then f.frac.val else (2 ^ 52 + f.frac.val) * 2 ^ (f.expo.val - 1)

/-- The signed value in units of 2^-1074. -/
def scaled : Int := if f.sign then -(f.scaledAbs : Int) else f.scaledAbs

/-- One, in units of 2^-1074. -/
def unit : Nat := 2 ^ 1074

/-! ## The operations -/

/-- `f64::total_cmp`: the words compared as signed integers, the low 63 bits of a negative
    word flipped. -/
def totalKey : Int := if f.sign then -(f.mag : Int) - 1 else f.mag

def totalCmp (a b : F64) : Ordering := compare a.totalKey b.totalKey

/-- The IEEE comparisons: false when an operand is a NaN, and `-0 = 0`. -/
def lt (a b : F64) : Bool := !a.isNan && !b.isNan && decide (a.scaled < b.scaled)
def le (a b : F64) : Bool := !a.isNan && !b.isNan && decide (a.scaled ≤ b.scaled)
def feq (a b : F64) : Bool := !a.isNan && !b.isNan && decide (a.scaled = b.scaled)

/-- `f64::trunc`: below one only the sign is left; from 2^52 on the value is integral (or
    not a number); in between the fraction bits below the point are cleared. -/
def trunc : F64 :=
  if f.expo.val < 1023 then ⟨f.sign, 0, 0⟩
  else if f.expo.val < 1075 then
    ⟨f.sign, f.expo, ⟨f.frac.val - f.frac.val % 2 ^ (1075 - f.expo.val), by have := f.frac.isLt; omega⟩⟩
  else f

/-- `f as i64`: toward zero, saturating, a NaN to 0. -/
def asI64 : Int64 :=
  if f.isNan then 0
  else Int64.ofInt (max (-2 ^ 63) (min (2 ^ 63 - 1) (f.scaled.tdiv unit)))

def zero : F64 := ⟨false, 0, 0⟩
def negZero : F64 := ⟨true, 0, 0⟩
def infinity : F64 := ⟨false, 2047, 0⟩

/-- 2^63, and its negation. -/
def twoPow63 : F64 := ⟨false, 1086, 0⟩
def negTwoPow63 : F64 := ⟨true, 1086, 0⟩

/-! ## The magnitude is monotone in the word -/

theorem ext_fields {a b : F64} (hs : a.sign = b.sign) (hm : a.mag = b.mag) : a = b := by
  obtain ⟨s, e, m⟩ := a
  obtain ⟨s', e', m'⟩ := b
  have := m.isLt
  have := m'.isLt
  simp only [mag] at hs hm
  have he : e = e' := Fin.ext (by omega)
  have hf : m = m' := Fin.ext (by omega)
  rw [hs, he, hf]

theorem toBits_lt : f.toBits < 2 ^ 64 := by
  have he := f.expo.isLt
  have hf := f.frac.isLt
  unfold toBits
  split <;> omega

theorem ofBits_toBits : ofBits f.toBits = f := by
  obtain ⟨sign, ⟨e, he⟩, ⟨m, hm⟩⟩ := f
  simp only [ofBits, toBits, F64.mk.injEq, Fin.mk.injEq]
  cases sign <;> simp <;> omega

theorem toBits_ofBits {w : Nat} (h : w < 2 ^ 64) : (ofBits w).toBits = w := by
  simp only [ofBits, toBits, decide_eq_true_eq]
  split <;> omega

theorem toBits_inj {a b : F64} : a.toBits = b.toBits ↔ a = b := by
  refine ⟨fun h => ?_, fun h => h ▸ rfl⟩
  rw [← ofBits_toBits a, h, ofBits_toBits]

theorem scaledAbs_lt : f.scaledAbs < 2 ^ (52 + f.expo.val) := by
  have hf := f.frac.isLt
  unfold scaledAbs
  split
  · rename_i h; rw [h]; exact hf
  · rename_i h
    have hp : 0 < 2 ^ (f.expo.val - 1) := Nat.two_pow_pos _
    have : 2 ^ (52 + f.expo.val) = 2 ^ 53 * 2 ^ (f.expo.val - 1) := by
      rw [← Nat.pow_add]; congr 1; omega
    rw [this]
    exact Nat.mul_lt_mul_of_pos_right (by omega) hp

theorem le_scaledAbs (h : f.expo.val ≠ 0) : 2 ^ (51 + f.expo.val) ≤ f.scaledAbs := by
  unfold scaledAbs
  rw [if_neg h]
  have : 2 ^ (51 + f.expo.val) = 2 ^ 52 * 2 ^ (f.expo.val - 1) := by
    rw [← Nat.pow_add]; congr 1; omega
  rw [this]
  exact Nat.mul_le_mul_right _ (by omega)

theorem scaledAbs_lt_of_mag_lt {a b : F64} (h : a.mag < b.mag) : a.scaledAbs < b.scaledAbs := by
  have hfa := a.frac.isLt
  have hfb := b.frac.isLt
  by_cases he : a.expo.val = b.expo.val
  · have hf : a.frac.val < b.frac.val := by simp only [mag, he] at h; omega
    unfold scaledAbs
    rw [he]
    split
    · exact hf
    · exact Nat.mul_lt_mul_of_pos_right (by omega) (Nat.two_pow_pos _)
  · have hlt : a.expo.val < b.expo.val := by simp only [mag] at h; omega
    calc a.scaledAbs < 2 ^ (52 + a.expo.val) := scaledAbs_lt a
      _ ≤ 2 ^ (51 + b.expo.val) := Nat.pow_le_pow_right (by decide) (by omega)
      _ ≤ b.scaledAbs := le_scaledAbs b (by omega)

theorem scaledAbs_lt_iff {a b : F64} : a.scaledAbs < b.scaledAbs ↔ a.mag < b.mag := by
  refine ⟨fun h => ?_, scaledAbs_lt_of_mag_lt⟩
  by_contra hn
  rcases Nat.lt_or_eq_of_le (Nat.le_of_not_lt hn) with h' | h'
  · have := scaledAbs_lt_of_mag_lt h'; omega
  · have : b = ⟨b.sign, a.expo, a.frac⟩ := ext_fields rfl h'
    rw [this] at h
    exact absurd h (Nat.lt_irrefl _)

theorem scaledAbs_eq_zero {f : F64} : f.scaledAbs = 0 ↔ f.mag = 0 := by
  have h0 : (zero).scaledAbs = 0 := by decide
  have hm : (zero).mag = 0 := by decide
  have := scaledAbs_lt_iff (a := zero) (b := f)
  omega

theorem add_mod_of_dvd {k n : Nat} (h : k ∣ n) (m : Nat) : (n + m) % k = m % k := by
  obtain ⟨c, rfl⟩ := h
  exact Nat.mul_add_mod ..

/-! ## One integer for every bit pattern -/

/-- The position of a double among all bit patterns: twice its value in units of 2^-1074,
    with `-0` just below `0`. -/
def rank : Int := 2 * f.scaled - (if f.sign ∧ f.mag = 0 then 1 else 0)

/-- The position of an integer among the doubles: it carries the sign of `+0`. -/
def intRank (x : Int64) : Int := 2 * (x.toInt * unit)

theorem rank_eq {f : F64} (h : f ≠ negZero) : f.rank = 2 * f.scaled := by
  have hnot : ¬ (f.sign ∧ f.mag = 0) := fun hz => h (ext_fields hz.1 hz.2)
  rw [rank, if_neg hnot, Int.sub_zero]

theorem totalKey_lt_iff {a b : F64} : a.totalKey < b.totalKey ↔ a.rank < b.rank := by
  have hab := scaledAbs_lt_iff (a := a) (b := b)
  have hba := scaledAbs_lt_iff (a := b) (b := a)
  have ha := scaledAbs_eq_zero (f := a)
  have hb := scaledAbs_eq_zero (f := b)
  cases hsa : a.sign <;> cases hsb : b.sign <;> simp only [totalKey, rank, scaled, hsa, hsb] <;> simp <;>
    (repeat' split) <;> omega

theorem rank_inj {a b : F64} : a.rank = b.rank ↔ a = b := by
  refine ⟨fun h => ?_, fun h => h ▸ rfl⟩
  have h1 : ¬a.totalKey < b.totalKey := fun hl => by have := totalKey_lt_iff.mp hl; omega
  have h2 : ¬b.totalKey < a.totalKey := fun hl => by have := totalKey_lt_iff.mp hl; omega
  have hk : a.totalKey = b.totalKey := by omega
  cases hsa : a.sign <;> cases hsb : b.sign <;> simp only [totalKey, hsa, hsb] at hk
  · exact ext_fields (by rw [hsa, hsb]) (by simpa using hk)
  · simp at hk; omega
  · simp at hk; omega
  · exact ext_fields (by rw [hsa, hsb]) (by simp at hk; omega)

theorem compare_congr {a b c d : Int} (h1 : a < b ↔ c < d) (h2 : b < a ↔ d < c) :
    compare a b = compare c d := by
  rcases Int.lt_trichotomy a b with h | h | h
  · rw [Int.compare_eq_lt.mpr h, Int.compare_eq_lt.mpr (h1.mp h)]
  · have : c = d := by omega
    rw [Int.compare_eq_eq.mpr h, Int.compare_eq_eq.mpr this]
  · rw [Int.compare_eq_gt.mpr h, Int.compare_eq_gt.mpr (h2.mp h)]

/-- `total_cmp` is the order of the ranks. -/
theorem totalCmp_eq (a b : F64) : totalCmp a b = compare a.rank b.rank :=
  compare_congr totalKey_lt_iff totalKey_lt_iff

/-! ## Truncation and the cast -/

theorem unit_split {a b : Nat} (h : a + b = 1074) : unit = 2 ^ a * 2 ^ b := by
  rw [unit, ← h, Nat.pow_add]

theorem le_unit {a : Nat} (h : a ≤ 1074) : 2 ^ a ≤ unit := by
  rw [unit_split (a := a) (b := 1074 - a) (by omega)]
  exact Nat.le_mul_of_pos_right _ (Nat.two_pow_pos _)

theorem unit_pos : 0 < unit := Nat.lt_of_lt_of_le (by decide) (le_unit (Nat.zero_le 1074))

/-- Division toward zero, as bounds. -/
theorem tdiv_bounds (s : Int) {u : Int} (hu : 0 < u) :
    (0 ≤ s → 0 ≤ s.tdiv u ∧ s.tdiv u * u ≤ s ∧ s < s.tdiv u * u + u) ∧
      (s ≤ 0 → s.tdiv u ≤ 0 ∧ s ≤ s.tdiv u * u ∧ s.tdiv u * u - u < s) := by
  have pos : ∀ t : Int, 0 ≤ t → 0 ≤ t.tdiv u ∧ t.tdiv u * u ≤ t ∧ t < t.tdiv u * u + u := by
    intro t ht
    have hdm := Int.mul_tdiv_add_tmod t u
    rw [Int.mul_comm] at hdm
    have h1 := Int.tmod_lt_of_pos t hu
    have h2 := Int.tmod_nonneg u ht
    exact ⟨Int.tdiv_nonneg ht (by omega), by omega, by omega⟩
  refine ⟨pos s, fun h => ?_⟩
  have := pos (-s) (by omega)
  rw [Int.neg_tdiv, Int.neg_mul] at this
  omega

@[simp] theorem trunc_sign : f.trunc.sign = f.sign := by
  unfold trunc; split <;> [rfl; (split <;> rfl)]

theorem trunc_isNan (h : f.isNan = false) : f.trunc.isNan = false := by
  unfold trunc
  split
  · rfl
  · split
    · rename_i h'
      have : (f.expo.val == 2047) = false := by simp; omega
      simp [isNan, this]
    · exact h

/-- Clearing the bits of the significand below the point is division by a power of two. -/
theorem clear_low (M P k : Nat) (hP : 0 < P) : M * P / (P * 2 ^ k) * (P * 2 ^ k) = (M - M % 2 ^ k) * P := by
  rw [Nat.mul_comm M P, Nat.mul_div_mul_left _ _ hP, ← Nat.mul_assoc, Nat.mul_right_comm]
  congr 1
  have := Nat.div_add_mod M (2 ^ k)
  rw [Nat.mul_comm]
  omega

theorem trunc_scaledAbs : f.trunc.scaledAbs = f.scaledAbs / unit * unit := by
  have hf := f.frac.isLt
  unfold trunc
  split
  · rename_i h
    have hlt : f.scaledAbs < unit :=
      Nat.lt_of_lt_of_le (scaledAbs_lt f) (le_unit (by omega))
    rw [Nat.div_eq_of_lt hlt, Nat.zero_mul]
    rfl
  · rename_i h
    have he : f.expo.val ≠ 0 := by omega
    split
    · rename_i h'
      have hu : unit = 2 ^ (f.expo.val - 1) * 2 ^ (1075 - f.expo.val) := unit_split (by omega)
      have hmod : (2 ^ 52 + f.frac.val) % 2 ^ (1075 - f.expo.val) = f.frac.val % 2 ^ (1075 - f.expo.val) :=
        add_mod_of_dvd (Nat.pow_dvd_pow 2 (by omega)) _
      have hle := Nat.mod_le f.frac.val (2 ^ (1075 - f.expo.val))
      simp only [scaledAbs, if_neg he]
      rw [hu, clear_low _ _ _ (Nat.two_pow_pos _), hmod, Nat.add_sub_assoc hle]
    · rename_i h'
      have hu : 2 ^ (f.expo.val - 1) = 2 ^ (f.expo.val - 1075) * unit := by
        rw [unit, ← Nat.pow_add, show f.expo.val - 1075 + 1074 = f.expo.val - 1 by omega]
      simp only [scaledAbs, if_neg he]
      rw [hu, ← Nat.mul_assoc, Nat.mul_div_cancel _ unit_pos]

theorem trunc_scaled : f.trunc.scaled = f.scaled.tdiv unit * unit := by
  have h : ((f.scaledAbs / unit * unit : Nat) : Int) = (f.scaledAbs : Int).tdiv unit * unit := by push_cast; rfl
  unfold scaled
  rw [trunc_sign, trunc_scaledAbs, h]
  cases f.sign
  · rfl
  · simp only [if_true, Int.neg_tdiv, Int.neg_mul]

/-- An in-range double's cast is its integer part. -/
theorem asI64_toInt (hn : f.isNan = false) (hlo : -(2 ^ 63 * unit : Int) ≤ f.scaled)
    (hhi : f.scaled < 2 ^ 63 * unit) : f.asI64.toInt = f.scaled.tdiv unit := by
  have hu : (0 : Int) < unit := by exact_mod_cast unit_pos
  obtain ⟨hb1, hb2⟩ := tdiv_bounds f.scaled hu
  have hlo' : -2 ^ 63 ≤ f.scaled.tdiv unit := by
    by_contra hc
    have := Int.mul_le_mul_of_nonneg_right (show f.scaled.tdiv unit + 1 ≤ -2 ^ 63 by omega) (Int.le_of_lt hu)
    rw [Int.add_mul] at this
    omega
  have hhi' : f.scaled.tdiv unit < 2 ^ 63 := by
    by_contra hc
    have := Int.mul_le_mul_of_nonneg_right (show 2 ^ 63 ≤ f.scaled.tdiv unit by omega) (Int.le_of_lt hu)
    omega
  unfold asI64
  rw [hn, if_neg (by decide), max_eq_right (by omega), min_eq_right (by omega)]
  exact Int64.toInt_ofInt_of_le hlo' hhi'

theorem asI64_trunc (hn : f.isNan = false) (hlo : -(2 ^ 63 * unit : Int) ≤ f.scaled)
    (hhi : f.scaled < 2 ^ 63 * unit) : f.trunc.asI64.toInt = f.scaled.tdiv unit := by
  have hu : (0 : Int) < unit := by exact_mod_cast unit_pos
  obtain ⟨hb1, hb2⟩ := tdiv_bounds f.scaled hu
  have hts := trunc_scaled f
  rw [asI64_toInt f.trunc (trunc_isNan f hn) (by omega) (by omega), hts, Int.mul_tdiv_cancel _ (by omega)]

theorem finite_not_nan {n : F64} (h : n.isFinite = true) : n.isNan = false := by
  simp only [isFinite, bne_iff_ne] at h
  simp [isNan, h]

/-- An integral double in the range of i64 is cast to its value. -/
theorem asI64_scaled {n : F64} (hn : n.isNan = false) (heq : n.trunc.scaled = n.scaled) (hlo : -(2 ^ 63 * unit : Int) ≤ n.scaled)
    (hhi : n.scaled < 2 ^ 63 * unit) : n.asI64.toInt * unit = n.scaled := by
  rw [asI64_toInt n hn hlo hhi, ← trunc_scaled, heq]

end F64

end Rindle
