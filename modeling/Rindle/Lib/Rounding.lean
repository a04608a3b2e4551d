/-
  Rindle.Lib.Rounding — arithmetic on doubles, rounded to nearest with ties to even.

  A result is the exact quotient of two naturals in units of 2^-1074, rounded at the first
  exponent where its significand fits in 53 bits (`ofRatio`). What is needed of it is that a
  quotient of at least one unit is not rounded to zero (`ofRatio_ne_zero`), that rounding keeps
  a bound by a power of two, and that the rounding of integers keeps their order among themselves
  and among the doubles (`ofInt_mono`, `le_ofInt`, `ofInt_le`).
-/

import Rindle.Lib.Binary64

namespace Rindle.F64

/-- `n / d` to the nearest natural, ties to even. -/
def divRound (n d : Nat) : Nat :=
  if 2 * (n % d) < d ∨ (2 * (n % d) = d ∧ n / d % 2 = 0) then n / d else n / d + 1

/-- The significand of `n / d` where the last place is 2^i units. -/
@[irreducible] def significand (n d i : Nat) : Nat := divRound (n * unit) (d * 2 ^ i)

def nan : F64 := ⟨false, 2047, ⟨2 ^ 51, by decide⟩⟩

/-- The first place below `bound` where the significand fits in 53 bits. -/
def firstFit (sig : Nat → Nat) (bound : Nat) : Option Nat := (List.range bound).find? fun i => decide (sig i < 2 ^ 53)

/-- The double with the significand `sig i` at the place `i`; without a place, the infinity. -/
def encode (sign : Bool) (sig : Nat → Nat) : Option Nat → F64
  | none => ⟨sign, 2047, 0⟩
  | some i =>
    if i = 0 ∧ sig i < 2 ^ 52 then ⟨sign, 0, ⟨sig i % 2 ^ 52, Nat.mod_lt _ (by decide)⟩⟩
    else ⟨sign, ⟨(i + 1) % 2048, Nat.mod_lt _ (by decide)⟩, ⟨sig i % 2 ^ 52, Nat.mod_lt _ (by decide)⟩⟩

/-- The double next to `n / d`, with a sign. -/
def ofRatio (sign : Bool) (n d : Nat) : F64 := encode sign (significand n d) (firstFit (significand n d) 2046)

/-- An integer `as f64`. -/
def ofInt (i : Int) : F64 := ofRatio (decide (i < 0)) i.natAbs 1

def neg (a : F64) : F64 := { a with sign := !a.sign }

def isInfinite (a : F64) : Bool := a.expo.val == 2047 && a.frac.val == 0

/-- `a + b`. -/
def add (a b : F64) : F64 :=
  if a.isNan || b.isNan then nan
  else if a.isInfinite then if b.isInfinite && a.sign != b.sign then nan else a
  else if b.isInfinite then b
  else
    let z := a.scaled + b.scaled
    if z = 0 then ⟨a.sign && b.sign, 0, 0⟩ else ofRatio (decide (z < 0)) z.natAbs unit

/-- `a / b`. -/
def div (a b : F64) : F64 :=
  let sign := a.sign != b.sign
  if a.isNan || b.isNan then nan
  else if a.isInfinite then if b.isInfinite then nan else ⟨sign, 2047, 0⟩
  else if b.isInfinite then ⟨sign, 0, 0⟩
  else if b.scaledAbs = 0 then if a.scaledAbs = 0 then nan else ⟨sign, 2047, 0⟩
  else ofRatio sign a.scaledAbs b.scaledAbs

/-! ## Bounds kept by rounding -/

theorem le_divRound {n d k : Nat} (hd : 0 < d) (h : k * d ≤ n) : k ≤ divRound n d := by
  have hk : k ≤ n / d := (Nat.le_div_iff_mul_le hd).mpr h
  unfold divRound
  split <;> omega

theorem divRound_le {n d k : Nat} (hd : 0 < d) (h : n ≤ k * d) : divRound n d ≤ k := by
  have hdm := Nat.div_add_mod n d
  have hlt := Nat.mod_lt n hd
  have hk : n / d ≤ k := Nat.div_le_of_le_mul (by rw [Nat.mul_comm]; exact h)
  unfold divRound
  split
  · exact hk
  · rename_i hround
    -- a quotient of `k` exactly has no remainder, and is not rounded up
    rcases Nat.lt_or_eq_of_le hk with hlt' | heq
    · exact hlt'
    · have hzero : n % d = 0 := by
        rw [heq, Nat.mul_comm] at hdm
        omega
      rw [hzero] at hround
      exact absurd (Or.inl (by omega)) hround

theorem two_mul_le_of_divRound_le {n d k : Nat} (hd : 0 < d) (h : divRound n d ≤ k) : 2 * n ≤ (2 * k + 1) * d := by
  have hdm := Nat.div_add_mod n d
  have hlt := Nat.mod_lt n hd
  have hq : (2 * k + 1) * d = 2 * (d * k) + d := by ring
  unfold divRound at h
  split at h
  · have hk : d * (n / d) ≤ d * k := Nat.mul_le_mul_left d h
    omega
  · have hk : d * (n / d + 1) ≤ d * k := Nat.mul_le_mul_left d h
    rw [Nat.mul_add] at hk
    omega

/-- The fields of a rounded quotient, by the place it is rounded at. -/
inductive Rounded (sign : Bool) (sig : Nat → Nat) : F64 → Prop
  | overflow (h : ∀ i < 2046, 2 ^ 53 ≤ sig i) : Rounded sign sig ⟨sign, 2047, 0⟩
  | sub {m : Fin (2 ^ 52)} (h : m.val = sig 0) : Rounded sign sig ⟨sign, 0, m⟩
  | norm {i : Nat} {e : Fin 2048} {m : Fin (2 ^ 52)} (hi : i < 2046) (he : e.val = i + 1) (hm : 2 ^ 52 + m.val = sig i) :
      Rounded sign sig ⟨sign, e, m⟩

/-- Where a significand fits and the one before did not, it has all 53 bits. -/
theorem significand_full {n d i : Nat} (hd : 0 < d) (hi : 0 < i) (hprev : 2 ^ 53 ≤ significand n d (i - 1)) :
    2 ^ 52 ≤ significand n d i := by
  by_contra hcon
  have hpow : d * 2 ^ i = 2 * (d * 2 ^ (i - 1)) := by
    have hsucc : 2 ^ i = 2 ^ (i - 1) * 2 := by
      rw [← Nat.pow_succ]
      congr 1
      omega
    rw [hsucc]
    ring
  have hle : significand n d i ≤ 2 ^ 52 - 1 := by omega
  rw [significand] at hle
  have htwice := two_mul_le_of_divRound_le (Nat.mul_pos hd (Nat.two_pow_pos i)) hle
  rw [hpow] at htwice
  have hbound : significand n d (i - 1) ≤ 2 ^ 53 - 1 := by
    rw [significand]
    refine divRound_le (Nat.mul_pos hd (Nat.two_pow_pos _)) ?_
    generalize n * unit = N at htwice ⊢
    generalize d * 2 ^ (i - 1) = D at htwice ⊢
    omega
  omega

variable {f : F64} {sign : Bool} {sig : Nat → Nat}

theorem firstFit_none {bound : Nat} (h : firstFit sig bound = none) : ∀ i < bound, 2 ^ 53 ≤ sig i := by
  intro i hi
  have hwide := List.find?_range_eq_none.mp h i hi
  simpa using hwide

theorem firstFit_some {bound i : Nat} (h : firstFit sig bound = some i) :
    sig i < 2 ^ 53 ∧ i < bound ∧ ∀ j < i, 2 ^ 53 ≤ sig j := by
  obtain ⟨hfits, hi, hbefore⟩ := List.find?_range_eq_some.mp h
  refine ⟨of_decide_eq_true hfits, List.mem_range.mp hi, fun j hj => ?_⟩
  have hwide := hbefore j hj
  simpa using hwide

theorem encode_rounded (sign : Bool) (hfull : ∀ i, 0 < i → 2 ^ 53 ≤ sig (i - 1) → 2 ^ 52 ≤ sig i) :
    ∀ {place : Option Nat}, firstFit sig 2046 = place → Rounded sign sig (encode sign sig place) := by
  intro place h
  cases place with
  | none => exact .overflow (firstFit_none h)
  | some i =>
    obtain ⟨hfits, hi, hbefore⟩ := firstFit_some h
    rw [encode]
    by_cases hsub : i = 0 ∧ sig i < 2 ^ 52
    · rw [if_pos hsub]
      obtain ⟨rfl, hlt⟩ := hsub
      exact .sub (Nat.mod_eq_of_lt hlt)
    · rw [if_neg hsub]
      have hlow : 2 ^ 52 ≤ sig i := by
        rcases Nat.eq_zero_or_pos i with rfl | hpos
        · omega
        · exact hfull i hpos (hbefore (i - 1) (by omega))
      refine .norm hi (Nat.mod_eq_of_lt (by omega)) ?_
      show 2 ^ 52 + sig i % 2 ^ 52 = sig i
      omega

theorem ofRatio_rounded (sign : Bool) (n : Nat) {d : Nat} (hd : 0 < d) : Rounded sign (significand n d) (ofRatio sign n d) :=
  encode_rounded sign (fun _ hi hprev => significand_full hd hi hprev) rfl

/-- A quotient of a unit or more is not zero. -/
theorem ofRatio_ne_zero {n d : Nat} (hd : 0 < d) (h : d ≤ n * unit) : (ofRatio sign n d).mag ≠ 0 := by
  have hr := ofRatio_rounded sign n hd
  generalize ofRatio sign n d = f at hr
  cases hr with
  | overflow => cases sign <;> decide
  | sub hm =>
    have hone : 1 ≤ significand n d 0 := by
      rw [significand]
      exact le_divRound (by omega) (by omega)
    simp only [mag]
    omega
  | norm hi he hm =>
    simp only [mag]
    omega

theorem ofRatio_sign (sign : Bool) (n d : Nat) : (ofRatio sign n d).sign = sign := by
  unfold ofRatio
  cases firstFit (significand n d) 2046 with
  | none => rfl
  | some i =>
    rw [encode]
    split <;> rfl

theorem ofRatio_not_nan (sign : Bool) (n : Nat) {d : Nat} (hd : 0 < d) : (ofRatio sign n d).isNan = false := by
  have hr := ofRatio_rounded sign n hd
  generalize ofRatio sign n d = f at hr
  cases hr with
  | overflow => rfl
  | sub hm => rfl
  | @norm i e m hi he hm =>
    have hne : (e.val == 2047) = false := by
      rw [beq_eq_false_iff_ne]
      omega
    simp [isNan, hne]

theorem norm_scaledAbs {e : Fin 2048} {m : Fin (2 ^ 52)} {i sig : Nat} (he : e.val = i + 1) (hm : 2 ^ 52 + m.val = sig) :
    (F64.mk sign e m).scaledAbs = sig * 2 ^ i := by
  have hne : ¬ e.val = 0 := by omega
  simp only [scaledAbs, hne, if_false, hm]
  rw [he, Nat.add_sub_cancel]

theorem unit_le_pow {k : Nat} (h : 1074 ≤ k) : unit ≤ 2 ^ k := by
  have hmono : ∀ a b : Nat, a ≤ b → 2 ^ a ≤ 2 ^ b := fun _ _ hab => Nat.pow_le_pow_right (by decide) hab
  exact hmono 1074 k h

theorem unit_le_scaledAbs (h : 1023 ≤ f.expo.val) : unit ≤ f.scaledAbs :=
  (unit_le_pow (by omega)).trans (le_scaledAbs f (by omega))

theorem pow_63_unit {a b : Nat} (h : a + b = 1137) : 2 ^ 63 * unit = 2 ^ a * 2 ^ b := by
  have hexp : 63 + 1074 = a + b := by omega
  rw [unit, ← Nat.pow_add, hexp, Nat.pow_add]

theorem pow_63_unit_le {k : Nat} (h : 1137 ≤ k) : 2 ^ 63 * unit ≤ 2 ^ k := by
  obtain ⟨j, rfl⟩ := Nat.exists_eq_add_of_le h
  rw [show 1137 + j = 63 + (1074 + j) by omega, Nat.pow_add 2 63]
  exact Nat.mul_le_mul_left _ (unit_le_pow (by omega))

/-- A quotient of one or more stays so. -/
theorem unit_le_ofRatio {n d : Nat} (hd : 0 < d) (h : d ≤ n) : unit ≤ (ofRatio sign n d).scaledAbs := by
  have hr := ofRatio_rounded sign n hd
  generalize ofRatio sign n d = f at hr
  have hplace : ∀ i, i ≤ 1074 → 2 ^ (1074 - i) ≤ significand n d i := by
    intro i hi
    rw [significand]
    refine le_divRound (Nat.mul_pos hd (Nat.two_pow_pos i)) ?_
    calc 2 ^ (1074 - i) * (d * 2 ^ i) = d * (2 ^ (1074 - i) * 2 ^ i) := by ring
      _ = d * unit := by rw [← unit_split (by omega)]
      _ ≤ n * unit := Nat.mul_le_mul_right _ h
  cases hr with
  | overflow => exact unit_le_scaledAbs (by show 1023 ≤ 2047; decide)
  | @sub m hm =>
    have hzero := hplace 0 (by decide)
    rw [← hm, Nat.sub_zero] at hzero
    exact hzero
  | @norm i e m hi he hm =>
    by_cases hle : i ≤ 1074
    · have hsig := hplace i hle
      have habs : (F64.mk sign e m).scaledAbs = significand n d i * 2 ^ i := norm_scaledAbs he hm
      rw [habs, unit_split (show (1074 - i) + i = 1074 by omega)]
      exact Nat.mul_le_mul_right _ hsig
    · exact unit_le_scaledAbs (by show 1023 ≤ e.val; omega)

theorem significand_past {n i : Nat} (h : n ≤ 2 ^ 63) (hi : 1137 ≤ i) : significand n 1 i ≤ 1 := by
  rw [significand]
  refine divRound_le (Nat.mul_pos Nat.one_pos (Nat.two_pow_pos i)) ?_
  rw [Nat.one_mul, Nat.one_mul]
  exact (Nat.mul_le_mul_right _ h).trans (pow_63_unit_le hi)

/-- An integer of at most 63 bits stays so. -/
theorem ofRatio_le {n : Nat} (h : n ≤ 2 ^ 63) : (ofRatio sign n 1).scaledAbs ≤ 2 ^ 63 * unit := by
  have hr := ofRatio_rounded sign n Nat.one_pos
  generalize ofRatio sign n 1 = f at hr
  have hle : n * unit ≤ 2 ^ 63 * unit := Nat.mul_le_mul_right _ h
  have hplace : ∀ i, i ≤ 1137 → significand n 1 i ≤ 2 ^ (1137 - i) := by
    intro i hi
    rw [significand]
    refine divRound_le (Nat.mul_pos Nat.one_pos (Nat.two_pow_pos i)) (hle.trans (Nat.le_of_eq ?_))
    rw [Nat.one_mul, pow_63_unit (show (1137 - i) + i = 1137 by omega)]
  have hpast : ∀ i, 1137 ≤ i → significand n 1 i ≤ 1 := fun i => significand_past h
  cases hr with
  | overflow hwide =>
    have := hwide 2045 (by decide)
    have := hpast 2045 (by decide)
    omega
  | @sub m hm =>
    show m.val ≤ 2 ^ 63 * unit
    have hm := m.isLt
    calc m.val ≤ 2 ^ 63 := by omega
      _ ≤ 2 ^ 63 * unit := Nat.le_mul_of_pos_right _ unit_pos
  | @norm i e m hi he hm =>
    have habs : (F64.mk sign e m).scaledAbs = significand n 1 i * 2 ^ i := norm_scaledAbs he hm
    by_cases hi' : i ≤ 1137
    · rw [habs, pow_63_unit (show (1137 - i) + i = 1137 by omega)]
      exact Nat.mul_le_mul_right _ (hplace i hi')
    · have := hpast i (by omega)
      omega

/-- An integer of at most 63 bits is widened to a whole number. -/
theorem unit_dvd_ofRatio {n : Nat} (h : n ≤ 2 ^ 63) : unit ∣ (ofRatio sign n 1).scaledAbs := by
  have hr := ofRatio_rounded sign n Nat.one_pos
  generalize ofRatio sign n 1 = f at hr
  have hexact : ∀ i, i ≤ 1074 → significand n 1 i * 2 ^ i = n * unit := by
    intro i hi
    have hsplit : n * unit = n * 2 ^ (1074 - i) * (1 * 2 ^ i) := by
      rw [unit_split (show (1074 - i) + i = 1074 by omega), Nat.one_mul, Nat.mul_assoc]
    rw [significand, divRound, hsplit, Nat.mul_mod_left, if_pos (Or.inl (by have := Nat.two_pow_pos i; omega)),
      Nat.mul_div_cancel _ (by have := Nat.two_pow_pos i; omega), Nat.one_mul]
  cases hr with
  | overflow hwide =>
    have hpast : significand n 1 2045 ≤ 1 := significand_past h (by decide)
    have := hwide 2045 (by decide)
    omega
  | @sub m hm =>
    have habs : (F64.mk sign 0 m).scaledAbs = m.val := rfl
    have hzero := hexact 0 (by decide)
    rw [Nat.pow_zero, Nat.mul_one, ← hm] at hzero
    rw [habs, hzero]
    exact Nat.dvd_mul_left _ _
  | @norm i e m hi he hm =>
    have habs : (F64.mk sign e m).scaledAbs = significand n 1 i * 2 ^ i := norm_scaledAbs he hm
    rw [habs]
    by_cases hi' : i ≤ 1074
    · rw [hexact i hi']
      exact Nat.dvd_mul_left _ _
    · have hpow : ∀ a b : Nat, a ≤ b → 2 ^ a ∣ 2 ^ b := fun _ _ hab => Nat.pow_dvd_pow 2 hab
      exact (hpow 1074 i (by omega)).trans (Nat.dvd_mul_left _ _)

/-! ## Integers keep their order -/

theorem divRound_mono {n m d : Nat} (h : n ≤ m) : divRound n d ≤ divRound m d := by
  have hq : n / d ≤ m / d := Nat.div_le_div_right h
  unfold divRound
  rcases Nat.lt_or_eq_of_le hq with hlt | heq
  · split <;> split <;> omega
  · have hn := Nat.div_add_mod n d
    have hm := Nat.div_add_mod m d
    rw [heq] at hn ⊢
    split <;> split <;> omega

theorem significand_mono {n m d i : Nat} (h : n ≤ m) : significand n d i ≤ significand m d i := by
  rw [significand, significand]
  exact divRound_mono (Nat.mul_le_mul_right _ h)

theorem encode_place {i : Nat} (hfits : sig i < 2 ^ 53) (hi : i < 2046)
    (hfull : i = 0 ∨ 2 ^ 52 ≤ sig i) : (encode sign sig (some i)).scaledAbs = sig i * 2 ^ i := by
  rw [encode]
  by_cases hsub : i = 0 ∧ sig i < 2 ^ 52
  · rw [if_pos hsub]
    obtain ⟨rfl, hlt⟩ := hsub
    rw [Nat.pow_zero, Nat.mul_one]
    exact Nat.mod_eq_of_lt hlt
  · rw [if_neg hsub]
    refine norm_scaledAbs (Nat.mod_eq_of_lt (by omega)) ?_
    show 2 ^ 52 + sig i % 2 ^ 52 = _
    omega

theorem firstFit_place {n : Nat} (h : n ≤ 2 ^ 63) : ∃ i, firstFit (significand n 1) 2046 = some i := by
  rw [← Option.isSome_iff_exists, Option.isSome_iff_ne_none]
  intro hnone
  have hwide := firstFit_none hnone 2045 (by decide)
  have hpast : significand n 1 2045 ≤ 1 := significand_past h (by decide)
  omega

/-- An integer of at most 63 bits is rounded at the first place where it fits. -/
theorem ofRatio_place {n : Nat} (h : n ≤ 2 ^ 63) : ∃ i, (ofRatio sign n 1).scaledAbs = significand n 1 i * 2 ^ i ∧
    significand n 1 i < 2 ^ 53 ∧ (i = 0 ∨ 2 ^ 52 ≤ significand n 1 i) ∧ ∀ j < i, 2 ^ 53 ≤ significand n 1 j := by
  obtain ⟨i, hfit⟩ := firstFit_place h
  obtain ⟨hfits, hi, hbefore⟩ := firstFit_some hfit
  have hfull : i = 0 ∨ 2 ^ 52 ≤ significand n 1 i := by
    rcases Nat.eq_zero_or_pos i with hzero | hpos
    · exact Or.inl hzero
    · exact Or.inr (significand_full Nat.one_pos hpos (hbefore (i - 1) (by omega)))
  refine ⟨i, ?_, hfits, hfull, hbefore⟩
  rw [ofRatio, hfit]
  exact encode_place hfits hi hfull

theorem ofRatio_mono {s s' : Bool} {n m : Nat} (h : n ≤ m) (hm : m ≤ 2 ^ 63) :
    (ofRatio s n 1).scaledAbs ≤ (ofRatio s' m 1).scaledAbs := by
  obtain ⟨i, hn, hfit, -, hbefore⟩ := @ofRatio_place s n (h.trans hm)
  obtain ⟨j, hm, hfit', hfull, -⟩ := @ofRatio_place s' m hm
  have hij : i ≤ j := by
    by_contra hlt
    have hwide := hbefore j (by omega)
    have hmono := @significand_mono n m 1 j h
    omega
  rw [hn, hm]
  rcases Nat.lt_or_eq_of_le hij with hlt | rfl
  · have hlow : 2 ^ 52 ≤ significand m 1 j := hfull.resolve_left (by omega)
    have hpow : 2 * 2 ^ i ≤ 2 ^ j := by
      rw [Nat.mul_comm, ← Nat.pow_succ]
      exact Nat.pow_le_pow_right (by decide) hlt
    calc significand n 1 i * 2 ^ i ≤ 2 ^ 53 * 2 ^ i := Nat.mul_le_mul_right _ hfit.le
      _ = 2 ^ 52 * (2 * 2 ^ i) := by ring
      _ ≤ 2 ^ 52 * 2 ^ j := Nat.mul_le_mul_left _ hpow
      _ ≤ significand m 1 j * 2 ^ j := Nat.mul_le_mul_right _ hlow
  · exact Nat.mul_le_mul_right _ (significand_mono h)

/-- A magnitude is a significand at a place. -/
theorem scaledAbs_place (f : F64) : ∃ m j, f.scaledAbs = m * 2 ^ j ∧ m < 2 ^ 53 := by
  have hf := f.frac.isLt
  unfold scaledAbs
  split
  · exact ⟨f.frac.val, 0, by simp, by omega⟩
  · exact ⟨2 ^ 52 + f.frac.val, f.expo.val - 1, rfl, by omega⟩

theorem le_ofRatio {s : Bool} {n : Nat} (hn : n ≤ 2 ^ 63) (h : f.scaledAbs ≤ n * unit) :
    f.scaledAbs ≤ (ofRatio s n 1).scaledAbs := by
  obtain ⟨i, hr, -, hfull, -⟩ := @ofRatio_place s n hn
  obtain ⟨m, j, hf, hm⟩ := scaledAbs_place f
  rw [hf] at h
  rw [hr, hf]
  by_cases hij : i ≤ j
  · obtain ⟨k, rfl⟩ := Nat.exists_eq_add_of_le hij
    have hsplit : m * 2 ^ (i + k) = m * 2 ^ k * 2 ^ i := by
      rw [Nat.pow_add]
      ring
    rw [hsplit] at h ⊢
    refine Nat.mul_le_mul_right _ ?_
    rw [significand]
    exact le_divRound (Nat.mul_pos Nat.one_pos (Nat.two_pow_pos i)) (by rw [Nat.one_mul]; exact h)
  · have hlow : 2 ^ 52 ≤ significand n 1 i := hfull.resolve_left (by omega)
    have hpow : 2 * 2 ^ j ≤ 2 ^ i := by
      rw [Nat.mul_comm, ← Nat.pow_succ]
      exact Nat.pow_le_pow_right (by decide) (by omega)
    calc m * 2 ^ j ≤ 2 ^ 53 * 2 ^ j := Nat.mul_le_mul_right _ hm.le
      _ = 2 ^ 52 * (2 * 2 ^ j) := by ring
      _ ≤ 2 ^ 52 * 2 ^ i := Nat.mul_le_mul_left _ hpow
      _ ≤ significand n 1 i * 2 ^ i := Nat.mul_le_mul_right _ hlow

theorem ofRatio_le_of {s : Bool} {n : Nat} (hn : n ≤ 2 ^ 63) (h : n * unit ≤ f.scaledAbs) :
    (ofRatio s n 1).scaledAbs ≤ f.scaledAbs := by
  obtain ⟨i, hr, -, hfull, hbefore⟩ := @ofRatio_place s n hn
  obtain ⟨m, j, hf, hm⟩ := scaledAbs_place f
  rw [hf] at h
  rw [hr, hf]
  by_cases hij : i ≤ j
  · obtain ⟨k, rfl⟩ := Nat.exists_eq_add_of_le hij
    have hsplit : m * 2 ^ (i + k) = m * 2 ^ k * 2 ^ i := by
      rw [Nat.pow_add]
      ring
    rw [hsplit] at h ⊢
    refine Nat.mul_le_mul_right _ ?_
    rw [significand]
    exact divRound_le (Nat.mul_pos Nat.one_pos (Nat.two_pow_pos i)) (by rw [Nat.one_mul]; exact h)
  · -- the place before would have fit
    have hwide := hbefore (i - 1) (by omega)
    have hpow : 2 ^ j ≤ 2 ^ (i - 1) := Nat.pow_le_pow_right (by decide) (by omega)
    have hsmall : significand n 1 (i - 1) ≤ m := by
      rw [significand]
      refine divRound_le (Nat.mul_pos Nat.one_pos (Nat.two_pow_pos _)) ?_
      rw [Nat.one_mul]
      exact h.trans (Nat.mul_le_mul_left _ hpow)
    omega

theorem ofInt_scaled_neg {i : Int} (h : i < 0) : (ofInt i).scaled = -((ofInt i).scaledAbs :
    Int) ∧ i * unit = -((i.natAbs * unit : Nat) : Int) := by
  have hsign : (ofInt i).sign = true := (ofRatio_sign _ _ _).trans (decide_eq_true h)
  have habs : (i.natAbs : Int) = -i := by omega
  refine ⟨by rw [scaled, if_pos hsign], ?_⟩
  push_cast [habs]
  ring

theorem ofInt_scaled_nonneg {i : Int} (h : 0 ≤ i) : (ofInt i).scaled = ((ofInt i).scaledAbs :
    Int) ∧ i * unit = ((i.natAbs * unit : Nat) : Int) := by
  have hsign : (ofInt i).sign = false := (ofRatio_sign _ _ _).trans (decide_eq_false (by omega))
  have habs : (i.natAbs : Int) = i := by omega
  refine ⟨by rw [scaled, hsign]; rfl, ?_⟩
  push_cast [habs]
  rfl

theorem ofInt_mono {i j : Int} (h : i ≤ j) (hi : i.natAbs ≤ 2 ^ 63) (hj : j.natAbs ≤ 2 ^ 63) :
    (ofInt i).scaled ≤ (ofInt j).scaled := by
  by_cases hneg : i < 0
  · rw [(ofInt_scaled_neg hneg).1]
    by_cases hneg' : j < 0
    · rw [(ofInt_scaled_neg hneg').1]
      have habs : (ofInt j).scaledAbs ≤ (ofInt i).scaledAbs := ofRatio_mono (by omega) hi
      omega
    · rw [(ofInt_scaled_nonneg (by omega)).1]
      omega
  · rw [(ofInt_scaled_nonneg (by omega)).1, (ofInt_scaled_nonneg (by omega)).1]
    have habs : (ofInt i).scaledAbs ≤ (ofInt j).scaledAbs := ofRatio_mono (by omega) hj
    omega

/-- A double up to an integer is up to what it is rounded to. -/
theorem le_ofInt {i : Int} (hi : i.natAbs ≤ 2 ^ 63) (h : f.scaled ≤ i * unit) : f.scaled ≤ (ofInt i).scaled := by
  by_cases hneg : i < 0
  · obtain ⟨hr, hval⟩ := ofInt_scaled_neg hneg
    rw [hval] at h
    rw [hr]
    unfold scaled at h ⊢
    cases hs : f.sign with
    | true =>
      rw [hs, if_pos rfl] at h
      have habs : (ofInt i).scaledAbs ≤ f.scaledAbs := ofRatio_le_of hi (by omega)
      rw [if_pos rfl]
      omega
    | false =>
      rw [hs] at h
      have hpos : 0 < i.natAbs * unit := Nat.mul_pos (by omega) unit_pos
      simp only [Bool.false_eq_true, if_false] at h
      omega
  · obtain ⟨hr, hval⟩ := ofInt_scaled_nonneg (show 0 ≤ i by omega)
    rw [hval] at h
    rw [hr]
    unfold scaled at h ⊢
    split
    · omega
    · rename_i hs
      rw [if_neg hs] at h
      have habs : f.scaledAbs ≤ (ofInt i).scaledAbs := le_ofRatio hi (by omega)
      omega

/-- And one from the integer on is from there on. -/
theorem ofInt_le {i : Int} (hi : i.natAbs ≤ 2 ^ 63) (h : i * unit ≤ f.scaled) : (ofInt i).scaled ≤ f.scaled := by
  by_cases hneg : i < 0
  · obtain ⟨hr, hval⟩ := ofInt_scaled_neg hneg
    rw [hval] at h
    rw [hr]
    unfold scaled at h ⊢
    split
    · rename_i hs
      rw [if_pos hs] at h
      have habs : f.scaledAbs ≤ (ofInt i).scaledAbs := le_ofRatio hi (by omega)
      omega
    · omega
  · obtain ⟨hr, hval⟩ := ofInt_scaled_nonneg (show 0 ≤ i by omega)
    rw [hval] at h
    rw [hr]
    unfold scaled at h ⊢
    split
    · rename_i hs
      rw [if_pos hs] at h
      have hsmall : i.natAbs * unit ≤ f.scaledAbs := by omega
      have habs : (ofInt i).scaledAbs ≤ f.scaledAbs := ofRatio_le_of hi hsmall
      -- both are zero
      have hzero : (ofInt i).scaledAbs = 0 := by
        have hnone : (ofInt i).scaledAbs ≤ F64.zero.scaledAbs := ofRatio_le_of hi (by show _ ≤ 0; omega)
        exact Nat.le_zero.mp hnone
      omega
    · rename_i hs
      rw [if_neg hs] at h
      have habs : (ofInt i).scaledAbs ≤ f.scaledAbs := ofRatio_le_of hi (by omega)
      omega

/-! ## Integers a double holds -/

/-- Where the places are within the numerator's own, nothing is rounded. -/
theorem significand_exact {n i : Nat} (hi : i ≤ 1074) : significand n 1 i * 2 ^ i = n * unit := by
  have hsplit : unit = 2 ^ (1074 - i) * 2 ^ i := unit_split (by omega)
  have hmul : n * unit = n * 2 ^ (1074 - i) * 2 ^ i := by rw [hsplit, Nat.mul_assoc]
  rw [significand, Nat.one_mul, hmul]
  refine congrArg (· * 2 ^ i) (Nat.le_antisymm ?_ ?_)
  · exact divRound_le (Nat.two_pow_pos i) (Nat.le_refl _)
  · exact le_divRound (Nat.two_pow_pos i) (Nat.le_refl _)

/-- A natural of at most 53 bits is a double. -/
theorem ofRatio_small {n : Nat} (h : n < 2 ^ 53) : (ofRatio sign n 1).scaledAbs = n * unit := by
  obtain ⟨i, hval, -, -, hbefore⟩ := @ofRatio_place sign n (by omega)
  have hi : i ≤ 1074 := by
    by_contra hlate
    have hwide := hbefore 1074 (by omega)
    have hexact : significand n 1 1074 * 2 ^ 1074 = n * unit := significand_exact (Nat.le_refl _)
    have hsame : significand n 1 1074 = n := Nat.eq_of_mul_eq_mul_right unit_pos hexact
    omega
  rw [hval, significand_exact hi]

/-- The safe integers are widened to themselves. -/
theorem ofInt_safe {i : Int} (h : i.natAbs < 2 ^ 53) : (ofInt i).scaled = i * unit := by
  by_cases hneg : i < 0
  · obtain ⟨hr, hval⟩ := ofInt_scaled_neg hneg
    rw [hr, hval, ofInt, ofRatio_small h]
  · obtain ⟨hr, hval⟩ := ofInt_scaled_nonneg (show 0 ≤ i by omega)
    rw [hr, hval, ofInt, ofRatio_small h]

theorem ofInt_ne_negZero (i : Int) : ofInt i ≠ negZero := by
  intro h
  have hsign : (ofInt i).sign = decide (i < 0) := ofRatio_sign _ _ _
  rw [h] at hsign
  have hneg : i < 0 := of_decide_eq_true hsign.symm
  have hbig : unit ≤ (ofInt i).scaledAbs := unit_le_ofRatio Nat.one_pos (by omega)
  rw [h] at hbig
  have hzero : negZero.scaledAbs = 0 := rfl
  have := unit_pos
  omega

/-! ## Quotients that are doubles -/

theorem divRound_mul_right {n d c : Nat} (hc : 0 < c) : divRound (n * c) (d * c) = divRound n d := by
  have hdiv : n * c / (d * c) = n / d := Nat.mul_div_mul_right n d hc
  have hmod : n * c % (d * c) = n % d * c := Nat.mul_mod_mul_right c n d
  have htwo : 2 * (n % d * c) = 2 * (n % d) * c := (Nat.mul_assoc 2 _ c).symm
  unfold divRound
  simp only [hdiv, hmod, htwo, Nat.mul_lt_mul_right hc, Nat.mul_right_cancel_iff hc]

/-- Only the quotient counts. -/
theorem ofRatio_congr {n d m e : Nat} (hd : 0 < d) (he : 0 < e) (h : n * e = m * d) :
    ofRatio sign n d = ofRatio sign m e := by
  have hsig : significand n d = significand m e := by
    funext i
    rw [significand, significand]
    have hleft : divRound (n * unit * e) (d * 2 ^ i * e) = divRound (n * unit) (d * 2 ^ i) := divRound_mul_right he
    have hright : divRound (m * unit * d) (e * 2 ^ i * d) = divRound (m * unit) (e * 2 ^ i) := divRound_mul_right hd
    have hn : n * unit * e = m * unit * d := by
      calc n * unit * e = n * e * unit := by ring
        _ = m * d * unit := by rw [h]
        _ = m * unit * d := by ring
    have hd' : d * 2 ^ i * e = e * 2 ^ i * d := by ring
    rw [← hleft, hn, hd', hright]
  rw [ofRatio, ofRatio, hsig]

/-- The digits of a double and its last place. -/
theorem scaledAbs_digits (f : F64) : f.scaledAbs = (if f.expo.val = 0 then f.frac.val else 2 ^ 52 + f.frac.val) * 2 ^
    (f.expo.val - 1) := by
  unfold scaledAbs
  split
  · rename_i h
    rw [h, Nat.pow_zero, Nat.mul_one]
  · rfl

theorem divRound_pow {m a b : Nat} (h : b ≤ a) : divRound (m * 2 ^ a) (2 ^ b) = m * 2 ^ (a - b) := by
  have hsplit : m * 2 ^ a = m * 2 ^ (a - b) * 2 ^ b := by
    rw [Nat.mul_assoc, ← Nat.pow_add, Nat.sub_add_cancel h]
  rw [hsplit]
  refine Nat.le_antisymm ?_ ?_
  · exact divRound_le (Nat.two_pow_pos b) (Nat.le_refl _)
  · exact le_divRound (Nat.two_pow_pos b) (Nat.le_refl _)

theorem encode_exact (hf : f.isFinite = true)
    (hsig : ∀ i, sig i = divRound f.scaledAbs (2 ^ i)) : encode f.sign sig (firstFit sig 2046) = f := by
  have hexpo : f.expo.val ≠ 2047 := by simpa [isFinite] using hf
  have hmax := f.expo.isLt
  have hfrac := f.frac.isLt
  have hdigits := scaledAbs_digits f
  generalize hm : (if f.expo.val = 0 then f.frac.val else 2 ^ 52 + f.frac.val) = m at hdigits
  have hbefore : ∀ i ≤ f.expo.val - 1, sig i = m * 2 ^ (f.expo.val - 1 - i) := by
    intro i hi
    rw [hsig, hdigits, divRound_pow hi]
  have hplace : sig (f.expo.val - 1) = m := by
    rw [hbefore _ (Nat.le_refl _), Nat.sub_self, Nat.pow_zero, Nat.mul_one]
  have hfits : m < 2 ^ 53 := by rw [← hm]; split <;> omega
  have hfirst : firstFit sig 2046 = some (f.expo.val - 1) := by
    refine List.find?_range_eq_some.mpr ⟨decide_eq_true (by rw [hplace]; exact hfits), List.mem_range.mpr (by omega), ?_⟩
    intro j hj
    have hnormal : 2 ^ 52 ≤ m := by rw [← hm, if_neg (by omega)]; omega
    have hpow : 2 ^ 1 ≤ 2 ^ (f.expo.val - 1 - j) := Nat.pow_le_pow_right (by decide) (by omega)
    have hwide : 2 ^ 52 * 2 ≤ sig j := by
      rw [hbefore j (by omega)]
      exact Nat.mul_le_mul hnormal hpow
    simpa using (show 2 ^ 53 ≤ sig j by omega)
  rw [hfirst, encode]
  by_cases hzero : f.expo.val = 0
  · rw [if_pos hzero] at hm
    rw [if_pos ⟨by omega, by omega⟩]
    refine ext_fields rfl ?_
    show 0 * 2 ^ 52 + sig (f.expo.val - 1) % 2 ^ 52 = f.expo.val * 2 ^ 52 + f.frac.val
    omega
  · rw [if_neg hzero] at hm
    rw [if_neg (by omega)]
    refine ext_fields rfl ?_
    show (f.expo.val - 1 + 1) % 2048 * 2 ^ 52 + sig (f.expo.val - 1) % 2 ^ 52 = f.expo.val * 2 ^ 52 + f.frac.val
    omega

/-- A quotient that is a double is that double. -/
theorem ofRatio_exact (hf : f.isFinite = true) {n d : Nat} (hd : 0 < d) (h : n * unit = f.scaledAbs * d) :
    ofRatio f.sign n d = f := by
  refine encode_exact hf fun i => ?_
  have hpow : d * 2 ^ i = 2 ^ i * d := Nat.mul_comm _ _
  rw [significand, h, hpow, divRound_mul_right hd]

/-! ## Quotients of integers -/

theorem ofInt_not_nan (i : Int) : (ofInt i).isNan = false := ofRatio_not_nan _ _ Nat.one_pos

/-- A widened i64 that is cast back to itself was widened exactly. -/
theorem ofInt_exact {i : Int64} (hlt : lt (ofInt i.toInt) twoPow63 = true) (h : (ofInt i.toInt).asI64 = i) :
    (ofInt i.toInt).scaled = i.toInt * unit := by
  have hbound : i.toInt.natAbs ≤ 2 ^ 63 := by
    have := i.toInt_lt
    have := i.le_toInt
    omega
  have habs : (ofInt i.toInt).scaledAbs ≤ 2 ^ 63 * unit := ofRatio_le hbound
  obtain ⟨q, hq⟩ : unit ∣ (ofInt i.toInt).scaledAbs := unit_dvd_ofRatio hbound
  have hnan := ofInt_not_nan i.toInt
  generalize ofInt i.toInt = f at *
  have hup : f.scaled < 2 ^ 63 * unit := by
    simp only [lt, Bool.and_eq_true, decide_eq_true_eq] at hlt
    have htwo : twoPow63.scaledAbs = 2 ^ 63 * unit := by decide +kernel
    have hval : twoPow63.scaled = ((2 ^ 63 * unit : Nat) : Int) := by
      rw [← htwo]
      rfl
    rw [hval] at hlt
    exact_mod_cast hlt.2
  have hlow : -(2 ^ 63 * unit : Int) ≤ f.scaled := by
    have hcast : ((f.scaledAbs : Nat) : Int) ≤ 2 ^ 63 * unit := by exact_mod_cast habs
    unfold scaled
    split <;> omega
  have hcast := asI64_toInt f hnan hlow hup
  have hdvd : (unit : Int) ∣ f.scaled := by
    unfold scaled
    have hnat : (unit : Int) ∣ (f.scaledAbs : Int) := Int.natCast_dvd_natCast.mpr ⟨q, hq⟩
    split
    · exact Int.dvd_neg.mpr hnat
    · exact hnat
  rw [← h, hcast, Int.tdiv_mul_cancel hdvd]

/-- Doubles other than the negative zero that compare equal are one. -/
theorem eq_of_feq {a b : F64} (ha : a ≠ negZero) (hb : b ≠ negZero) (h : feq a b = true) : a = b := by
  have hscaled : a.scaled = b.scaled := by
    simp only [feq, Bool.and_eq_true, decide_eq_true_eq] at h
    exact h.2
  exact rank_inj.mp (by rw [rank_eq ha, rank_eq hb, hscaled])

theorem zero_scaled : zero.scaled = 0 := by decide

theorem zero_not_nan : zero.isNan = false := by decide

theorem zero_not_infinite : zero.isInfinite = false := by decide

/-- Adding zero to what is not negative. -/
theorem add_zero_sign {x : F64} (hs : x.sign = false) : (add x zero).sign = false := by
  unfold add
  simp only [zero_scaled, zero_not_nan, zero_not_infinite, Int.add_zero, Bool.or_false, Bool.false_and, Bool.false_eq_true, if_false]
  split
  · rfl
  · split
    · exact hs
    · split
      · simp [hs]
      · rw [ofRatio_sign]
        have hnonneg : ¬ x.scaled < 0 := by
          simp only [scaled, hs, Bool.false_eq_true, if_false]
          omega
        simp [hnonneg]

/-- Adding zero to what is one or more. -/
theorem add_zero_big {x : F64} (hx : x.isNan = false) (hu : unit ≤ x.scaledAbs) :
    (add x zero).isNan = false ∧ unit ≤ (add x zero).scaledAbs := by
  have hpos := unit_pos
  unfold add
  simp only [zero_scaled, zero_not_nan, zero_not_infinite, Int.add_zero, Bool.or_false, Bool.false_and, Bool.false_eq_true,
    if_false, hx]
  split
  · exact ⟨hx, hu⟩
  · have hz : x.scaled.natAbs = x.scaledAbs := by
      simp only [scaled]
      split <;> simp
    have hne : x.scaled ≠ 0 := by
      intro h0
      rw [h0] at hz
      simp at hz
      omega
    rw [if_neg hne, hz]
    exact ⟨ofRatio_not_nan _ _ hpos, unit_le_ofRatio hpos hu⟩

theorem div_sign {a b : F64} (h : a.sign = b.sign) : (div a b).sign = false := by
  unfold div
  simp only [h, bne_self_eq_false]
  split
  · rfl
  · split
    · split <;> rfl
    · split
      · rfl
      · split
        · split <;> rfl
        · exact ofRatio_sign _ _ _

/-- The quotient of an integer by a positive count is not the negative zero. -/
theorem div_ne_negZero (i : Int) {n : Int} (hpos : 0 < n) (hn : n ≤ 2 ^ 63) : div (add (ofInt i) zero) (ofInt n) ≠ negZero := by
  have hbu : unit ≤ (ofInt n).scaledAbs := unit_le_ofRatio Nat.one_pos (by omega)
  have hbl : (ofInt n).scaledAbs ≤ 2 ^ 63 * unit := ofRatio_le (by omega)
  have hbs : (ofInt n).sign = false := by
    have : ¬ n < 0 := by omega
    simp [ofInt, ofRatio_sign, this]
  have hbn := ofInt_not_nan n
  have hupos := unit_pos
  generalize ofInt n = b at hbu hbl hbs hbn
  have hbi : b.isInfinite = false := by
    by_contra hinf
    simp only [isInfinite, Bool.and_eq_false_imp, beq_iff_eq, not_forall, Bool.not_eq_false] at hinf
    obtain ⟨hexp, -⟩ := hinf
    have hlow := le_scaledAbs b (by omega)
    have hgap := pow_63_unit_le (k := 51 + b.expo.val - 1) (by omega)
    have hdouble : 2 ^ (51 + b.expo.val) = 2 ^ (51 + b.expo.val - 1) * 2 := by
      rw [← Nat.pow_succ]
      congr 1
      omega
    have hpos' := Nat.two_pow_pos (51 + b.expo.val - 1)
    omega
  by_cases hi : i < 0
  · have hxu : unit ≤ (ofInt i).scaledAbs := unit_le_ofRatio Nat.one_pos (by omega)
    obtain ⟨hyn, hyu⟩ := add_zero_big (ofInt_not_nan i) hxu
    generalize add (ofInt i) zero = y at hyn hyu
    unfold div
    simp only [hyn, hbn, hbi, Bool.or_false, Bool.false_eq_true, if_false]
    have hb0 : ¬ b.scaledAbs = 0 := by omega
    split
    · intro h
      have hexp := congrArg (fun f => f.expo.val) h
      simp [negZero] at hexp
    · intro h
      refine @ofRatio_ne_zero (y.sign != b.sign) y.scaledAbs b.scaledAbs (by omega) ?_ (by rw [h]; rfl)
      calc b.scaledAbs ≤ 2 ^ 63 * unit := hbl
        _ ≤ unit * unit := Nat.mul_le_mul_right _ (le_unit (by decide))
        _ ≤ y.scaledAbs * unit := Nat.mul_le_mul_right _ hyu
  · have hxs : (ofInt i).sign = false := by simp [ofInt, ofRatio_sign, hi]
    have hys := add_zero_sign hxs
    generalize add (ofInt i) zero = y at hys
    intro h
    have hsign := div_sign (hys.trans hbs.symm)
    rw [h] at hsign
    cases hsign

end Rindle.F64
