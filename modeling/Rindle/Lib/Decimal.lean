/-
  Rindle.Lib.Decimal — decimal numerals as ASCII bytes, and reading concatenated fields
  back.

  A numeral is a run of digit bytes, so two concatenations agree only if the runs do
  (`run_append_inj`); a numeral determines its number (`decimalNat_inj`,
  `decimalInt_inj`) and is read back as it (`parseNat_decimalNat`, `parseInt_decimalInt`).
-/

import Mathlib.Data.List.Basic
import Mathlib.Data.List.TakeWhile

namespace Rindle

/-- The bytes of `n` written in base ten. -/
def decimalNat (n : Nat) : List UInt8 := (Nat.toDigits 10 n).map Char.toUInt8

/-- The bytes of `i` written in base ten, with a leading `-` when negative. -/
def decimalInt (i : Int) : List UInt8 :=
  if i < 0 then '-'.toUInt8 :: decimalNat i.natAbs else decimalNat i.natAbs

/-- `0` to `9`, and the sign. -/
def isNumeral (b : UInt8) : Bool := (48 ≤ b && b ≤ 57) || b == '-'.toUInt8

/-- Runs of `p`-bytes, each ended by the end of the list or by a byte outside `p`, can be read
    off the front. -/
theorem run_append_inj {α : Type} (p : α → Bool) {a b r s : List α} (ha : ∀ x ∈ a, p x = true)
    (hb : ∀ x ∈ b, p x = true) (hr : ∀ x ∈ r.head?, p x = false) (hs : ∀ x ∈ s.head?, p x = false)
    (h : a ++ r = b ++ s) : a = b ∧ r = s := by
  have front : ∀ (l t : List α), (∀ x ∈ l, p x = true) → (∀ x ∈ t.head?, p x = false) →
      (l ++ t).takeWhile p = l := by
    intro l t hl ht
    have h0 : t.takeWhile p = [] := by
      cases t with
      | nil => rfl
      | cons x t => simp [ht x rfl]
    rw [List.takeWhile_append_of_pos hl, h0, List.append_nil]
  have hab : a = b := by rw [← front a r ha hr, h, front b s hb hs]
  subst hab
  exact ⟨rfl, List.append_cancel_left h⟩

theorem isDigit_toNat {c : Char} (h : c.isDigit = true) : c.toUInt8.toNat = c.toNat ∧ 48 ≤ c.toNat ∧ c.toNat ≤ 57 := by
  have hr : 48 ≤ c.toNat ∧ c.toNat ≤ 57 := by
    simp only [Char.isDigit, Bool.and_eq_true, decide_eq_true_eq] at h
    exact ⟨h.1, h.2⟩
  refine ⟨?_, hr⟩
  show c.val.toUInt8.toNat = c.val.toNat
  have hr : 48 ≤ c.val.toNat ∧ c.val.toNat ≤ 57 := hr
  rw [UInt32.toNat_toUInt8]
  omega

theorem isDigit_toUInt8 {c : Char} (h : c.isDigit = true) :
    (Char.ofNat c.toUInt8.toNat = c) ∧ 48 ≤ c.toUInt8 ∧ c.toUInt8 ≤ 57 := by
  obtain ⟨hn, hlo, hhi⟩ := isDigit_toNat h
  refine ⟨?_, ?_, ?_⟩
  · rw [hn]; exact Char.ofNat_toNat c
  · rw [UInt8.le_iff_toNat_le, hn]; exact hlo
  · rw [UInt8.le_iff_toNat_le, hn]; exact hhi

theorem decimalNat_digit {n : Nat} {b : UInt8} (h : b ∈ decimalNat n) : 48 ≤ b ∧ b ≤ 57 := by
  obtain ⟨c, hc, rfl⟩ := List.mem_map.mp h
  exact (isDigit_toUInt8 (Nat.isDigit_of_mem_toDigits (by decide) (by decide) hc)).2

theorem decimalNat_inj {m n : Nat} : decimalNat m = decimalNat n ↔ m = n := by
  refine ⟨fun h => ?_, fun h => h ▸ rfl⟩
  have back : ∀ k, (decimalNat k).map (fun b => Char.ofNat b.toNat) = Nat.toDigits 10 k := by
    intro k
    unfold decimalNat
    rw [List.map_map]
    conv => rhs; rw [← List.map_id (Nat.toDigits 10 k)]
    refine List.map_congr_left fun c hc => ?_
    exact (isDigit_toUInt8 (Nat.isDigit_of_mem_toDigits (by decide) (by decide) hc)).1
  have hd : Nat.toDigits 10 m = Nat.toDigits 10 n := by rw [← back m, h, back n]
  rw [← Nat.ofDigitChars_ten_toDigits (n := m), hd, Nat.ofDigitChars_ten_toDigits]

theorem decimalInt_numeral {i : Int} {b : UInt8} (h : b ∈ decimalInt i) : isNumeral b = true := by
  have digit : ∀ n, b ∈ decimalNat n → isNumeral b = true := by
    intro n hb
    have := decimalNat_digit hb
    simp [isNumeral, this.1, this.2]
  unfold decimalInt at h
  split at h
  · rcases List.mem_cons.mp h with rfl | h
    · decide
    · exact digit _ h
  · exact digit _ h

theorem decimalInt_inj {i j : Int} : decimalInt i = decimalInt j ↔ i = j := by
  refine ⟨fun h => ?_, fun h => h ▸ rfl⟩
  have minus : ∀ (n : Nat) (l : List UInt8), decimalNat n ≠ '-'.toUInt8 :: l := by
    intro n l hl
    have := decimalNat_digit (n := n) (b := '-'.toUInt8) (by rw [hl]; exact List.mem_cons_self)
    exact absurd this (by decide)
  unfold decimalInt at h
  split at h <;> split at h
  · have := decimalNat_inj.mp (List.cons.inj h).2; omega
  · exact absurd h.symm (minus _ _)
  · exact absurd h (minus _ _)
  · have := decimalNat_inj.mp h; omega

/-! ## Reading numerals -/

/-- Digits, to the end; none of them or another byte is an error. -/
def parseDigits : List UInt8 → Option Nat
  | [] => none
  | b :: bytes =>
    (b :: bytes).foldlM (fun n b => if 48 ≤ b && b ≤ 57 then some (10 * n + (b.toNat - 48)) else none) 0

/-- An unsigned numeral may have a plus sign. -/
def parseNat : List UInt8 → Option Nat
  | 43 :: bytes => parseDigits bytes
  | bytes => parseDigits bytes

/-- A signed numeral may have either sign. -/
def parseInt : List UInt8 → Option Int
  | 45 :: bytes => (parseDigits bytes).map fun n : Nat => -Int.ofNat n
  | bytes => (parseNat bytes).map Int.ofNat

theorem parseDigits_decimalNat (n : Nat) : parseDigits (decimalNat n) = some n := by
  have hfold : ∀ (l : List Char) (m : Nat), (∀ c ∈ l, c.isDigit = true) →
      (l.map Char.toUInt8).foldlM (fun n b => if 48 ≤ b && b ≤ 57 then some (10 * n + (b.toNat - 48)) else none) m =
        some (Nat.ofDigitChars 10 l m) := by
    intro l
    induction l with
    | nil => intro m _; rfl
    | cons c l ih =>
      intro m hl
      have hc := hl c List.mem_cons_self
      obtain ⟨-, hlo, hhi⟩ := isDigit_toUInt8 hc
      rw [List.map_cons, List.foldlM_cons]
      simp only [hlo, hhi, decide_true, Bool.and_self, if_true, Option.bind_eq_bind, Option.bind_some]
      rw [ih _ fun d hd => hl d (List.mem_cons_of_mem _ hd), (isDigit_toNat hc).1]
      rfl
  have hne : decimalNat n ≠ [] := by
    simp [decimalNat, Nat.toDigits_ne_nil]
  have hparse : parseDigits (decimalNat n) =
      (decimalNat n).foldlM (fun n b => if 48 ≤ b && b ≤ 57 then some (10 * n + (b.toNat - 48)) else none) 0 := by
    cases h : decimalNat n with
    | nil => exact absurd h hne
    | cons b bytes => rfl
  rw [hparse, decimalNat, hfold _ 0 fun c hc => Nat.isDigit_of_mem_toDigits (by decide) (by decide) hc,
    Nat.ofDigitChars_ten_toDigits]

/-- No numeral starts with a sign. -/
theorem decimalNat_head {n : Nat} {b : UInt8} {bytes : List UInt8} (h : decimalNat n = b :: bytes) : b ≠ 43 ∧ b ≠ 45 := by
  have hb := decimalNat_digit (n := n) (b := b) (by rw [h]; exact List.mem_cons_self)
  constructor <;> rintro rfl <;> exact absurd hb (by decide)

theorem parseNat_decimalNat (n : Nat) : parseNat (decimalNat n) = some n := by
  rw [← parseDigits_decimalNat n]
  unfold parseNat
  split
  · rename_i bytes h
    exact absurd rfl (decimalNat_head h).1
  · rw [parseDigits_decimalNat]

theorem parseInt_decimalInt (i : Int) : parseInt (decimalInt i) = some i := by
  unfold decimalInt
  split
  · have hsign : parseInt ('-'.toUInt8 :: decimalNat i.natAbs) =
        (parseDigits (decimalNat i.natAbs)).map fun n : Nat => -Int.ofNat n := rfl
    rw [hsign, parseDigits_decimalNat, Option.map_some]
    congr 1
    show -(i.natAbs : Int) = i
    omega
  · unfold parseInt
    split
    · rename_i bytes h
      exact absurd rfl (decimalNat_head h).2
    · rw [parseNat_decimalNat, Option.map_some]
      congr 1
      show (i.natAbs : Int) = i
      omega

end Rindle
