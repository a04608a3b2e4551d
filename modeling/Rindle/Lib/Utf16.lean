/-
  Rindle.Lib.Utf16 — sequences of UTF-16 code units read as characters.

  A surrogate pair is one character, a surrogate on its own is read as U+FFFD, as `TextEncoder`
  reads it. The units of a text are read back as the text (`scalars_utf16`).
-/

import Rindle.Lib.Collation

namespace Rindle.Utf16

def isHigh (u : Nat) : Bool := 55296 ≤ u && u < 56320

def isLow (u : Nat) : Bool := 56320 ≤ u && u < 57344

/-- A unit outside a pair. -/
def single (u : Nat) : Char := if isHigh u || isLow u then Char.ofNat 65533 else Char.ofNat u

def pair (u v : Nat) : Char := Char.ofNat (65536 + (u - 55296) * 1024 + (v - 56320))

/-- The characters of a sequence of units. -/
def scalars : List Nat → List Char
  | [] => []
  | [u] => [single u]
  | u :: v :: rest => if isHigh u && isLow v then pair u v :: scalars rest else single u :: scalars (v :: rest)

/-- `TextEncoder.encode`: the bytes of those characters. -/
def textEncode (units : List Nat) : List UInt8 := (scalars units).flatMap String.utf8EncodeChar

theorem scalars_low {u : Nat} (h : isHigh u = false) (rest : List Nat) : scalars (u :: rest) = single u :: scalars rest := by
  cases rest with
  | nil => rfl
  | cons v rest => rw [scalars, h, Bool.false_and, if_neg Bool.false_ne_true]

theorem scalars_units (c : Char) (rest : List Nat) : scalars (Collation.utf16Units c ++ rest) = c :: scalars rest := by
  have hc := Collation.not_surrogate c
  have hmax := Collation.toNat_lt c
  unfold Collation.utf16Units
  by_cases hw : c.toNat < 65536
  · have hhigh : isHigh c.toNat = false := by simp [isHigh]; omega
    have hlow : isLow c.toNat = false := by simp [isLow]; omega
    rw [if_pos hw, List.singleton_append, scalars_low hhigh, single, hhigh, hlow, Bool.or_false, if_neg Bool.false_ne_true,
      Char.ofNat_toNat]
  · have hhigh : isHigh (55296 + (c.toNat - 65536) / 1024) = true := by simp [isHigh]; omega
    have hlow : isLow (56320 + (c.toNat - 65536) % 1024) = true := by simp [isLow]; omega
    have hval : 65536 + (55296 + (c.toNat - 65536) / 1024 - 55296) * 1024 + (56320 + (c.toNat - 65536) % 1024 - 56320) = c.toNat := by
      omega
    rw [if_neg hw, List.cons_append, List.cons_append, List.nil_append, scalars, hhigh, hlow, Bool.and_self, if_pos rfl, pair,
      hval, Char.ofNat_toNat]

/-- The units of a text are read as the text. -/
theorem scalars_utf16 (s : String) : scalars (Collation.utf16 s) = s.toList := by
  unfold Collation.utf16
  induction s.toList with
  | nil => rfl
  | cons c cs ih => rw [List.flatMap_cons, scalars_units, ih]

theorem textEncode_utf16 (s : String) : textEncode (Collation.utf16 s) = Utf8.encode s := by
  rw [textEncode, scalars_utf16, Collation.encode_flatMap]

end Rindle.Utf16
