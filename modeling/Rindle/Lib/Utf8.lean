/-
  Rindle.Lib.Utf8 — texts and their UTF-8 bytes.
-/

import Mathlib.Data.List.Basic

namespace Rindle.Utf8

/-- `as_bytes`. -/
def encode (s : String) : List UInt8 := s.toByteArray.data.toList

/-- `from_utf8`. -/
def decode (l : List UInt8) : Option String := String.fromUTF8? ⟨l.toArray⟩

/-- The bytes are a text's. -/
def valid (l : List UInt8) : Bool := (decode l).isSome

@[simp] theorem decode_encode (s : String) : decode (encode s) = some s := by
  have hbytes : (⟨(encode s).toArray⟩ : ByteArray) = s.toByteArray := by
    rw [encode, Array.toArray_toList]
  rw [decode, hbytes, String.fromUTF8?, dif_pos s.isValidUTF8]
  rfl

theorem encode_of_decode {l : List UInt8} {s : String} (h : decode l = some s) : encode s = l := by
  rw [decode, String.fromUTF8?] at h
  split at h
  · rw [← Option.some.inj h]
    rfl
  · cases h

theorem decode_eq_some {l : List UInt8} {s : String} : decode l = some s ↔ encode s = l :=
  ⟨encode_of_decode, fun h => h ▸ decode_encode s⟩

@[simp] theorem valid_encode (s : String) : valid (encode s) = true := by
  rw [valid, decode_encode]
  rfl

theorem valid_iff {l : List UInt8} : valid l = true ↔ ∃ s, encode s = l := by
  rw [valid, Option.isSome_iff_exists]
  simp only [decode_eq_some]

end Rindle.Utf8
