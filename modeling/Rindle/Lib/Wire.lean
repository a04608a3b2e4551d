/-
  Rindle.Lib.Wire — little-endian integers in bytes, and code that returns, fails or panics.

  `leBytes` and `leNat` are inverse to each other on the numbers that fit the width and on the byte
  strings of that length; `leWord` reads them as a machine word of that many bytes.
-/

import Mathlib.Algebra.Group.Nat.Defs
import Mathlib.Data.List.Basic

namespace Rindle

/-- How a call ends: a panic is not an error value. -/
inductive Outcome (ε α : Type) where
  | panic
  | error (e : ε)
  | ok (a : α)

namespace Outcome

variable {ε ε' α β : Type}

def bind (x : Outcome ε α) (f : α → Outcome ε β) : Outcome ε β :=
  match x with
  | .panic => .panic
  | .error e => .error e
  | .ok a => f a

instance : Monad (Outcome ε) where
  pure := .ok
  bind := bind

def mapError (f : ε → ε') : Outcome ε α → Outcome ε' α
  | .panic => .panic
  | .error e => .error (f e)
  | .ok a => .ok a

/-- `ok_or(e)?`. -/
def okOr (e : ε) : Option α → Outcome ε α
  | none => .error e
  | some a => .ok a

@[simp] theorem ok_bind (a : α) (f : α → Outcome ε β) : (Outcome.ok a >>= f) = f a := rfl

@[simp] theorem error_bind (e : ε) (f : α → Outcome ε β) : (Outcome.error e >>= f) = .error e := rfl

@[simp] theorem pure_eq (a : α) : (pure a : Outcome ε α) = .ok a := rfl

/-- A call that returns did so step by step. -/
theorem bind_eq_ok {x : Outcome ε α} {f : α → Outcome ε β} {b : β} : (x >>= f) = .ok b ↔ ∃ a, x = .ok a ∧ f a = .ok b := by
  cases x with
  | panic => exact ⟨fun h => (by cases h), fun ⟨_, h, _⟩ => by cases h⟩
  | error e => exact ⟨fun h => (by cases h), fun ⟨_, h, _⟩ => by cases h⟩
  | ok a => simp

/-- A call that does not panic in any step does not panic. -/
theorem bind_ne_panic {x : Outcome ε α} {f : α → Outcome ε β} (hx : x ≠ .panic) (hf : ∀ a, x = .ok a → f a ≠ .panic) :
    (x >>= f) ≠ .panic := by
  cases x with
  | panic => exact absurd rfl hx
  | error e => intro h; cases h
  | ok a => exact hf a rfl

theorem mapError_eq_ok {x : Outcome ε α} {f : ε → ε'} {a : α} : x.mapError f = .ok a ↔ x = .ok a := by
  cases x <;> simp [mapError]

theorem mapError_ne_panic {x : Outcome ε α} {f : ε → ε'} (h : x ≠ .panic) : x.mapError f ≠ .panic := by
  cases x <;> simp_all [mapError]

end Outcome

/-! ## Slices -/

section
variable {ε : Type}

/-- `split_at`. -/
def splitAt (l : List UInt8) (mid : Nat) : Outcome ε (List UInt8 × List UInt8) :=
  if mid ≤ l.length then .ok (l.take mid, l.drop mid) else .panic

theorem splitAt_ok {l : List UInt8} {mid : Nat} (h : mid ≤ l.length) : (splitAt l mid : Outcome ε _) = .ok (l.take mid, l.drop mid) :=
  if_pos h

theorem splitAt_append (l r : List UInt8) : (splitAt (l ++ r) l.length : Outcome ε _) = .ok (l, r) := by
  rw [splitAt_ok (by simp), List.take_left, List.drop_left]

end

/-! ## Integers -/

/-- The `k` low bytes, low first: `to_le_bytes`. -/
def leBytes : Nat → Nat → List UInt8
  | 0, _ => []
  | k + 1, n => UInt8.ofNat n :: leBytes k (n / 256)

def leNat : List UInt8 → Nat
  | [] => 0
  | b :: l => b.toNat + 256 * leNat l

/-- `from_le_bytes` of a slice as an array: the length has to be right. -/
def fromLeBytes {ε : Type} (k : Nat) (l : List UInt8) : Outcome ε Nat := if l.length = k then .ok (leNat l) else .panic

@[simp] theorem leBytes_length (k n : Nat) : (leBytes k n).length = k := by
  induction k generalizing n with
  | zero => rfl
  | succ k ih => simp [leBytes, ih]

theorem leNat_leBytes (k n : Nat) : leNat (leBytes k n) = n % 256 ^ k := by
  induction k generalizing n with
  | zero => simp [leBytes, leNat, Nat.mod_one]
  | succ k ih =>
    rw [leBytes, leNat, ih, Nat.pow_succ, Nat.mul_comm (256 ^ k) 256, Nat.mod_mul, UInt8.toNat_ofNat']

theorem leNat_lt (l : List UInt8) : leNat l < 256 ^ l.length := by
  induction l with
  | nil => simp [leNat]
  | cons b l ih =>
    have hb := b.toNat_lt
    rw [leNat, List.length_cons, Nat.pow_succ]
    omega

theorem leBytes_leNat (l : List UInt8) : leBytes l.length (leNat l) = l := by
  induction l with
  | nil => rfl
  | cons b l ih =>
    have hb := b.toNat_lt
    have hlow : UInt8.ofNat (b.toNat + 256 * leNat l) = b := by
      apply UInt8.toNat_inj.mp
      rw [UInt8.toNat_ofNat']
      omega
    have hhigh : (b.toNat + 256 * leNat l) / 256 = leNat l := by omega
    rw [leNat, List.length_cons, leBytes, hlow, hhigh, ih]

/-- The word of these bytes. -/
def leWord (k : Nat) (l : List UInt8) : BitVec (8 * k) := BitVec.ofNat (8 * k) (leNat l)

@[simp] theorem leWord_leBytes (k : Nat) (x : BitVec (8 * k)) : leWord k (leBytes k x.toNat) = x := by
  have hpow : 256 ^ k = 2 ^ (8 * k) := by rw [Nat.pow_mul]
  rw [leWord, leNat_leBytes, hpow, Nat.mod_eq_of_lt x.isLt, BitVec.ofNat_toNat, BitVec.setWidth_eq]

theorem leBytes_leWord {k : Nat} {l : List UInt8} (h : l.length = k) : leBytes k (leWord k l).toNat = l := by
  have hpow : 256 ^ k = 2 ^ (8 * k) := by rw [Nat.pow_mul]
  have hlt := leNat_lt l
  rw [h, hpow] at hlt
  rw [leWord, BitVec.toNat_ofNat, Nat.mod_eq_of_lt hlt, ← h, leBytes_leNat]

theorem fromLeBytes_ok {ε : Type} {k : Nat} {l : List UInt8} (h : l.length = k) : (fromLeBytes k l : Outcome ε Nat) = .ok (leNat l) := if_pos h

/-- What is written for a number that fits is read back. -/
theorem fromLeBytes_leBytes {ε : Type} {k n : Nat} (h : n < 256 ^ k) : (fromLeBytes k (leBytes k n) : Outcome ε Nat) = .ok n := by
  rw [fromLeBytes_ok (leBytes_length k n), leNat_leBytes, Nat.mod_eq_of_lt h]

end Rindle
