/-
  Rindle.Lib.Framing — streams written piece by piece, and when they can be read back.

  A piece is a list, or `none` where its writer panics. `Delimits x y p`: whatever is written after
  the pieces `x` and `y`, if the streams agree then `p` holds and the pieces end at one place. It
  goes through writing one piece after another (`Delimits.cat`), where what the first pieces say
  may be used for the second ones, through a counted list (`Delimits.counted`), and through
  32-bit integers and strings after their length.
-/

import Mathlib.Algebra.Group.Nat.Defs
import Mathlib.Data.List.Forall2
import Mathlib.Tactic.Common

namespace Rindle.Framing

variable {α β : Type}

/-- One piece after the other. -/
def cat (x y : Option (List β)) : Option (List β) := x.bind fun a => y.map (a ++ ·)

/-- The pieces of a list's elements. -/
def concat (code : α → Option (List β)) : List α → Option (List β)
  | [] => some []
  | a :: as => cat (code a) (concat code as)

theorem cat_eq_some {x y : Option (List β)} {z : List β} : cat x y = some z ↔ ∃ a b, x = some a ∧ y = some b ∧ a ++ b = z := by
  cases x with
  | none => exact ⟨fun h => (by cases h), fun ⟨_, _, h, _⟩ => by cases h⟩
  | some a =>
    cases y with
    | none => exact ⟨fun h => (by cases h), fun ⟨_, _, _, h, _⟩ => by cases h⟩
    | some b => exact ⟨fun h => ⟨a, b, rfl, rfl, Option.some.inj h⟩,
      fun ⟨_, _, ha, hb, h⟩ => by cases ha; cases hb; exact congrArg some h⟩

@[simp] theorem cat_some (a b : List β) : cat (some a) (some b) = some (a ++ b) := rfl

theorem head_single (c : β) : ∀ a ∈ some [c], a.head? = some c := by
  rintro a ⟨⟩
  rfl

theorem head_cat {c : β} {x : Option (List β)} (hx : ∀ a ∈ x, a.head? = some c) (y : Option (List β)) :
    ∀ a ∈ cat x y, a.head? = some c := by
  intro a ha
  obtain ⟨b, b', hb, -, rfl⟩ := cat_eq_some.mp ha
  obtain ⟨b, rfl⟩ := List.head?_eq_some_iff.mp (hx b hb)
  rfl

theorem concat_isSome {code : α → Option (List β)} {as : List α} (h : ∀ a ∈ as, (code a).isSome) : (concat code as).isSome := by
  induction as with
  | nil => rfl
  | cons a as ih =>
    obtain ⟨x, hx⟩ := Option.isSome_iff_exists.mp (h a List.mem_cons_self)
    obtain ⟨y, hy⟩ := Option.isSome_iff_exists.mp (ih fun a' ha' => h a' (List.mem_cons_of_mem _ ha'))
    rw [concat, hx, hy]
    rfl

theorem isSome_of_concat {code : α → Option (List β)} {as : List α} (h : (concat code as).isSome) : ∀ a ∈ as, (code a).isSome := by
  induction as with
  | nil => exact fun a ha => by cases ha
  | cons a as ih =>
    obtain ⟨z, hz⟩ := Option.isSome_iff_exists.mp h
    obtain ⟨x, y, hx, hy, -⟩ := cat_eq_some.mp hz
    intro b hb
    rcases List.mem_cons.mp hb with rfl | hb
    · exact Option.isSome_of_eq_some hx
    · exact ih (Option.isSome_of_eq_some hy) b hb

theorem cat_isSome {x y : Option (List β)} (hx : x.isSome) (hy : y.isSome) : (cat x y).isSome := by
  obtain ⟨a, rfl⟩ := Option.isSome_iff_exists.mp hx
  obtain ⟨b, rfl⟩ := Option.isSome_iff_exists.mp hy
  rfl

theorem concat_congr {code code' : α → Option (List β)} {as : List α} (h : ∀ a ∈ as, code a = code' a) :
    concat code as = concat code' as := by
  induction as with
  | nil => rfl
  | cons a as ih => rw [concat, concat, h a List.mem_cons_self, ih fun a' ha' => h a' (List.mem_cons_of_mem _ ha')]

theorem concat_map {γ : Type} (code : α → Option (List β)) (f : γ → α) (cs : List γ) :
    concat code (cs.map f) = concat (fun c => code (f c)) cs := by
  induction cs with
  | nil => rfl
  | cons c cs ih => rw [List.map_cons, concat, concat, ih]

/-- What folds over the pieces of a list folds over the stream. -/
theorem foldlM_concat {σ : Type} {code : α → Option (List β)} {step : σ → β → σ} {put : σ → α → Option σ}
    (hput : ∀ s a, put s a = (code a).map (List.foldl step s)) (as : List α) (s : σ) :
    as.foldlM put s = (concat code as).map (List.foldl step s) := by
  induction as generalizing s with
  | nil => rfl
  | cons a as ih =>
    rw [List.foldlM_cons, hput, concat]
    cases code a with
    | none => rfl
    | some x =>
      refine (ih (x.foldl step s)).trans ?_
      cases concat code as with
      | none => rfl
      | some y => exact congrArg some List.foldl_append.symm

/-! ## Reading back -/

def Delimits (x y : Option (List β)) (p : Prop) : Prop :=
  ∀ ⦃a b r s : List β⦄, x = some a → y = some b → a ++ r = b ++ s → p ∧ r = s

namespace Delimits

variable {x y x' y' : Option (List β)} {p q : Prop}

theorem mono (h : Delimits x y p) (hpq : p → q) : Delimits x y q := by
  intro a b r s ha hb he
  obtain ⟨hp, hr⟩ := h ha hb he
  exact ⟨hpq hp, hr⟩

theorem cat (h : Delimits x y p) (h' : p → Delimits x' y' q) : Delimits (cat x x') (cat y y') (p ∧ q) := by
  intro a b r s ha hb he
  obtain ⟨a₁, a₂, ha₁, ha₂, rfl⟩ := cat_eq_some.mp ha
  obtain ⟨b₁, b₂, hb₁, hb₂, rfl⟩ := cat_eq_some.mp hb
  rw [List.append_assoc, List.append_assoc] at he
  obtain ⟨hp, he⟩ := h ha₁ hb₁ he
  obtain ⟨hq, hr⟩ := h' hp ha₂ hb₂ he
  exact ⟨⟨hp, hq⟩, hr⟩

/-- A piece that both write. -/
theorem same (a : List β) : Delimits (some a) (some a) True := by
  intro a' b r s ha hb he
  cases ha
  cases hb
  exact ⟨trivial, List.append_cancel_left he⟩

/-- Pieces of one length. -/
theorem fixed {a b : List β} (hlen : a.length = b.length) (h : a = b → p) : Delimits (some a) (some b) p := by
  intro a' b' r s ha hb he
  cases ha
  cases hb
  obtain ⟨hab, hr⟩ := List.append_inj he hlen
  exact ⟨h hab, hr⟩

/-- Pieces told apart by their first elements. -/
theorem differ {c d : β} (hne : c ≠ d) (hx : ∀ a ∈ x, a.head? = some c) (hy : ∀ b ∈ y, b.head? = some d) : Delimits x y p := by
  intro a b r s ha hb he
  obtain ⟨a', rfl⟩ := List.head?_eq_some_iff.mp (hx a ha)
  obtain ⟨b', rfl⟩ := List.head?_eq_some_iff.mp (hy b hb)
  exact absurd (List.cons.inj he).1 hne

/-- Lists of one length, element by element. -/
theorem concat {R : α → α → Prop} {code : α → Option (List β)} : ∀ {as bs : List α}, as.length = bs.length →
    (∀ a ∈ as, ∀ b ∈ bs, Delimits (code a) (code b) (R a b)) → Delimits (concat code as) (concat code bs) (List.Forall₂ R as bs) := by
  intro as
  induction as with
  | nil =>
    intro bs hlen _
    obtain rfl := List.eq_nil_of_length_eq_zero hlen.symm
    exact (same []).mono fun _ => .nil
  | cons a as ih =>
    intro bs hlen h
    cases bs with
    | nil => cases hlen
    | cons b bs =>
      have hrest := ih (Nat.succ.inj hlen) fun a' ha' b' hb' => h a' (List.mem_cons_of_mem _ ha') b' (List.mem_cons_of_mem _ hb')
      exact ((h a List.mem_cons_self b List.mem_cons_self).cat fun _ => hrest).mono fun hp => .cons hp.1 hp.2

end Delimits

/-! ## Integers and strings -/

/-- `to_le_bytes`. -/
def u32Bytes (v : UInt32) : List UInt8 := [v.toUInt8, (v >>> 8).toUInt8, (v >>> 16).toUInt8, (v >>> 24).toUInt8]

theorem u32Bytes_inj {v w : UInt32} (h : u32Bytes v = u32Bytes w) : v = w := by
  simp only [u32Bytes, List.cons.injEq, and_true, ← UInt8.toNat_inj, UInt32.toNat_toUInt8, UInt32.toNat_shiftRight] at h
  obtain ⟨h₀, h₁, h₂, h₃⟩ := h
  have h8 : (8 : UInt32).toNat % 32 = 8 := rfl
  have h16 : (16 : UInt32).toNat % 32 = 16 := rfl
  have h24 : (24 : UInt32).toNat % 32 = 24 := rfl
  simp only [h8, h16, h24, Nat.shiftRight_eq_div_pow] at h₁ h₂ h₃
  have hv := v.toNat_lt
  have hw := w.toNat_lt
  refine UInt32.toNat_inj.mp ?_
  omega

theorem delimits_u32 (v w : UInt32) : Delimits (some (u32Bytes v)) (some (u32Bytes w)) (v = w) := .fixed rfl u32Bytes_inj

/-- A number that fits, as a 32-bit integer. -/
theorem toUInt32_inj {m n : Nat} (hm : m < 2 ^ 32) (hn : n < 2 ^ 32) (h : m.toUInt32 = n.toUInt32) : m = n := by
  have htoNat := congrArg UInt32.toNat h
  rwa [Nat.toUInt32_eq, Nat.toUInt32_eq, UInt32.toNat_ofNat_of_lt' hm, UInt32.toNat_ofNat_of_lt' hn] at htoNat

/-- A list after its length. -/
def counted (code : α → Option (List UInt8)) (as : List α) : Option (List UInt8) :=
  cat (some (u32Bytes as.length.toUInt32)) (concat code as)

theorem Delimits.counted {R : α → α → Prop} {code : α → Option (List UInt8)} {as bs : List α} (ha : as.length < 2 ^ 32)
    (hb : bs.length < 2 ^ 32) (h : as.length = bs.length → ∀ a ∈ as, ∀ b ∈ bs, Delimits (code a) (code b) (R a b)) :
    Delimits (counted code as) (counted code bs) (List.Forall₂ R as bs) := by
  refine ((delimits_u32 _ _).cat fun hlen => ?_).mono And.right
  exact .concat (toUInt32_inj ha hb hlen) (h (toUInt32_inj ha hb hlen))

/-- Elements that are read back are the same elements. -/
theorem Delimits.countedEq {code code' : α → Option (List UInt8)} {as bs : List α} (ha : as.length < 2 ^ 32) (hb : bs.length < 2 ^ 32)
    (hcode : code = code') (h : ∀ a ∈ as, ∀ b ∈ bs, Delimits (code a) (code b) (a = b)) :
    Delimits (Framing.counted code as) (Framing.counted code' bs) (as = bs) := by
  subst hcode
  refine (Delimits.counted ha hb fun _ => h).mono fun heq => ?_
  rwa [List.forall₂_eq_eq_eq] at heq

/-- `as_bytes`. -/
def utf8 (s : String) : List UInt8 := s.toUTF8.data.toList

theorem utf8_inj {s t : String} (h : utf8 s = utf8 t) : s = t := by
  refine String.toByteArray_inj.mp (ByteArray.ext ?_)
  exact Array.toList_inj.mp h

/-- A string after its length. -/
def strBytes (s : String) : List UInt8 := u32Bytes s.utf8ByteSize.toUInt32 ++ utf8 s

theorem delimits_str {s t : String} (hs : s.utf8ByteSize < 2 ^ 32) (ht : t.utf8ByteSize < 2 ^ 32) :
    Delimits (some (strBytes s)) (some (strBytes t)) (s = t) := by
  have hutf8 : s.utf8ByteSize.toUInt32 = t.utf8ByteSize.toUInt32 → Delimits (some (utf8 s)) (some (utf8 t)) (s = t) :=
    fun hlen => .fixed (toUInt32_inj hs ht hlen) utf8_inj
  exact ((delimits_u32 _ _).cat hutf8).mono And.right

end Rindle.Framing
