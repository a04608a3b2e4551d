/-
  Rindle.Keys — the engine's five encodings of cell equality (`op/join_util.rs`,
  `op/partition.rs`, `push_index.rs`) and their agreement with the comparators.

  - `CanonVal`: the join caches' hash key; an integral float shares the key of its i64.
  - `encodeStateKey`: the string keying a limiter's per-partition state, as its bytes.
  - `GuardKey`: the push index's ordered-map key.

  `canonVal_inj` is the heart: two cells have one canonical key iff a filter finds them
  identical. The string is a faithful print of the canonical key (`encodeStateKey_inj`),
  so the three encodings and the comparators draw the same line between cells.
-/

import Rindle.Lib.Decimal
import Rindle.Value

namespace Rindle

/-! ## The join caches' key -/

inductive CanonVal where
  | absent
  | null
  | bool (b : Bool)
  | int (i : Int64)
  | float (bits : Nat)
  | str (b : List UInt8)
  | json (b : List UInt8)

/-- `CanonVal::of` (and `of_value`: the owned and the borrowed cell are one here). -/
@[grind] def CanonVal.of : Value → CanonVal
  | .absent => .absent
  | .null => .null
  | .bool b => .bool b
  | .int i => .int i
  | .float f =>
    match floatIntClass f with
    | some i => .int i
    | none => .float f.toBits
  | .str b => .str b
  | .json b => .json b

/-! ## The state key -/

/-- `encode_value`. -/
def encodeValue : Value → List UInt8
  | .absent => ['a'.toUInt8]
  | .null => ['n'.toUInt8]
  | .bool b => ['b'.toUInt8, if b then '1'.toUInt8 else '0'.toUInt8]
  | .int i => 'i'.toUInt8 :: decimalInt i.toInt
  | .float f =>
    match floatIntClass f with
    | some i => 'i'.toUInt8 :: decimalInt i.toInt
    | none => 'f'.toUInt8 :: decimalNat f.toBits
  | .str b => 's'.toUInt8 :: (decimalNat b.length ++ ':'.toUInt8 :: b)
  | .json b => 'j'.toUInt8 :: (decimalNat b.length ++ ':'.toUInt8 :: b)

/-- The unit separator between the elements of a key. -/
def unitSep : UInt8 := 0x1f

/-- `encode_state_key`, as the bytes of the string. -/
def encodeStateKey (pre : List UInt8) (vals : List Value) : List UInt8 :=
  pre ++ vals.flatMap fun v => unitSep :: encodeValue v

/-! ## The push index's key -/

structure GuardKey where
  value : Value

/-- `impl Ord for GuardKey`. -/
def GuardKey.cmp (a b : GuardKey) : Ordering := comparePredicateValues a.value b.value

/-- `impl PartialEq for GuardKey`. -/
def GuardKey.eq (a b : GuardKey) : Bool := a.cmp b == .eq

/-! ## The canonical key is filter identity -/

theorem floatIntClass_inj {f g : F64} {i : Int64} (hf : floatIntClass f = some i) (hg : floatIntClass g = some i) :
    f = g := by
  rw [floatIntClass_eq_some] at hf hg
  exact F64.rank_inj.mp (hf.trans hg.symm)

theorem compareIntF64_eq_eq {x : Int64} {y : F64} : compareIntF64 x y = .eq ↔ floatIntClass y = some x := by
  rw [compareIntF64_eq, floatIntClass_eq_some, Int.compare_eq_eq]
  exact eq_comm

theorem totalCmp_eq_eq {x y : F64} : F64.totalCmp x y = .eq ↔ x = y := by
  rw [F64.totalCmp_eq, Int.compare_eq_eq, F64.rank_inj]

theorem canonVal_inj {a b : Value} : CanonVal.of a = CanonVal.of b ↔ valuesIdentical a b = true := by
  cases a <;> cases b <;>
    simp only [CanonVal.of, valuesIdentical, reduceCtorEq, CanonVal.bool.injEq, CanonVal.int.injEq,
      CanonVal.str.injEq, CanonVal.json.injEq, beq_iff_eq, Bool.false_eq_true, compareIntF64_eq_eq, totalCmp_eq_eq]
  all_goals try (split <;> simp; done)
  case int.float x f =>
    cases h : floatIntClass f with
    | none => simp
    | some i => simp [eq_comm]
  case float.int f x =>
    cases h : floatIntClass f with
    | none => simp
    | some i => simp
  case float.float f g =>
    cases hf : floatIntClass f with
    | none =>
      cases hg : floatIntClass g with
      | none => simp [F64.toBits_inj]
      | some j => simp; rintro rfl; rw [hf] at hg; cases hg
    | some i =>
      cases hg : floatIntClass g with
      | none => simp; rintro rfl; rw [hf] at hg; cases hg
      | some j =>
        simp only [CanonVal.int.injEq]
        refine ⟨fun h => ?_, fun h => ?_⟩
        · subst h; exact floatIntClass_inj hf hg
        · subst h; rw [hf] at hg; exact Option.some.inj hg

/-! ## The state key prints the canonical key -/

/-- `encode_value` of a cell, from its canonical key. -/
def CanonVal.encode : CanonVal → List UInt8
  | .absent => ['a'.toUInt8]
  | .null => ['n'.toUInt8]
  | .bool b => ['b'.toUInt8, if b then '1'.toUInt8 else '0'.toUInt8]
  | .int i => 'i'.toUInt8 :: decimalInt i.toInt
  | .float n => 'f'.toUInt8 :: decimalNat n
  | .str b => 's'.toUInt8 :: (decimalNat b.length ++ ':'.toUInt8 :: b)
  | .json b => 'j'.toUInt8 :: (decimalNat b.length ++ ':'.toUInt8 :: b)

theorem encodeValue_canon (v : Value) : encodeValue v = (CanonVal.of v).encode := by
  cases v <;> try rfl
  case float f => simp only [encodeValue, CanonVal.of]; split <;> rfl

/-- What may follow an element: nothing, or the separator of the next one. -/
def SepEnd (r : List UInt8) : Prop := ∀ x ∈ r.head?, x = unitSep

theorem SepEnd.numeral {r : List UInt8} (h : SepEnd r) : ∀ x ∈ r.head?, isNumeral x = false := by
  intro x hx
  rw [h x hx]
  decide

/-- A length-prefixed text can be read off the front of what follows. -/
theorem text_append_inj {a b r s : List UInt8}
    (h : decimalNat a.length ++ ':'.toUInt8 :: (a ++ r) = decimalNat b.length ++ ':'.toUInt8 :: (b ++ s)) :
    a = b ∧ r = s := by
  have hd : ∀ n, ∀ x ∈ decimalNat n, isNumeral x = true := by
    intro n x hx
    have := decimalNat_digit hx
    simp [isNumeral, this.1, this.2]
  have hc : ∀ l : List UInt8, ∀ x ∈ (':'.toUInt8 :: l).head?, isNumeral x = false := by
    intro l x hx
    cases hx
    decide
  obtain ⟨h1, h2⟩ := run_append_inj isNumeral (hd _) (hd _) (hc _) (hc _) h
  exact List.append_inj (List.cons.inj h2).2 (decimalNat_inj.mp h1)

theorem CanonVal.encode_append_inj {a b : CanonVal} {r s : List UInt8} (hr : SepEnd r) (hs : SepEnd s)
    (h : a.encode ++ r = b.encode ++ s) : a = b ∧ r = s := by
  cases a <;> cases b <;> simp only [CanonVal.encode, List.cons_append, List.append_assoc, List.nil_append] at h
  -- Distinct tags: the first bytes differ.
  all_goals try (exact absurd (List.cons.inj h).1 (by decide))
  case absent.absent => exact ⟨rfl, (List.cons.inj h).2⟩
  case null.null => exact ⟨rfl, (List.cons.inj h).2⟩
  case bool.bool x y =>
    have h1 := (List.cons.inj (List.cons.inj h).2)
    refine ⟨?_, h1.2⟩
    cases x <;> cases y <;> first | rfl | exact absurd h1.1 (by decide)
  case int.int i j =>
    obtain ⟨h1, h2⟩ := run_append_inj isNumeral (fun _ => decimalInt_numeral) (fun _ => decimalInt_numeral)
      hr.numeral hs.numeral (List.cons.inj h).2
    exact ⟨by rw [Int64.toInt_inj.mp (decimalInt_inj.mp h1)], h2⟩
  case float.float m n =>
    have hd : ∀ n, ∀ x ∈ decimalNat n, isNumeral x = true := by
      intro n x hx
      have := decimalNat_digit hx
      simp [isNumeral, this.1, this.2]
    obtain ⟨h1, h2⟩ := run_append_inj isNumeral (hd m) (hd n) hr.numeral hs.numeral (List.cons.inj h).2
    exact ⟨by rw [decimalNat_inj.mp h1], h2⟩
  case str.str x y =>
    obtain ⟨h1, h2⟩ := text_append_inj (List.cons.inj h).2
    exact ⟨by rw [h1], h2⟩
  case json.json x y =>
    obtain ⟨h1, h2⟩ := text_append_inj (List.cons.inj h).2
    exact ⟨by rw [h1], h2⟩

/-- Two tuples have one state key iff their canonical keys agree element by element. -/
theorem encodeStateKey_inj {pre : List UInt8} {as bs : List Value} :
    encodeStateKey pre as = encodeStateKey pre bs ↔ as.map CanonVal.of = bs.map CanonVal.of := by
  have flat : ∀ vs : List Value, (vs.flatMap fun v => unitSep :: encodeValue v) =
      (vs.map CanonVal.of).flatMap fun c => unitSep :: c.encode := by
    intro vs
    rw [List.flatMap_map]
    exact congrArg (vs.flatMap ·) (funext fun v => by rw [encodeValue_canon])
  have sep : ∀ l : List CanonVal, SepEnd (l.flatMap fun c => unitSep :: c.encode) := by
    intro l x hx
    cases l with
    | nil => cases hx
    | cons c l => cases hx; rfl
  have inj : ∀ l m : List CanonVal, (l.flatMap fun c => unitSep :: c.encode) =
      (m.flatMap fun c => unitSep :: c.encode) → l = m := by
    intro l
    induction l with
    | nil => intro m h; cases m with
      | nil => rfl
      | cons c m => cases h
    | cons c l ih => intro m h; cases m with
      | nil => cases h
      | cons d m =>
        simp only [List.flatMap_cons, List.cons_append] at h
        obtain ⟨h1, h2⟩ := CanonVal.encode_append_inj (sep l) (sep m) (List.cons.inj h).2
        rw [h1, ih m h2]
  unfold encodeStateKey
  rw [flat as, flat bs]
  exact ⟨fun h => inj _ _ (List.append_cancel_left h), fun h => by rw [h]⟩

/-! ## One equivalence -/

/-- Wherever `compare_values` does not panic it is Equal exactly on identical cells. -/
theorem compareValues_eq_eq {a b : Value} : compareValues a b = some .eq ↔ valuesIdentical a b = true := by
  cases a <;> cases b <;> simp [compareValues, valuesIdentical]

theorem Value.fits_of_kind {k : Kind} {a : Value} (h : a.kind = some k) : a.fits k = true := by
  simp [Value.fits, h]

theorem Value.tag_of_kind {k : Kind} {a : Value} (h : a.kind = some k) : a.tag = 2 := by
  cases a <;> first | rfl | cases h

/-- At or below, in the sort order. -/
def leValues (a b : Value) : Prop := compareValues a b = some .lt ∨ compareValues a b = some .eq

theorem leValues_iff {k : Kind} {a b : Value} (ha : a.kind = some k) (hb : b.kind = some k) :
    leValues a b ↔ (Value.cmp a b).isLE = true := by
  rw [leValues, compareValues_eq (Value.fits_of_kind ha) (Value.fits_of_kind hb)]
  cases Value.cmp a b <;> simp

/-- The non-null cells of one column (integers and floats may mix, every bit pattern included):
    the sort comparator, join equality, the join-cache key, the state key, the push-index key and
    the filter comparator agree on which cells are equal, and the sort comparator is a total order
    of the cells up to that equality. -/
theorem cell_equality_coherent (k : Kind) :
    (∀ a b : Value, a.kind = some k → b.kind = some k →
      (compareValues a b = some .eq ↔ valuesEqual a b = some true) ∧
      (compareValues a b = some .eq ↔ CanonVal.of a = CanonVal.of b) ∧
      (∀ pre, compareValues a b = some .eq ↔ encodeStateKey pre [a] = encodeStateKey pre [b]) ∧
      (compareValues a b = some .eq ↔ (GuardKey.mk a).eq (GuardKey.mk b) = true) ∧
      (compareValues a b = some .eq ↔ comparePredicateValues a b = .eq)) ∧
    (∀ a b : Value, a.kind = some k → b.kind = some k →
      (∃ o, compareValues a b = some o ∧ compareValues b a = some o.swap) ∧
      (leValues a b ∨ leValues b a) ∧
      (leValues a b → leValues b a → compareValues a b = some .eq)) ∧
    (∀ a b c : Value, a.kind = some k → b.kind = some k → c.kind = some k →
      leValues a b → leValues b c → leValues a c) := by
  refine ⟨?_, ?_, ?_⟩
  · intro a b ha hb
    have hab := compareValues_eq (Value.fits_of_kind ha) (Value.fits_of_kind hb)
    have hje := valuesEqual_eq (Value.fits_of_kind ha) (Value.fits_of_kind hb)
    have hpr := comparePredicateValues_eq (Value.fits_of_kind ha) (Value.fits_of_kind hb)
    have hpred : compareValues a b = some .eq ↔ comparePredicateValues a b = .eq := by
      rw [hab, hpr, Option.some_inj]
    refine ⟨?_, ?_, fun pre => ?_, ?_, hpred⟩
    · rw [hab, hje, Option.some_inj, Option.some_inj, Value.joinEq, Value.tag_of_kind ha, Value.tag_of_kind hb]
      simp
    · rw [compareValues_eq_eq, canonVal_inj]
    · rw [encodeStateKey_inj, compareValues_eq_eq, ← canonVal_inj]
      simp
    · rw [hpred, GuardKey.eq, GuardKey.cmp, beq_iff_eq]
  · intro a b ha hb
    have hab := compareValues_eq (Value.fits_of_kind ha) (Value.fits_of_kind hb)
    have hba := compareValues_eq (Value.fits_of_kind hb) (Value.fits_of_kind ha)
    rw [leValues_iff ha hb, leValues_iff hb ha, hab, hba]
    refine ⟨⟨_, rfl, by rw [← Std.OrientedCmp.eq_swap]⟩, ?_, fun h1 h2 => ?_⟩
    · have hsw : Value.cmp b a = (Value.cmp a b).swap := Std.OrientedCmp.eq_swap
      rw [hsw]
      cases Value.cmp a b <;> simp
    · rw [Std.OrientedCmp.isLE_antisymm h1 h2]
  · intro a b c ha hb hc hab hbc
    rw [leValues_iff ha hb] at hab
    rw [leValues_iff hb hc] at hbc
    rw [leValues_iff ha hc]
    exact Std.TransCmp.isLE_trans hab hbc

/-- 2^53 + 1 and the double 2^53 are distinct cells to every encoding, though widening the
    integer would merge them; 2^53 itself is the double's cell. -/
theorem cell_equality_coherent_two_pow_53 :
    CanonVal.of (.int 9007199254740993) ≠ CanonVal.of (.float ⟨false, 1076, 0⟩) ∧
      CanonVal.of (.int 9007199254740992) = CanonVal.of (.float ⟨false, 1076, 0⟩) ∧
      encodeStateKey [] [.int 9007199254740993] ≠ encodeStateKey [] [.float ⟨false, 1076, 0⟩] := by
  have h := cell_equality_coherent .number
  have h1 := h.1 (.int 9007199254740993) (.float ⟨false, 1076, 0⟩) rfl rfl
  have h2 := h.1 (.int 9007199254740992) (.float ⟨false, 1076, 0⟩) rfl rfl
  have c1 : compareValues (.int 9007199254740993) (.float ⟨false, 1076, 0⟩) ≠ some .eq := by decide +kernel
  have c2 : compareValues (.int 9007199254740992) (.float ⟨false, 1076, 0⟩) = some .eq := by decide +kernel
  exact ⟨fun e => c1 (h1.2.1.mpr e), h2.2.1.mp c2, fun e => c1 ((h1.2.2.1 []).mpr e)⟩

end Rindle
