/-
  Rindle.Client.Key — the canonical key of a query (`packages/client/src/key.ts`).

  `stableKey` writes a value as JSON text with the properties of every object in the order of
  their names. JSON has no undefined: it is written as the object with the one property
  `$undefined`, which is true. Values are trees, so the check for cycles never fires.

  `stableKey_exact`: two keys are equal exactly where the values are, up to the order of
  properties, once every undefined in them is that object. So two values that only differ in
  which of the two they hold share a key, and no others do.
-/

import Mathlib.Data.List.Sort
import Mathlib.Data.List.Lex
import Mathlib.Data.List.Perm.Basic
import Rindle.Lib.JsonText
import Rindle.Lib.NumberText

namespace Rindle.Client

open JsonText (Json ascii quote join)

/-! ## Values -/

/-- The values a query is made of: texts are UTF-16 units, objects their properties as created. -/
inductive JsValue where
  | undefined
  | null
  | bool (b : Bool)
  | num (f : F64) (h : f.isFinite = true)
  | str (s : List Nat)
  | arr (elems : List JsValue)
  | obj (members : List (List Nat × JsValue))

mutual

/-- An object has a property once. -/
def JsValue.Distinct : JsValue → Prop
  | .arr elems => DistinctAll elems
  | .obj members => (members.map Prod.fst).Nodup ∧ DistinctMembers members
  | _ => True

def DistinctAll : List JsValue → Prop
  | [] => True
  | v :: l => v.Distinct ∧ DistinctAll l

def DistinctMembers : List (List Nat × JsValue) → Prop
  | [] => True
  | (_, v) :: l => v.Distinct ∧ DistinctMembers l

end

/-- A value as JavaScript can hold it. -/
structure PlainValue where
  val : JsValue
  distinct : val.Distinct

mutual

/-- Structural equality, whatever the order of properties; numbers as `===` compares them. -/
def Same : JsValue → JsValue → Prop
  | .undefined, .undefined => True
  | .null, .null => True
  | .bool a, .bool b => a = b
  | .num f _, .num g _ => F64.feq f g = true
  | .str s, .str t => s = t
  | .arr l, .arr m => SameAll l m
  | .obj l, .obj m => SameMembers l m ∧ ∀ k ∈ m.map Prod.fst, k ∈ l.map Prod.fst
  | _, _ => False

def SameAll : List JsValue → List JsValue → Prop
  | [], [] => True
  | v :: l, w :: m => Same v w ∧ SameAll l m
  | _, _ => False

/-- Every property on the left is one on the right, of the same value. -/
def SameMembers : List (List Nat × JsValue) → List (List Nat × JsValue) → Prop
  | [], _ => True
  | (k, v) :: l, m => (∃ w, (k, w) ∈ m ∧ Same v w) ∧ SameMembers l m

end

/-! ## The key -/

/-- Properties in the order of their names, compared by units. -/
def sortKeys {α : Type} (members : List (List Nat × α)) : List (List Nat × α) := members.insertionSort fun p q => p.1 ≤ q.1

mutual

def stableKey : JsValue → List Nat
  | .undefined => ascii "\x7b\"$undefined\":true\x7d".toList
  | .null => ascii "null".toList
  | .bool b => ascii (if b then "true" else "false").toList
  | .num f _ => ascii (NumberText.toText f)
  | .str s => quote s
  | .arr elems => 91 :: (join (stableKeys elems) ++ [93])
  | .obj members => 123 :: (join ((sortKeys (memberKeys members)).map fun p => quote p.1 ++ 58 :: p.2) ++ [125])

def stableKeys : List JsValue → List (List Nat)
  | [] => []
  | v :: l => stableKey v :: stableKeys l

/-- Each property's name and the key of its value. -/
def memberKeys : List (List Nat × JsValue) → List (List Nat × List Nat)
  | [] => []
  | (k, v) :: l => (k, stableKey v) :: memberKeys l

end

/-! ## The placeholder -/

/-- The name `$undefined`. -/
def undefinedName : List Nat := ascii "$undefined".toList

/-- The object that stands for undefined. -/
def placeholder : JsValue := .obj [(undefinedName, .bool true)]

mutual

/-- A value with the placeholder for every undefined. -/
def defined : JsValue → JsValue
  | .undefined => placeholder
  | .arr elems => .arr (definedAll elems)
  | .obj members => .obj (definedMembers members)
  | v => v

def definedAll : List JsValue → List JsValue
  | [] => []
  | v :: l => defined v :: definedAll l

def definedMembers : List (List Nat × JsValue) → List (List Nat × JsValue)
  | [] => []
  | (k, v) :: l => (k, defined v) :: definedMembers l

end

/-! ## The tree a key is the text of -/

theorem toNat_number {c : Char} (h : NumberText.isNumberChar c = true) :
    (48 ≤ c.toNat ∧ c.toNat ≤ 57) ∨ c.toNat = 46 ∨ c.toNat = 101 ∨ c.toNat = 43 ∨ c.toNat = 45 := by
  simp only [NumberText.isNumberChar, Bool.or_eq_true, beq_iff_eq] at h
  rcases h with (((h | rfl) | rfl) | rfl) | rfl
  · exact Or.inl (isDigit_toNat h).2
  · exact Or.inr (Or.inl rfl)
  · exact Or.inr (Or.inr (Or.inl rfl))
  · exact Or.inr (Or.inr (Or.inr (Or.inl rfl)))
  · exact Or.inr (Or.inr (Or.inr (Or.inr rfl)))

/-- The text of a finite number, as a token. -/
def token (f : F64) (h : f.isFinite = true) : JsonText.NumberToken where
  text := ascii (NumberText.toText f)
  chars := by
    intro u hu
    obtain ⟨c, hc, rfl⟩ := List.mem_map.mp hu
    exact toNat_number ((NumberText.toText_chars h).1 c hc)
  head := by
    obtain ⟨-, c, t, htext, hc⟩ := NumberText.toText_chars h
    refine ⟨c.toNat, t.map Char.toNat, by rw [htext]; rfl, ?_⟩
    rcases hc with hc | rfl
    · exact Or.inl (isDigit_toNat hc).2
    · exact Or.inr rfl

mutual

def canon : JsValue → Json
  | .undefined => .obj [(undefinedName, .bool true)]
  | .null => .null
  | .bool b => .bool b
  | .num f h => .num (token f h)
  | .str s => .str s
  | .arr elems => .arr (canonAll elems)
  | .obj members => .obj (sortKeys (canonMembers members))

def canonAll : List JsValue → List Json
  | [] => []
  | v :: l => canon v :: canonAll l

def canonMembers : List (List Nat × JsValue) → List (List Nat × Json)
  | [] => []
  | (k, v) :: l => (k, canon v) :: canonMembers l

end

theorem printMembers_eq (l : List (List Nat × Json)) :
    JsonText.printMembers l = l.map fun p => quote p.1 ++ 58 :: JsonText.print p.2 := by
  induction l with
  | nil => rfl
  | cons p l ih => rw [JsonText.printMembers, ih]; rfl

theorem sortKeys_map {α β : Type} (f : α → β) (l : List (List Nat × α)) :
    sortKeys (l.map fun p => (p.1, f p.2)) = (sortKeys l).map fun p => (p.1, f p.2) :=
  (List.map_insertionSort (fun p q : List Nat × α => p.1 ≤ q.1) (fun p q : List Nat × β => p.1 ≤ q.1) (fun p => (p.1, f p.2)) l
    fun _ _ _ _ => Iff.rfl).symm

mutual

theorem stableKey_canon : ∀ v : JsValue, stableKey v = JsonText.print (canon v)
  | .undefined => by decide
  | .null => rfl
  | .bool true => rfl
  | .bool false => rfl
  | .num _ _ => rfl
  | .str _ => rfl
  | .arr elems => by rw [stableKey, canon, JsonText.print, stableKeys_canon elems]
  | .obj members => by
    rw [stableKey, canon, JsonText.print, memberKeys_canon members, sortKeys_map, List.map_map, printMembers_eq]
    rfl

theorem stableKeys_canon : ∀ l : List JsValue, stableKeys l = JsonText.printAll (canonAll l)
  | [] => rfl
  | v :: l => by rw [stableKeys, canonAll, JsonText.printAll, stableKey_canon v, stableKeys_canon l]

theorem memberKeys_canon : ∀ l : List (List Nat × JsValue),
    memberKeys l = (canonMembers l).map fun p => (p.1, JsonText.print p.2)
  | [] => rfl
  | (k, v) :: l => by rw [memberKeys, canonMembers, List.map_cons, stableKey_canon v, memberKeys_canon l]

end

/-- Keys are equal where the trees are. -/
theorem stableKey_inj {v w : JsValue} : stableKey v = stableKey w ↔ canon v = canon w := by
  rw [stableKey_canon, stableKey_canon]
  constructor
  · intro h
    have hstop : JsonText.Stop [] := fun u hu => by cases hu
    exact (JsonText.print_inj _ _ hstop hstop (congrArg (· ++ []) h)).1
  · intro h
    rw [h]

/-! ## Sorted properties -/

section
variable {α : Type} {l m : List (List Nat × α)}

theorem sortKeys_sorted (l : List (List Nat × α)) : (sortKeys l).Pairwise fun p q => p.1 ≤ q.1 := by
  have htotal : Std.Total fun p q : List Nat × α => p.1 ≤ q.1 := ⟨fun p q => le_total p.1 q.1⟩
  have htrans : IsTrans (List Nat × α) fun p q => p.1 ≤ q.1 := ⟨fun p q r hpq hqr => le_trans hpq hqr⟩
  exact List.pairwise_insertionSort (fun p q : List Nat × α => p.1 ≤ q.1) l

theorem eq_of_key (h : (l.map Prod.fst).Nodup) {p q : List Nat × α} (hp : p ∈ l) (hq : q ∈ l) (hkey : p.1 = q.1) : p = q :=
  List.inj_on_of_nodup_map h hp hq hkey

/-- Objects have one order of their properties where they have the same ones. -/
theorem sortKeys_eq (hl : (l.map Prod.fst).Nodup) (hm : (m.map Prod.fst).Nodup) :
    sortKeys l = sortKeys m ↔ (∀ p ∈ l, p ∈ m) ∧ ∀ k ∈ m.map Prod.fst, k ∈ l.map Prod.fst := by
  have hlperm : (sortKeys l).Perm l := List.perm_insertionSort _ l
  have hmperm : (sortKeys m).Perm m := List.perm_insertionSort _ m
  constructor
  · intro h
    rw [h] at hlperm
    have hperm : l.Perm m := hlperm.symm.trans hmperm
    exact ⟨fun p hp => hperm.mem_iff.mp hp, fun k hk => (hperm.map Prod.fst).mem_iff.mpr hk⟩
  · intro h
    have hmem : ∀ p, p ∈ l ↔ p ∈ m := by
      intro p
      refine ⟨h.1 p, fun hp => ?_⟩
      obtain ⟨q, hq, hkey⟩ := List.mem_map.mp (h.2 p.1 (List.mem_map_of_mem hp))
      rwa [← eq_of_key hm (h.1 q hq) hp hkey]
    have hperm : l.Perm m := (List.perm_ext_iff_of_nodup hl.of_map hm.of_map).mpr hmem
    refine List.Perm.eq_of_pairwise (fun p q hp hq hpq hqp => ?_) (sortKeys_sorted l) (sortKeys_sorted m)
      (hlperm.trans (hperm.trans hmperm.symm))
    exact eq_of_key hl (hlperm.mem_iff.mp hp) (hperm.symm.mem_iff.mp (hmperm.mem_iff.mp hq)) (le_antisymm hpq hqp)

end

/-! ## Equal trees -/

mutual

/-- Nothing in it is undefined. -/
def JsValue.Free : JsValue → Prop
  | .undefined => False
  | .arr elems => FreeAll elems
  | .obj members => FreeMembers members
  | _ => True

def FreeAll : List JsValue → Prop
  | [] => True
  | v :: l => v.Free ∧ FreeAll l

def FreeMembers : List (List Nat × JsValue) → Prop
  | [] => True
  | (_, v) :: l => v.Free ∧ FreeMembers l

end

variable (l : List (List Nat × JsValue))

theorem canonMembers_eq : canonMembers l = l.map fun p => (p.1, canon p.2) := by
  induction l with
  | nil => rfl
  | cons p l ih => rw [canonMembers, ih]; rfl

theorem canonMembers_keys : (canonMembers l).map Prod.fst = l.map Prod.fst := by
  rw [canonMembers_eq, List.map_map]
  rfl

theorem freeMembers_mem {l : List (List Nat × JsValue)} (h : FreeMembers l) {k : List Nat} {v : JsValue} (hv : (k, v) ∈ l) :
    v.Free := by
  induction l with
  | nil => cases hv
  | cons p l ih =>
    rcases List.mem_cons.mp hv with rfl | hv
    · exact h.1
    · exact ih h.2 hv

theorem distinctMembers_mem {l : List (List Nat × JsValue)} (h : DistinctMembers l) {k : List Nat} {v : JsValue} (hv : (k, v) ∈ l) :
    v.Distinct := by
  induction l with
  | nil => cases hv
  | cons p l ih =>
    rcases List.mem_cons.mp hv with rfl | hv
    · exact h.1
    · exact ih h.2 hv

/-- Numbers have one token where they are equal. -/
theorem token_inj {f g : F64} (hf : f.isFinite = true) (hg : g.isFinite = true) : token f hf = token g hg ↔ F64.feq f g = true := by
  have hinj : Function.Injective (List.map Char.toNat) := List.map_injective_iff.mpr fun c d h => Char.toNat_inj.mp h
  have htext : token f hf = token g hg ↔ NumberText.toText f = NumberText.toText g := by
    rw [token, token, JsonText.NumberToken.mk.injEq]
    exact ⟨fun h => hinj h, fun h => congrArg ascii h⟩
  rw [htext, NumberText.toText_inj hf hg]
  simp [F64.feq, F64.finite_not_nan hf, F64.finite_not_nan hg]

mutual

/-- Where nothing is undefined, values have one tree exactly where they are equal. -/
theorem canon_inj : ∀ v w : JsValue, v.Free → w.Free → v.Distinct → w.Distinct → (canon v = canon w ↔ Same v w)
  | .undefined, _, hv, _, _, _ => hv.elim
  | .null, w, _, hw, _, _ => by
    cases w with
    | undefined => exact hw.elim
    | _ => simp [canon, Same]
  | .bool b, w, _, hw, _, _ => by
    cases w with
    | undefined => exact hw.elim
    | _ => simp [canon, Same]
  | .num f hf, w, _, hw, _, _ => by
    cases w with
    | undefined => exact hw.elim
    | num g hg => rw [canon, canon, Json.num.injEq, token_inj, Same]
    | _ => simp [canon, Same]
  | .str s, w, _, hw, _, _ => by
    cases w with
    | undefined => exact hw.elim
    | _ => simp [canon, Same]
  | .arr l, w, hv, hw, hdv, hdw => by
    cases w with
    | undefined => exact hw.elim
    | arr m => rw [canon, canon, Json.arr.injEq, Same, canonAll_inj l m hv hw hdv hdw]
    | _ => simp [canon, Same]
  | .obj l, w, hv, hw, hdv, hdw => by
    cases w with
    | undefined => exact hw.elim
    | obj m =>
      have hl : ((canonMembers l).map Prod.fst).Nodup := by rw [canonMembers_keys]; exact hdv.1
      have hm : ((canonMembers m).map Prod.fst).Nodup := by rw [canonMembers_keys]; exact hdw.1
      rw [canon, canon, Json.obj.injEq, sortKeys_eq hl hm, canonMembers_keys, canonMembers_keys, Same,
        canonMembers_sub l m hv hw hdv.2 hdw.2]
    | _ => simp [canon, Same]

theorem canonAll_inj : ∀ l m : List JsValue, FreeAll l → FreeAll m → DistinctAll l → DistinctAll m →
    (canonAll l = canonAll m ↔ SameAll l m)
  | [], [], _, _, _, _ => by simp [SameAll]
  | [], _ :: _, _, _, _, _ => by simp [canonAll, SameAll]
  | _ :: _, [], _, _, _, _ => by simp [canonAll, SameAll]
  | v :: l, w :: m, hl, hm, hdl, hdm => by
    rw [canonAll, canonAll, List.cons.injEq, SameAll, canon_inj v w hl.1 hm.1 hdl.1 hdm.1, canonAll_inj l m hl.2 hm.2 hdl.2 hdm.2]

theorem canonMembers_sub : ∀ l m : List (List Nat × JsValue), FreeMembers l → FreeMembers m → DistinctMembers l → DistinctMembers m →
    ((∀ p ∈ canonMembers l, p ∈ canonMembers m) ↔ SameMembers l m)
  | [], _, _, _, _, _ => by simp [canonMembers, SameMembers]
  | (k, v) :: l, m, hl, hm, hdl, hdm => by
    have hhead : (k, canon v) ∈ canonMembers m ↔ ∃ w, (k, w) ∈ m ∧ Same v w := by
      rw [canonMembers_eq, List.mem_map]
      constructor
      · intro h
        obtain ⟨⟨k', w⟩, hw, hpair⟩ := h
        obtain ⟨rfl, hcanon⟩ := Prod.mk.inj hpair
        exact ⟨w, hw, (canon_inj v w hl.1 (freeMembers_mem hm hw) hdl.1 (distinctMembers_mem hdm hw)).mp hcanon.symm⟩
      · intro h
        obtain ⟨w, hw, hsame⟩ := h
        have hcanon := (canon_inj v w hl.1 (freeMembers_mem hm hw) hdl.1 (distinctMembers_mem hdm hw)).mpr hsame
        exact ⟨(k, w), hw, by rw [hcanon]⟩
    rw [canonMembers, List.forall_mem_cons, SameMembers, hhead, canonMembers_sub l m hl.2 hm hdl.2 hdm]

end

/-! ## Undefined as its placeholder -/

mutual

theorem defined_free : ∀ v : JsValue, (defined v).Free
  | .undefined => ⟨trivial, trivial⟩
  | .null => trivial
  | .bool _ => trivial
  | .num _ _ => trivial
  | .str _ => trivial
  | .arr elems => definedAll_free elems
  | .obj members => definedMembers_free members

theorem definedAll_free : ∀ l : List JsValue, FreeAll (definedAll l)
  | [] => trivial
  | v :: l => ⟨defined_free v, definedAll_free l⟩

theorem definedMembers_free : ∀ l : List (List Nat × JsValue), FreeMembers (definedMembers l)
  | [] => trivial
  | (_, v) :: l => ⟨defined_free v, definedMembers_free l⟩

end

theorem definedMembers_keys : (definedMembers l).map Prod.fst = l.map Prod.fst := by
  induction l with
  | nil => rfl
  | cons p l ih => rw [definedMembers, List.map_cons, ih]; rfl

theorem definedMembers_mem {l : List (List Nat × JsValue)} {k : List Nat} {v : JsValue} (h : (k, v) ∈ l) :
    (k, defined v) ∈ definedMembers l := by
  induction l with
  | nil => cases h
  | cons p l ih =>
    rcases List.mem_cons.mp h with rfl | h
    · exact List.mem_cons_self
    · exact List.mem_cons_of_mem _ (ih h)

mutual

theorem defined_distinct : ∀ v : JsValue, v.Distinct → (defined v).Distinct
  | .undefined, _ => ⟨List.nodup_singleton _, trivial, trivial⟩
  | .null, _ => trivial
  | .bool _, _ => trivial
  | .num _ _, _ => trivial
  | .str _, _ => trivial
  | .arr elems, h => definedAll_distinct elems h
  | .obj members, h => ⟨by rw [definedMembers_keys]; exact h.1, definedMembers_distinct members h.2⟩

theorem definedAll_distinct : ∀ l : List JsValue, DistinctAll l → DistinctAll (definedAll l)
  | [], _ => trivial
  | v :: l, h => ⟨defined_distinct v h.1, definedAll_distinct l h.2⟩

theorem definedMembers_distinct : ∀ l : List (List Nat × JsValue), DistinctMembers l → DistinctMembers (definedMembers l)
  | [], _ => trivial
  | (_, v) :: l, h => ⟨defined_distinct v h.1, definedMembers_distinct l h.2⟩

end

mutual

theorem canon_defined : ∀ v : JsValue, canon (defined v) = canon v
  | .undefined => rfl
  | .null => rfl
  | .bool _ => rfl
  | .num _ _ => rfl
  | .str _ => rfl
  | .arr elems => by rw [defined, canon, canon, canonAll_defined elems]
  | .obj members => by rw [defined, canon, canon, canonMembers_defined members]

theorem canonAll_defined : ∀ l : List JsValue, canonAll (definedAll l) = canonAll l
  | [] => rfl
  | v :: l => by rw [definedAll, canonAll, canonAll, canon_defined v, canonAll_defined l]

theorem canonMembers_defined : ∀ l : List (List Nat × JsValue), canonMembers (definedMembers l) = canonMembers l
  | [] => rfl
  | (k, v) :: l => by rw [definedMembers, canonMembers, canonMembers, canon_defined v, canonMembers_defined l]

end

/-- Keys are equal where the values are, once undefined is its placeholder. -/
theorem stableKey_eq (v w : PlainValue) : stableKey v.val = stableKey w.val ↔ Same (defined v.val) (defined w.val) := by
  rw [stableKey_inj, ← canon_defined v.val, ← canon_defined w.val]
  exact canon_inj _ _ (defined_free _) (defined_free _) (defined_distinct _ v.distinct) (defined_distinct _ w.distinct)

theorem placeholder_same : Same placeholder placeholder :=
  ⟨⟨⟨.bool true, List.mem_singleton.mpr rfl, rfl⟩, trivial⟩, fun _ hk => hk⟩

mutual

/-- Equal values stay equal with the placeholder in them. -/
theorem same_defined : ∀ v w : JsValue, Same v w → Same (defined v) (defined w)
  | .undefined, w, h => by
    cases w with
    | undefined => exact placeholder_same
    | _ => exact h.elim
  | .null, w, h => by
    cases w with
    | null => exact h
    | _ => exact h.elim
  | .bool _, w, h => by
    cases w with
    | bool _ => exact h
    | _ => exact h.elim
  | .num _ _, w, h => by
    cases w with
    | num _ _ => exact h
    | _ => exact h.elim
  | .str _, w, h => by
    cases w with
    | str _ => exact h
    | _ => exact h.elim
  | .arr l, w, h => by
    cases w with
    | arr m => exact sameAll_defined l m h
    | _ => exact h.elim
  | .obj l, w, h => by
    cases w with
    | obj m =>
      refine ⟨sameMembers_defined l m h.1, ?_⟩
      rw [definedMembers_keys, definedMembers_keys]
      exact h.2
    | _ => exact h.elim

theorem sameAll_defined : ∀ l m : List JsValue, SameAll l m → SameAll (definedAll l) (definedAll m)
  | [], [], _ => trivial
  | [], _ :: _, h => h.elim
  | _ :: _, [], h => h.elim
  | v :: l, w :: m, h => ⟨same_defined v w h.1, sameAll_defined l m h.2⟩

theorem sameMembers_defined : ∀ l m : List (List Nat × JsValue), SameMembers l m → SameMembers (definedMembers l) (definedMembers m)
  | [], _, _ => trivial
  | (k, v) :: l, m, h => by
    obtain ⟨⟨w, hw, hsame⟩, hrest⟩ := h
    exact ⟨⟨defined w, definedMembers_mem hw, same_defined v w hsame⟩, sameMembers_defined l m hrest⟩

end

/-- A key is shared by values that are not equal exactly where they become equal with the
    placeholder for undefined: only then do two keys fail to tell two values apart. -/
theorem stableKey_exact (v w : PlainValue) : (stableKey v.val = stableKey w.val ↔ Same v.val w.val) ↔
    ¬ (Same (defined v.val) (defined w.val) ∧ ¬ Same v.val w.val) := by
  rw [stableKey_eq]
  have hone := same_defined v.val w.val
  constructor
  · intro h hboth
    exact hboth.2 (h.mp hboth.1)
  · intro h
    refine ⟨fun hkey => ?_, hone⟩
    by_contra hdiff
    exact h ⟨hkey, hdiff⟩

/-- Undefined and the placeholder have one key and are not equal. -/
theorem placeholder_shares_key : ∃ v w : PlainValue, v.val = .undefined ∧ w.val = .obj [(undefinedName, .bool true)] ∧
    ¬ (stableKey v.val = stableKey w.val ↔ Same v.val w.val) := by
  refine ⟨⟨.undefined, trivial⟩, ⟨placeholder, List.nodup_singleton _, trivial, trivial⟩, rfl, rfl, ?_⟩
  intro h
  exact h.mp ((stableKey_eq _ _).mpr placeholder_same)

end Rindle.Client
