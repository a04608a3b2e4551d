/-
  Rindle.Client.PkKey — a row's primary key as a text: `pkKeyOf` of the local persistence
  (`packages/optimistic/src/local-persist.ts`) and `key` of the sync layer
  (`packages/normalized/src/sync.ts`).

  Both are `JSON.stringify` of the key's cells. That writes null for a number that is not finite,
  so `pkKeyOf` writes such a number as a text with a tag instead. Neither keeps the sign of a zero,
  and the engine does.

  `pk_keys_exact`: a key tells rows apart as the engine does, except rows that differ only in cells
  that are written alike: two zeros, and two NaNs in the one, any two of null, the infinities and
  the NaNs in the other.
-/

import Rindle.Client.Compare
import Rindle.Client.Key

set_option linter.dupNamespace false

namespace Rindle.Client

open JsonText (Json ascii quote join)

/-! ## The keys -/

/-- What `JSON.stringify` writes for a cell of an array. -/
@[grind] def stringify : WireValue → List Nat
  | .undefined => ascii "null".toList
  | .null => ascii "null".toList
  | .boolean b => ascii (if b then "true" else "false").toList
  | .number f => if f.isFinite then ascii (NumberText.toText f) else ascii "null".toList
  | .string units => quote units
  | .object json => json

def stringifyCells (cells : List WireValue) : List Nat := 91 :: (join (cells.map stringify) ++ [93])

/-- A cell as `pkKeyOf` has it written. -/
def tagged : WireValue → WireValue
  | .undefined => .null
  | .number f => if f.isFinite then .number f else .string (0 :: ascii ('n' :: ':' :: NumberText.toText f))
  | v => v

def pkKeyOf (row : List WireValue) (pk : List Nat) : List Nat := stringifyCells (pk.map fun i => tagged (cellOf row i))

/-- `key`. -/
def NormalizedSync.key (pkCols : String → Option (List Nat)) (table : String) (row : List WireValue) : Except String (List Nat) :=
  match pkCols table with
  | none => .error s!"NormalizedSync: no primary key registered for table {table}"
  | some cols => .ok (Collation.utf16 table ++ 32 :: stringifyCells (cols.map (cellOf row)))

/-! ## Rows with a key -/

/-- A cell of a primary key: null, a boolean, a safe integer, a float, a Unicode text. -/
def isKeyCell : Value → Bool
  | .float _ => true
  | v => Exact v

/-- A row of these columns, with the cells of a primary key. -/
structure KeyedRow (kinds : List Kind) (pk : List Nat) where
  row : Row
  fits : row.Fits kinds
  cells : ∀ c ∈ pk, isKeyCell (row.cell c) = true

@[grind] def isZero : Value → Bool
  | .int i => i == 0
  | .float f => f.scaledAbs == 0
  | _ => false

def isNan : Value → Bool
  | .float f => f.isNan
  | _ => false

/-- A cell that JSON has only null for. -/
def isLost : Value → Bool
  | .null => true
  | .float f => !f.isFinite
  | _ => false

/-- Cells that are written alike: zeros, and those of a kind that has one text. -/
def Alike (one : Value → Bool) (a b : Value) : Prop := (isZero a = true ∧ isZero b = true) ∨ (one a = true ∧ one b = true)

/-- The engine has one row for both. -/
def SameKey {kinds : List Kind} {pk : List Nat} (a b : KeyedRow kinds pk) : Prop :=
  ∀ c ∈ pk, compareValues (a.row.cell c) (b.row.cell c) = some .eq

/-- The rows differ in a cell that is not written alike. -/
def ToldApart {kinds : List Kind} {pk : List Nat} (one : Value → Bool) (a b : KeyedRow kinds pk) : Prop :=
  ∃ c ∈ pk, compareValues (a.row.cell c) (b.row.cell c) ≠ some .eq ∧ ¬ Alike one (a.row.cell c) (b.row.cell c)

/-! ## The texts as trees -/

/-- A cell as a tree, by what is written for a number that is not finite. -/
@[grind] def cellTree (lost : F64 → Json) : WireValue → Json
  | .boolean b => .bool b
  | .number f => if h : f.isFinite = true then .num (token f h) else lost f
  | .string units => .str units
  | _ => .null

/-- The text that `pkKeyOf` writes. -/
def tag (f : F64) : Json := .str (0 :: ascii ('n' :: ':' :: NumberText.toText f))

theorem stringify_tree (k : Coercions) (v : Value) :
    stringify (valueToJs k v) = JsonText.print (cellTree (fun _ => .null) (valueToJs k v)) := by
  have hnumber : ∀ f : F64, stringify (.number f) = JsonText.print (cellTree (fun _ => .null) (.number f)) := by
    intro f
    rw [stringify, cellTree]
    by_cases h : f.isFinite = true
    · rw [if_pos h, dif_pos h]
      rfl
    · rw [if_neg h, dif_neg h]
      rfl
  cases v with
  | bool b => cases b <;> rfl
  | int i =>
    rw [valueToJs]
    exact hnumber _
  | float f => exact hnumber f
  | _ => rfl

theorem tagged_tree (k : Coercions) (v : Value) :
    stringify (tagged (valueToJs k v)) = JsonText.print (cellTree tag (valueToJs k v)) := by
  have hnumber : ∀ f : F64, stringify (tagged (.number f)) = JsonText.print (cellTree tag (.number f)) := by
    intro f
    rw [tagged, cellTree]
    by_cases h : f.isFinite = true
    · rw [if_pos h, dif_pos h, stringify, if_pos h]
      rfl
    · rw [if_neg h, dif_neg h]
      rfl
  cases v with
  | bool b => cases b <;> rfl
  | int i =>
    rw [valueToJs]
    exact hnumber _
  | float f => exact hnumber f
  | _ => rfl

theorem printAll_map (l : List Json) : JsonText.printAll l = l.map JsonText.print := by
  induction l with
  | nil => rfl
  | cons v l ih => rw [JsonText.printAll, ih, List.map_cons]

/-- Keys are equal where the trees of their cells are. -/
theorem stringifyCells_inj {pk : List Nat} {f g : Nat → WireValue} {s t : Nat → Json}
    (hf : ∀ c ∈ pk, stringify (f c) = JsonText.print (s c)) (hg : ∀ c ∈ pk, stringify (g c) = JsonText.print (t c)) :
    stringifyCells (pk.map f) = stringifyCells (pk.map g) ↔ ∀ c ∈ pk, s c = t c := by
  have hprint : ∀ {f : Nat → WireValue} {s : Nat → Json}, (∀ c ∈ pk, stringify (f c) = JsonText.print (s c)) →
      stringifyCells (pk.map f) = JsonText.print (.arr (pk.map s)) := by
    intro f s h
    rw [stringifyCells, JsonText.print, printAll_map, List.map_map, List.map_map]
    exact congrArg (fun l => 91 :: (join l ++ [93])) (List.map_congr_left h)
  rw [hprint hf, hprint hg, ← List.map_inj_left]
  constructor
  · intro h
    have hstop : JsonText.Stop [] := fun u hu => by cases hu
    exact Json.arr.inj (JsonText.print_inj _ _ hstop hstop (congrArg (· ++ []) h)).1
  · intro h
    rw [h]

/-! ## Cells -/

theorem exponent_lt {n u a b c : Nat} (hu : u = 2 ^ b) (hn : n < 2 ^ c) (h : 2 ^ a ≤ n * u) : a < c + b := by
  have hlt : n * u < 2 ^ (c + b) := by
    rw [Nat.pow_add, ← hu]
    exact Nat.mul_lt_mul_of_pos_right hn (by rw [hu]; exact Nat.two_pow_pos b)
  exact (Nat.pow_lt_pow_iff_right (by decide)).mp (Nat.lt_of_le_of_lt h hlt)

theorem ofInt_finite {i : Int} (h : i.natAbs < 2 ^ 53) : (F64.ofInt i).isFinite = true := by
  by_contra hnot
  have hexpo : (F64.ofInt i).expo.val = 2047 := by simpa [F64.isFinite] using hnot
  have hbig := F64.le_scaledAbs (f := F64.ofInt i) (by omega)
  have habs : (F64.ofInt i).scaledAbs = (F64.ofInt i).scaled.natAbs := by
    rw [F64.scaled]
    split <;> omega
  rw [habs, F64.ofInt_safe h, Int.natAbs_mul, Int.natAbs_natCast, hexpo] at hbig
  have hpow := exponent_lt (b := 1074) (by rw [F64.unit]) h hbig
  omega

/-- A cell of a number column is one double for JavaScript. -/
theorem number_cell (k : Coercions) {v : Value} (hv : v.kind = some .number) (hcell : isKeyCell v = true) :
    ∃ f : F64, valueToJs k v = .number f ∧ f.rank = v.num ∧ v.tag = 2 ∧ v.text = [] ∧ isZero v = isZero (.float f) ∧
      (v = .float f ∨ f.isFinite = true ∧ ∃ i, v = .int i) := by
  cases v <;> simp only [Value.kind, reduceCtorEq, Option.some.injEq] at hv
  case int i =>
    have hsafe : i.toInt.natAbs < 2 ^ 53 := by
      simp only [isKeyCell, Exact, decide_eq_true_eq] at hcell
      omega
    refine ⟨F64.ofInt i.toInt, rfl, rank_safe hsafe, rfl, rfl, ?_, Or.inr ⟨ofInt_finite hsafe, i, rfl⟩⟩
    have hunit : (F64.unit : Int) ≠ 0 := by exact_mod_cast F64.unit_pos.ne'
    have hzero : (F64.ofInt i.toInt).scaledAbs = 0 ↔ i = 0 := by
      have habs : (F64.ofInt i.toInt).scaledAbs = 0 ↔ (F64.ofInt i.toInt).scaled = 0 := by
        rw [F64.scaled]
        split <;> omega
      rw [habs, F64.ofInt_safe hsafe, Int.mul_eq_zero, or_iff_left hunit]
      exact ⟨fun h => Int64.toInt_inj.mp h, fun h => by rw [h]; rfl⟩
    rw [isZero, isZero, Bool.eq_iff_iff, beq_iff_eq, beq_iff_eq, hzero]
  case float f => exact ⟨f, rfl, rfl, rfl, rfl, rfl, Or.inl rfl⟩

/-- A cell is one text exactly for the texts it is equal to. -/
theorem text_cell (k : Coercions) {a b : Value} (ha : a.kind = some .str) (hb : b.kind = some .str) (hca : isKeyCell a = true)
    (hcb : isKeyCell b = true) : ∃ u v, valueToJs k a = .string u ∧ valueToJs k b = .string v ∧ (u = v ↔ a = b) := by
  have hexact : ∀ {v : Value}, v.kind = some .str → isKeyCell v = true → Exact v = true := by
    intro v hv hcell
    cases v <;> simp only [Value.kind, reduceCtorEq, Option.some.injEq] at hv
    exact hcell
  obtain ⟨x, s, rfl, hs, hx⟩ := text_image k ha (hexact ha hca)
  obtain ⟨y, t, rfl, ht, hy⟩ := text_image k hb (hexact hb hcb)
  refine ⟨_, _, hx, hy, fun h => ?_, fun h => ?_⟩
  · have hbytes := congrArg Utf16.textEncode h
    rw [Utf16.textEncode_utf16, Utf16.textEncode_utf16, Utf8.encode_of_decode hs, Utf8.encode_of_decode ht] at hbytes
    rw [hbytes]
  · cases h
    rw [Option.some.inj (hs.symm.trans ht)]

/-! ## Numbers -/

section
variable {f g : F64}

theorem token_alike (hf : f.isFinite = true) (hg : g.isFinite = true) :
    token f hf = token g hg ↔ f = g ∨ (isZero (.float f) = true ∧ isZero (.float g) = true) := by
  have habs : ∀ x : F64, x.scaledAbs = 0 ↔ x.scaled = 0 := by
    intro x
    rw [F64.scaled]
    split <;> omega
  rw [token_inj hf hg, isZero, isZero, beq_iff_eq, beq_iff_eq, habs, habs]
  simp only [F64.feq, F64.finite_not_nan hf, F64.finite_not_nan hg, Bool.not_false, Bool.true_and, decide_eq_true_eq]
  constructor
  · intro h
    by_cases hzero : f.scaled = 0
    · exact Or.inr ⟨hzero, h ▸ hzero⟩
    · have hne : ∀ {x : F64}, x.scaled ≠ 0 → x ≠ .negZero := by
        rintro x hx rfl
        exact hx rfl
      refine Or.inl (F64.rank_inj.mp ?_)
      rw [F64.rank_eq (hne hzero), F64.rank_eq (hne (h ▸ hzero)), h]
  · intro h
    rcases h with rfl | h
    · rfl
    · rw [h.1, h.2]

theorem zero_finite (h : isZero (.float f) = true) : f.isFinite = true := by
  by_contra hnot
  have hexpo : f.expo.val = 2047 := by simpa [F64.isFinite] using hnot
  rw [isZero, beq_iff_eq, F64.scaledAbs_eq_zero, F64.mag] at h
  omega

/-- A number that is not finite is a NaN, or an infinity by its sign. -/
theorem lost_text (hf : ¬ f.isFinite = true) (hg : ¬ g.isFinite = true) :
    NumberText.toText f = NumberText.toText g ↔ f = g ∨ (f.isNan = true ∧ g.isNan = true) := by
  have hexpo : ∀ {x : F64}, ¬ x.isFinite = true → x.expo.val = 2047 := by
    intro x hx
    simpa [F64.isFinite] using hx
  have hinfinite : ∀ {x : F64}, ¬ x.isFinite = true → x.isNan ≠ true → x.frac.val = 0 ∧ x.isInfinite = true := by
    intro x hx hnan
    have hzero : x.frac.val = 0 := by simpa [F64.isNan, hexpo hx] using hnan
    exact ⟨hzero, by simp [F64.isInfinite, hexpo hx, hzero]⟩
  unfold NumberText.toText
  by_cases hfn : f.isNan = true
  · by_cases hgn : g.isNan = true
    · simp only [hfn, hgn, if_true, and_self, or_true]
    · have hne : f ≠ g := fun h => hgn (h ▸ hfn)
      simp only [hfn, hgn, (hinfinite hg hgn).2, if_true, hne, Bool.false_eq_true, if_false, and_false, or_false]
      cases g.sign <;> decide
  · obtain ⟨hff, hfi⟩ := hinfinite hf hfn
    by_cases hgn : g.isNan = true
    · have hne : f ≠ g := fun h => hfn (h ▸ hgn)
      simp only [hfn, hgn, hfi, if_true, hne, Bool.false_eq_true, if_false, false_and, or_false]
      cases f.sign <;> decide
    · obtain ⟨hgf, hgi⟩ := hinfinite hg hgn
      have heq : f = g ↔ f.sign = g.sign := by
        refine ⟨fun h => by rw [h], fun h => F64.ext_fields h ?_⟩
        rw [F64.mag, F64.mag, hexpo hf, hexpo hg, hff, hgf]
      simp only [hfn, hgn, hfi, hgi, if_true, heq, Bool.false_eq_true, if_false, and_self, or_false]
      cases f.sign <;> cases g.sign <;> decide

end

/-- What is written for a number that is not finite is written alike for the cells of one kind. -/
structure Marks (lost : F64 → Json) (one : Value → Bool) : Prop where
  text : ∀ f t, lost f ≠ .num t
  alike : ∀ {f g : F64}, ¬ f.isFinite = true → ¬ g.isFinite = true →
    (lost f = lost g ↔ f = g ∨ (one (.float f) = true ∧ one (.float g) = true))
  null : ∀ {f : F64}, ¬ f.isFinite = true → (lost f = .null ↔ one .null = true ∧ one (.float f) = true)
  only : ∀ {v : Value}, one v = true → v = .null ∨ ∃ f : F64, v = .float f ∧ ¬ f.isFinite = true

theorem isLost_marks : Marks (fun _ => .null) isLost := by
  refine ⟨fun _ _ h => (by cases h), fun hf hg => ?_, fun hf => ?_, fun {v} h => ?_⟩
  · simp [isLost, hf, hg]
  · simp [isLost, hf]
  · cases v <;> simp [isLost] at h ⊢
    exact h

theorem isNan_marks : Marks tag isNan := by
  refine ⟨fun _ _ h => (by cases h), fun {f g} hf hg => ?_, fun _ => ⟨fun h => (by cases h), fun h => (by cases h.1)⟩, fun {v} h => ?_⟩
  · have hinj : Function.Injective ascii := List.map_injective_iff.mpr fun c d h => Char.toNat_inj.mp h
    have htag : tag f = tag g ↔ NumberText.toText f = NumberText.toText g := by simp [tag, hinj.eq_iff]
    rw [htag, lost_text hf hg, isNan, isNan]
  · cases v <;> simp [isNan] at h ⊢
    exact Bool.eq_false_iff.mpr fun hfinite => absurd h (by simp [F64.finite_not_nan hfinite])

section
variable {lost : F64 → Json} {one : Value → Bool}

theorem Marks.finite (hm : Marks lost one) {f : F64} (hf : f.isFinite = true) : ¬ one (.float f) = true := by
  intro hone
  rcases hm.only hone with h | ⟨g, h, hg⟩
  · cases h
  · cases h
    exact hg hf

theorem Marks.number (hm : Marks lost one) (f g : F64) :
    cellTree lost (.number f) = cellTree lost (.number g) ↔ f = g ∨ Alike one (.float f) (.float g) := by
  rw [cellTree, cellTree, Alike]
  by_cases hf : f.isFinite = true
  · have hone := hm.finite hf
    by_cases hg : g.isFinite = true
    · rw [dif_pos hf, dif_pos hg, Json.num.injEq, token_alike]
      tauto
    · have hzero := mt zero_finite hg
      have hne : f ≠ g := fun h => hg (h ▸ hf)
      rw [dif_pos hf, dif_neg hg]
      exact ⟨fun h => absurd h.symm (hm.text g _), fun h => by tauto⟩
  · have hzero := mt zero_finite hf
    by_cases hg : g.isFinite = true
    · have hone := hm.finite hg
      have hne : f ≠ g := fun h => hf (h ▸ hg)
      rw [dif_neg hf, dif_pos hg]
      exact ⟨fun h => absurd h (hm.text f _), fun h => by tauto⟩
    · rw [dif_neg hf, dif_neg hg, hm.alike hf hg]
      tauto

/-- Only a float is written as null is, and only where null is of the kind too. -/
theorem Marks.missing (hm : Marks lost one) (k : Coercions) {v : Value} (hv : v.kind ≠ none) (hcell : isKeyCell v = true) :
    cellTree lost (valueToJs k v) = .null ↔ Alike one .null v := by
  have hzero : ∀ w : Value, Alike one .null w ↔ one .null = true ∧ one w = true := by simp [Alike, isZero]
  have hnot : ∀ {w : Value}, (∀ f : F64, w ≠ .float f) → w ≠ .null → ¬ one w = true := by
    intro w hfloat hnull hone
    rcases hm.only hone with h | ⟨f, h, -⟩
    · exact hnull h
    · exact hfloat f h
  rw [hzero]
  cases v with
  | absent => exact absurd rfl hv
  | null => exact absurd rfl hv
  | bool b => exact ⟨fun h => (by cases h), fun h => absurd h.2 (hnot (by simp) (by simp))⟩
  | int i =>
    obtain ⟨f, hf, -, -, -, -, hfloat | ⟨hfinite, -⟩⟩ := number_cell k rfl hcell
    · cases hfloat
    · rw [hf, cellTree, dif_pos hfinite]
      exact ⟨fun h => (by cases h), fun h => absurd h.2 (hnot (by simp) (by simp))⟩
  | float f =>
    rw [valueToJs, cellTree]
    by_cases hf : f.isFinite = true
    · rw [dif_pos hf]
      exact ⟨fun h => (by cases h), fun h => absurd h.2 (hm.finite hf)⟩
    · rw [dif_neg hf]
      exact hm.null hf
  | str b => exact ⟨fun h => (by cases h), fun h => absurd h.2 (hnot (by simp) (by simp))⟩
  | json b => cases hcell

/-- Two cells of a column are written alike where they are equal, and where they are `Alike`. -/
theorem Marks.cell (hm : Marks lost one) (k : Coercions) {kind : Kind} {a b : Value} (ha : a.fits kind = true)
    (hb : b.fits kind = true) (hca : isKeyCell a = true) (hcb : isKeyCell b = true) :
    cellTree lost (valueToJs k a) = cellTree lost (valueToJs k b) ↔ compareValues a b = some .eq ∨ Alike one a b := by
  have hnull : ∀ {v : Value}, v.kind = none → isKeyCell v = true → v = .null := by
    intro v hv hcell
    cases v <;> simp [Value.kind, isKeyCell, Exact] at hv hcell ⊢
  have htag : ∀ {v : Value}, v.kind ≠ none → v.tag = 2 := fun hv => (present_image k hv).2
  rw [compareValues_eq ha hb, Option.some.injEq, Value.cmp_eq_eq]
  by_cases hna : a.kind = none
  · obtain rfl := hnull hna hca
    by_cases hnb : b.kind = none
    · obtain rfl := hnull hnb hcb
      exact ⟨fun _ => Or.inl ⟨rfl, rfl, rfl⟩, fun _ => rfl⟩
    · have hne : Value.null.tag ≠ b.tag := by rw [htag hnb]; decide
      rw [or_iff_right fun h => hne h.1, ← hm.missing k hnb hcb]
      exact eq_comm
  by_cases hnb : b.kind = none
  · obtain rfl := hnull hnb hcb
    have hne : a.tag ≠ Value.null.tag := by rw [htag hna]; decide
    have hcomm : Alike one a .null ↔ Alike one .null a := by simp only [Alike, and_comm]
    rw [or_iff_right fun h => hne h.1, hcomm]
    exact hm.missing k hna hca
  -- two cells of the column's kind
  have hka : a.kind = some kind := by simpa [Value.fits, hna] using ha
  have hkb : b.kind = some kind := by simpa [Value.fits, hnb] using hb
  have hother : ∀ {v w : Value}, v.kind ≠ none → v.kind ≠ some .number → ¬ Alike one v w := by
    intro v w hv hnumber halike
    rcases halike with h | h
    · cases v <;> simp [isZero, Value.kind] at h hnumber
    · rcases hm.only h.1 with rfl | ⟨f, rfl, -⟩
      · exact hv rfl
      · exact hnumber rfl
  cases kind with
  | bool =>
    rw [or_iff_left (hother hna (by rw [hka]; simp))]
    cases a <;> simp only [Value.kind, reduceCtorEq, Option.some.injEq] at hka
    cases b <;> simp only [Value.kind, reduceCtorEq, Option.some.injEq] at hkb
    rename_i x y
    cases x <;> cases y <;> simp [valueToJs, cellTree, Value.tag, Value.num, Value.text]
  | number =>
    obtain ⟨f, hf, hrf, hta, hxa, hza, hcasea⟩ := number_cell k hka hca
    obtain ⟨g, hg, hrg, htb, hxb, hzb, hcaseb⟩ := number_cell k hkb hcb
    have hone : ∀ {v : Value} {x : F64}, (v = .float x ∨ x.isFinite = true ∧ ∃ i, v = .int i) → (one v = true ↔ one (.float x) = true) := by
      intro v x h
      rcases h with rfl | ⟨hx, i, rfl⟩
      · exact Iff.rfl
      · refine iff_of_false (fun h => ?_) (hm.finite hx)
        rcases hm.only h with h | ⟨y, h, -⟩ <;> cases h
    rw [hf, hg, hm.number, hta, htb, hxa, hxb, ← hrf, ← hrg, F64.rank_inj, Alike, Alike, hza, hzb, hone hcasea, hone hcaseb]
    simp only [true_and, and_true]
  | str =>
    rw [or_iff_left (hother hna (by rw [hka]; simp))]
    obtain ⟨u, v, hu, hv, huv⟩ := text_cell k hka hkb hca hcb
    rw [hu, hv, cellTree, cellTree, Json.str.injEq, huv]
    cases a <;> simp only [Value.kind, reduceCtorEq, Option.some.injEq] at hka
    cases b <;> simp only [Value.kind, reduceCtorEq, Option.some.injEq] at hkb
    simp [Value.tag, Value.num, Value.text]
  | json =>
    cases a <;> simp only [Value.kind, reduceCtorEq, Option.some.injEq] at hka
    cases hca

end

/-! ## Keys -/

namespace KeyedRow

variable {kinds : List Kind} {pk : List Nat}

theorem cell (a : KeyedRow kinds pk) {c : Nat} (hc : c ∈ pk) : c < a.row.length ∧ ∃ kind, kinds[c]? = some kind := by
  have hlt : c < a.row.length := by
    by_contra hnot
    have hcell := a.cells c hc
    rw [Row.cell, List.getElem?_eq_none (by omega)] at hcell
    cases hcell
  exact ⟨hlt, _, List.getElem?_eq_getElem (by rw [a.fits.length_eq]; exact hlt)⟩

/-- A text made of the trees of a key's cells tells rows apart as the engine does, but for what is written alike. -/
theorem told {lost : F64 → Json} {one : Value → Bool} (hm : Marks lost one) (k : Coercions) (a b : KeyedRow kinds pk) :
    ((∀ c ∈ pk, cellTree lost (cellOf (rowToJs k a.row) c) = cellTree lost (cellOf (rowToJs k b.row) c)) ↔ SameKey a b) ↔
      SameKey a b ∨ ToldApart one a b := by
  have hcell : ∀ c ∈ pk, cellTree lost (cellOf (rowToJs k a.row) c) = cellTree lost (cellOf (rowToJs k b.row) c) ↔
      compareValues (a.row.cell c) (b.row.cell c) = some .eq ∨ Alike one (a.row.cell c) (b.row.cell c) := by
    intro c hc
    obtain ⟨hla, kind, hkind⟩ := a.cell hc
    rw [cellOf_image k hla, cellOf_image k (b.cell hc).1]
    exact hm.cell k (a.fits.cell hkind).2 (b.fits.cell hkind).2 (a.cells c hc) (b.cells c hc)
  rw [forall₂_congr hcell]
  constructor
  · intro h
    by_cases hsame : SameKey a b
    · exact Or.inl hsame
    · have hnot := mt h.mp hsame
      push Not at hnot
      obtain ⟨c, hc, hdiff, hapart⟩ := hnot
      exact Or.inr ⟨c, hc, hdiff, hapart⟩
  · intro h
    refine ⟨fun halike => ?_, fun hsame c hc => Or.inl (hsame c hc)⟩
    rcases h with hsame | ⟨c, hc, hdiff, hapart⟩
    · exact hsame
    · exact absurd (halike c hc) (not_or.mpr ⟨hdiff, hapart⟩)

end KeyedRow

/-- Each key is right about two rows exactly where they are one row to the engine, or differ in a
    cell that the key does not write alike. -/
theorem pk_keys_exact (k : Coercions) {pkCols : String → Option (List Nat)} {table : String} {kinds : List Kind} {pk : List Nat}
    (hpk : pkCols table = some pk) (a b : KeyedRow kinds pk) :
    ((pkKeyOf (rowToJs k a.row) pk = pkKeyOf (rowToJs k b.row) pk ↔ SameKey a b) ↔ SameKey a b ∨ ToldApart isNan a b) ∧
    ((NormalizedSync.key pkCols table (rowToJs k a.row) = NormalizedSync.key pkCols table (rowToJs k b.row) ↔ SameKey a b) ↔
      SameKey a b ∨ ToldApart isLost a b) := by
  have hkey : ∀ r : KeyedRow kinds pk, ∀ c ∈ pk, stringify (cellOf (rowToJs k r.row) c) =
      JsonText.print (cellTree (fun _ => .null) (cellOf (rowToJs k r.row) c)) := by
    intro r c hc
    rw [cellOf_image k (r.cell hc).1]
    exact stringify_tree k _
  have htagged : ∀ r : KeyedRow kinds pk, ∀ c ∈ pk, stringify (tagged (cellOf (rowToJs k r.row) c)) =
      JsonText.print (cellTree tag (cellOf (rowToJs k r.row) c)) := by
    intro r c hc
    rw [cellOf_image k (r.cell hc).1]
    exact tagged_tree k _
  constructor
  · rw [← a.told isNan_marks k b, pkKeyOf, pkKeyOf, stringifyCells_inj (htagged a) (htagged b)]
  · rw [← a.told isLost_marks k b, NormalizedSync.key, NormalizedSync.key, hpk]
    dsimp only
    rw [Except.ok.injEq, List.append_cancel_left_eq, List.cons.injEq, eq_self, true_and, stringifyCells_inj (hkey a) (hkey b)]

/-- A row with two zeros of one sign, and one with a negative zero. -/
theorem pk_keys_exact_zeros :
    ¬ (pkKeyOf (rowToJs ⟨fun _ => .nan, fun _ => [], fun _ => [], fun _ => ""⟩ [.bool true, .float .zero]) [1, 0] =
        pkKeyOf (rowToJs ⟨fun _ => .nan, fun _ => [], fun _ => [], fun _ => ""⟩ [.bool true, .float .negZero]) [1, 0] ↔
      ∀ c ∈ [1, 0], compareValues (Row.cell [.bool true, .float .zero] c) (Row.cell [.bool true, .float .negZero] c) = some .eq) := by
  intro h
  have hexact := (@pk_keys_exact ⟨fun _ => .nan, fun _ => [], fun _ => [], fun _ => ""⟩ (fun _ => some [1, 0]) "t" [.bool, .number]
    [1, 0] rfl ⟨[.bool true, .float .zero], by decide, by decide⟩ ⟨[.bool true, .float .negZero], by decide, by decide⟩).1.mp h
  rcases hexact with hsame | ⟨c, hc, hdiff, hapart⟩
  · exact absurd (hsame 1 (by decide)) (by decide)
  · rcases List.mem_cons.mp hc with rfl | hc
    · exact hapart (Or.inl (by decide))
    · obtain rfl := List.mem_singleton.mp hc
      exact hdiff (by decide)

/-- A zero and a negative zero have one key in both, and are two rows to the engine. -/
theorem zeros_share_keys : ∃ a b : KeyedRow [.number] [0], a.row = [.float .zero] ∧ b.row = [.float .negZero] ∧
    ¬ (pkKeyOf (rowToJs ⟨fun _ => .nan, fun _ => [], fun _ => [], fun _ => ""⟩ a.row) [0] =
      pkKeyOf (rowToJs ⟨fun _ => .nan, fun _ => [], fun _ => [], fun _ => ""⟩ b.row) [0] ↔ SameKey a b) ∧
    ¬ (NormalizedSync.key (fun _ => some [0]) "t" (rowToJs ⟨fun _ => .nan, fun _ => [], fun _ => [], fun _ => ""⟩ a.row) =
      NormalizedSync.key (fun _ => some [0]) "t" (rowToJs ⟨fun _ => .nan, fun _ => [], fun _ => [], fun _ => ""⟩ b.row) ↔
        SameKey a b) := by
  have htext : ∀ f : F64, f.isFinite = true → f.scaledAbs = 0 → NumberText.toText f = ['0'] := by
    intro f hf hzero
    rw [NumberText.toText_finite hf, NumberText.unsigned, hzero, if_neg (fun h => h.2 rfl), if_pos rfl]
  have hwritten : stringify (.number .zero) = stringify (.number .negZero) := by
    rw [stringify, stringify, htext .zero rfl rfl, htext .negZero rfl rfl]
    rfl
  refine ⟨⟨[.float .zero], by decide, by decide⟩, ⟨[.float .negZero], by decide, by decide⟩, rfl, rfl, fun h => ?_, fun h => ?_⟩
  · have hkey := h.mp (congrArg (fun t => 91 :: (join [t] ++ [93])) hwritten)
    exact absurd (hkey 0 (by decide)) (by decide)
  · have hkey := h.mp (congrArg (fun t => Except.ok (Collation.utf16 "t" ++ 32 :: 91 :: (join [t] ++ [93]))) hwritten)
    exact absurd (hkey 0 (by decide)) (by decide)

end Rindle.Client
