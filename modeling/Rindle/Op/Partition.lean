/-
  Rindle.Op.Partition — the partitions of the operators that keep state per partition
  (`rust/src/op/partition.rs`).

  A partition is the rows whose key columns equal given values; its state has a key of its own.
  Where those values are not null, rows are in one partition exactly if they have one key
  (`inPart_iff_key`), and a change that keeps the key columns touches one partition
  (`mem_applyChange_other`).
-/

import Rindle.Op.Take
import Rindle.Source.Feed

set_option linter.dupNamespace false

namespace Rindle.Partition

section
variable (part : Option (List Nat)) (pre : List UInt8)

/-- The partition columns; none without a key. -/
def cols : List Nat := part.getD []

/-- `key_from_row`. -/
def keyFromRow (row : Row) : List UInt8 :=
  match part with
  | none => encodeStateKey pre []
  | some pk => encodeStateKey pre (pk.map fun c => row.cell c)

/-- `key_from_constraint`. -/
def keyFromConstraint (c : Option Constraint) : List UInt8 :=
  match part, c with
  | some pk, some c => encodeStateKey pre (pk.map fun col => ((c.find? fun q => q.1 == col).map (·.2)).getD .null)
  | _, _ => encodeStateKey pre []

/-- `constraint_for`. -/
def constraintFor (row : Row) : Option Constraint := part.map fun pk => pk.map fun c => (c, row.cell c)

/-- The row is in the partition of `p`. -/
def inPart (p r : Row) : Bool := constraintHolds (constraintFor part p) r

/-- The partition cells have their column's type; they may be null. -/
def Typed (kinds : Nat → Kind) (r : Row) : Prop := ∀ c ∈ cols part, (r.cell c).fits (kinds c) = true

/-- A partition value: no cell is null. -/
def Proper (kinds : Nat → Kind) (p : Row) : Prop := ∀ c ∈ cols part, (p.cell c).kind = some (kinds c)

/-- A change that keeps the partition columns, with typed rows. -/
structure Keeping (kinds : Nat → Kind) (δ : SourceChange Row) : Prop where
  typed : ∀ r, δ.result = some r → Typed part kinds r
  kept : ∀ old row, δ = .edit old row → part.all (partitionKeyUnchanged old row) = true

end

variable {part : Option (List Nat)} {pre : List UInt8} {kinds : Nat → Kind} {p q r : Row}

/-! ## Keys -/

theorem Proper.typed (h : Proper part kinds p) : Typed part kinds p := fun c hc => Value.fits_of_kind (h c hc)

theorem inPart_iff : inPart part p r = true ↔ ∀ c ∈ cols part, (r.cell c).joinEq (p.cell c) = true := by
  unfold inPart constraintFor cols
  cases part with
  | none => simp [constraintHolds]
  | some pk => simp [constraintHolds, constraintMatches]

theorem keyFromRow_eq (r : Row) : keyFromRow part pre r = encodeStateKey pre ((cols part).map fun c => r.cell c) := by
  unfold keyFromRow cols
  cases part <;> rfl

/-- Of typed rows the key is the partition's cells. -/
theorem key_eq_iff (hp : Typed part kinds p) (hr : Typed part kinds r) :
    keyFromRow part pre r = keyFromRow part pre p ↔ ∀ c ∈ cols part, Value.cmp (r.cell c) (p.cell c) = .eq := by
  rw [keyFromRow_eq, keyFromRow_eq, encodeStateKey_inj, List.map_map, List.map_map]
  have hcell : ∀ c ∈ cols part, CanonVal.of (r.cell c) = CanonVal.of (p.cell c) ↔ Value.cmp (r.cell c) (p.cell c) = .eq := by
    intro c hc
    rw [canonVal_inj, ← compareValues_eq_eq, compareValues_eq (hr c hc) (hp c hc), Option.some_inj]
  constructor
  · intro h c hc
    exact (hcell c hc).mp (List.map_inj_left.mp h c hc)
  · intro h
    exact List.map_inj_left.mpr fun c hc => (hcell c hc).mpr (h c hc)

/-- A partition's rows are those with its key. -/
theorem inPart_iff_key (hp : Proper part kinds p) (hr : Typed part kinds r) :
    inPart part p r = true ↔ keyFromRow part pre r = keyFromRow part pre p := by
  rw [inPart_iff, key_eq_iff hp.typed hr]
  refine forall₂_congr fun c hc => ?_
  rw [Value.joinEq_iff]
  have htag := Value.tag_of_kind (hp c hc)
  constructor
  · intro h
    exact h.2.2
  · intro h
    exact ⟨(Value.cmp_eq_eq.mp h).1.trans htag, htag, h⟩

theorem inPart_self (hp : Proper part kinds p) : inPart part p p = true := (@inPart_iff_key part [] kinds p p hp hp.typed).mpr rfl

/-- The rows of a partition value's key are partition values. -/
theorem Proper.of_key (hp : Proper part kinds p) (hr : Typed part kinds r) (h : keyFromRow part pre r = keyFromRow part pre p) :
    Proper part kinds r := by
  intro c hc
  have htag := (Value.cmp_eq_eq.mp ((key_eq_iff hp.typed hr).mp h c hc)).1.trans (Value.tag_of_kind (hp c hc))
  have hfit := hr c hc
  simp only [Value.fits, Bool.or_eq_true, beq_iff_eq] at hfit
  rcases hfit with hnone | hsome
  · cases hv : r.cell c <;> rw [hv] at hnone htag <;> first | exact absurd htag (by decide) | cases hnone
  · exact hsome

/-- Partition values with one key are one partition. -/
theorem inPart_congr (hp : Proper part kinds p) (hq : Proper part kinds q) (h : keyFromRow part pre q = keyFromRow part pre p) :
    inPart part q = inPart part p := by
  funext r
  rw [Bool.eq_iff_iff, inPart_iff, inPart_iff]
  refine forall₂_congr fun c hc => ?_
  have hcmp := (key_eq_iff hp.typed hq.typed).mp h c hc
  rw [Value.joinEq_iff, Value.joinEq_iff, Std.TransCmp.congr_right hcmp]
  simp [Value.tag_of_kind (hp c hc), Value.tag_of_kind (hq c hc)]

/-- A row is in one partition. -/
theorem key_eq_of_inPart (hp : Proper part kinds p) (hq : Proper part kinds q) (h : inPart part p r = true) (h' : inPart part q r = true) :
    keyFromRow part pre q = keyFromRow part pre p := by
  refine (key_eq_iff hp.typed hq.typed).mpr fun c hc => ?_
  have hrp := (Value.joinEq_iff.mp (inPart_iff.mp h c hc)).2.2
  have hrq := (Value.joinEq_iff.mp (inPart_iff.mp h' c hc)).2.2
  exact Std.TransCmp.eq_trans (SList.eq_comm.mp hrq) hrp

theorem canon_cells {as bs : List Value} :
    as.map CanonVal.of = bs.map CanonVal.of ↔ List.Forall₂ (fun a b => valuesIdentical a b = true) as bs := by
  induction as generalizing bs with
  | nil => cases bs <;> simp
  | cons a as ih =>
    cases bs with
    | nil => simp
    | cons b bs => rw [List.map_cons, List.map_cons, List.cons.injEq, canonVal_inj, List.forall₂_cons, ih]

/-- Two tuples have one key exactly if they have the same length and their cells are identical; and a
    key is Take's reserved one only under that very prefix, which no operator has. -/
theorem stateKey_cells (pre : List UInt8) (as bs : List Value) :
    (encodeStateKey pre as = encodeStateKey pre bs ↔ List.Forall₂ (fun a b => valuesIdentical a b = true) as bs) ∧
      (encodeStateKey pre as = Take.maxBoundKey → pre = Take.maxBoundKey ∧ as = []) ∧
      encodeStateKey Take.keyPrefix as ≠ Take.maxBoundKey := by
  have hreserved : ∀ pre, encodeStateKey pre as = Take.maxBoundKey → pre = Take.maxBoundKey ∧ as = [] := by
    intro pre h
    cases as with
    | nil => exact ⟨by simpa [encodeStateKey] using h, rfl⟩
    | cons a as =>
      -- the separator is no byte of the reserved key
      have hsep : unitSep ∈ Take.maxBoundKey := by
        rw [← h, encodeStateKey, List.flatMap_cons]
        simp
      exact absurd hsep (by decide)
  refine ⟨?_, hreserved pre, fun h => absurd (hreserved _ h).1 (by decide)⟩
  rw [encodeStateKey_inj]
  exact canon_cells

theorem keyFromConstraint_eq (p : Row) : keyFromConstraint part pre (constraintFor part p) = keyFromRow part pre p := by
  unfold keyFromConstraint constraintFor keyFromRow
  cases part with
  | none => rfl
  | some pk =>
    show encodeStateKey _ _ = encodeStateKey _ _
    congr 1
    refine List.map_congr_left fun c hc => ?_
    have hfind : ((pk.map fun c => (c, p.cell c)).find? fun q => q.1 == c) = some (c, p.cell c) := by
      rw [List.find?_map]
      have hc' : (pk.find? ((fun q : Nat × Value => q.1 == c) ∘ fun c => (c, p.cell c))) = some c := by
        cases h : pk.find? ((fun q : Nat × Value => q.1 == c) ∘ fun c => (c, p.cell c)) with
        | none => exact absurd (by simp) (List.find?_eq_none.mp h c hc)
        | some d =>
          have hd := List.find?_some h
          rw [show d = c by simpa using hd]
      rw [hc']
      rfl
    rw [hfind]
    rfl

theorem matches_constraintFor {pk : List Nat} (p : Row) : constraintMatchesPartitionKey (pk.map fun c => (c, p.cell c)) pk = true := by
  simp [constraintMatchesPartitionKey]

theorem unchanged_iff {old row : Row} :
    part.all (partitionKeyUnchanged old row) = true ↔ ∀ c ∈ cols part, Value.cmp (old.cell c) (row.cell c) = .eq := by
  unfold cols
  cases part with
  | none => simp
  | some pk => simp [partitionKeyUnchanged]

/-! ## Changes -/

variable {U : Set Row} {δ : SourceChange Row} {pk : List Nat} (hv : ValidChange pk U δ) (htyped : ∀ r ∈ U, Typed part kinds r)
  (hkeep : Keeping part kinds δ)

include hv htyped hkeep in
theorem typed_key : Typed part kinds δ.key := by
  cases δ with
  | add r => exact hkeep.typed r rfl
  | remove r => exact htyped r hv
  | edit old row => exact htyped old hv.1

include hv htyped hkeep in
/-- The new row of a change has the key of the row it is for. -/
theorem result_key (hr : δ.result = some r) : keyFromRow part pre r = keyFromRow part pre δ.key := by
  cases δ with
  | add a => rw [← Option.some.inj hr]; rfl
  | remove a => cases hr
  | edit old row =>
    obtain rfl := Option.some.inj hr
    have h := unchanged_iff.mp (hkeep.kept old row rfl)
    exact (key_eq_iff (htyped old hv.1) (hkeep.typed row rfl)).mpr fun c hc => SList.eq_comm.mp (h c hc)

include htyped hkeep in
theorem typed_applyChange : ∀ r ∈ applyChange U δ, Typed part kinds r := by
  intro r hr
  cases δ with
  | add a =>
    rcases hr with rfl | hr
    · exact hkeep.typed r rfl
    · exact htyped r hr
  | remove a => exact htyped r hr.1
  | edit old row =>
    rcases hr with rfl | hr
    · exact hkeep.typed r rfl
    · exact htyped r hr.1

include hv htyped hkeep in
/-- Another partition's rows stay. -/
theorem mem_applyChange_other (hp : Proper part kinds p) (hne : keyFromRow part pre δ.key ≠ keyFromRow part pre p)
    (hr : inPart part p r = true) : r ∈ applyChange U δ ↔ r ∈ U := by
  have hnew : (Overlays.ofChange δ).add ≠ some r := by
    intro hadd
    have hres : δ.result = some r := by cases δ <;> exact hadd
    exact hne ((result_key hv htyped hkeep hres).symm.trans ((inPart_iff_key hp (hkeep.typed r hres)).mp hr))
  have hold : (Overlays.ofChange δ).remove ≠ some r := by
    intro hrem
    have hrow : δ.key = r := by
      cases δ with
      | add a => cases hrem
      | remove a => exact Option.some.inj hrem
      | edit old row => exact Option.some.inj hrem
    rw [hrow] at hne
    exact hne ((inPart_iff_key hp (htyped r (MemorySource.ValidChange.removed hv hrem))).mp hr)
  rw [MemorySource.mem_applyChange]
  simp [hnew, hold]

/-! ## What downstream holds of a partition -/

section
variable {η : Type} {hold : η → Change → Option η}

/-- What downstream holds of one partition, after a change. -/
def holdFor (part : Option (List Nat)) (hold : η → Change → Option η) (p : Row) (held : η) (c : Change) : Option η :=
  if inPart part p c.primaryRow then hold held c else some held

theorem holdFor_all {changes : List Change} (h : ∀ c ∈ changes, inPart part p c.primaryRow = true) (held : η) :
    changes.foldlM (holdFor part hold p) held = changes.foldlM hold held := by
  induction changes generalizing held with
  | nil => rfl
  | cons c changes ih =>
    rw [List.foldlM_cons, List.foldlM_cons, holdFor, if_pos (h c List.mem_cons_self)]
    congr 1
    funext held'
    exact ih (fun d hd => h d (List.mem_cons_of_mem _ hd)) held'

theorem holdFor_none {changes : List Change} (h : ∀ c ∈ changes, inPart part p c.primaryRow ≠ true) (held : η) :
    changes.foldlM (holdFor part hold p) held = some held := by
  induction changes with
  | nil => rfl
  | cons c changes ih =>
    rw [List.foldlM_cons, holdFor, if_neg (h c List.mem_cons_self)]
    exact ih fun d hd => h d (List.mem_cons_of_mem _ hd)

end

end Rindle.Partition
