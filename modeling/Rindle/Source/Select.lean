/-
  Rindle.Source.Select — the rows a fetch returns, as rows of the table.

  `wanted` are the rows a request asks for: past its start in the connection's order, within
  its constraint, accepted by the filter. The scan puts the rows within the constraint first
  (`within_lt`) and misses none that are wanted (`inScan_of_wanted`); on those the index's
  order is the connection's, or all of them have one key (`request_orders`). So without an
  overlay a fetch returns the wanted rows in the connection's order (`Fetched.settled`).

  A connection's filters hoist no primary-key constraint; only tests set one.
-/

import Rindle.Source.Splice
import Rindle.Source.Push

set_option linter.dupNamespace false

namespace Rindle

/-! ## Seeking a constraint -/

theorem Value.joinEq_iff {a b : Value} : a.joinEq b = true ↔ a.tag = 2 ∧ b.tag = 2 ∧ Value.cmp a b = .eq := by
  simp [Value.joinEq, and_assoc]

/-- Two rows within a constraint tie on its columns. -/
theorem constraintMatches_tie {c : Constraint} {x : Row} (hx : constraintMatches x c = true) {p : Nat × Value} (hp : p ∈ c) :
    Value.cmp (x.cell p.1) p.2 = .eq :=
  (Value.joinEq_iff.mp (List.all_eq_true.mp hx p hp)).2.2

variable (c : Constraint)

/-- The constraint's columns, ascending. -/
def constraintSort : SortSpec := c.map fun p => (p.1, true)

theorem rowCmp_append (a b : SortSpec) (x y : Row) : rowCmp (a ++ b) x y = (rowCmp a x y).then (rowCmp b x y) := by
  induction a with
  | nil => rfl
  | cons p a ih =>
    rw [List.cons_append, rowCmp_cons, rowCmp_cons, ih]
    cases cellCmp p.1 p.2 x y <;> rfl

theorem constraintSort_tie {c : Constraint} {x y : Row} (hx : constraintMatches x c = true) (hy : constraintMatches y c = true) :
    rowCmp (constraintSort c) x y = .eq := by
  rw [rowCmp_eq_eq]
  intro p hp
  obtain ⟨q, hq, rfl⟩ := List.mem_map.mp hp
  exact Std.TransCmp.eq_trans (constraintMatches_tie hx hq) (SList.eq_comm.mp (constraintMatches_tie hy hq))

/-- A row that ties one within the constraint on its columns is within it. -/
theorem constraintMatches_of_tie {c : Constraint} {x r : Row} (hx : constraintMatches x c = true)
    (h : rowCmp (constraintSort c) x r = .eq) : constraintMatches r c = true := by
  apply List.all_eq_true.mpr
  intro p hp
  obtain ⟨ht, htp, hcmp⟩ := Value.joinEq_iff.mp (List.all_eq_true.mp hx p hp)
  have hxr : Value.cmp (x.cell p.1) (r.cell p.1) = .eq := rowCmp_eq_eq.mp h (p.1, true) (List.mem_map.mpr ⟨p, hp, rfl⟩)
  have hrp : Value.cmp (r.cell p.1) p.2 = .eq := Std.TransCmp.eq_trans (SList.eq_comm.mp hxr) hcmp
  exact Value.joinEq_iff.mpr ⟨(Value.cmp_eq_eq.mp hrp).1.trans htp, htp, hrp⟩

/-- The bound `buildScanStart` gives a sort column. -/
def startBound (reverse : Bool) (col : Nat) (asc : Bool) : Bound :=
  match c.find? fun q => q.1 == col with
  | some q => .val q.2
  | none => if reverse == asc then .max else .min

theorem buildScanStart_eq (sort : SortSpec) (reverse : Bool) :
    buildScanStart c sort reverse = sort.map fun p => (p.1, startBound c reverse p.1 p.2) := by
  unfold buildScanStart startBound
  apply List.map_congr_left
  intro p _
  obtain ⟨col, asc⟩ := p
  dsimp only
  cases c.find? fun q => q.1 == col <;> rfl

/-- The bound of a column is the one of its first place in the sort. -/
theorem find_scanStart (reverse : Bool) (col : Nat) (sort : SortSpec) :
    (buildScanStart c sort reverse).find? (fun p => p.1 == col) =
      (sort.find? fun p => p.1 == col).map fun p => (p.1, startBound c reverse p.1 p.2) := by
  rw [buildScanStart_eq, List.find?_map]
  rfl

/-- The bound of a constrained column is a row's own cell, for a row within the constraint. -/
theorem scanStart_constrained {c : Constraint} {x : Row} (hx : constraintMatches x c = true) {sort : SortSpec} {reverse : Bool}
    {col : Nat} (hsort : ∃ asc, (col, asc) ∈ sort) (hc : ∃ v, (col, v) ∈ c) (r : Row) :
    cmpBoundCell (buildScanStart c sort reverse) col r = Value.cmp (x.cell col) (r.cell col) := by
  obtain ⟨asc, hasc⟩ := hsort
  obtain ⟨w, hw⟩ := hc
  obtain ⟨q, hq⟩ : ∃ q, c.find? (fun q => q.1 == col) = some q := by
    cases h : c.find? (fun q => q.1 == col) with
    | some q => exact ⟨q, rfl⟩
    | none => exact absurd (by simp) (List.find?_eq_none.mp h (col, w) hw)
  obtain ⟨p, hp⟩ : ∃ p, sort.find? (fun p => p.1 == col) = some p := by
    cases h : sort.find? (fun p => p.1 == col) with
    | some p => exact ⟨p, rfl⟩
    | none => exact absurd (by simp) (List.find?_eq_none.mp h (col, asc) hasc)
  have hqcol : q.1 = col := by simpa using List.find?_some hq
  have hpcol : p.1 = col := by simpa using List.find?_some hp
  have htie : Value.cmp (x.cell col) q.2 = .eq := hqcol ▸ constraintMatches_tie hx (List.mem_of_find?_eq_some hq)
  rw [cmpBoundCell, find_scanStart, hp, Option.map_some, startBound, hpcol, hq]
  exact Std.TransCmp.congr_left (SList.eq_comm.mp htie)

/-- A column without a constraint is decided by its sentinel, at the near end of the scan. -/
theorem scanStart_free {c : Constraint} {front tail : SortSpec} {reverse asc : Bool} {col : Nat}
    (hfront : ∀ p ∈ front, p.1 ≠ col) (hc : ∀ q ∈ c, q.1 ≠ col) (r : Row) :
    applyDir (cmpBoundCell (buildScanStart c (front ++ (col, asc) :: tail) reverse) col r) asc =
      if reverse then .gt else .lt := by
  have hfind : c.find? (fun q => q.1 == col) = none := List.find?_eq_none.mpr fun q hq => by simpa using hc q hq
  have hsort : (front ++ (col, asc) :: tail).find? (fun p => p.1 == col) = some (col, asc) := by
    rw [List.find?_append, List.find?_eq_none.mpr fun p hp => by simpa using hfront p hp]
    simp
  rw [cmpBoundCell, find_scanStart, hsort, Option.map_some, startBound, hfind]
  cases reverse <;> cases asc <;> rfl

/-- A row within the constraint is at the bound or past it. -/
theorem cmpBoundRow_within {c : Constraint} {x : Row} (hx : constraintMatches x c = true) (reverse : Bool) (tail : SortSpec) :
    ∀ front : SortSpec, (∀ p ∈ front, ∃ v, (p.1, v) ∈ c) →
      cmpBoundRow tail (buildScanStart c (front ++ tail) reverse) x ≠ if reverse then .lt else .gt := by
  induction tail with
  | nil => intro front _; cases reverse <;> simp [cmpBoundRow]
  | cons p tail ih =>
    intro front hfront
    obtain ⟨col, asc⟩ := p
    rw [cmpBoundRow]
    by_cases hc : ∃ v, (col, v) ∈ c
    · have hself : cmpBoundCell (buildScanStart c (front ++ (col, asc) :: tail) reverse) col x = .eq := by
        rw [scanStart_constrained hx ⟨asc, by simp⟩ hc]
        exact Std.ReflCmp.compare_self
      rw [if_pos hself]
      have hnext := ih (front ++ [(col, asc)]) fun p hp => by
        rcases List.mem_append.mp hp with hp | hp
        · exact hfront p hp
        · rw [List.mem_singleton.mp hp]
          exact hc
      simpa using hnext
    · have hfree : applyDir (cmpBoundCell (buildScanStart c (front ++ (col, asc) :: tail) reverse) col x) asc =
          if reverse then .gt else .lt := by
        apply scanStart_free
        · intro p hp h
          exact hc (h ▸ hfront p hp)
        · intro q hq h
          exact hc ⟨q.2, h ▸ hq⟩
      split
      · rename_i he
        rw [he] at hfree
        cases reverse <;> cases asc <;> cases hfree
      · rw [hfree]
        cases reverse <;> simp

theorem cellCmp_ite (col : Nat) (asc : Bool) (x r : Row) (o : Ordering) :
    (if Value.cmp (x.cell col) (r.cell col) = .eq then o else applyDir (Value.cmp (x.cell col) (r.cell col)) asc) =
      (cellCmp col asc x r).then o := by
  rw [applyDir_cmp]
  by_cases he : Value.cmp (x.cell col) (r.cell col) = .eq
  · rw [if_pos he, cellCmp_eq_eq.mpr he]
    rfl
  · rw [if_neg he]
    cases h : cellCmp col asc x r with
    | eq => exact absurd (cellCmp_eq_eq.mp h) he
    | lt => rfl
    | gt => rfl

/-- What the scan yields beyond the constraint sorts after every row within it. -/
theorem cmpBoundRow_beyond {c : Constraint} {x r : Row} (hx : constraintMatches x c = true) (sort : SortSpec) (reverse : Bool) :
    ∀ cols tail : SortSpec, (∀ p ∈ cols, p ∈ sort ∧ ∃ v, (p.1, v) ∈ c) → rowCmp cols x r ≠ .eq →
      cmpBoundRow (cols ++ tail) (buildScanStart c sort reverse) r = rowCmp (cols ++ tail) x r := by
  intro cols tail
  induction cols with
  | nil => intro _ h; exact absurd rfl h
  | cons p cols ih =>
    intro hcols hne
    obtain ⟨col, asc⟩ := p
    obtain ⟨hmem, hc⟩ := hcols (col, asc) List.mem_cons_self
    rw [List.cons_append, cmpBoundRow, rowCmp_cons, scanStart_constrained hx ⟨asc, hmem⟩ hc]
    by_cases he : cellCmp col asc x r = .eq
    · rw [rowCmp_cons, he] at hne
      rw [if_pos (cellCmp_eq_eq.mp he), he, ih (fun q hq => hcols q (List.mem_cons_of_mem _ hq)) hne]
      rfl
    · rw [cellCmp_ite]
      cases h : cellCmp col asc x r with
      | eq => exact absurd h he
      | lt => rfl
      | gt => rfl

/-- A start row as a bound. -/
theorem cmpBoundRow_rowBoundOf (row r : Row) (sort : SortSpec) :
    ∀ cols : SortSpec, (∀ p ∈ cols, p ∈ sort) → cmpBoundRow cols (rowBoundOf row sort) r = rowCmp cols row r := by
  intro cols
  induction cols with
  | nil => intro _; rfl
  | cons p cols ih =>
    intro hcols
    obtain ⟨col, asc⟩ := p
    have hcell : cmpBoundCell (rowBoundOf row sort) col r = Value.cmp (row.cell col) (r.cell col) := by
      obtain ⟨q, hq⟩ : ∃ q, sort.find? (fun q => q.1 == col) = some q := by
        cases h : sort.find? (fun q => q.1 == col) with
        | some q => exact ⟨q, rfl⟩
        | none => exact absurd (by simp) (List.find?_eq_none.mp h (col, asc) (hcols _ List.mem_cons_self))
      have hqcol : q.1 = col := by simpa using List.find?_some hq
      have hfind : (rowBoundOf row sort).find? (fun p => p.1 == col) = some (col, .val (row.cell col)) := by
        rw [rowBoundOf, List.find?_map]
        have hcomp : ((fun p : Nat × Bound => p.1 == col) ∘ fun p : Nat × Bool => (p.1, Bound.val (row.cell p.1))) =
            fun q => q.1 == col := rfl
        rw [hcomp, hq, Option.map_some, hqcol]
      rw [cmpBoundCell, hfind]
    rw [cmpBoundRow, rowCmp_cons, hcell, cellCmp_ite, ih fun q hq => hcols q (List.mem_cons_of_mem _ hq)]

namespace MemorySource

/-! ## What a request asks for -/

variable (pk : List Nat) (conn : Connection) (req : FetchRequest)

/-- Past the start, in the connection's order. -/
@[grind] def pastStart (r : Row) : Bool :=
  req.start.all fun start => startReached start conn.sort req.reverse r

/-- Not before the start row, in the order of the scanned index. -/
def pastStartRow (r : Row) : Bool :=
  req.start.all fun start => Overlays.notBefore start.row (requestSort pk conn req) req.reverse r

/-- A row the request asks for. -/
@[grind] def wanted (r : Row) : Bool :=
  pastStart conn req r && (constraintHolds req.constraint r && conn.accepts r)

/-- A row that stays in the overlay. -/
@[grind] def overlaid (r : Row) : Bool :=
  pastStartRow pk conn req r && (constraintHolds req.constraint r && conn.accepts r)

/-- The change a connection sees in flight. -/
def seen (overlay : Option Overlay) : Overlays :=
  Overlays.fromChange (overlay.filter fun o => decide (o.epoch ≤ conn.lastPushedEpoch))

theorem computeOverlays_eq (gated : Option Overlay) :
    computeOverlays (req.start.map (·.row)) req.constraint gated (requestSort pk conn req) req.reverse
      (conn.filters.map fun f => f.predicate) [] = (Overlays.fromChange gated).narrow (overlaid pk conn req) := by
  have hnarrow : ∀ (o : Overlays) (p q : Row → Bool), (o.narrow p).narrow q = o.narrow fun r => p r && q r := by
    intro o p q
    simp [Overlays.narrow, Option.filter_filter]
  have htrue : ∀ o : Overlays, o.narrow (fun _ => true) = o := by
    intro o
    obtain ⟨add, remove⟩ := o
    cases add <;> cases remove <;> rfl
  -- each stage narrows by a predicate that is constant where the request does not use it
  have hstages : (Overlays.fromChange gated).narrow (overlaid pk conn req) =
      (((Overlays.fromChange gated).narrow (pastStartRow pk conn req)).narrow (constraintHolds req.constraint)).narrow
        conn.accepts := by
    rw [hnarrow, hnarrow]
    rfl
  rw [hstages]
  unfold computeOverlays pastStartRow constraintHolds Connection.accepts
  cases req.start <;> cases req.constraint <;> cases conn.filters <;>
    simp [htrue, Overlays.forStartAt, Overlays.forConstraint, Overlays.forFilterPredicate]

/-- A fetch: the overlay's rows that stay are spliced into the scan, then the stages. -/
theorem fetchStream_eq (overlay : Option Overlay) (L : List Row) :
    fetchStream conn req overlay (requestSort pk conn req) L =
      selectRows (pastStart conn req) (constraintHolds req.constraint) conn.accepts
        (overlaySplice (compareRowsRev (requestSort pk conn req) req.reverse)
          ((seen conn overlay).add.filter (overlaid pk conn req))
          ((seen conn overlay).remove.filter (overlaid pk conn req)) L) := by
  have hsplice : ∀ (o : Overlays) (rows : List Row), generateWithOverlayInner rows o (requestSort pk conn req) req.reverse =
      overlaySplice (compareRowsRev (requestSort pk conn req) req.reverse) o.add o.remove rows := by
    intro o rows
    unfold generateWithOverlayInner Overlays.isEmpty
    obtain ⟨add, remove⟩ := o
    cases add <;> cases remove <;> simp
  have hstart : ∀ rows, generateWithStart rows req.start conn.sort req.reverse = rows.dropWhile fun r => !pastStart conn req r := by
    intro rows
    unfold pastStart generateWithStart
    cases req.start with
    | none => cases rows <;> simp [List.dropWhile]
    | some st => rfl
  have hwithin : ∀ rows, generateWithConstraint rows req.constraint = rows.takeWhile (constraintHolds req.constraint) := by
    intro rows
    unfold constraintHolds generateWithConstraint
    cases req.constraint with
    | none => exact (List.takeWhile_eq_self_iff.mpr fun _ _ => rfl).symm
    | some c => rfl
  unfold fetchStream generateWithOverlay
  simp only
  rw [computeOverlays_eq, hsplice, hstart, hwithin, selectRows]
  unfold Connection.accepts
  cases conn.filters with
  | none => exact (List.filter_eq_self.mpr fun _ _ => rfl).symm
  | some f => rfl

/-! ## The scan of a request -/

section
variable {pk : List Nat} {conn : Connection} {req : FetchRequest}

theorem fetchOrPk_of_none (hpk : conn.pkConstraint = none) : fetchOrPk conn req = req.constraint := by
  rw [fetchOrPk, hpk, Option.none_or]

theorem requestSort_none (hpk : conn.pkConstraint = none) (hc : req.constraint = none) : requestSort pk conn req = conn.sort := by
  simp [requestSort, fetchOrPk_of_none hpk, hc, fetchIndexSort]

theorem requestSort_some (pk : List Nat) (hpk : conn.pkConstraint = none) {c : Constraint} (hc : req.constraint = some c) :
    (∃ tail, requestSort pk conn req = constraintSort c ++ tail) ∧
      (requestSort pk conn req = constraintSort c ++ conn.sort ∨ requestSort pk conn req = constraintSort c) := by
  simp only [requestSort, fetchOrPk_of_none hpk, hc, fetchIndexSort, Option.getD_some]
  split
  · exact ⟨⟨_, rfl⟩, Or.inl rfl⟩
  · exact ⟨⟨_, rfl⟩, Or.inr (List.append_nil _)⟩

/-- On the rows within the constraint the index has the connection's order, or they all tie. -/
theorem request_orders (pk : List Nat) (hpk : conn.pkConstraint = none) (req : FetchRequest) :
    (∀ x y, constraintHolds req.constraint x = true → constraintHolds req.constraint y = true →
      compareRowsRev (requestSort pk conn req) req.reverse x y = compareRowsRev conn.sort req.reverse x y) ∨
    (req.constraint ≠ none ∧ ∀ x y, constraintHolds req.constraint x = true → constraintHolds req.constraint y = true →
      compareRowsRev (requestSort pk conn req) req.reverse x y = .eq) := by
  cases hc : req.constraint with
  | none =>
    rw [requestSort_none hpk hc]
    exact Or.inl fun _ _ _ _ => rfl
  | some c =>
    rcases (requestSort_some pk hpk hc).2 with h | h
    · refine Or.inl fun x y hx hy => ?_
      rw [h, compareRowsRev, compareRowsRev, SList.dirCmp, SList.dirCmp, rowCmp_append, constraintSort_tie hx hy]
      rfl
    · refine Or.inr ⟨by simp, fun x y hx hy => ?_⟩
      rw [h]
      exact SList.dirCmp_eq_eq.mpr (constraintSort_tie hx hy)

theorem within_lt (hpk : conn.pkConstraint = none) {x r : Row} (hx : constraintHolds req.constraint x = true)
    (hr : constraintHolds req.constraint r ≠ true)
    (hscan : inScan (requestSort pk conn req) (scanStart (fetchOrPk conn req) req (requestSort pk conn req)) req.reverse r = true) :
    compareRowsRev (requestSort pk conn req) req.reverse x r = .lt := by
  cases hc : req.constraint with
  | none => rw [hc] at hr; exact absurd rfl hr
  | some c =>
    rw [hc] at hx hr
    obtain ⟨tail, hsort⟩ := (requestSort_some pk hpk hc).1
    have hne : rowCmp (constraintSort c) x r ≠ .eq := fun h => hr (constraintMatches_of_tie hx h)
    have hcols : ∀ p ∈ constraintSort c, p ∈ constraintSort c ++ tail ∧ ∃ v, (p.1, v) ∈ c := by
      intro p hp
      obtain ⟨q, hq, rfl⟩ := List.mem_map.mp hp
      exact ⟨List.mem_append_left _ hp, q.2, hq⟩
    have hbound := cmpBoundRow_beyond hx (constraintSort c ++ tail) req.reverse (constraintSort c) tail hcols hne
    have hne' : rowCmp (constraintSort c ++ tail) x r ≠ .eq := by
      rw [rowCmp_append]
      intro h
      exact hne (Ordering.then_eq_eq.mp h).1
    rw [fetchOrPk_of_none hpk, hc, scanStart, hsort, inScan, Option.all_some, hbound] at hscan
    rw [hsort, compareRowsRev, SList.dirCmp]
    cases hrev : req.reverse <;> cases hcmp : rowCmp (constraintSort c ++ tail) x r <;> simp_all

theorem pastStartRow_of_pastStart (hpk : conn.pkConstraint = none) (hc : req.constraint = none) {x : Row}
    (h : pastStart conn req x = true) : pastStartRow pk conn req x = true := by
  unfold pastStart at h
  unfold pastStartRow
  cases hs : req.start with
  | none => rfl
  | some start =>
    rw [hs, Option.all_some] at h
    rw [Option.all_some, requestSort_none hpk hc, Overlays.notBefore, bne_iff_ne]
    unfold startReached at h
    cases hb : start.basis with
    | atRow => simpa [hb] using h
    | after =>
      have hgt : compareRowsRev conn.sort req.reverse x start.row = .gt := by simpa [hb] using h
      simp [hgt]

/-- The scan reaches every row within the constraint; without one it starts at the start row. -/
theorem inScan_iff (hpk : conn.pkConstraint = none) {x : Row} (hx : constraintHolds req.constraint x = true) :
    inScan (requestSort pk conn req) (scanStart (fetchOrPk conn req) req (requestSort pk conn req)) req.reverse x = true ↔
      (req.constraint = none → pastStartRow pk conn req x = true) := by
  rw [fetchOrPk_of_none hpk]
  cases hc : req.constraint with
  | none =>
    simp only [true_imp_iff]
    rw [scanStart, pastStartRow]
    cases hs : req.start with
    | none => simp [inScan]
    | some start =>
      rw [Option.map_some, inScan, Option.all_some, cmpBoundRow_rowBoundOf start.row x _ _ fun p hp => hp,
        Option.all_some, Overlays.notBefore, compareRowsRev, SList.dirCmp]
      have hswap : rowCmp (requestSort pk conn req) start.row x = (rowCmp (requestSort pk conn req) x start.row).swap :=
        Std.OrientedCmp.eq_swap
      rw [hswap]
      cases req.reverse <;> cases rowCmp (requestSort pk conn req) x start.row <;> decide
  | some c =>
    rw [hc] at hx
    have h := cmpBoundRow_within hx req.reverse (requestSort pk conn req) [] (by simp)
    rw [List.nil_append] at h
    rw [scanStart, inScan, Option.all_some]
    cases hrev : req.reverse <;> simp_all

/-- The rows of a fetch come from the part of the scan within the constraint. -/
theorem Fetched.within {R : Set Row} {overlay : Option Overlay} {rows : List Row} (hpk : conn.pkConstraint = none)
    (h : Fetched pk (same R) overlay conn req rows) :
    ∃ L, SList.Sorted (compareRowsRev (requestSort pk conn req) req.reverse) L ∧
      (∀ r, r ∈ L ↔ r ∈ R ∧ constraintHolds req.constraint r = true ∧ (req.constraint = none → pastStartRow pk conn req r = true)) ∧
      rows = selectRows (pastStart conn req) (constraintHolds req.constraint) conn.accepts
        (overlaySplice (compareRowsRev (requestSort pk conn req) req.reverse)
          ((seen conn overlay).add.filter (overlaid pk conn req))
          ((seen conn overlay).remove.filter (overlaid pk conn req)) L) := by
  obtain ⟨L, hscan, rfl⟩ := h
  have hoverlaid : ∀ {o : Option Row} {a : Row}, o.filter (overlaid pk conn req) = some a → constraintHolds req.constraint a = true := by
    intro o a ha
    have := (Option.filter_eq_some_iff.mp ha).2
    simp only [overlaid, Bool.and_eq_true] at this
    exact this.2.1
  have hout : ∀ b ∈ L.filter (fun r => !constraintHolds req.constraint r), ∀ a, constraintHolds req.constraint a = true →
      compareRowsRev (requestSort pk conn req) req.reverse a b = .lt := by
    intro b hb a ha
    obtain ⟨hbL, hbc⟩ := List.mem_filter.mp hb
    exact within_lt hpk ha (by simpa using hbc) ((hscan.mem b).mp hbL).2
  have hsplit : L = L.filter (constraintHolds req.constraint) ++ L.filter fun r => !constraintHolds req.constraint r := by
    apply hscan.sorted.ext
    · refine SList.sorted_append.mpr ⟨hscan.sorted.sublist List.filter_sublist, hscan.sorted.sublist List.filter_sublist, ?_⟩
      intro a ha b hb
      exact hout b hb a (List.mem_filter.mp ha).2
    · intro x
      by_cases hx : constraintHolds req.constraint x = true <;> simp [hx]
  refine ⟨L.filter (constraintHolds req.constraint), hscan.sorted.sublist List.filter_sublist, fun r => ?_, ?_⟩
  · rw [List.mem_filter, hscan.mem, and_assoc, and_congr_right_iff, and_comm, and_congr_right_iff]
    intro _ hr
    exact inScan_iff hpk hr
  · rw [fetchStream_eq]
    nth_rewrite 1 [hsplit]
    rw [overlaySplice_append, selectRows_append]
    · intro r hr hw
      have := (List.mem_filter.mp hr).2
      simp [hw.1] at this
    · intro a ha b hb
      exact hout b hb a (hoverlaid ha)
    · intro a ha b hb
      rw [hout b hb a (hoverlaid ha)]
      decide

/-- The start gate is monotone in the connection's order. -/
theorem pastStart_mono {a b : Row} (hab : compareRowsRev conn.sort req.reverse a b ≠ .gt) (ha : pastStart conn req a = true) :
    pastStart conn req b = true := by
  unfold pastStart at *
  cases hs : req.start with
  | none => rfl
  | some start =>
    rw [hs, Option.all_some] at ha
    rw [Option.all_some]
    unfold startReached at *
    cases hb : start.basis with
    | atRow =>
      rw [hb] at ha
      simp only [bne_iff_ne] at ha ⊢
      intro hlt
      have hlt' := Std.TransCmp.lt_of_isLE_of_lt (SList.not_gt_iff.mp hab) hlt
      exact ha hlt'
    | after =>
      rw [hb] at ha
      simp only [beq_iff_eq] at ha ⊢
      exact SList.gt_iff_lt.mpr (Std.TransCmp.lt_of_lt_of_isLE (SList.gt_iff_lt.mp ha) (SList.not_gt_iff.mp hab))

theorem mem_settled {R : Set Row} {L : List Row} (hpk : conn.pkConstraint = none)
    (hL : ∀ r, r ∈ L ↔ r ∈ R ∧ constraintHolds req.constraint r = true ∧ (req.constraint = none → pastStartRow pk conn req r = true))
    (r : Row) : r ∈ L.filter (wanted conn req) ↔ r ∈ R ∧ wanted conn req r = true := by
  rw [List.mem_filter, hL]
  constructor
  · intro h
    exact ⟨h.1.1, h.2⟩
  · intro h
    have hw := h.2
    simp only [wanted, Bool.and_eq_true] at hw
    exact ⟨⟨h.1, hw.2.1, fun hc => pastStartRow_of_pastStart hpk hc hw.1⟩, h.2⟩

/-- Without an overlay a fetch returns the rows it is asked for, in the connection's order. -/
theorem Fetched.settled {R : Set Row} {overlay : Option Overlay} {rows : List Row} (hpk : conn.pkConstraint = none)
    (hseen : seen conn overlay = {}) (h : Fetched pk (same R) overlay conn req rows) :
    SList.Sorted (compareRowsRev conn.sort req.reverse) rows ∧ ∀ r, r ∈ rows ↔ r ∈ R ∧ wanted conn req r = true := by
  obtain ⟨L, hs, hmem, rfl⟩ := h.within hpk
  rw [hseen]
  show SList.Sorted _ (selectRows _ _ _ (overlaySplice _ none none L)) ∧
    ∀ r, r ∈ selectRows _ _ _ (overlaySplice _ none none L) ↔ _
  rw [overlaySplice_none]
  have hin : ∀ r ∈ L, constraintHolds req.constraint r = true := fun r hr => ((hmem r).mp hr).2.1
  rcases request_orders pk hpk req with hsame | ⟨-, htie⟩
  · have hs' : SList.Sorted (compareRowsRev conn.sort req.reverse) L := by
      refine List.Pairwise.imp_of_mem (fun {a b} ha hb hab => ?_) hs
      rw [← hsame a b (hin a ha) (hin b hb)]
      exact hab
    rw [selectRows_rising hs'.rising (fun _ _ => pastStart_mono) hin]
    exact ⟨hs'.sublist List.filter_sublist, mem_settled hpk hmem⟩
  · have hfilter : selectRows (pastStart conn req) (constraintHolds req.constraint) conn.accepts L = L.filter (wanted conn req) ∧
        SList.Sorted (compareRowsRev conn.sort req.reverse) (L.filter (wanted conn req)) := by
      rcases hs.short fun a ha b hb => htie a b (hin a ha) (hin b hb) with rfl | ⟨x, rfl⟩
      · exact ⟨rfl, SList.sorted_nil⟩
      · have hone : selectRows (pastStart conn req) (constraintHolds req.constraint) conn.accepts [x] =
            [x].filter (wanted conn req) := by
          rw [selectRows_singleton, List.filter_cons, List.filter_nil]
          rfl
        exact ⟨hone, List.Pairwise.sublist List.filter_sublist (List.pairwise_singleton _ x)⟩
    rw [hfilter.1]
    exact ⟨hfilter.2, mem_settled hpk hmem⟩

end

end MemorySource

end Rindle
