/-
  Rindle.Source.Fetch — what a fetch scans, and that it leaves the table as it is.

  A bound splits any order (`cmpBoundRow_mono`), so the scan behind a fetch yields the rows
  of the table on the bound's side, in the direction of the request (`Holds.fetchSingle`).
  A fetch changes the source only by an index it may build (`Holds.fetchOn`, `requestSorts`).
-/

import Rindle.Source.Indexes

namespace Rindle

/-! ## Bounds -/

/-- A column whose bound is a sentinel, or has none, is decided without looking at the row. -/
theorem cmpBoundCell_cases (bound : RowBound) (col : Nat) :
    (∃ v, ∀ r, cmpBoundCell bound col r = Value.cmp v (Row.cell r col)) ∨
      ∃ o, o ≠ Ordering.eq ∧ ∀ r, cmpBoundCell bound col r = o := by
  unfold cmpBoundCell
  cases bound.find? fun p => p.1 == col with
  | none => exact Or.inr ⟨.lt, by decide, fun _ => rfl⟩
  | some p =>
    obtain ⟨c, b⟩ := p
    cases b with
    | min => exact Or.inr ⟨.lt, by decide, fun _ => rfl⟩
    | max => exact Or.inr ⟨.gt, by decide, fun _ => rfl⟩
    | val v => exact Or.inl ⟨v, fun _ => rfl⟩

/-- A bound is monotone whatever its sentinels. -/
theorem cmpBoundRow_mono (bound : RowBound) (sort : SortSpec) : SeekMono (rowCmp sort) (cmpBoundRow sort bound) := by
  induction sort with
  | nil => exact fun a b hab => by cases hab
  | cons p sort ih =>
    obtain ⟨col, asc⟩ := p
    intro a b hab hb
    replace ih := ih a b
    rw [rowCmp_cons, Ordering.then_eq_lt] at hab
    rw [cmpBoundRow] at hb ⊢
    rcases cmpBoundCell_cases bound col with ⟨v, hv⟩ | ⟨o, ho, hconst⟩
    · rw [hv] at hb ⊢
      rcases hab with hlt | ⟨heq, hlt⟩
      · -- the column itself decides: `a` is on the far side of `b`
        have hfar : applyDir (Value.cmp v (Row.cell b col)) asc ≠ .lt → applyDir (Value.cmp v (Row.cell a col)) asc = .gt := by
          intro hne
          cases asc with
          | true =>
            have hab : Value.cmp (Row.cell a col) (Row.cell b col) = .lt := hlt
            have hva : Value.cmp (Row.cell a col) v = .lt := by
              cases h : Value.cmp v (Row.cell b col) with
              | lt => exact absurd h hne
              | eq => exact Std.TransCmp.lt_of_lt_of_eq hab (SList.eq_comm.mp h)
              | gt => exact SList.lt_trans hab (SList.gt_iff_lt.mp h)
            have hgt : Value.cmp v (Row.cell a col) = .gt := SList.gt_iff_lt.mpr hva
            exact hgt
          | false =>
            have hba : Value.cmp (Row.cell b col) (Row.cell a col) = .lt := hlt
            have hva : Value.cmp v (Row.cell a col) = .lt := by
              cases h : Value.cmp v (Row.cell b col) with
              | lt => exact SList.lt_trans h hba
              | eq => exact Std.TransCmp.lt_of_eq_of_lt h hba
              | gt => exact absurd (by rw [h]; rfl) hne
            simp [applyDir, hva]
        have ha : applyDir (Value.cmp v (Row.cell a col)) asc = .gt := by
          apply hfar
          intro h
          split at hb
          · rename_i he
            rw [he] at h
            cases asc <;> cases h
          · exact hb h
        have hne : Value.cmp v (Row.cell a col) ≠ .eq := by
          intro h
          rw [h] at ha
          cases asc <;> cases ha
        rw [if_neg hne, ha]
      · have hsame : Value.cmp v (Row.cell a col) = Value.cmp v (Row.cell b col) :=
          Std.TransCmp.congr_right (cellCmp_eq_eq.mp heq)
        rw [hsame]
        split
        · rename_i he
          rw [if_pos he] at hb
          exact ih hlt hb
        · rename_i he
          rw [if_neg he] at hb
          cases h : applyDir (Value.cmp v (Row.cell b col)) asc with
          | lt => exact absurd h hb
          | gt => rfl
          | eq => exact absurd (by cases asc <;> simpa [applyDir] using h) he
    · rw [hconst, if_neg ho] at hb ⊢
      cases h : applyDir o asc with
      | lt => exact absurd h hb
      | gt => rfl
      | eq => exact absurd (by cases asc <;> simpa [applyDir] using h) ho

/-- A row on the near side of a bound, `inclusive` of one equal to it. -/
def pastBound (sort : SortSpec) (inclusive reverse : Bool) (b : RowBound) (r : Row) : Bool :=
  match cmpBoundRow sort b r with
  | .lt => !reverse
  | .eq => inclusive
  | .gt => reverse

/-- A cursor of either direction yields the rows past the bound, each once and in the cursor's order;
    without a bound, every row. -/
theorem scan_yields {sort : SortSpec} {t : BTree Row} (ht : t.Valid (rowCmp sort)) (bound : Option RowBound) (inclusive reverse : Bool) :
    ∃ L, t.scan (bound.map (cmpBoundRow sort)) inclusive reverse = some L ∧
      SList.Sorted (compareRowsRev sort reverse) L ∧
      ∀ r, r ∈ L ↔ r ∈ t.rows ∧ bound.all (fun b => pastBound sort inclusive reverse b r) = true := by
  cases bound with
  | none =>
    refine ⟨_, BTree.scan_all ht inclusive reverse, SList.sorted_dirCmp.mpr ht.sorted, fun r => ?_⟩
    cases reverse <;> simp
  | some b =>
    have hside : ∀ r, (if reverse then toBound inclusive (cmpBoundRow sort b) r else fromBound inclusive (cmpBoundRow sort b) r) =
        pastBound sort inclusive reverse b r := by
      intro r
      rw [toBound, fromBound, pastBound]
      cases cmpBoundRow sort b r <;> cases inclusive <;> cases reverse <;> rfl
    refine ⟨_, BTree.scan_bound ht (cmpBoundRow_mono b sort) inclusive reverse, ?_, fun r => ?_⟩
    · cases reverse with
      | true =>
        have hs : SList.Sorted (rowCmp sort) (t.rows.filter (toBound inclusive (cmpBoundRow sort b))) :=
          ht.sorted.sublist List.filter_sublist
        exact SList.sorted_dirCmp.mpr hs
      | false => exact ht.sorted.sublist List.filter_sublist
    · rw [Option.all_some, ← hside r]
      cases reverse <;> simp

/-- A tree of two leaves, scanned down from the float equal to one of its keys, without it. -/
theorem scan_yields_below : ∃ L, (BTree.fromSorted ((List.range 66).map fun n => [Value.int (Int64.ofNat n)])).scan
      (some (cmpBoundRow [(0, true)] [(0, .val (.float (.ofBits 0x4010000000000000)))])) false true = some L ∧
    ∀ r, r ∈ L ↔ r ∈ (BTree.fromSorted ((List.range 66).map fun n => [Value.int (Int64.ofNat n)])).rows ∧
      pastBound [(0, true)] false true [(0, .val (.float (.ofBits 0x4010000000000000)))] r = true := by
  have hsorted : SList.Sorted (rowCmp [(0, true)]) ((List.range 66).map fun n => [Value.int (Int64.ofNat n)]) := by
    have : IsTrans Row (rowCmp [(0, true)] · · = .lt) := ⟨fun _ _ _ => Std.TransCmp.lt_trans⟩
    exact List.isChain_iff_pairwise.mp (by decide +kernel)
  obtain ⟨L, hscan, -, hmem⟩ := scan_yields (BTree.fromSorted_spec hsorted).1
    (some [(0, .val (.float (.ofBits 0x4010000000000000)))]) false true
  exact ⟨L, hscan, hmem⟩

/-- The rows a scan from a bound yields. -/
def inScan (indexSort : SortSpec) (bound : Option RowBound) (reverse : Bool) (r : Row) : Bool :=
  bound.all fun b => if reverse then cmpBoundRow indexSort b r != .lt else cmpBoundRow indexSort b r != .gt

/-- A list of the rows of `R` on the bound's side, in the direction of the scan. -/
structure Scanned (R : Set Row) (indexSort : SortSpec) (bound : Option RowBound) (reverse : Bool) (L : List Row) : Prop where
  sorted : SList.Sorted (compareRowsRev indexSort reverse) L
  mem : ∀ r, r ∈ L ↔ r ∈ R ∧ inScan indexSort bound reverse r = true

namespace MemorySource

variable {s : MemorySource} {C : SortSpec → Set Row}

theorem scan_scanned {i : Index} {R : Set Row} (hv : i.data.Valid (rowCmp i.sort)) (hr : ∀ r, r ∈ i.data.rows ↔ r ∈ R)
    (bound : Option RowBound) (reverse : Bool) :
    ∃ L, i.data.scan (bound.map (cmpBoundRow i.sort)) true reverse = some L ∧ Scanned R i.sort bound reverse L := by
  cases bound with
  | none =>
    refine ⟨_, BTree.scan_all hv true reverse, ⟨SList.sorted_dirCmp.mpr hv.sorted, fun r => ?_⟩⟩
    cases reverse <;> simp [inScan, hr]
  | some b =>
    refine ⟨_, BTree.scan_bound hv (cmpBoundRow_mono b i.sort) true reverse, ⟨?_, fun r => ?_⟩⟩
    · cases reverse with
      | true =>
        have hs : SList.Sorted (rowCmp i.sort) (i.data.rows.filter (toBound true (cmpBoundRow i.sort b))) :=
          hv.sorted.sublist List.filter_sublist
        exact SList.sorted_dirCmp.mpr hs
      | false => exact hv.sorted.sublist List.filter_sublist
    · cases reverse <;> simp [inScan, hr, toBound, fromBound]

variable (pk : List Nat)

/-- The index a request scans. -/
def requestSort (conn : Connection) (req : FetchRequest) : SortSpec :=
  fetchIndexSort pk (fetchOrPk conn req) conn.sort

/-- `rows` is what a fetch over these indexes returns under this overlay. -/
def Fetched (C : SortSpec → Set Row) (overlay : Option Overlay) (conn : Connection) (req : FetchRequest)
    (rows : List Row) : Prop :=
  ∃ L, Scanned (C (requestSort pk conn req)) (requestSort pk conn req)
      (scanStart (fetchOrPk conn req) req (requestSort pk conn req)) req.reverse L ∧
    rows = fetchStream conn req overlay (requestSort pk conn req) L

/-- A fetch scans an index from its start; it changes the source only by building that index. -/
theorem Holds.fetchSingle (h : s.Holds C) {conn : Connection} (hc : SortSpec.Covers conn.sort s.primaryKey)
    (req : FetchRequest) :
    ∃ rows s', s.fetchSingle conn req = some (rows, s') ∧ s'.Holds C ∧ Grown s s' ∧
      (∀ o, s'.Live o ↔ s.Live o ∨ o = requestSort s.primaryKey conn req) ∧
      Fetched s.primaryKey C s.overlay conn req rows := by
  obtain ⟨s', hs', hh, hg, ⟨i, hi⟩, hlive⟩ := h.ensureIndex (fetchIndexSort_covers hc (fetchOrPk conn req))
  obtain ⟨him, hsort⟩ := index?_some hi
  obtain ⟨L, hL, hscan⟩ := scan_scanned (hh.valid i him) (hh.rows i him)
    (scanStart (fetchOrPk conn req) req i.sort) req.reverse
  rw [hsort] at hL hscan
  have hover : s'.overlay = s.overlay := by
    obtain ⟨more, rfl⟩ := hg
    rfl
  refine ⟨_, s', ?_, hh, hg, hlive, L, hscan, rfl⟩
  simp [MemorySource.fetchSingle, requestSort, hs', hi, hL, hover]

theorem Holds.fetchEach {conn : Connection} (base : FetchRequest) :
    ∀ (cs : List Constraint) {s : MemorySource}, s.Holds C → SortSpec.Covers conn.sort s.primaryKey →
      ∃ streams s', fetchEach conn base cs s = some (streams, s') ∧ s'.Holds C ∧ Grown s s' ∧
        (∀ o, s'.Live o ↔ s.Live o ∨ o ∈ cs.map fun c => requestSort s.primaryKey conn (entryRequest base c)) ∧
        List.Forall₂ (fun c rows => Fetched s.primaryKey C s.overlay conn (entryRequest base c) rows) cs streams
  | [], s, h, _ => ⟨[], s, rfl, h, Grown.refl s, by simp, .nil⟩
  | c :: cs, s, h, hc => by
    obtain ⟨rows, s1, h1, hh1, hg1, hl1, hf1⟩ := h.fetchSingle hc (entryRequest base c)
    have hover : s1.overlay = s.overlay := by
      obtain ⟨more, rfl⟩ := hg1
      rfl
    obtain ⟨streams, s2, h2, hh2, hg2, hl2, hf2⟩ := Holds.fetchEach base cs hh1 (hg1.key ▸ hc)
    rw [hg1.key, hover] at hf2
    refine ⟨rows :: streams, s2, ?_, hh2, hg1.trans hg2, fun o => ?_, hf2.cons hf1⟩
    · simp only [MemorySource.fetchEach, h1, h2, Option.bind_eq_bind, Option.bind_some]
    · rw [hl2, hl1, hg1.key, List.map_cons, List.mem_cons, or_assoc]

/-- The batches of a request that are not empty. -/
def batches (req : FetchRequest) : List MultiConstraint := req.multiConstraints.filter fun mc => !mc.isEmpty

/-- The indexes a request scans. -/
def requestSorts (conn : Connection) (req : FetchRequest) : List SortSpec :=
  match batches req with
  | [] => [requestSort pk conn req]
  | primary :: _ => primary.map fun c => requestSort pk conn (entryRequest req c)

/-- `rows` is what a fetch, batched or not, over these indexes returns under this overlay. -/
def FetchedOn (C : SortSpec → Set Row) (overlay : Option Overlay) (conn : Connection) (req : FetchRequest)
    (rows : List Row) : Prop :=
  match batches req with
  | [] => Fetched pk C overlay conn req rows
  | primary :: rest => ∃ streams,
      List.Forall₂ (fun c rows => Fetched pk C overlay conn (entryRequest req c) rows) primary streams ∧
      rows = (mergeSortedStreams (compareRowsRev conn.sort req.reverse) streams).filter (matchesEach rest)

theorem Holds.fetchOn (h : s.Holds C) {conn : Connection} (hc : SortSpec.Covers conn.sort s.primaryKey) (req : FetchRequest) :
    ∃ rows s', s.fetchOn conn req = some (rows, s') ∧ s'.Holds C ∧ Grown s s' ∧
      (∀ o, s'.Live o ↔ s.Live o ∨ o ∈ requestSorts s.primaryKey conn req) ∧
      FetchedOn s.primaryKey C s.overlay conn req rows := by
  unfold MemorySource.fetchOn FetchedOn requestSorts
  by_cases hm : req.hasMulti = true
  · rw [if_pos hm]
    unfold MemorySource.fetchMulti
    cases hf : batches req with
    | nil =>
      simp only [FetchRequest.hasMulti, List.any_eq_true] at hm
      obtain ⟨mc, hmc, hne⟩ := hm
      exact absurd hne (List.filter_eq_nil_iff.mp hf mc hmc)
    | cons primary rest =>
      obtain ⟨streams, s', heq, hh, hg, hl, hall⟩ := Holds.fetchEach req primary h hc
      refine ⟨_, s', ?_, hh, hg, hl, streams, hall, rfl⟩
      rw [show (req.multiConstraints.filter fun mc => !mc.isEmpty) = primary :: rest from hf]
      simp only [heq, Option.bind_eq_bind, Option.bind_some]
      cases rest with
      | nil =>
        have hall : ∀ r, matchesEach [] r = true := fun _ => rfl
        simp [List.filter_eq_self.mpr fun r _ => hall r]
      | cons mc rest => rfl
  · rw [if_neg hm]
    have hf : batches req = [] := by
      rw [batches, List.filter_eq_nil_iff]
      intro mc hmc hne
      exact hm (List.any_eq_true.mpr ⟨mc, hmc, hne⟩)
    rw [hf]
    simpa only [List.mem_singleton] using h.fetchSingle hc req

end MemorySource

end Rindle
