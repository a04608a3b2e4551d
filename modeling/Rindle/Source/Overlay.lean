/-
  Rindle.Source.Overlay — a fetch while a change is in flight, against the same fetch once
  it is written.

  A connection the push has reached sees the change as the overlay. What a fetch makes of it
  is `Fetched.pending`: the removed row goes if it stays in the overlay, the added row comes
  if it does and the start gate lets it through. The two narrow differently. The overlay is
  cut by the start row in the order of the scanned index, the gate opens in the order of the
  connection; and an old row the filter refuses is still in the scan, where it can open the
  gate for its new version. `Settles` are the requests where neither shows.
-/

import Rindle.Source.Select

set_option linter.dupNamespace false

namespace Rindle.MemorySource

section
variable {pk : List Nat} {conn : Connection} {req : FetchRequest} {R : Set Row} {change : SourceChange Row}

theorem ValidChange.removed (hv : ValidChange pk R change) {m : Row} (hm : (Overlays.ofChange change).remove = some m) : m ∈ R := by
  cases change with
  | add r => cases hm
  | remove r => exact Option.some.inj hm ▸ hv
  | edit old row => exact Option.some.inj hm ▸ hv.1

/-- A row with the added row's key is the old row of the edit. -/
theorem ValidChange.added (hv : ValidChange pk R change) {a x : Row} (ha : (Overlays.ofChange change).add = some a) (hx : x ∈ R)
    (hk : keyCmp pk x a = .eq) : change = .edit x a := by
  cases change with
  | add r => exact absurd (Option.some.inj ha ▸ hk) (hv x hx)
  | remove r => cases ha
  | edit old row =>
    obtain rfl := Option.some.inj ha
    by_cases hxo : x = old
    · rw [hxo]
    · exact absurd hk (hv.2 x hx hxo)

/-- The row the overlay adds to the stream. -/
def shownAdd (pk : List Nat) (conn : Connection) (req : FetchRequest) (change : SourceChange Row) : Option Row :=
  (Overlays.ofChange change).add.filter (overlaid pk conn req)

/-- The row it takes out. -/
def shownRemove (pk : List Nat) (conn : Connection) (req : FetchRequest) (change : SourceChange Row) : Option Row :=
  (Overlays.ofChange change).remove.filter (overlaid pk conn req)

theorem shownAdd_some {a : Row} :
    shownAdd pk conn req change = some a ↔ (Overlays.ofChange change).add = some a ∧ overlaid pk conn req a = true :=
  Option.filter_eq_some_iff

theorem shownRemove_some {m : Row} :
    shownRemove pk conn req change = some m ↔ (Overlays.ofChange change).remove = some m ∧ overlaid pk conn req m = true :=
  Option.filter_eq_some_iff

/-- The old row of an edit stays in the scan ahead of the new one, and past the start. -/
def opensFor (pk : List Nat) (conn : Connection) (req : FetchRequest) (old row : Row) : Bool :=
  constraintHolds req.constraint old && pastStart conn req old && !overlaid pk conn req old &&
    (compareRowsRev (requestSort pk conn req) req.reverse row old != .lt)

/-- The rows of a fetch while `change` is in flight. -/
def inPending (pk : List Nat) (conn : Connection) (req : FetchRequest) (R : Set Row) (change : SourceChange Row) (r : Row) : Prop :=
  (r ∈ R ∧ wanted conn req r = true ∧ shownRemove pk conn req change ≠ some r) ∨
    (shownAdd pk conn req change = some r ∧
      (pastStart conn req r = true ∨ ∃ old, change = .edit old r ∧ opensFor pk conn req old r = true))

/-- They come in the connection's order, each once. -/
structure ShowsPending (pk : List Nat) (conn : Connection) (req : FetchRequest) (R : Set Row) (change : SourceChange Row)
    (rows : List Row) : Prop where
  rising : SList.Rising (compareRowsRev conn.sort req.reverse) rows
  nodup : rows.Nodup
  mem : ∀ r, r ∈ rows ↔ inPending pk conn req R change r

/-- The change spliced into the part of the scan within the constraint. -/
structure Spliced (pk : List Nat) (conn : Connection) (req : FetchRequest) (R : Set Row) (change : SourceChange Row)
    (L rows : List Row) : Prop where
  sorted : SList.Sorted (compareRowsRev (requestSort pk conn req) req.reverse) L
  mem : ∀ r, r ∈ L ↔ r ∈ R ∧ constraintHolds req.constraint r = true ∧ (req.constraint = none → pastStartRow pk conn req r = true)
  rows_eq : rows = selectRows (pastStart conn req) (constraintHolds req.constraint) conn.accepts
    (overlaySplice (compareRowsRev (requestSort pk conn req) req.reverse)
      (shownAdd pk conn req change) (shownRemove pk conn req change) L)

theorem wanted_of_overlaid {r : Row} (h : overlaid pk conn req r = true) : wanted conn req r = pastStart conn req r := by
  simp only [overlaid, Bool.and_eq_true] at h
  simp [wanted, h.2]

theorem within_of_overlaid {r : Row} (h : overlaid pk conn req r = true) : constraintHolds req.constraint r = true := by
  simp only [overlaid, Bool.and_eq_true] at h
  exact h.2.1

/-- The scan without the removed row. -/
theorem mem_dropRemoved (hu : KeyUnique pk R) (hcov : SortSpec.Covers conn.sort pk) (hv : ValidChange pk R change) {L : List Row}
    (hs : SList.Sorted (compareRowsRev (requestSort pk conn req) req.reverse) L) (hL : ∀ r ∈ L, r ∈ R) (r : Row) :
    r ∈ dropRemoved (compareRowsRev (requestSort pk conn req) req.reverse)
        (shownRemove pk conn req change) L ↔
      r ∈ L ∧ shownRemove pk conn req change ≠ some r := by
  cases hm : shownRemove pk conn req change with
  | none => simp [dropRemoved]
  | some m =>
    have hmR : m ∈ R := ValidChange.removed hv (shownRemove_some.mp hm).1
    rw [dropRemoved, SList.mem_erase hs, and_congr_right_iff]
    intro hr
    constructor
    · intro hne h
      rw [Option.some.inj h] at hne
      exact hne Std.ReflCmp.compare_self
    · intro hne htie
      have hkey := (fetchIndexSort_covers hcov (fetchOrPk conn req)).key_tie (SList.dirCmp_eq_eq.mp htie)
      rw [hu r (hL r hr) m hmR hkey] at hne
      exact hne rfl

/-- Where the spliced scan is in the connection's order, and an old row opens the gate for no new one behind it, a fetch filters it. -/
theorem pending_rising (hpk : conn.pkConstraint = none) (hu : KeyUnique pk R) (hcov : SortSpec.Covers conn.sort pk)
    (hv : ValidChange pk R change) {L rows : List Row} (h : Spliced pk conn req R change L rows)
    (hrise : SList.Rising (compareRowsRev conn.sort req.reverse) (overlaySplice (compareRowsRev (requestSort pk conn req) req.reverse)
      (shownAdd pk conn req change) (shownRemove pk conn req change) L))
    (hopens : ∀ old row, change = .edit old row → overlaid pk conn req row = true → opensFor pk conn req old row = true →
      pastStart conn req row = true) : ShowsPending pk conn req R change rows := by
  obtain ⟨hs, hL, hrows⟩ := h
  have hLR : ∀ r ∈ L, r ∈ R := fun r hr => ((hL r).mp hr).1
  generalize hsp : overlaySplice (compareRowsRev (requestSort pk conn req) req.reverse)
    (shownAdd pk conn req change) (shownRemove pk conn req change) L = spliced at hrows hrise
  have hperm := hsp ▸ overlaySplice_perm (shownAdd pk conn req change) (shownRemove pk conn req change) L
  have hmem : ∀ r, r ∈ spliced ↔ shownAdd pk conn req change = some r ∨
      (r ∈ L ∧ shownRemove pk conn req change ≠ some r) := by
    intro r
    rw [hperm.mem_iff, List.mem_append, Option.mem_toList, mem_dropRemoved hu hcov hv hs hLR]
  have hin : ∀ r ∈ spliced, constraintHolds req.constraint r = true := by
    intro r hr
    rcases (hmem r).mp hr with h | h
    · exact within_of_overlaid (shownAdd_some.mp h).2
    · exact ((hL r).mp h.1).2.1
  have hnodup : spliced.Nodup := by
    rw [hperm.nodup_iff, List.nodup_append]
    refine ⟨?_, (hs.sublist (dropRemoved_sublist _ L)).nodup, fun a ha b hb hab => ?_⟩
    · cases shownAdd pk conn req change <;> simp
    · -- the added row is in the scan only if it is the old one, and then it is taken out
      rw [Option.mem_toList] at ha
      obtain ⟨hadd, hov⟩ := shownAdd_some.mp ha
      obtain ⟨hbL, hbm⟩ := (mem_dropRemoved hu hcov hv hs hLR b).mp hb
      rw [← hab] at hbL hbm
      have hedit := ValidChange.added hv hadd (hLR a hbL) Std.ReflCmp.compare_self
      exact hbm (shownRemove_some.mpr ⟨by rw [hedit]; rfl, hov⟩)
  rw [hrows, selectRows_rising hrise (fun _ _ => pastStart_mono) hin]
  refine ⟨hrise.sublist List.filter_sublist, hnodup.sublist List.filter_sublist, fun r => ?_⟩
  rw [List.mem_filter, hmem]
  show (_ ∨ _) ∧ wanted conn req r = true ↔ _
  have hsettled := mem_settled hpk hL r
  rw [List.mem_filter] at hsettled
  constructor
  · intro h
    rcases h with ⟨hadd | ⟨hrL, hne⟩, hw⟩
    · rw [wanted_of_overlaid (shownAdd_some.mp hadd).2] at hw
      exact Or.inr ⟨hadd, Or.inl hw⟩
    · exact Or.inl ⟨hLR r hrL, hw, hne⟩
  · intro h
    rcases h with ⟨hrR, hw, hne⟩ | ⟨hadd, hgate⟩
    · exact ⟨Or.inr ⟨(hsettled.mpr ⟨hrR, hw⟩).1, hne⟩, hw⟩
    · have hov := (shownAdd_some.mp hadd).2
      rw [wanted_of_overlaid hov]
      refine ⟨Or.inl hadd, ?_⟩
      rcases hgate with hgate | ⟨old, hedit, hopen⟩
      · exact hgate
      · exact hopens old r hedit hov hopen

/-- Where the index has the connection's order. -/
theorem pending_ordered (hpk : conn.pkConstraint = none) (hu : KeyUnique pk R) (hcov : SortSpec.Covers conn.sort pk)
    (hv : ValidChange pk R change)
    (hsame : ∀ x y, constraintHolds req.constraint x = true → constraintHolds req.constraint y = true →
      compareRowsRev (requestSort pk conn req) req.reverse x y = compareRowsRev conn.sort req.reverse x y)
    {L rows : List Row} (h : Spliced pk conn req R change L rows) : ShowsPending pk conn req R change rows := by
  have hin : ∀ r ∈ overlaySplice (compareRowsRev (requestSort pk conn req) req.reverse) (shownAdd pk conn req change)
      (shownRemove pk conn req change) L, constraintHolds req.constraint r = true := by
    intro r hr
    rcases mem_overlaySplice hr with hr | hr
    · exact within_of_overlaid (shownAdd_some.mp hr).2
    · exact ((h.mem r).mp hr).2.1
  refine pending_rising hpk hu hcov hv h ?_ fun old row _ hov hopen => ?_
  · refine List.Pairwise.imp_of_mem (fun {a b} ha hb hab => ?_) (overlaySplice_rising h.sorted.rising _ _)
    rw [← hsame a b (hin a ha) (hin b hb)]
    exact hab
  · simp only [opensFor, Bool.and_eq_true, bne_iff_ne] at hopen
    obtain ⟨⟨⟨hc, hg⟩, -⟩, hlt⟩ := hopen
    rw [hsame row old (within_of_overlaid hov) hc] at hlt
    exact pastStart_mono (SList.not_gt_of_not_lt hlt) hg

/-- Rows that tie in the index are on one side of the start row. -/
theorem pastStartRow_congr {a b : Row} (h : compareRowsRev (requestSort pk conn req) req.reverse a b = .eq) :
    pastStartRow pk conn req a = pastStartRow pk conn req b := by
  unfold pastStartRow Overlays.notBefore
  congr 1
  funext start
  rw [show compareRowsRev (requestSort pk conn req) req.reverse a start.row =
    compareRowsRev (requestSort pk conn req) req.reverse b start.row from Std.TransCmp.congr_left h]

/-- An old row out of the overlay, then its new version: past the old one the gate is open. -/
theorem selectRows_pair {x a : Row} (hxc : constraintHolds req.constraint x = true) (hxa : conn.accepts x ≠ true)
    (hac : constraintHolds req.constraint a = true) (haa : conn.accepts a = true) :
    selectRows (pastStart conn req) (constraintHolds req.constraint) conn.accepts [x, a] =
      if pastStart conn req x || pastStart conn req a then [a] else [] := by
  unfold selectRows
  cases hx : pastStart conn req x <;> cases ha : pastStart conn req a <;> simp [List.dropWhile, *]

/-- Where the constraint is a single-column primary key, the scan has one row at most. -/
theorem pending_keyed (hpk : conn.pkConstraint = none) (hu : KeyUnique pk R) (hcov : SortSpec.Covers conn.sort pk)
    (hv : ValidChange pk R change) (hsome : req.constraint ≠ none)
    (htie : ∀ x y, constraintHolds req.constraint x = true → constraintHolds req.constraint y = true →
      compareRowsRev (requestSort pk conn req) req.reverse x y = .eq)
    {L rows : List Row} (h : Spliced pk conn req R change L rows) : ShowsPending pk conn req R change rows := by
  obtain ⟨hs, hL, hrows⟩ := id h
  have hmemL : ∀ r, r ∈ R → constraintHolds req.constraint r = true → r ∈ L :=
    fun r hr hc => (hL r).mpr ⟨hr, hc, fun h => absurd h hsome⟩
  have hin : ∀ r ∈ L, constraintHolds req.constraint r = true := fun r hr => ((hL r).mp hr).2.1
  have hremove : ∀ m, shownRemove pk conn req change = some m → m ∈ L := by
    intro m hm
    obtain ⟨hrem, hov⟩ := shownRemove_some.mp hm
    exact hmemL m (ValidChange.removed hv hrem) (within_of_overlaid hov)
  have hone := hs.short fun a ha b hb => htie a b (hin a ha) (hin b hb)
  by_cases hpair : ∃ x a, L = [x] ∧ shownAdd pk conn req change = some a ∧ shownRemove pk conn req change = none
  · obtain ⟨x, a, rfl, ha, hm⟩ := hpair
    obtain ⟨hadd, hov⟩ := shownAdd_some.mp ha
    have hxc := hin x List.mem_cons_self
    have hax : compareRowsRev (requestSort pk conn req) req.reverse a x = .eq := htie a x (within_of_overlaid hov) hxc
    have hkey : keyCmp pk x a = .eq :=
      SList.eq_comm.mp ((fetchIndexSort_covers hcov (fetchOrPk conn req)).key_tie (SList.dirCmp_eq_eq.mp hax))
    have hxR : x ∈ R := ((hL x).mp List.mem_cons_self).1
    have hedit : change = .edit x a := ValidChange.added hv hadd hxR hkey
    -- the old row is in the scan and not in the overlay, so its filter refuses it
    have hxo : overlaid pk conn req x ≠ true := by
      intro h
      rw [shownRemove_some.mpr ⟨by rw [hedit]; rfl, h⟩] at hm
      cases hm
    have hov' := hov
    simp only [overlaid, Bool.and_eq_true] at hov'
    have hxa : conn.accepts x ≠ true := by
      intro h
      apply hxo
      rw [overlaid, ← pastStartRow_congr hax, hov'.1, hxc, h]
      rfl
    have hsplice : overlaySplice (compareRowsRev (requestSort pk conn req) req.reverse) (some a) none [x] = [x, a] := by
      simp [overlaySplice, hax]
    rw [ha, hm, hsplice, selectRows_pair hxc hxa hov'.2.1 hov'.2.2] at hrows
    have hiff : ∀ r, inPending pk conn req R change r ↔ r = a ∧ (pastStart conn req x || pastStart conn req a) = true := by
      intro r
      rw [inPending, ha, hm, Bool.or_eq_true]
      constructor
      · intro h
        rcases h with ⟨hrR, hw, -⟩ | ⟨h, hgate | ⟨old, hedit', hopen⟩⟩
        · simp only [wanted, Bool.and_eq_true] at hw
          rw [List.mem_singleton.mp (hmemL r hrR hw.2.1)] at hw
          exact absurd hw.2.2 hxa
        · obtain rfl := Option.some.inj h
          exact ⟨rfl, Or.inr hgate⟩
        · rw [hedit] at hedit'
          obtain ⟨rfl, rfl⟩ := SList.Delta.edit.inj hedit'
          simp only [opensFor, Bool.and_eq_true] at hopen
          exact ⟨rfl, Or.inl hopen.1.1.2⟩
      · intro h
        obtain ⟨rfl, h | h⟩ := h
        · exact Or.inr ⟨rfl, Or.inr ⟨x, hedit, by simp [opensFor, hxc, h, hxo, hax]⟩⟩
        · exact Or.inr ⟨rfl, Or.inl h⟩
    refine ⟨?_, ?_, fun r => ?_⟩
    · rw [hrows]
      split <;> simp [SList.Rising]
    · rw [hrows]
      split <;> simp
    · rw [hrows, hiff]
      split <;> simp [*]
  · refine pending_rising hpk hu hcov hv h ?_ ?_
    · rcases hone with rfl | ⟨x, rfl⟩
      · rw [overlaySplice_nil]
        cases shownAdd pk conn req change <;> simp [SList.Rising]
      · have hxc := hin x List.mem_cons_self
        have hself := htie x x hxc hxc
        cases hm : shownRemove pk conn req change with
        | none =>
          cases ha : shownAdd pk conn req change with
          | none =>
            rw [overlaySplice_none]
            exact List.pairwise_singleton _ _
          | some a => exact absurd ⟨x, a, rfl, ha, hm⟩ hpair
        | some m =>
          obtain rfl := List.mem_singleton.mp (hremove m hm)
          cases shownAdd pk conn req change with
          | none => simp [overlaySplice, hself, SList.Rising]
          | some a =>
            simp only [overlaySplice, Option.any_some, hself, beq_self_eq_true, if_true]
            split <;> simp [SList.Rising]
    · intro old row hedit hov hopen
      subst hedit
      simp only [opensFor, Bool.and_eq_true, Bool.not_eq_true'] at hopen
      have hmem := hmemL old hv.1 hopen.1.1.1
      rcases hone with rfl | ⟨x, rfl⟩
      · cases hmem
      · refine absurd ⟨x, row, rfl, shownAdd_some.mpr ⟨rfl, hov⟩, Option.eq_none_iff_forall_ne_some.mpr fun m hm => ?_⟩ hpair
        obtain ⟨hrem, hshown⟩ := shownRemove_some.mp hm
        rw [← Option.some.inj hrem, hopen.1.2] at hshown
        cases hshown

/-- What a fetch returns while `change` is in flight. -/
theorem Fetched.pending {overlay : Option Overlay} {rows : List Row} (hpk : conn.pkConstraint = none) (hu : KeyUnique pk R)
    (hcov : SortSpec.Covers conn.sort pk) (hv : ValidChange pk R change) (hseen : seen conn overlay = Overlays.ofChange change)
    (h : Fetched pk (same R) overlay conn req rows) : ShowsPending pk conn req R change rows := by
  obtain ⟨L, hs, hL, hrows⟩ := h.within hpk
  rw [hseen] at hrows
  rcases request_orders pk hpk req with hsame | ⟨hsome, htie⟩
  · exact pending_ordered hpk hu hcov hv hsame ⟨hs, hL, hrows⟩
  · exact pending_keyed hpk hu hcov hv hsome htie ⟨hs, hL, hrows⟩

/-! ## Where the two agree -/

/-- If the request asks for the row, so does the overlay's cut at the start row. -/
def CutKeeps (pk : List Nat) (conn : Connection) (req : FetchRequest) (rest : Row → Bool) (r : Row) : Prop :=
  rest r = true → wanted conn req r = true → pastStartRow pk conn req r = true

/-- The change shows in the stream as it will once written. -/
def Settles (pk : List Nat) (conn : Connection) (req : FetchRequest) (rest : Row → Bool) : SourceChange Row → Prop
  | .add r => CutKeeps pk conn req rest r
  | .remove r => CutKeeps pk conn req rest r
  | .edit old row => row = old ∨
      CutKeeps pk conn req rest old ∧ CutKeeps pk conn req rest row ∧
        (rest row = true → overlaid pk conn req row = true → opensFor pk conn req old row = true → pastStart conn req row = true)

theorem wanted_iff_overlaid {r : Row} (hw : wanted conn req r = true) :
    overlaid pk conn req r = true ↔ pastStartRow pk conn req r = true := by
  simp only [wanted, Bool.and_eq_true] at hw
  simp [overlaid, hw.2]

theorem mem_applyChange {r : Row} :
    r ∈ applyChange R change ↔ (Overlays.ofChange change).add = some r ∨ (r ∈ R ∧ (Overlays.ofChange change).remove ≠ some r) := by
  cases change with
  | add a => simp [applyChange, Overlays.ofChange, Eq.comm]
  | remove m => simp [applyChange, Overlays.ofChange, Eq.comm]
  | edit old row => simp [applyChange, Overlays.ofChange, Eq.comm]

/-- A row the change is not about. -/
theorem inPending_other {r : Row} (ha : (Overlays.ofChange change).add ≠ some r) (hm : (Overlays.ofChange change).remove ≠ some r) :
    inPending pk conn req R change r ↔ r ∈ applyChange R change ∧ wanted conn req r = true := by
  have ha' : shownAdd pk conn req change ≠ some r := fun h => ha (shownAdd_some.mp h).1
  have hm' : shownRemove pk conn req change ≠ some r := fun h => hm (shownRemove_some.mp h).1
  rw [inPending, mem_applyChange]
  simp [ha, hm, ha', hm']

/-- The removed row stays if it is wanted and cut from the overlay. -/
theorem inPending_removed (hv : ValidChange pk R change) {m : Row} (ha : (Overlays.ofChange change).add ≠ some m)
    (hm : (Overlays.ofChange change).remove = some m) :
    inPending pk conn req R change m ↔ wanted conn req m = true ∧ pastStartRow pk conn req m ≠ true := by
  have ha' : shownAdd pk conn req change ≠ some m := fun h => ha (shownAdd_some.mp h).1
  have hR := ValidChange.removed hv hm
  rw [inPending]
  simp only [hR, true_and, ha', false_and, or_false, and_congr_right_iff]
  intro hw
  rw [Ne, Ne, shownRemove_some, wanted_iff_overlaid hw]
  simp [hm]

/-- The added row shows if it is in the overlay and the gate is open. -/
theorem inPending_added (hv : ValidChange pk R change) {a : Row} (ha : (Overlays.ofChange change).add = some a)
    (hm : (Overlays.ofChange change).remove ≠ some a) :
    inPending pk conn req R change a ↔ overlaid pk conn req a = true ∧
      (pastStart conn req a = true ∨ ∃ old, change = .edit old a ∧ opensFor pk conn req old a = true) := by
  have hR : a ∉ R := by
    intro h
    have hedit := ValidChange.added hv ha h Std.ReflCmp.compare_self
    rw [hedit] at hm
    exact hm rfl
  rw [inPending, shownAdd_some]
  simp [hR, ha]

/-- An edit that changes nothing. -/
theorem inPending_noop {a : Row} (hv : ValidChange pk R (.edit a a)) :
    inPending pk conn req R (.edit a a) a ↔ wanted conn req a = true := by
  rw [inPending, shownAdd_some, Ne, shownRemove_some]
  have hR : a ∈ R := hv.1
  by_cases ho : overlaid pk conn req a = true
  · have hnot : opensFor pk conn req a a = false := by simp [opensFor, ho]
    simp [Overlays.ofChange, hR, ho, wanted_of_overlaid ho, hnot]
  · simp [Overlays.ofChange, hR, ho]

theorem agree_removed (conn : Connection) (req : FetchRequest) (hv : ValidChange pk R change) {m : Row}
    (ha : (Overlays.ofChange change).add ≠ some m) (hm : (Overlays.ofChange change).remove = some m) :
    (inPending pk conn req R change m ↔ m ∈ applyChange R change ∧ wanted conn req m = true) ↔
      (wanted conn req m = true → pastStartRow pk conn req m = true) := by
  have hgone : m ∉ applyChange R change := by simp [mem_applyChange, ha, hm]
  rw [inPending_removed hv ha hm]
  simp [hgone]

theorem agree_added (conn : Connection) (req : FetchRequest) (hv : ValidChange pk R change) {a : Row}
    (ha : (Overlays.ofChange change).add = some a) (hm : (Overlays.ofChange change).remove ≠ some a) :
    (inPending pk conn req R change a ↔ a ∈ applyChange R change ∧ wanted conn req a = true) ↔
      (wanted conn req a = true → pastStartRow pk conn req a = true) ∧
        (overlaid pk conn req a = true → (∃ old, change = .edit old a ∧ opensFor pk conn req old a = true) →
          pastStart conn req a = true) := by
  have hthere : a ∈ applyChange R change := mem_applyChange.mpr (Or.inl ha)
  rw [inPending_added hv ha hm]
  simp only [hthere, true_and]
  constructor
  · intro h
    refine ⟨fun hw => (wanted_iff_overlaid hw).mp (h.mpr hw).1, fun ho hopen => ?_⟩
    rw [← wanted_of_overlaid ho]
    exact h.mp ⟨ho, Or.inr hopen⟩
  · intro h
    constructor
    · intro hp
      rw [wanted_of_overlaid hp.1]
      rcases hp.2 with hgate | hopen
      · exact hgate
      · exact h.2 hp.1 hopen
    · intro hw
      have ho := (wanted_iff_overlaid hw).mpr (h.1 hw)
      exact ⟨ho, Or.inl (wanted_of_overlaid ho ▸ hw)⟩

/-- Row by row, for a row that other batches may drop (`rest`). -/
theorem settles_iff (hv : ValidChange pk R change) (rest : Row → Bool) :
    (∀ r, rest r = true → (inPending pk conn req R change r ↔ r ∈ applyChange R change ∧ wanted conn req r = true)) ↔
      Settles pk conn req rest change := by
  cases change with
  | add a =>
    have hadd := agree_added conn req hv (a := a) rfl (by simp [Overlays.ofChange])
    constructor
    · intro h hrest
      exact (hadd.mp (h a hrest)).1
    · intro h r hrest
      by_cases hra : r = a
      · subst hra
        exact hadd.mpr ⟨h hrest, fun _ ⟨_, hedit, _⟩ => by cases hedit⟩
      · exact inPending_other (by simpa [Overlays.ofChange] using Ne.symm hra) (by simp [Overlays.ofChange])
  | remove m =>
    have hremove := agree_removed conn req hv (m := m) (by simp [Overlays.ofChange]) rfl
    constructor
    · intro h hrest
      exact hremove.mp (h m hrest)
    · intro h r hrest
      by_cases hrm : r = m
      · subst hrm
        exact hremove.mpr (h hrest)
      · exact inPending_other (by simp [Overlays.ofChange]) (by simpa [Overlays.ofChange] using Ne.symm hrm)
  | edit old row =>
    have hother : ∀ r, r ≠ old → r ≠ row →
        (inPending pk conn req R (.edit old row) r ↔ r ∈ applyChange R (.edit old row) ∧ wanted conn req r = true) := by
      intro r h1 h2
      exact inPending_other (by simpa [Overlays.ofChange] using Ne.symm h2) (by simpa [Overlays.ofChange] using Ne.symm h1)
    by_cases hnoop : row = old
    · refine ⟨fun _ => Or.inl hnoop, fun _ r _ => ?_⟩
      subst hnoop
      by_cases hr : r = row
      · subst hr
        rw [inPending_noop hv]
        simp [applyChange]
      · exact hother r hr hr
    · have hremove := agree_removed conn req hv (m := old) (by simpa [Overlays.ofChange] using hnoop) rfl
      have hadd := agree_added conn req hv (a := row) rfl (by simpa [Overlays.ofChange] using Ne.symm hnoop)
      have hedit : (∃ o, SList.Delta.edit old row = .edit o row ∧ opensFor pk conn req o row = true) ↔
          opensFor pk conn req old row = true := by simp
      rw [hedit] at hadd
      constructor
      · intro h
        refine Or.inr ⟨fun hrest => hremove.mp (h old hrest), fun hrest => (hadd.mp (h row hrest)).1,
          fun hrest => (hadd.mp (h row hrest)).2⟩
      · intro h r hrest
        obtain ⟨hcutOld, hcutRow, hopen⟩ := h.resolve_left hnoop
        by_cases hr : r = old
        · subst hr
          exact hremove.mpr (hcutOld hrest)
        · by_cases hr' : r = row
          · subst hr'
            exact hadd.mpr ⟨hcutRow hrest, hopen hrest⟩
          · exact hother r hr hr'

/-- Over requests with one start row, a row is only ever missing or only ever too much. -/
theorem pending_oneway (hv : ValidChange pk R change) (r : Row) (past : Bool) :
    (∀ req, pastStart conn req r = past → inPending pk conn req R change r →
      r ∈ applyChange R change ∧ wanted conn req r = true) ∨
    ∀ req, pastStart conn req r = past → r ∈ applyChange R change ∧ wanted conn req r = true →
      inPending pk conn req R change r := by
  by_cases ha : (Overlays.ofChange change).add = some r
  · by_cases hm : (Overlays.ofChange change).remove = some r
    · have hedit : change = .edit r r := ValidChange.added hv ha (ValidChange.removed hv hm) Std.ReflCmp.compare_self
      subst hedit
      exact Or.inr fun req _ h => (inPending_noop hv).mpr h.2
    · have hthere : r ∈ applyChange R change := mem_applyChange.mpr (Or.inl ha)
      cases past with
      | true =>
        refine Or.inl fun req hpast h => ⟨hthere, ?_⟩
        rw [wanted_of_overlaid ((inPending_added hv ha hm).mp h).1]
        exact hpast
      | false =>
        refine Or.inr fun req hpast h => ?_
        simp [wanted, hpast] at h
  · by_cases hm : (Overlays.ofChange change).remove = some r
    · refine Or.inr fun req _ h => ?_
      simp [mem_applyChange, ha, hm] at h
    · exact Or.inr fun req _ h => (inPending_other ha hm).mpr h

/-! ## Batches -/

/-- The requests a fetch is made of. -/
def entries (req : FetchRequest) : List FetchRequest :=
  match batches req with
  | [] => [req]
  | primary :: _ => primary.map (entryRequest req)

/-- The batches that filter the merged stream. -/
def others (req : FetchRequest) : List MultiConstraint := (batches req).tail

theorem entries_start {e : FetchRequest} (h : e ∈ entries req) : e.start = req.start ∧ e.reverse = req.reverse := by
  unfold entries at h
  split at h
  · rw [List.mem_singleton.mp h]
    exact ⟨rfl, rfl⟩
  · obtain ⟨c, -, rfl⟩ := List.mem_map.mp h
    exact ⟨rfl, rfl⟩

/-- A fetch merges the streams of its requests and filters by the other batches. -/
theorem FetchedOn.parts {C : SortSpec → Set Row} {overlay : Option Overlay} {rows : List Row}
    (h : FetchedOn pk C overlay conn req rows) :
    ∃ streams, List.Forall₂ (Fetched pk C overlay conn) (entries req) streams ∧
      ((∀ st ∈ streams, SList.Rising (compareRowsRev conn.sort req.reverse) st) →
        rows.Perm (streams.flatten.filter (matchesEach (others req))) ∧
          SList.Rising (compareRowsRev conn.sort req.reverse) rows) := by
  unfold FetchedOn at h
  unfold entries others
  split at h
  · rename_i hb
    rw [hb]
    refine ⟨[rows], .cons h .nil, fun hr => ⟨?_, hr rows List.mem_cons_self⟩⟩
    have hall : ∀ r, matchesEach [] r = true := fun _ => rfl
    simp [List.filter_eq_self.mpr fun r _ => hall r]
  · rename_i primary rest hb
    rw [hb]
    obtain ⟨streams, hf, rfl⟩ := h
    refine ⟨streams, List.forall₂_map_left_iff.mpr hf, fun hr => ?_⟩
    obtain ⟨hperm, hrise⟩ := mergeSortedStreams_spec hr
    exact ⟨hperm.filter _, hrise.sublist List.filter_sublist⟩

/-- How often a row comes: once for each request that returns it. -/
theorem count_streams {P : FetchRequest → Row → Prop} [∀ e r, Decidable (P e r)] {es : List FetchRequest} {streams : List (List Row)}
    (h : List.Forall₂ (fun e st => st.Nodup ∧ ∀ r, r ∈ st ↔ P e r) es streams) (r : Row) :
    streams.flatten.count r = es.countP fun e => decide (P e r) := by
  induction h with
  | nil => rfl
  | @cons e st es streams hst _ ih =>
    rw [List.flatten_cons, List.count_append, ih, hst.1.count, List.countP_cons, Nat.add_comm]
    congr 1
    simp [hst.2 r]

/-- Counts that can only differ one way and are equal are equal at each place. -/
theorem countP_oneway {α : Type} {p q : α → Bool} {l : List α} (hpq : ∀ e ∈ l, p e = true → q e = true)
    (hc : l.countP p = l.countP q) : ∀ e ∈ l, q e = true → p e = true := by
  induction l with
  | nil => intro e he; cases he
  | cons x l ih =>
    have htail : l.countP p ≤ l.countP q := List.countP_mono_left fun e he => hpq e (List.mem_cons_of_mem _ he)
    have hx := hpq x List.mem_cons_self
    rw [List.countP_cons, List.countP_cons] at hc
    have hhead : q x = true → p x = true := by
      intro hq
      by_contra hp
      rw [if_neg hp, if_pos hq] at hc
      omega
    have heq : l.countP p = l.countP q := by
      by_cases hp : p x = true
      · rw [if_pos hp, if_pos (hx hp)] at hc
        omega
      · rw [if_neg hp, if_neg fun hq => hp (hhead hq)] at hc
        omega
    intro e he hq
    rcases List.mem_cons.mp he with rfl | he
    · exact hhead hq
    · exact ih (fun e he => hpq e (List.mem_cons_of_mem _ he)) heq e he hq

theorem streams_rising {P : FetchRequest → List Row → Prop} {streams : List (List Row)} (h : List.Forall₂ P (entries req) streams)
    (hP : ∀ e st, P e st → SList.Rising (compareRowsRev conn.sort e.reverse) st) :
    ∀ st ∈ streams, SList.Rising (compareRowsRev conn.sort req.reverse) st := by
  have hrev : ∀ e ∈ entries req, e.reverse = req.reverse := fun e he => (entries_start he).2
  generalize entries req = es at h hrev
  induction h with
  | nil => intro st hst; cases hst
  | @cons e st es streams hst _ ih =>
    intro st' hst'
    rcases List.mem_cons.mp hst' with rfl | hst'
    · rw [← hrev e List.mem_cons_self]
      exact hP e st' hst
    · exact ih (fun e he => hrev e (List.mem_cons_of_mem _ he)) st' hst'

/-- A connection that was sent the change fetches what it will fetch once it is written, exactly if
    the change settles in each request the fetch is made of. -/
theorem FetchedOn.pending_eq_iff {overlay overlay' : Option Overlay} {pending post : List Row} (hpk : conn.pkConstraint = none)
    (hu : KeyUnique pk R) (hu' : KeyUnique pk (applyChange R change)) (hcov : SortSpec.Covers conn.sort pk)
    (hv : ValidChange pk R change) (hseen : seen conn overlay = Overlays.ofChange change) (hseen' : seen conn overlay' = {})
    (h : FetchedOn pk (same R) overlay conn req pending)
    (h' : FetchedOn pk (same (applyChange R change)) overlay' conn req post) :
    pending = post ↔ ∀ e ∈ entries req, Settles pk conn e (matchesEach (others req)) change := by
  classical
  obtain ⟨ps, hps, hp⟩ := h.parts
  obtain ⟨qs, hqs, hq⟩ := h'.parts
  obtain ⟨hpperm, hprise⟩ := hp (streams_rising hps fun e st hf => (hf.pending hpk hu hcov hv hseen).rising)
  obtain ⟨hqperm, hqrise⟩ := hq (streams_rising hqs fun e st hf => (hf.settled hpk hseen').1.rising)
  have hpcount := count_streams (hps.imp fun e st hf =>
    ⟨(hf.pending hpk hu hcov hv hseen).nodup, (hf.pending hpk hu hcov hv hseen).mem⟩)
  have hqcount := count_streams (hqs.imp fun e st hf => ⟨(hf.settled hpk hseen').1.nodup, (hf.settled hpk hseen').2⟩)
  have hcount : ∀ (l : List Row) (r : Row), (l.filter (matchesEach (others req))).count r =
      if matchesEach (others req) r then l.count r else 0 := by
    intro l r
    by_cases hr : matchesEach (others req) r = true
    · rw [if_pos hr, List.count_filter hr]
    · rw [if_neg hr, List.count_eq_zero]
      intro hmem
      exact hr (List.mem_filter.mp hmem).2
  constructor
  · intro heq e he
    subst heq
    rw [← settles_iff hv]
    intro r hr
    have hsum := (hpperm.symm.trans hqperm).count_eq r
    rw [hcount, hcount, if_pos hr, if_pos hr, hpcount, hqcount] at hsum
    have hpast : ∀ e ∈ entries req, pastStart conn e r = pastStart conn req r := by
      intro e he
      rw [pastStart, pastStart, (entries_start he).1, (entries_start he).2]
    -- the requests share the start row, so the counts can differ one way only
    rcases pending_oneway hv r (pastStart conn req r) with hway | hway
    · refine ⟨hway e (hpast e he), fun hpost => ?_⟩
      have hall := countP_oneway (fun e he hp => decide_eq_true (hway e (hpast e he) (of_decide_eq_true hp))) hsum
      exact of_decide_eq_true (hall e he (decide_eq_true hpost))
    · refine ⟨fun hpend => ?_, hway e (hpast e he)⟩
      have hall := countP_oneway (fun e he hp => decide_eq_true (hway e (hpast e he) (of_decide_eq_true hp))) hsum.symm
      exact of_decide_eq_true (hall e he (decide_eq_true hpend))
  · intro hset
    have hperm : pending.Perm post := by
      refine hpperm.trans (List.Perm.trans (List.perm_iff_count.mpr fun r => ?_) hqperm.symm)
      rw [hcount, hcount]
      by_cases hr : matchesEach (others req) r = true
      · rw [if_pos hr, if_pos hr, hpcount, hqcount]
        refine List.countP_congr fun e he => ?_
        rw [decide_eq_true_iff, decide_eq_true_iff]
        exact (settles_iff hv _).mpr (hset e he) r hr
      · rw [if_neg hr, if_neg hr]
    refine (hqrise.eq_of_perm hprise hperm.symm fun a ha b hb htie => ?_).symm
    have hR' : ∀ r ∈ post, r ∈ applyChange R change := by
      intro r hr
      have hmem : r ∈ qs.flatten := (List.mem_filter.mp (hqperm.mem_iff.mp hr)).1
      have hpos : 0 < qs.flatten.count r := List.count_pos_iff.mpr hmem
      rw [hqcount, List.countP_pos_iff] at hpos
      obtain ⟨e, -, he⟩ := hpos
      exact (of_decide_eq_true he).1
    exact hu' a (hR' a ha) b (hR' b hb) (hcov.key_tie (SList.dirCmp_eq_eq.mp htie))

end

end Rindle.MemorySource
