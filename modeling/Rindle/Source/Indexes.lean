/-
  Rindle.Source.Indexes — the indexes of an in-memory source hold one table.

  `Holds s C`: every index is a valid tree under its own sort, its sort has every column of
  the primary key, and its rows are the set `C` gives its sort; a sort without an index has
  the rows of the primary one, which an index for it would be built from. For a source whose
  indexes agree `C` is one set of rows (`same R`). Building an index keeps it
  (`Holds.ensureIndex`), writing a valid change carries it to the changed set (`Holds.write`).
-/

import Rindle.Source.Memory

set_option linter.dupNamespace false

namespace Rindle

/-! ## Sorts that determine the row -/

/-- The sort has every column of the primary key. -/
def SortSpec.Covers (sort : SortSpec) (pk : List Nat) : Prop := ∀ p ∈ pk, ∃ asc, (p, asc) ∈ sort

variable {pk : List Nat} {sort : SortSpec}

theorem orderingIncludesPk_iff :
    orderingIncludesPk sort pk = true ↔ SortSpec.Covers sort pk := by
  simp [orderingIncludesPk, SortSpec.Covers]

theorem primarySort_covers (pk : List Nat) : SortSpec.Covers (primarySort pk) pk := by
  intro p hp
  exact ⟨true, List.mem_map.mpr ⟨p, hp, rfl⟩⟩

/-- The order of the primary key; rows that tie have one key. -/
abbrev keyCmp (pk : List Nat) : Row → Row → Ordering := rowCmp (primarySort pk)

theorem keyCmp_eq_eq {a b : Row} :
    keyCmp pk a b = .eq ↔ ∀ p ∈ pk, Value.cmp (a.cell p) (b.cell p) = .eq := by
  simp [keyCmp, rowCmp_eq_eq, primarySort]

theorem SortSpec.Covers.key_tie (h : SortSpec.Covers sort pk) {a b : Row}
    (hab : rowCmp sort a b = .eq) : keyCmp pk a b = .eq := by
  rw [keyCmp_eq_eq]
  intro p hp
  obtain ⟨asc, hasc⟩ := h p hp
  exact rowCmp_eq_eq.mp hab _ hasc

/-- The index a fetch scans determines the row. -/
theorem fetchIndexSort_covers (h : SortSpec.Covers sort pk) (c : Option Constraint) :
    SortSpec.Covers (fetchIndexSort pk c sort) pk := by
  intro p hp
  unfold fetchIndexSort
  split
  · obtain ⟨asc, hasc⟩ := h p hp
    exact ⟨asc, List.mem_append_right _ hasc⟩
  · rename_i hif
    have hm : ∃ k, c = some k ∧ constraintMatchesPrimaryKey k pk = true := by
      cases c with
      | none => simp at hif
      | some k =>
        have hif : pk.length ≤ 1 ∧ constraintMatchesPrimaryKey k pk = true := by simpa using hif
        exact ⟨k, rfl, hif.2⟩
    obtain ⟨k, rfl, hm⟩ := hm
    simp only [constraintMatchesPrimaryKey, Bool.and_eq_true, List.all_eq_true, List.any_eq_true, beq_iff_eq] at hm
    obtain ⟨q, hq, rfl⟩ := hm.2 p hp
    exact ⟨true, List.mem_append_left _ (List.mem_map.mpr ⟨q, hq, rfl⟩)⟩

/-- At most one row for each primary key. -/
def KeyUnique (pk : List Nat) (R : Set Row) : Prop := ∀ a ∈ R, ∀ b ∈ R, keyCmp pk a b = .eq → a = b

/-! ## Sorting rows -/

theorem mem_sortRows {rows : List Row} {r : Row} : r ∈ sortRows sort rows ↔ r ∈ rows :=
  List.mem_insertionSort _

theorem sortRows_sorted {rows : List Row} (h : rows.Pairwise fun a b => rowCmp sort a b ≠ .eq) :
    SList.Sorted (rowCmp sort) (sortRows sort rows) := by
  let le : Row → Row → Prop := fun a b => (rowCmp sort a b).isLE = true
  have htot : Std.Total le := ⟨fun a b => by
    show (rowCmp sort a b).isLE = true ∨ (rowCmp sort b a).isLE = true
    have hswap : rowCmp sort b a = (rowCmp sort a b).swap := Std.OrientedCmp.eq_swap
    rw [hswap]
    cases rowCmp sort a b <;> simp⟩
  have htrans : IsTrans Row le := ⟨fun a b c h1 h2 => Std.TransCmp.isLE_trans h1 h2⟩
  apply SList.Rising.sorted
  · refine List.Pairwise.imp (fun {a b} hab => ?_) (List.pairwise_insertionSort le rows)
    exact SList.not_gt_iff.mpr hab
  · have hsymm : ∀ {a b : Row}, rowCmp sort a b ≠ .eq → rowCmp sort b a ≠ .eq := fun {a b} hab hba => hab (SList.eq_comm.mp hba)
    exact ((List.perm_insertionSort le rows).pairwise_iff hsymm).mpr h

/-! ## Changes to a set of rows -/

/-- A change applied to a set of rows. -/
@[grind] def applyChange (R : Set Row) : SourceChange Row → Set Row
  | .add r => insert r R
  | .remove r => R \ {r}
  | .edit old row => insert row (R \ {old})

/-- A change that fits the rows: it adds an absent key, removes or rewrites a row that is there,
    and an edit takes no other row's key. -/
def ValidChange (pk : List Nat) (R : Set Row) : SourceChange Row → Prop
  | .add r => ∀ x ∈ R, keyCmp pk x r ≠ .eq
  | .remove r => r ∈ R
  | .edit old row => old ∈ R ∧ ∀ x ∈ R, x ≠ old → keyCmp pk x row ≠ .eq

/-- Under a sort that determines the row, a valid change drops its own old row and nothing else. -/
theorem ValidChange.leaves {R : Set Row} (hu : KeyUnique pk R) {change : SourceChange Row}
    (hv : ValidChange pk R change) (hs : SortSpec.Covers sort pk) {x : Row} :
    (change.result = some x ∨ (x ∈ R ∧ change.Leaves (rowCmp sort) x)) ↔ x ∈ applyChange R change := by
  have hself : ∀ a : Row, rowCmp sort a a = .eq := fun a => Std.ReflCmp.compare_self
  cases change with
  | add r =>
    simp only [SList.Delta.result, SList.Delta.Leaves, applyChange, Set.mem_insert_iff, Option.some.injEq]
    constructor
    · rintro (rfl | ⟨hx, -⟩)
      · exact Or.inl rfl
      · exact Or.inr hx
    · rintro (rfl | hx)
      · exact Or.inl rfl
      · exact Or.inr ⟨hx, fun h => hv x hx (hs.key_tie h)⟩
  | remove r =>
    simp only [SList.Delta.result, SList.Delta.Leaves, applyChange, Set.mem_sdiff, Set.mem_singleton_iff]
    constructor
    · rintro (h | ⟨hx, hne⟩)
      · cases h
      · exact ⟨hx, fun h => hne (h ▸ hself x)⟩
    · rintro ⟨hx, hne⟩
      exact Or.inr ⟨hx, fun h => hne (hu x hx r hv (hs.key_tie h))⟩
  | edit old row =>
    obtain ⟨hold, hnew⟩ := hv
    simp only [SList.Delta.result, SList.Delta.Leaves, applyChange, Set.mem_insert_iff, Set.mem_sdiff,
      Set.mem_singleton_iff, Option.some.injEq]
    constructor
    · rintro (rfl | ⟨hx, hne, -⟩)
      · exact Or.inl rfl
      · exact Or.inr ⟨hx, fun h => hne (h ▸ hself x)⟩
    · rintro (rfl | ⟨hx, hne⟩)
      · exact Or.inl rfl
      · exact Or.inr ⟨hx, fun h => hne (hu x hx old hold (hs.key_tie h)), fun h => hnew x hx hne (hs.key_tie h)⟩

namespace MemorySource

/-! ## One index -/

theorem Index.write_sort (i : Index) (change : SourceChange Row) : (Index.write i change).sort = i.sort := by
  cases change <;> rfl

/-- Writing an index patches its rows by the change's own images. -/
theorem Index.write_spec {i : Index} (hi : i.data.Valid (rowCmp i.sort)) (change : SourceChange Row) :
    (Index.write i change).data.Valid (rowCmp i.sort) ∧
      (Index.write i change).data.rows = SList.patch (rowCmp i.sort) i.data.rows change := by
  cases change with
  | add r =>
    obtain ⟨h1, h2, -⟩ := BTree.add_spec hi r
    exact ⟨h1, h2⟩
  | remove r =>
    obtain ⟨h1, h2, -⟩ := BTree.delete_spec hi r
    exact ⟨h1, h2⟩
  | edit old row =>
    obtain ⟨h1, h2, -⟩ := BTree.delete_spec hi old
    obtain ⟨h3, h4, -⟩ := BTree.add_spec h1 row
    exact ⟨h3, by rw [Index.write, h4, h2]; rfl⟩

variable {sort : SortSpec} {change : SourceChange Row}

theorem Index.mem_write {i : Index} (hi : i.data.Valid (rowCmp i.sort)) {x : Row} :
    x ∈ (Index.write i change).data.rows ↔
      change.result = some x ∨ (x ∈ i.data.rows ∧ change.Leaves (rowCmp i.sort) x) := by
  rw [(Index.write_spec hi change).2]
  exact SList.mem_patch hi.sorted

/-! ## All of them -/

/-- Some index has this sort. -/
def Live (s : MemorySource) (sort : SortSpec) : Prop := ∃ i ∈ s.indexes, i.sort = sort

/-- Each index holds the rows `C` gives its sort, in its own order. -/
structure Holds (s : MemorySource) (C : SortSpec → Set Row) : Prop where
  primary : s.Live s.primaryIndexSort
  valid : ∀ i ∈ s.indexes, i.data.Valid (rowCmp i.sort)
  covers : ∀ i ∈ s.indexes, SortSpec.Covers i.sort s.primaryKey
  rows : ∀ i ∈ s.indexes, ∀ r, r ∈ i.data.rows ↔ r ∈ C i.sort
  fresh : ∀ sort, ¬ s.Live sort → C sort = C s.primaryIndexSort

/-- Every index holds the same rows. -/
abbrev same (R : Set Row) : SortSpec → Set Row := fun _ => R

variable {s : MemorySource} {C : SortSpec → Set Row} {R : Set Row}

theorem index?_some {i : Index} (h : s.index? sort = some i) : i ∈ s.indexes ∧ i.sort = sort := by
  refine ⟨List.mem_of_find?_eq_some h, ?_⟩
  have := List.find?_some h
  simpa using this

theorem index?_isSome (h : s.Live sort) : ∃ i, s.index? sort = some i := by
  obtain ⟨i, hi, hs⟩ := h
  cases hf : s.index? sort with
  | some j => exact ⟨j, rfl⟩
  | none =>
    have := List.find?_eq_none.mp hf i hi
    simp [hs] at this

theorem Holds.unique (h : s.Holds C) : KeyUnique s.primaryKey (C s.primaryIndexSort) := by
  obtain ⟨i, hi, hs⟩ := h.primary
  intro a ha b hb hab
  have hv := h.valid i hi
  rw [← hs, ← h.rows i hi] at ha hb
  rw [hs] at hv
  exact hv.sorted.eq_of_cmp ha hb hab

/-- `exists` looks for the row's key in the primary index. -/
theorem Holds.present_iff (h : s.Holds C) (r : Row) :
    s.present r = true ↔ ∃ x ∈ C s.primaryIndexSort, keyCmp s.primaryKey x r = .eq := by
  obtain ⟨i, hi⟩ := index?_isSome h.primary
  obtain ⟨him, hsort⟩ := index?_some hi
  have hv := h.valid i him
  have hrows := h.rows i him
  rw [hsort] at hv hrows
  rw [present, hi, Option.any_some, BTree.has_eq hv, Option.isSome_iff_exists]
  constructor
  · rintro ⟨x, hx⟩
    obtain ⟨hmem, hcmp⟩ := SList.find_some hx
    exact ⟨x, (hrows x).mp hmem, hcmp⟩
  · rintro ⟨x, hx, hcmp⟩
    exact ⟨x, (SList.find_eq_some hv.sorted).mpr ⟨(hrows x).mpr hx, hcmp⟩⟩

theorem write_live : (s.writeChange change).Live sort ↔ s.Live sort := by
  constructor
  · rintro ⟨i, hi, rfl⟩
    obtain ⟨j, hj, rfl⟩ := List.mem_map.mp hi
    exact ⟨j, hj, (Index.write_sort j change).symm⟩
  · rintro ⟨j, hj, rfl⟩
    exact ⟨_, List.mem_map.mpr ⟨j, hj, rfl⟩, Index.write_sort j change⟩

/-- Writing any change: each index is patched under its own sort. -/
theorem Holds.patch (h : s.Holds C) {C' : SortSpec → Set Row}
    (hlive : ∀ sort, s.Live sort → ∀ x, x ∈ C' sort ↔
      change.result = some x ∨ (x ∈ C sort ∧ change.Leaves (rowCmp sort) x))
    (hfresh : ∀ sort, ¬ s.Live sort → C' sort = C' s.primaryIndexSort) : (s.writeChange change).Holds C' := by
  refine ⟨write_live.mpr h.primary, fun i hi => ?_, fun i hi => ?_, fun i hi r => ?_, fun sort hs => ?_⟩
  · obtain ⟨j, hj, rfl⟩ := List.mem_map.mp hi
    rw [Index.write_sort]
    exact (Index.write_spec (h.valid j hj) change).1
  · obtain ⟨j, hj, rfl⟩ := List.mem_map.mp hi
    rw [Index.write_sort]
    exact h.covers j hj
  · obtain ⟨j, hj, rfl⟩ := List.mem_map.mp hi
    rw [Index.write_sort, Index.mem_write (h.valid j hj), h.rows j hj, hlive j.sort ⟨j, hj, rfl⟩]
  · exact hfresh sort fun hl => hs (write_live.mpr hl)

theorem Live.covers (h : s.Holds C) (hs : s.Live sort) : SortSpec.Covers sort s.primaryKey := by
  obtain ⟨i, hi, rfl⟩ := hs
  exact h.covers i hi

theorem Holds.write (h : s.Holds (same R)) (hv : ValidChange s.primaryKey R change) :
    (s.writeChange change).Holds (same (applyChange R change)) :=
  h.patch (fun _ hs _ => (hv.leaves h.unique (hs.covers h)).symm) fun _ _ => rfl

/-! ## Building an index -/

/-- Two states that differ in the indexes only, the second with perhaps more of them. -/
def Grown (s s' : MemorySource) : Prop := ∃ more, s' = { s with indexes := s.indexes ++ more }

theorem Grown.refl (s : MemorySource) : Grown s s := ⟨[], by simp⟩

theorem Grown.key {s s' : MemorySource} (h : Grown s s') : s'.primaryKey = s.primaryKey := by
  obtain ⟨more, rfl⟩ := h
  rfl

theorem Grown.trans {s s' s'' : MemorySource} (h : Grown s s') (h' : Grown s' s'') : Grown s s'' := by
  obtain ⟨more, rfl⟩ := h
  obtain ⟨more', rfl⟩ := h'
  exact ⟨more ++ more', by simp⟩

theorem any_sort_iff : (s.indexes.any fun i => i.sort == sort) = true ↔ s.Live sort := by
  simp [Live]

/-- An index is there, or is built from the primary one. -/
theorem Holds.ensureIndex (h : s.Holds C) (hs : SortSpec.Covers sort s.primaryKey) :
    ∃ s', s.ensureIndex sort = some s' ∧ s'.Holds C ∧ Grown s s' ∧ (∃ i, s'.index? sort = some i) ∧
      ∀ o, s'.Live o ↔ s.Live o ∨ o = sort := by
  unfold MemorySource.ensureIndex
  by_cases hany : (s.indexes.any fun i => i.sort == sort) = true
  · rw [if_pos hany]
    have hl := any_sort_iff.mp hany
    refine ⟨s, rfl, h, Grown.refl s, index?_isSome hl, fun o => ⟨Or.inl, ?_⟩⟩
    rintro (ho | rfl)
    · exact ho
    · exact hl
  · rw [if_neg hany]
    have hnot : ¬ s.Live sort := fun hl => hany (any_sort_iff.mpr hl)
    obtain ⟨i, hi⟩ := index?_isSome h.primary
    obtain ⟨him, hsort⟩ := index?_some hi
    have hscan : i.data.scan none true false = some i.data.rows := BTree.scan_all (h.valid i him) true false
    have hdistinct : i.data.rows.Pairwise fun a b => rowCmp sort a b ≠ .eq := by
      refine List.Pairwise.imp (fun {a b} (hab : rowCmp i.sort a b = .lt) heq => ?_) (h.valid i him).sorted
      have := hs.key_tie heq
      rw [hsort] at hab
      rw [show rowCmp s.primaryIndexSort a b = .eq from this] at hab
      cases hab
    obtain ⟨hvalid, hrows⟩ := BTree.fromSorted_spec (sortRows_sorted hdistinct)
    refine ⟨{ s with indexes := s.indexes ++ [⟨sort, BTree.fromSorted (sortRows sort i.data.rows)⟩] },
      by simp [hi, hscan], ⟨?_, fun j hj => ?_, fun j hj => ?_, fun j hj r => ?_, fun o ho => ?_⟩, ⟨_, rfl⟩,
      index?_isSome ?_, fun o => ?_⟩
    · exact ⟨i, List.mem_append_left _ him, hsort⟩
    · rcases List.mem_append.mp hj with hj | hj
      · exact h.valid j hj
      · rw [List.mem_singleton.mp hj]; exact hvalid
    · rcases List.mem_append.mp hj with hj | hj
      · exact h.covers j hj
      · rw [List.mem_singleton.mp hj]; exact hs
    · rcases List.mem_append.mp hj with hj | hj
      · exact h.rows j hj r
      · rw [List.mem_singleton.mp hj]
        show r ∈ (BTree.fromSorted _).rows ↔ _
        rw [hrows, mem_sortRows, h.rows i him r, hsort, h.fresh sort hnot]
    · exact h.fresh o fun ⟨j, hj, hjo⟩ => ho ⟨j, List.mem_append_left _ hj, hjo⟩
    · exact ⟨_, List.mem_append_right _ (List.mem_singleton.mpr rfl), rfl⟩
    · constructor
      · rintro ⟨j, hj, rfl⟩
        rcases List.mem_append.mp hj with hj | hj
        · exact Or.inl ⟨j, hj, rfl⟩
        · rw [List.mem_singleton.mp hj]; exact Or.inr rfl
      · rintro (⟨j, hj, rfl⟩ | rfl)
        · exact ⟨j, List.mem_append_left _ hj, rfl⟩
        · exact ⟨_, List.mem_append_right _ (List.mem_singleton.mpr rfl), rfl⟩

end MemorySource

end Rindle
