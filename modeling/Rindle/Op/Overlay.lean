/-
  Rindle.Op.Overlay — an in-flight child change and the children of a parent not reached yet
  (`splice_join_overlay_pre` of `rust/src/graph.rs`).

  The children a join fetches while a change is on its way are those after the change. A parent
  the change has not reached must still see them as before: what was added is suppressed, what is
  gone is put back, and the children are sorted again. `splice_inverts` says that these are the
  children before the change, in their order.
-/

import Rindle.Source.Select

namespace Rindle

/-- `same_pk`. -/
def samePk (a b : Row) (pk : List Nat) : Bool := pk.all fun c => (a.cell c).joinEq (b.cell c)

/-- Put the gone child back, unless a row with its key is there. -/
def readdIfAbsent (pk : List Nat) (row : Row) (nodes : List Node) : List Node :=
  if nodes.any fun n => samePk n.row row pk then nodes else nodes ++ [.leaf row]

/-- Take the new child out: the first row with its key. -/
def suppress (pk : List Nat) (row : Row) (nodes : List Node) : List Node := nodes.eraseP fun n => samePk n.row row pk

/-- `splice_join_overlay_pre`. -/
def spliceJoinOverlayPre (base : List Node) (change : SourceChange Row) (childPk : List Nat) (childSort : SortSpec) : List Node :=
  let nodes := match change with
    | .add row => suppress childPk row base
    | .remove row => readdIfAbsent childPk row base
    | .edit old row => readdIfAbsent childPk old (suppress childPk row base)
  nodes.mergeSort fun a b => rowCmp childSort a.row b.row != .gt

/-! ## Keys -/

/-- No cell of the key is null. -/
def Keyed (pk : List Nat) (r : Row) : Prop := ∀ c ∈ pk, (r.cell c).tag = 2

variable {pk : List Nat} {sort : SortSpec} {row : Row} {nodes L L' : List Node} {δ : SourceChange Row}

/-- Of a row with a key, sharing it is comparing equal. -/
theorem samePk_iff {a b : Row} (hb : Keyed pk b) : samePk a b pk = true ↔ keyCmp pk a b = .eq := by
  rw [samePk, List.all_eq_true, keyCmp_eq_eq]
  refine forall₂_congr fun c hc => ?_
  rw [Value.joinEq_iff]
  constructor
  · intro h
    exact h.2.2
  · intro h
    exact ⟨(Value.cmp_eq_eq.mp h).1.trans (hb c hc), hb c hc, h⟩

/-! ## Rows -/

theorem rows_suppress : (suppress pk row nodes).map Node.row = (nodes.map Node.row).eraseP fun r => samePk r row pk := by
  rw [suppress, List.eraseP_map]
  rfl

theorem rows_readdIfAbsent (h : ∀ r ∈ nodes.map Node.row, samePk r row pk = false) :
    (readdIfAbsent pk row nodes).map Node.row = nodes.map Node.row ++ [row] := by
  have hnone : ¬ (nodes.any fun n => samePk n.row row pk) = true := by
    intro hany
    obtain ⟨n, hn, hsame⟩ := List.any_eq_true.mp hany
    rw [h n.row (List.mem_map_of_mem hn)] at hsame
    cases hsame
  rw [readdIfAbsent, if_neg hnone, List.map_append]
  rfl

/-- One row of the list shares the key: taking out the first is taking it out. -/
theorem mem_suppressed {rows : List Row} (hnodup : rows.Nodup) (h : ∀ r ∈ rows, samePk r row pk = true ↔ r = row) (r : Row) :
    r ∈ rows.eraseP (fun r => samePk r row pk) ↔ r ≠ row ∧ r ∈ rows := by
  have herase : rows.eraseP (fun r => samePk r row pk) = rows.erase row := by
    clear hnodup
    induction rows with
    | nil => rfl
    | cons x rows ih =>
      rw [List.eraseP_cons, List.erase_cons, ih fun r hr => h r (List.mem_cons_of_mem _ hr)]
      have hx := h x List.mem_cons_self
      by_cases heq : x = row
      · rw [hx.mpr heq]
        simp [heq]
      · have hne : samePk x row pk = false := Bool.eq_false_iff.mpr fun hs => heq (hx.mp hs)
        rw [hne]
        simp [heq]
  rw [herase, hnodup.mem_erase_iff]

/-- What the splice leaves before it sorts: the rows before the change. -/
theorem rows_before (hu : KeyUnique pk {r | r ∈ L.map Node.row}) (hnodup : (L.map Node.row).Nodup) (hnodup' : (L'.map Node.row).Nodup)
    (hv : ValidChange pk {r | r ∈ L.map Node.row} δ)
    (hafter : ∀ r, r ∈ L'.map Node.row ↔ r ∈ applyChange {r | r ∈ L.map Node.row} δ)
    (hkeyed : ∀ r, r ∈ L.map Node.row ∨ δ.result = some r → Keyed pk r) :
    ((match δ with
      | .add row => suppress pk row L'
      | .remove row => readdIfAbsent pk row L'
      | .edit old row => readdIfAbsent pk old (suppress pk row L')).map Node.row).Perm (L.map Node.row) := by
  cases δ with
  | add row =>
    have hrow : Keyed pk row := hkeyed row (Or.inr rfl)
    have hsame : ∀ r ∈ L'.map Node.row, samePk r row pk = true ↔ r = row := by
      intro r hr
      rw [samePk_iff hrow]
      rcases (hafter r).mp hr with heq | hmem
      · exact ⟨fun _ => heq, fun h => h ▸ Std.ReflCmp.compare_self⟩
      · exact ⟨fun h => absurd h (hv r hmem), fun h => h ▸ Std.ReflCmp.compare_self⟩
    rw [rows_suppress]
    refine (List.perm_ext_iff_of_nodup (hnodup'.sublist List.eraseP_sublist) hnodup).mpr fun r => ?_
    rw [mem_suppressed hnodup' hsame, hafter]
    constructor
    · intro h
      exact h.2.resolve_left h.1
    · intro h
      exact ⟨fun heq => hv r h (heq ▸ Std.ReflCmp.compare_self), Or.inr h⟩
  | remove row =>
    have hmem : row ∈ L.map Node.row := hv
    have hrow : Keyed pk row := hkeyed row (Or.inl hmem)
    have habsent : ∀ r ∈ L'.map Node.row, samePk r row pk = false := by
      intro r hr
      obtain ⟨hin, hne⟩ := (hafter r).mp hr
      refine Bool.eq_false_iff.mpr fun hs => hne (hu r hin row hmem ((samePk_iff hrow).mp hs))
    rw [rows_readdIfAbsent habsent]
    have hnot : row ∉ L'.map Node.row := fun h => ((hafter row).mp h).2 rfl
    refine (List.perm_ext_iff_of_nodup (List.nodup_append.mpr ⟨hnodup', List.nodup_singleton _, ?_⟩) hnodup).mpr fun r => ?_
    · intro a ha b hb heq
      rw [List.mem_singleton.mp hb] at heq
      exact hnot (heq ▸ ha)
    · rw [List.mem_append, List.mem_singleton, hafter]
      constructor
      · intro h
        rcases h with h | rfl
        · exact h.1
        · exact hmem
      · intro h
        by_cases heq : r = row
        · exact Or.inr heq
        · exact Or.inl ⟨h, heq⟩
  | edit old row =>
    obtain ⟨hmem, hfree⟩ := hv
    have hrow : Keyed pk row := hkeyed row (Or.inr rfl)
    have hold : Keyed pk old := hkeyed old (Or.inl hmem)
    have hsame : ∀ r ∈ L'.map Node.row, samePk r row pk = true ↔ r = row := by
      intro r hr
      rw [samePk_iff hrow]
      rcases (hafter r).mp hr with heq | ⟨hin, hne⟩
      · exact ⟨fun _ => heq, fun h => h ▸ Std.ReflCmp.compare_self⟩
      · exact ⟨fun h => absurd h (hfree r hin hne), fun h => h ▸ Std.ReflCmp.compare_self⟩
    have hleft : ∀ r, r ∈ (suppress pk row L').map Node.row ↔ r ∈ L.map Node.row ∧ r ≠ old := by
      intro r
      rw [rows_suppress, mem_suppressed hnodup' hsame, hafter]
      constructor
      · intro h
        exact h.2.resolve_left h.1
      · intro h
        exact ⟨fun heq => hfree r h.1 h.2 (heq ▸ Std.ReflCmp.compare_self), Or.inr h⟩
    have habsent : ∀ r ∈ (suppress pk row L').map Node.row, samePk r old pk = false := by
      intro r hr
      obtain ⟨hin, hne⟩ := (hleft r).mp hr
      exact Bool.eq_false_iff.mpr fun hs => hne (hu r hin old hmem ((samePk_iff hold).mp hs))
    rw [rows_readdIfAbsent habsent]
    have hkept : ((suppress pk row L').map Node.row).Nodup := by
      rw [rows_suppress]
      exact hnodup'.sublist List.eraseP_sublist
    refine (List.perm_ext_iff_of_nodup (List.nodup_append.mpr ⟨hkept, List.nodup_singleton _, ?_⟩) hnodup).mpr fun r => ?_
    · intro a ha b hb heq
      rw [List.mem_singleton.mp hb] at heq
      exact ((hleft a).mp ha).2 heq
    · rw [List.mem_append, List.mem_singleton, hleft]
      constructor
      · intro h
        rcases h with h | rfl
        · exact h.1
        · exact hmem
      · intro h
        by_cases heq : r = old
        · exact Or.inr heq
        · exact Or.inl ⟨h, heq⟩

/-! ## The splice -/

/-- A list sorted with ties is the strict list of its rows. -/
theorem sorted_eq {rows rows' : List Row} (hperm : rows.Perm rows') (hrows : rows.Pairwise fun a b => rowCmp sort a b ≠ .gt)
    (hsorted : SList.Sorted (rowCmp sort) rows') : rows = rows' := by
  have hsorted' : rows'.Pairwise fun a b => rowCmp sort a b ≠ .gt := hsorted.imp fun h => by simp [h]
  refine hperm.eq_of_pairwise (fun a b ha hb hab hba => ?_) hrows hsorted'
  refine hsorted.eq_of_cmp (hperm.mem_iff.mp ha) hb ?_
  cases hcmp : rowCmp sort a b with
  | lt => exact absurd (SList.gt_iff_lt.mpr hcmp) hba
  | eq => rfl
  | gt => exact absurd hcmp hab

/-- Children `L` in strict order, `L'` the children after a valid change of the table's rows: the splice
    makes of `L'` the rows of `L` in order. It keeps the nodes of `L'` and puts back the old row only. -/
theorem splice_inverts (hL : SList.Sorted (rowCmp sort) (L.map Node.row)) (hL' : SList.Sorted (rowCmp sort) (L'.map Node.row))
    (hu : KeyUnique pk {r | r ∈ L.map Node.row}) (hv : ValidChange pk {r | r ∈ L.map Node.row} δ)
    (hafter : ∀ r, r ∈ L'.map Node.row ↔ r ∈ applyChange {r | r ∈ L.map Node.row} δ)
    (hkeyed : ∀ r, r ∈ L.map Node.row ∨ δ.result = some r → Keyed pk r) :
    (spliceJoinOverlayPre L' δ pk sort).map Node.row = L.map Node.row ∧
      ∀ n ∈ spliceJoinOverlayPre L' δ pk sort, n ∈ L' ∨ n = .leaf δ.key := by
  constructor
  · have hperm := rows_before hu hL.nodup hL'.nodup hv hafter hkeyed
    unfold spliceJoinOverlayPre
    refine sorted_eq (((List.mergeSort_perm _ _).map _).trans hperm) ?_ hL
    rw [List.pairwise_map]
    refine (List.pairwise_mergeSort (fun a b c => ?_) (fun a b => ?_) _).imp fun h => by simpa using h
    · simp only [bne_iff_ne, ne_eq]
      intro hab hbc hac
      have hac' := SList.gt_iff_lt.mp hac
      cases hab' : rowCmp sort a.row b.row with
      | lt =>
        exact hbc (SList.gt_iff_lt.mpr (SList.lt_trans hac' hab'))
      | eq => exact hbc (SList.gt_iff_lt.mpr (Std.TransCmp.lt_of_lt_of_eq hac' hab'))
      | gt => exact hab hab'
    · simp only [Bool.or_eq_true, bne_iff_ne, ne_eq]
      cases hab : rowCmp sort a.row b.row with
      | lt => simp
      | eq => simp
      | gt =>
        have hba := SList.gt_iff_lt.mp hab
        simp [hba]
  · intro n hn
    have hreadd : ∀ {row : Row} {nodes : List Node}, n ∈ readdIfAbsent pk row nodes → n ∈ nodes ∨ n = .leaf row := by
      intro row nodes h
      rw [readdIfAbsent] at h
      split at h
      · exact Or.inl h
      · simpa using h
    unfold spliceJoinOverlayPre at hn
    rw [List.mem_mergeSort] at hn
    cases δ with
    | add row => exact Or.inl (List.mem_of_mem_eraseP hn)
    | remove row => exact hreadd hn
    | edit old row =>
      rcases hreadd hn with h | h
      · exact Or.inl (List.mem_of_mem_eraseP h)
      · exact Or.inr h

/-- An edit that moves the last child to the front, under a descending column. -/
theorem splice_inverts_moved :
    (spliceJoinOverlayPre [.leaf [.int 3, .int 9], .leaf [.int 1, .int 5], .leaf [.int 2, .int 4]]
      (.edit [.int 3, .int 1] [.int 3, .int 9]) [0] [(1, false), (0, true)]).map Node.row =
        [.leaf [.int 1, .int 5], .leaf [.int 2, .int 4], .leaf [.int 3, .int 1]].map Node.row := by
  refine (splice_inverts (L := [.leaf [.int 1, .int 5], .leaf [.int 2, .int 4], .leaf [.int 3, .int 1]]) ?_ ?_ ?_ ?_ ?_ ?_).1
  · unfold SList.Sorted
    decide +kernel
  · unfold SList.Sorted
    decide +kernel
  · intro a ha b hb
    simp only [List.map_cons, List.map_nil, Node.leaf_row, Set.mem_ofPred_eq, List.mem_cons, List.not_mem_nil, or_false] at ha hb
    rcases ha with rfl | rfl | rfl <;> rcases hb with rfl | rfl | rfl <;> decide +kernel
  · refine ⟨by simp, fun x hx hne => ?_⟩
    simp only [List.map_cons, List.map_nil, Node.leaf_row, Set.mem_ofPred_eq, List.mem_cons, List.not_mem_nil, or_false] at hx
    rcases hx with rfl | rfl | rfl
    · decide +kernel
    · decide +kernel
    · exact absurd rfl hne
  · intro r
    simp only [List.map_cons, List.map_nil, Node.leaf_row, applyChange, Set.mem_insert_iff, Set.mem_sdiff, Set.mem_ofPred_eq,
      Set.mem_singleton_iff, List.mem_cons, List.not_mem_nil, or_false]
    constructor
    · intro h
      rcases h with rfl | rfl | rfl
      · exact Or.inl rfl
      · exact Or.inr ⟨by simp, by decide⟩
      · exact Or.inr ⟨by simp, by decide⟩
    · intro h
      rcases h with rfl | ⟨rfl | rfl | rfl, hne⟩
      · simp
      · simp
      · simp
      · exact absurd rfl hne
  · intro r hr
    simp only [List.map_cons, List.map_nil, Node.leaf_row, List.mem_cons, List.not_mem_nil, or_false, SList.Delta.result, Option.some.injEq] at hr
    rcases hr with (rfl | rfl | rfl) | rfl
    all_goals
      intro c hc
      rw [List.mem_singleton.mp hc]
      rfl

end Rindle
