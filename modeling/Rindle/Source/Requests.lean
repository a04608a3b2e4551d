/-
  Rindle.Source.Requests — what a request returns, against the table alone.

  At rest a request returns the rows it asks for in the connection's order, whichever index serves it
  (`fetch_exact`). The filters' primary-key constraint only says where the scan starts: the row it names
  comes first, and the rows after it are refused by the filter it was taken from.

  A batch of distinct constraints is as good as a filter (`fetch_multi_exact`), and while a change is in
  flight it stays so where the change settles in the request of each constraint.
-/

import Rindle.Source.InFlight

set_option linter.dupNamespace false

namespace Rindle

/-- The primary-key constraint of a connection's filters is taken from them: it names the key's columns,
    and what they accept meets it. -/
def Connection.PkHoisted (conn : Connection) (pk : List Nat) : Prop :=
  ∀ pc, conn.pkConstraint = some pc →
    constraintMatchesPrimaryKey pc pk = true ∧ ∀ r, conn.accepts r = true → constraintMatches r pc = true

namespace MemorySource

section
variable {pk : List Nat} {conn : Connection} {req : FetchRequest} {R : Set Row}

/-- Two rows within a constraint on the whole key have one key. -/
theorem key_tie_of_matches {pc : Constraint} (hkey : constraintMatchesPrimaryKey pc pk = true) {x y : Row}
    (hx : constraintMatches x pc = true) (hy : constraintMatches y pc = true) : keyCmp pk x y = .eq := by
  have htie := constraintSort_tie hx hy
  have hcols : SortSpec.Covers (constraintSort pc) pk := by
    rw [← orderingIncludesPk_iff]
    refine List.all_eq_true.mpr fun p hp => ?_
    simp only [constraintMatchesPrimaryKey, Bool.and_eq_true] at hkey
    obtain ⟨q, hq, hqp⟩ := List.any_eq_true.mp (List.all_eq_true.mp hkey.2 p hp)
    exact List.any_eq_true.mpr ⟨_, List.mem_map.mpr ⟨q, hq, rfl⟩, hqp⟩
  exact hcols.key_tie htie

/-- Rows at the end that the filter refuses do not matter, and one row alone goes through or not. -/
theorem selectRows_head {gate within accepts : Row → Bool} (x : Row) {rest : List Row} (hrest : ∀ r ∈ rest, accepts r ≠ true) :
    Rindle.selectRows gate within accepts (x :: rest) = [x].filter fun r => gate r && (within r && accepts r) := by
  rw [show x :: rest = [x] ++ rest from rfl, selectRows_append fun r hr h => hrest r hr h.2, selectRows_singleton, List.filter_cons,
    List.filter_nil]

/-- A scan that starts at the one row the filters can accept. -/
theorem Fetched.keyed {overlay : Option Overlay} {rows : List Row} {pc : Constraint} (hpc : conn.pkConstraint = some pc)
    (hkey : constraintMatchesPrimaryKey pc pk = true) (hhoist : ∀ r, conn.accepts r = true → constraintMatches r pc = true)
    (hu : KeyUnique pk R) (hseen : seen conn overlay = {}) (h : Fetched pk (same R) overlay conn req rows) :
    SList.Sorted (compareRowsRev conn.sort req.reverse) rows ∧ ∀ r, r ∈ rows ↔ r ∈ R ∧ wanted conn req r = true := by
  obtain ⟨L, hscan, rfl⟩ := h
  -- the same scan, of a request for the constraint on a connection without filters
  let bare : Connection := { sort := conn.sort }
  let keyed : FetchRequest := { constraint := some pc, reverse := req.reverse }
  have hor : fetchOrPk conn req = some pc := by rw [fetchOrPk, hpc, Option.some_or]
  have hsort : requestSort pk conn req = requestSort pk bare keyed := by rw [requestSort, hor]; rfl
  have hin : ∀ x, constraintMatches x pc = true →
      inScan (requestSort pk conn req) (scanStart (fetchOrPk conn req) req (requestSort pk conn req)) req.reverse x = true := by
    intro x hx
    rw [hor, hsort]
    have hiff : inScan (requestSort pk bare keyed) (scanStart (fetchOrPk bare keyed) keyed (requestSort pk bare keyed)) keyed.reverse x =
        true ↔ (keyed.constraint = none → pastStartRow pk bare keyed x = true) := inScan_iff rfl hx
    exact hiff.mpr fun hnone => by cases hnone
  have hbare : ∀ {x y : Row}, constraintHolds keyed.constraint x = true → constraintHolds keyed.constraint y ≠ true →
      inScan (requestSort pk bare keyed) (scanStart (fetchOrPk bare keyed) keyed (requestSort pk bare keyed)) keyed.reverse y = true →
        compareRowsRev (requestSort pk bare keyed) keyed.reverse x y = .lt := within_lt rfl
  have hone : ∀ x ∈ R, ∀ y ∈ R, constraintMatches x pc = true → constraintMatches y pc = true → x = y :=
    fun x hx y hy hxc hyc => hu x hx y hy (key_tie_of_matches hkey hxc hyc)
  rw [fetchStream_eq, hseen]
  show SList.Sorted _ (Rindle.selectRows _ _ _ (overlaySplice _ none none L)) ∧
    ∀ r, r ∈ Rindle.selectRows _ _ _ (overlaySplice _ none none L) ↔ _
  rw [overlaySplice_none]
  have hwanted : ∀ r, wanted conn req r = true → constraintMatches r pc = true := by
    intro r hr
    simp only [wanted, Bool.and_eq_true] at hr
    exact hhoist r hr.2.2
  by_cases hx : ∃ x ∈ R, constraintMatches x pc = true
  · obtain ⟨x, hxR, hxc⟩ := hx
    have hxL : x ∈ L := (hscan.mem x).mpr ⟨hxR, hin x hxc⟩
    -- everything else in the scan comes after it
    have hlast : ∀ y ∈ L, y ≠ x → compareRowsRev (requestSort pk conn req) req.reverse x y = .lt := by
      intro y hy hne
      obtain ⟨hyR, hyscan⟩ := (hscan.mem y).mp hy
      have hyc : constraintHolds (some pc) y ≠ true := fun h => hne (hone y hyR x hxR h hxc)
      rw [hor, hsort] at hyscan
      have hyscan' : inScan (requestSort pk bare keyed) (scanStart (fetchOrPk bare keyed) keyed (requestSort pk bare keyed))
          keyed.reverse y = true := hyscan
      rw [hsort]
      exact hbare hxc hyc hyscan'
    obtain ⟨rest, hL⟩ : ∃ rest, L = x :: rest := by
      cases L with
      | nil => cases hxL
      | cons y rest =>
        by_cases hyx : y = x
        · exact ⟨rest, by rw [hyx]⟩
        · have hyxlt := (SList.sorted_cons.mp hscan.sorted).1 x ((List.mem_cons.mp hxL).resolve_left (Ne.symm hyx))
          exact absurd (hlast y List.mem_cons_self hyx) (SList.not_lt_of_lt hyxlt)
    have hrest : ∀ y ∈ rest, conn.accepts y ≠ true := by
      intro y hy hacc
      have hxy := (SList.sorted_cons.mp (hL ▸ hscan.sorted)).1 y hy
      have hyL : y ∈ L := hL ▸ List.mem_cons_of_mem _ hy
      obtain rfl := hone y ((hscan.mem y).mp hyL).1 x hxR (hhoist y hacc) hxc
      exact SList.not_lt_of_lt hxy hxy
    rw [hL, selectRows_head x hrest]
    refine ⟨List.Pairwise.sublist List.filter_sublist (List.pairwise_singleton _ x), fun r => ?_⟩
    rw [List.mem_filter, List.mem_singleton]
    constructor
    · intro h
      exact ⟨h.1 ▸ hxR, h.2⟩
    · intro h
      exact ⟨hone r h.1 x hxR (hwanted r h.2) hxc, h.2⟩
  · have hnone : ∀ r ∈ R, wanted conn req r ≠ true := fun r hr h => hx ⟨r, hr, hwanted r h⟩
    rw [selectRows_nil_of_none fun r hr h => hx ⟨r, ((hscan.mem r).mp hr).1, hhoist r h.2⟩]
    refine ⟨SList.sorted_nil, fun r => ?_⟩
    constructor
    · intro h
      cases h
    · intro h
      exact absurd h.2 (hnone r h.1)

/-- With or without a primary-key constraint in the filters. -/
theorem Fetched.exact {overlay : Option Overlay} {rows : List Row} (hpk : conn.PkHoisted pk) (hu : KeyUnique pk R)
    (hseen : seen conn overlay = {}) (h : Fetched pk (same R) overlay conn req rows) :
    SList.Sorted (compareRowsRev conn.sort req.reverse) rows ∧ ∀ r, r ∈ rows ↔ r ∈ R ∧ wanted conn req r = true := by
  cases hpc : conn.pkConstraint with
  | none => exact h.settled hpc hseen
  | some pc =>
    obtain ⟨hkey, hhoist⟩ := hpk pc hpc
    exact h.keyed hpc hkey hhoist hu hseen

end

/-! ## Between the operations nothing is in flight -/

theorem tryGenPushAndWrite_overlay {s : MemorySource} {change : SourceChange Row} {epoch : Nat} {reads : Reads} {strict : Bool}
    {p : Pushed} (hs : s.overlay = none) (h : s.tryGenPushAndWrite change epoch reads strict = some p) : p.source.overlay = none := by
  unfold tryGenPushAndWrite at h
  split at h
  · rw [← Option.some.inj h]
    exact hs
  · obtain ⟨r, -, h⟩ := Option.bind_eq_some_iff.mp h
    rw [← Option.some.inj h]
    rfl

theorem tryPush_overlay {s : MemorySource} {change : SourceChange Row} {reads : Reads} {strict : Bool} {p : Pushed}
    (hs : s.overlay = none) (h : s.tryPush change reads strict = some p) : p.source.overlay = none := by
  have honce : ∀ {s : MemorySource} {change : SourceChange Row} {p : Pushed}, s.overlay = none →
      s.pushOnce change reads strict = some p → p.source.overlay = none :=
    fun hs h => tryGenPushAndWrite_overlay (s := nextEpoch _) hs h
  unfold tryPush at h
  cases change with
  | add r => exact honce hs h
  | remove r => exact honce hs h
  | edit old row =>
    simp only at h
    split at h
    · obtain ⟨removed, hremoved, h⟩ := Option.bind_eq_some_iff.mp h
      have hr := honce hs hremoved
      split at h
      · rw [← Option.some.inj h]
        exact hr
      · obtain ⟨added, hadded, h⟩ := Option.bind_eq_some_iff.mp h
        have ha : added.source.overlay = none := honce hr hadded
        rw [← Option.some.inj h]
        exact ha
    · exact honce hs h

theorem Op.Fits.overlay {s s' : MemorySource} {R : Set Row} {op : Op} (h : s.Ok (same R)) (hs : s.overlay = none) (hf : op.Fits s R)
    (hrun : op.run s = some s') : s'.overlay = none := by
  cases op with
  | push change reads strict =>
    obtain ⟨p, hp, rfl⟩ := Option.map_eq_some_iff.mp hrun
    exact tryPush_overlay hs hp
  | ensureIndex sort =>
    obtain ⟨s1, heq, -, ⟨more, rfl⟩, -⟩ := h.holds.ensureIndex (orderingIncludesPk_iff.mp hf)
    rw [← Option.some.inj (heq.symm.trans hrun)]
    exact hs
  | connect sort filters keys =>
    obtain ⟨r, hr, rfl⟩ := Option.map_eq_some_iff.mp hrun
    unfold MemorySource.connect at hr
    split at hr
    · rw [← Option.some.inj hr]
      exact hs
    · cases hr
  | setConnOutput id =>
    obtain ⟨t, -, rfl⟩ := Option.map_eq_some_iff.mp hrun
    exact hs
  | fetch id req =>
    obtain ⟨-, rows, s1, -, -, heq, -, ⟨more, rfl⟩, -⟩ := h.fetch hf req
    have hs1 : some { s with indexes := s.indexes ++ more } = some s' := by
      rw [← hrun]
      simp [Op.run, heq]
    rw [← Option.some.inj hs1]
    exact hs
  | destroy id =>
    rw [← Option.some.inj hrun]
    exact hs

theorem run_overlay (ops : List Op) : ∀ {s s' : MemorySource} {R : Set Row}, s.Ok (same R) → s.overlay = none → ValidRun s R ops →
    ops.foldlM Op.run s = some s' → s'.overlay = none := by
  induction ops with
  | nil =>
    intro s s' R _ hs _ hrun
    rw [← Option.some.inj hrun]
    exact hs
  | cons op ops ih =>
    intro s s' R h hs hv hrun
    obtain ⟨s1, heq, hok, -⟩ := Op.Fits.step h hv.1
    rw [List.foldlM_cons, heq] at hrun
    exact ih hok (Op.Fits.overlay h hs hv.1 heq) (hv.2 s1 heq) hrun

/-! ## A request at rest -/

/-- After any history, a request returns the rows of the table it asks for, in the connection's order. -/
theorem fetch_exact {width : Nat} {pk : List Nat} {initial : List Row} {s0 : MemorySource} (hnew : tryNew width pk initial = .ok s0)
    (hkeys : initial.Pairwise fun a b => keyCmp pk a b ≠ .eq) {ops : List Op} (hv : ValidRun s0 {r | r ∈ initial} ops) :
    ∃ s, ops.foldlM Op.run s0 = some s ∧ ∀ id conn, s.conns.live id = some conn → conn.PkHoisted s.primaryKey →
      ∀ req, req.hasMulti = false → ∃ rows s', s.fetch id req = some (rows, s') ∧
        SList.Sorted (compareRowsRev conn.sort req.reverse) rows ∧
        ∀ r, r ∈ rows ↔ r ∈ (pushed ops).foldl applyChange {r | r ∈ initial} ∧
          pastStart conn req r = true ∧ constraintHolds req.constraint r = true ∧ conn.accepts r = true := by
  have hok0 := tryNew_ok hnew hkeys
  obtain ⟨s, hrun, hok⟩ := run_ok ops hok0 hv
  have hover0 : s0.overlay = none := by
    unfold tryNew at hnew
    split at hnew
    · cases hnew
    · rw [← Except.ok.inj hnew]
  have hover := run_overlay ops hok0 hover0 hv hrun
  refine ⟨s, hrun, fun id conn hlive hpk req hsingle => ?_⟩
  obtain ⟨rows, s', hfetch, hf, -⟩ := hok.fetch_live hlive req
  have hbatch : batches req = [] := by
    rw [batches, List.filter_eq_nil_iff]
    intro mc hmc hne
    rw [FetchRequest.hasMulti, List.any_eq_false] at hsingle
    exact hsingle mc hmc hne
  unfold FetchedOn at hf
  rw [hbatch] at hf
  have hseen : seen conn s.overlay = {} := by rw [hover]; rfl
  obtain ⟨hsorted, hmem⟩ := hf.exact hpk hok.holds.unique hseen
  refine ⟨rows, s', hfetch, hsorted, fun r => ?_⟩
  rw [hmem r, apply_pushed, wanted, Bool.and_eq_true, Bool.and_eq_true]

/-- A connection whose filter names the key of one of two rows, read backwards within a group. -/
theorem fetch_exact_keyed : ∃ (s : MemorySource) (conn : Connection) (rows : List Row) (s' : MemorySource),
    s.conns.live ⟨0, 0⟩ = some conn ∧ conn.pkConstraint = some [(0, .int 5)] ∧
    s.fetch ⟨0, 0⟩ { constraint := some [(1, .int 1)], reverse := true } = some (rows, s') ∧
    ∀ r, r ∈ rows ↔ r ∈ {r | r ∈ [[Value.int 1, .int 1], [.int 5, .int 1]]} ∧
      pastStart conn { constraint := some [(1, .int 1)], reverse := true } r = true ∧
      constraintHolds (some [(1, .int 1)]) r = true ∧ conn.accepts r = true := by
  obtain ⟨s0, hnew⟩ : ∃ s0, tryNew 2 [0] [[.int 1, .int 1], [.int 5, .int 1]] = .ok s0 := ⟨_, rfl⟩
  let filters : ConnectionFilters :=
    { predicate := fun r => constraintMatches r [(0, .int 5)], pkConstraint := some [(0, .int 5)] }
  have hv : ValidRun s0 {r | r ∈ [[Value.int 1, .int 1], [.int 5, .int 1]]} [Op.connect (some [(0, true)]) (some filters) []] := by
    rw [← Except.ok.inj hnew]
    exact ⟨rfl, fun _ _ => trivial⟩
  obtain ⟨s, hrun, hfetch⟩ := fetch_exact hnew (by decide +kernel) hv
  have hs : s.conns.live ⟨0, 0⟩ = some { sort := [(0, true)], filters := some filters } ∧ s.primaryKey = [0] := by
    rw [← Except.ok.inj hnew] at hrun
    rw [← Option.some.inj hrun]
    exact ⟨rfl, rfl⟩
  have hoisted : Connection.PkHoisted { sort := [(0, true)], filters := some filters } s.primaryKey := by
    intro pc hpc
    rw [← Option.some.inj hpc, hs.2]
    exact ⟨rfl, fun r hr => hr⟩
  obtain ⟨rows, s', heq, -, hmem⟩ := hfetch ⟨0, 0⟩ _ hs.1 hoisted { constraint := some [(1, .int 1)], reverse := true } rfl
  exact ⟨s, _, rows, s', hs.1, rfl, heq, hmem⟩

/-! ## A batch of constraints -/

/-- The rows of `R` a request asks for, each once and in the connection's order. -/
def FilteredScan (conn : Connection) (req : FetchRequest) (R : Set Row) (rows : List Row) : Prop :=
  SList.Sorted (compareRowsRev conn.sort req.reverse) rows ∧
    ∀ r, r ∈ rows ↔ r ∈ R ∧ wanted conn req r = true ∧ matchesEach (batches req) r = true

/-- Distinct constraints over one column set, compatible with the request they are merged into. -/
structure DistinctBatch (base : Option Constraint) (mc : MultiConstraint) : Prop where
  columns : ∃ cols : List Nat, cols.Nodup ∧ ∀ c ∈ mc, (c.map Prod.fst).Perm cols
  distinct : mc.Pairwise fun c c' => ∃ p ∈ c, ∃ q ∈ c', p.1 = q.1 ∧ p.2.joinEq q.2 = false
  compatible : ∀ c ∈ mc, ∀ b, base = some b → constraintsAreCompatible b c = true

section
variable {pk : List Nat} {conn : Connection} {req : FetchRequest} {R : Set Row} {base : Option Constraint} {c c' : Constraint}
  {change : SourceChange Row}

theorem joinEq_trans {x v w : Value} (hv : x.joinEq v = true) (hw : v.joinEq w = true) : x.joinEq w = true := by
  obtain ⟨hx, -, hxv⟩ := Value.joinEq_iff.mp hv
  obtain ⟨-, htw, hvw⟩ := Value.joinEq_iff.mp hw
  exact Value.joinEq_iff.mpr ⟨hx, htw, Std.TransCmp.eq_trans hxv hvw⟩

theorem joinEq_symm {v w : Value} (h : v.joinEq w = true) : w.joinEq v = true := by
  obtain ⟨hv, hw, hcmp⟩ := Value.joinEq_iff.mp h
  exact Value.joinEq_iff.mpr ⟨hw, hv, SList.eq_comm.mp hcmp⟩

/-- The constraint's entry for a column, where it names each column once. -/
theorem find_column (hn : (c.map Prod.fst).Nodup) {q : Nat × Value} (hq : q ∈ c) : (c.find? fun p => p.1 == q.1) = some q := by
  cases hf : c.find? fun p => p.1 == q.1 with
  | none => exact absurd (beq_self_eq_true q.1) (List.find?_eq_none.mp hf q hq)
  | some p =>
    have hfound := List.find?_some hf
    have hcol : p.1 = q.1 := beq_iff_eq.mp hfound
    rw [List.inj_on_of_nodup_map hn (List.mem_of_find?_eq_some hf) hq hcol]

/-- Merged with a compatible constraint, a request asks for the rows that meet both. -/
theorem matches_merge (hn : (c.map Prod.fst).Nodup) (hc : ∀ b, base = some b → constraintsAreCompatible b c = true) (r : Row) :
    constraintMatches r (mergeConstraints base c) = true ↔ constraintHolds base r = true ∧ constraintMatches r c = true := by
  cases base with
  | none => exact ⟨fun h => ⟨rfl, h⟩, And.right⟩
  | some b =>
    show List.all (_ ++ _) _ = true ↔ List.all b _ = true ∧ List.all c _ = true
    rw [List.all_append, Bool.and_eq_true, List.all_map]
    simp only [List.all_eq_true, Function.comp_apply, List.mem_filter, Bool.not_eq_true', List.any_eq_false, beq_iff_eq]
    have hcompat := List.all_eq_true.mp (hc b rfl)
    constructor
    · intro ⟨hb, hrest⟩
      have hmatch : ∀ q ∈ c, (r.cell q.1).joinEq q.2 = true := by
        intro q hq
        by_cases hin : ∃ p ∈ b, p.1 = q.1
        · obtain ⟨p, hp, hpq⟩ := hin
          have hval := hb p hp
          rw [hpq, find_column hn hq] at hval
          exact hval
        · exact hrest q ⟨hq, fun p hp hpq => hin ⟨p, hp, hpq⟩⟩
      refine ⟨fun p hp => ?_, hmatch⟩
      have hval := hb p hp
      have hpc := hcompat p hp
      cases hf : c.find? fun q => q.1 == p.1 with
      | none =>
        rw [hf] at hval
        exact hval
      | some q =>
        rw [hf] at hval hpc
        exact joinEq_trans hval (joinEq_symm hpc)
    · intro ⟨hb, hmatch⟩
      refine ⟨fun p hp => ?_, fun q hq => hmatch q hq.1⟩
      cases hf : c.find? fun q => q.1 == p.1 with
      | none => exact hb p hp
      | some q =>
        have hfound := List.find?_some hf
        have hcol : q.1 = p.1 := beq_iff_eq.mp hfound
        show (r.cell p.1).joinEq q.2 = true
        rw [← hcol]
        exact hmatch q (List.mem_of_find?_eq_some hf)

/-- No row meets two of the constraints. -/
theorem matches_apart (h : ∃ p ∈ c, ∃ q ∈ c', p.1 = q.1 ∧ p.2.joinEq q.2 = false) {r : Row} (hc : constraintMatches r c = true) :
    constraintMatches r c' = false := by
  obtain ⟨p, hp, q, hq, hcol, hne⟩ := h
  rw [Bool.eq_false_iff]
  intro hc'
  have hrp := List.all_eq_true.mp hc p hp
  have hrq := List.all_eq_true.mp hc' q hq
  rw [← hcol] at hrq
  rw [joinEq_trans (joinEq_symm hrp) hrq] at hne
  cases hne

/-- What the request of a batch's entry asks for. -/
theorem wanted_entry {mc : MultiConstraint} (hd : DistinctBatch req.constraint mc) (hc : c ∈ mc) (r : Row) :
    wanted conn (entryRequest req c) r = true ↔ wanted conn req r = true ∧ constraintMatches r c = true := by
  obtain ⟨cols, hcols, hperm⟩ := hd.columns
  have hmerge := matches_merge ((hperm c hc).nodup_iff.mpr hcols) (hd.compatible c hc) r
  have hholds : constraintHolds (some (mergeConstraints req.constraint c)) r = true ↔
      constraintHolds req.constraint r = true ∧ constraintMatches r c = true := hmerge
  simp only [wanted, entryRequest, Bool.and_eq_true, hholds]
  show pastStart conn req r = true ∧ _ ↔ _
  tauto

/-- A row the request asks for comes from one entry of the first batch, and from no other. -/
theorem entries_once (hd : ∀ mc rest, batches req = mc :: rest → DistinctBatch req.constraint mc) (r : Row) :
    ((∃ e ∈ entries req, wanted conn e r = true) ∧ matchesEach (others req) r = true ↔
      wanted conn req r = true ∧ matchesEach (batches req) r = true) ∧
    (entries req).Pairwise fun e e' => ¬ (wanted conn e r = true ∧ wanted conn e' r = true) := by
  unfold entries others
  cases hb : batches req with
  | nil => simp
  | cons mc rest =>
    have hdist := hd mc rest hb
    refine ⟨?_, ?_⟩
    · have heach : matchesEach (mc :: rest) r = true ↔ (∃ c ∈ mc, constraintMatches r c = true) ∧ matchesEach rest r = true := by
        simp [matchesEach]
      rw [heach, ← and_assoc]
      refine and_congr_left fun _ => ?_
      constructor
      · rintro ⟨e, he, hw⟩
        obtain ⟨c, hc, rfl⟩ := List.mem_map.mp he
        have hboth := (wanted_entry hdist hc r).mp hw
        exact ⟨hboth.1, c, hc, hboth.2⟩
      · rintro ⟨hw, c, hc, hmatch⟩
        exact ⟨entryRequest req c, List.mem_map_of_mem hc, (wanted_entry hdist hc r).mpr ⟨hw, hmatch⟩⟩
    · refine List.pairwise_map.mpr (hdist.distinct.imp_of_mem fun {c c'} hc hc' hap hboth => ?_)
      have hin := ((wanted_entry hdist hc r).mp hboth.1).2
      have hin' := ((wanted_entry hdist hc' r).mp hboth.2).2
      rw [matches_apart hap hin] at hin'
      cases hin'

theorem countP_le_one {α : Type} {p : α → Bool} {l : List α} (h : l.Pairwise fun a b => ¬ (p a = true ∧ p b = true)) :
    l.countP p ≤ 1 := by
  induction l with
  | nil => simp
  | cons x l ih =>
    rw [List.countP_cons]
    have htail := ih (List.pairwise_cons.mp h).2
    by_cases hx : p x = true
    · have hnone : l.countP p = 0 := List.countP_eq_zero.mpr fun y hy hpy => (List.pairwise_cons.mp h).1 y hy ⟨hx, hpy⟩
      simp [hx, hnone]
    · simpa [hx] using htail

/-- With nothing in flight for it, a connection obtains the filtered scan of the table. -/
theorem FetchedOn.filtered {overlay : Option Overlay} {rows : List Row} (hpk : conn.pkConstraint = none) (hu : KeyUnique pk R)
    (hcov : SortSpec.Covers conn.sort pk) (hd : ∀ mc rest, batches req = mc :: rest → DistinctBatch req.constraint mc)
    (hseen : seen conn overlay = {}) (h : FetchedOn pk (same R) overlay conn req rows) : FilteredScan conn req R rows := by
  classical
  obtain ⟨streams, hst, hrows⟩ := h.parts
  obtain ⟨hperm, hrise⟩ := hrows (streams_rising hst fun e st hf => (hf.settled hpk hseen).1.rising)
  have hcount := count_streams (hst.imp fun e st hf => ⟨(hf.settled hpk hseen).1.nodup, (hf.settled hpk hseen).2⟩)
  have hmem : ∀ r, r ∈ rows ↔ r ∈ R ∧ wanted conn req r = true ∧ matchesEach (batches req) r = true := by
    intro r
    have hflat : r ∈ streams.flatten ↔ ∃ e ∈ entries req, r ∈ R ∧ wanted conn e r = true := by
      rw [← List.count_pos_iff, hcount, List.countP_pos_iff]
      simp
    rw [hperm.mem_iff, List.mem_filter, hflat, ← (entries_once hd r).1]
    exact ⟨fun ⟨⟨e, he, hr, hw⟩, ho⟩ => ⟨hr, ⟨e, he, hw⟩, ho⟩, fun ⟨hr, ⟨e, he, hw⟩, ho⟩ => ⟨⟨e, he, hr, hw⟩, ho⟩⟩
  have hnodup : rows.Nodup := by
    rw [hperm.nodup_iff]
    refine List.Nodup.filter _ (List.nodup_iff_count_le_one.mpr fun r => ?_)
    rw [hcount]
    have honce : (entries req).Pairwise fun e e' => ¬ (wanted conn e r = true ∧ wanted conn e' r = true) := (entries_once hd r).2
    refine countP_le_one (honce.imp fun hnot hboth => ?_)
    exact hnot ⟨(of_decide_eq_true hboth.1).2, (of_decide_eq_true hboth.2).2⟩
  refine ⟨hrise.sorted (hnodup.imp_of_mem fun {a b} ha hb hne htie => ?_), hmem⟩
  exact hne (hu a ((hmem a).mp ha).1 b ((hmem b).mp hb).1 (hcov.key_tie (SList.dirCmp_eq_eq.mp htie)))

theorem FilteredScan.unique {rows rows' : List Row} (h : FilteredScan conn req R rows) (h' : FilteredScan conn req R rows') :
    rows = rows' := h.1.ext h'.1 fun r => (h.2 r).trans (h'.2 r).symm

end

/-! ## Batches around a push -/

/-- Before and after a push, and for a connection it has not reached, a batched request is a filtered
    scan. While the change is in flight it is one for a connection that was sent it exactly if the
    change settles in the request of each entry. -/
theorem fetch_multi_exact {s : MemorySource} {R : Set Row} {change : SourceChange Row} (h : s.Ok (same R)) (hq : s.Quiet)
    (hepoch : s.epoch + 1 < 2 ^ 32) (hv : ValidChange s.primaryKey R change) {reads : Reads} (hr : s.ReadsLive reads)
    (strict : Bool) {done ahead : List Nat} (hcand : s.conns.index.pushCandidates change = done ++ ahead) {id : ConnId}
    {conn : Connection} (hlive : s.conns.live id = some conn) (hpk : conn.pkConstraint = none) {req : FetchRequest}
    (hd : ∀ mc rest, batches req = mc :: rest → DistinctBatch req.constraint mc) :
    ∃ before pending post, s.aroundPush change reads strict done id req = some (before, pending, post) ∧
      FilteredScan conn req R before ∧ FilteredScan conn req (applyChange R change) post ∧
      (id.idx ∈ done → conn.output = true →
        (FilteredScan conn req (applyChange R change) pending ↔
          ∀ e ∈ entries req, Settles s.primaryKey conn e (matchesEach (others req)) change)) ∧
      (¬ (id.idx ∈ done ∧ conn.output = true) → FilteredScan conn req R pending) := by
  obtain ⟨before, pending, post, heq, hfb, ⟨epoch, hfp⟩, hcov, hu', hreached, hunreached⟩ :=
    aroundPush_fetched h hq hepoch hv hr strict hcand hlive hpk req
  have hbefore : FilteredScan conn req R before := hfb.filtered hpk h.holds.unique hcov hd rfl
  -- the stamp has no part in what a request asks for
  have hstamped : FilteredScan { conn with lastPushedEpoch := epoch } req (applyChange R change) post :=
    hfp.filtered hpk hu' hcov hd rfl
  have hpost : FilteredScan conn req (applyChange R change) post := hstamped
  refine ⟨before, pending, post, heq, hbefore, hpost, fun hdone hout => ?_, fun hnot => ?_⟩
  · rw [← hreached hdone hout]
    constructor
    · intro hpending
      exact hpending.unique hpost
    · intro hsame
      rw [hsame]
      exact hpost
  · rw [hunreached hnot]
    exact hbefore

/-- The groups 1 and 2, from a row of group 2 on. -/
def twoGroups : FetchRequest :=
  { multiConstraints := [[[(1, .int 1)], [(1, .int 2)]]], start := some ⟨[.int 0, .int 2], .atRow⟩ }

theorem twoGroups_distinct : ∀ mc rest, batches twoGroups = mc :: rest → DistinctBatch twoGroups.constraint mc := by
  intro mc rest hb
  obtain ⟨rfl, -⟩ := List.cons.inj (show [[(1, Value.int 1)], [(1, .int 2)]] :: [] = mc :: rest from hb)
  refine ⟨⟨[1], by decide, ?_⟩, ?_, fun _ _ b hbase => by cases hbase⟩
  · intro c hc
    rcases List.mem_cons.mp hc with rfl | hc
    · exact List.Perm.refl _
    · obtain rfl := List.mem_singleton.mp hc
      exact List.Perm.refl _
  · refine List.pairwise_cons.mpr ⟨fun c hc => ?_, List.pairwise_singleton _ _⟩
    obtain rfl := List.mem_singleton.mp hc
    exact ⟨(1, .int 1), List.mem_singleton.mpr rfl, (1, .int 2), List.mem_singleton.mpr rfl, rfl, by decide +kernel⟩

/-- Two rows `(id, group)` of group 1, one wired connection ordered by `id`. -/
theorem two_rows_ok : ∃ s0 s, tryNew 2 [0] [[.int 1, .int 1], [.int 5, .int 1]] = .ok s0 ∧
    [Op.connect (some [(0, true)]) none [], .setConnOutput ⟨0, 0⟩].foldlM Op.run s0 = some s ∧
    s.Ok (same {r | r ∈ [[Value.int 1, .int 1], [.int 5, .int 1]]}) ∧ s.Quiet ∧ s.epoch = 0 ∧ s.primaryKey = [0] ∧
    s.conns.index.pushCandidates (.edit [.int 5, .int 1] [.int 5, .int 2]) = [0] ∧
    s.conns.live ⟨0, 0⟩ = some { sort := [(0, true)], output := true } := by
  obtain ⟨s0, hnew⟩ : ∃ s0, tryNew 2 [0] [[.int 1, .int 1], [.int 5, .int 1]] = .ok s0 := ⟨_, rfl⟩
  obtain ⟨s, hrun, hok, hkey, hover, hepoch, hconns⟩ := connect_new [(0, true)] [] hnew (by decide +kernel) (by decide)
  refine ⟨s0, s, hnew, hrun, hok, ⟨hover, fun c hc => ?_⟩, hepoch, hkey, ?_, ?_⟩
  · rw [hconns] at hc
    rw [List.mem_singleton.mp hc]
    exact Nat.zero_le _
  · rw [hconns]
    decide
  · rw [hconns]
    rfl

/-- A row moves from group 1 to group 2 while a connection that was sent the change asks for both: it
    obtains the row twice, as it was and as it will be. -/
theorem fetch_multi_shows_both : ∃ s0 s, tryNew 2 [0] [[.int 1, .int 1], [.int 5, .int 1]] = .ok s0 ∧
    [Op.connect (some [(0, true)]) none [], .setConnOutput ⟨0, 0⟩].foldlM Op.run s0 = some s ∧
    s.conns.index.pushCandidates (.edit [.int 5, .int 1] [.int 5, .int 2]) = [0] ∧
    (∀ mc rest, batches twoGroups = mc :: rest → DistinctBatch twoGroups.constraint mc) ∧
    s.aroundPush (.edit [.int 5, .int 1] [.int 5, .int 2]) (fun _ _ => []) true [0] ⟨0, 0⟩ twoGroups =
      some ([[.int 1, .int 1], [.int 5, .int 1]], [[.int 1, .int 1], [.int 5, .int 1], [.int 5, .int 2]],
        [[.int 1, .int 1], [.int 5, .int 2]]) ∧
    ∀ conn T, s.conns.live ⟨0, 0⟩ = some conn →
      ¬ FilteredScan conn twoGroups T [[.int 1, .int 1], [.int 5, .int 1], [.int 5, .int 2]] := by
  obtain ⟨s0, s, hnew, hrun, -, -, -, -, hcand, hlive⟩ := two_rows_ok
  refine ⟨s0, s, hnew, hrun, hcand, twoGroups_distinct, ?_, ?_⟩
  · rw [← Except.ok.inj hnew] at hrun
    rw [← Option.some.inj hrun]
    decide +kernel
  · intro conn T hc hscan
    rw [hlive] at hc
    rw [← Option.some.inj hc] at hscan
    have htie := (SList.sorted_cons.mp (SList.sorted_cons.mp hscan.1).2).1 [.int 5, .int 2] List.mem_cons_self
    exact absurd htie (by decide +kernel)

/-- The same batch without a start row. -/
theorem fetch_multi_exact_edit : ∃ s0 s before pending post, tryNew 2 [0] [[.int 1, .int 1], [.int 5, .int 1]] = .ok s0 ∧
    [Op.connect (some [(0, true)]) none [], .setConnOutput ⟨0, 0⟩].foldlM Op.run s0 = some s ∧
    s.aroundPush (.edit [.int 5, .int 1] [.int 5, .int 2]) (fun _ _ => []) true [0] ⟨0, 0⟩ { twoGroups with start := none } =
      some (before, pending, post) ∧
    FilteredScan { sort := [(0, true)], output := true } { twoGroups with start := none }
      (applyChange {r | r ∈ [[Value.int 1, .int 1], [.int 5, .int 1]]} (.edit [.int 5, .int 1] [.int 5, .int 2])) pending := by
  obtain ⟨s0, s, hnew, hrun, hok, hq, hepoch, hkey, hcand, hlive⟩ := two_rows_ok
  have hv : ValidChange s.primaryKey {r | r ∈ [[Value.int 1, .int 1], [.int 5, .int 1]]} (.edit [.int 5, .int 1] [.int 5, .int 2]) := by
    rw [hkey]
    refine ⟨by simp, ?_⟩
    intro x hx hne
    rcases List.mem_cons.mp hx with rfl | hx
    · decide +kernel
    · exact absurd (List.mem_singleton.mp hx) hne
  have hreads : s.ReadsLive fun _ _ => [] := fun _ _ r hr => by cases hr
  obtain ⟨before, pending, post, heq, -, -, hiff, -⟩ := fetch_multi_exact hok hq (by rw [hepoch]; decide) hv hreads true
    (show s.conns.index.pushCandidates (.edit [.int 5, .int 1] [.int 5, .int 2]) = [0] ++ [] from hcand) hlive rfl
    (show ∀ mc rest, batches { twoGroups with start := none } = mc :: rest → DistinctBatch none mc from twoGroups_distinct)
  refine ⟨s0, s, before, pending, post, hnew, hrun, heq, (hiff List.mem_cons_self rfl).mpr fun e he => ?_⟩
  rw [hkey]
  refine Or.inr ⟨fun _ _ => ?_, fun _ _ => ?_, fun _ _ _ => ?_⟩
  all_goals
    rcases List.mem_cons.mp he with rfl | he
    · rfl
    · obtain rfl := List.mem_singleton.mp he
      rfl

end MemorySource

end Rindle
