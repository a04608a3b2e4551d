/-
  Rindle.Sqlite.TiebreakExact — exactly when a fetch returns the same rows with the tiebreak
  adapter as without it (`rindle-sqlite/src/table_source.rs`, `tiebreak_prefix_len`, `fetch`).

  With the adapter the SELECT is ordered by the prefix, and its start bound is the prefix's,
  inclusive: it keeps every row that ties the start there, and the start gate takes out the
  rows before it. Without, the bound is the whole sort's, and of the rows that tie on the
  prefix SQLite keeps those that one of its groups over the primary key keeps. That is less
  than the gate lets through where the bound names no primary key: its cell is null, below
  every key for the engine and comparable to none for SQLite. `NoTieLost` says that there is
  no such row, `tiebreak_exact` that the two streams are then the same, and only then.
-/

import Rindle.Sqlite.StartExact
import Rindle.Sqlite.Tiebreak

set_option linter.dupNamespace false

namespace Rindle.Sqlite

open Sql

/-! ## Engaging -/

structure TableMeta where
  columns : List ColumnDef
  primaryKey : List Nat
  pkIsRowidAlias : Bool := false
  withoutRowid : Bool := false
  /-- The key columns of every index, under its name. -/
  allIndexCols : List (String × List Nat) := []

/-- The loop of `appended_pk_len`, over the sort from its end. -/
def appendedPkRun (pk : List Nat) : Nat → SortSpec → Nat
  | n, [] => n
  | n, (col, asc) :: order => if asc && decide (n < pk.length) && pk.contains col then appendedPkRun pk (n + 1) order else n

/-- `appended_pk_len`. -/
def appendedPkLen (sort : SortSpec) (pk : List Nat) : Nat := appendedPkRun pk 0 sort.reverse

/-- `leads_with`. -/
def leadsWith (ix cols : List Nat) : Bool := decide (cols.length ≤ ix.length) && ix.take cols.length == cols

/-- `u64` from its decimal text. -/
def parseU64 (text : List Char) : Option Nat :=
  let digits := match text with
    | '+' :: digits => digits
    | digits => digits
  if digits.isEmpty || !digits.all Char.isDigit then none
  else (some (digits.foldl (fun n c => n * 10 + (c.toNat - '0'.toNat)) 0)).filter fun n => decide (n < 2 ^ 64)

/-- `stat1_prefix_run`. -/
def stat1PrefixRun (stat : String) (prefixLen : Nat) : Option Nat := ((stat.toList.splitOn ' ')[prefixLen]?).bind parseU64

def tiebreakMaxEngageRun : Nat := 4096

namespace TableMeta

variable (m : TableMeta)

/-- `tiebreak_prefix_len`. -/
def tiebreakPrefixLen (sort : SortSpec) : Option Nat :=
  let appended := appendedPkLen sort m.primaryKey
  if appended = 0 ∨ sort.length ≤ appended then none
  else
    let prefixLen := sort.length - appended
    if m.pkIsRowidAlias || m.withoutRowid then none
    else if m.allIndexCols.any fun ix => leadsWith ix.2 (sort.map (·.1)) then none
    else if m.allIndexCols.any fun ix => leadsWith ix.2 ((sort.take prefixLen).map (·.1)) then some prefixLen
    else none

/-- `prefix_stream_index`. -/
def prefixStreamIndex (sort : SortSpec) (prefixLen : Nat) : Option String :=
  (m.allIndexCols.find? fun ix => leadsWith ix.2 ((sort.take prefixLen).map (·.1))).map (·.1)

/-- `prefix_run_within_cap`; `stats` is the `stat` column of `sqlite_stat1` for an index of the table. -/
def prefixRunWithinCap (stats : String → Option String) (sort : SortSpec) (prefixLen : Nat) : Bool :=
  match m.prefixStreamIndex sort prefixLen with
  | none => true
  | some name =>
    match (stats name).bind fun stat => stat1PrefixRun stat prefixLen with
    | some avgRun => decide (avgRun ≤ tiebreakMaxEngageRun)
    | none => true

/-- `tiebreak_engage`. -/
def tiebreakEngage (stats : String → Option String) (req : FetchRequest) (sort : SortSpec) (unordered : Bool) :
    Option Nat :=
  if unordered || req.constraint.isSome || req.hasMulti then none
  else (m.tiebreakPrefixLen sort).filter fun prefixLen => m.prefixRunWithinCap stats sort prefixLen

/-- Engaged, the prefix is not empty. -/
theorem tiebreakEngage_pos {m : TableMeta} {stats : String → Option String} {req : FetchRequest} {sort : SortSpec} {unordered : Bool}
    {n : Nat} (h : m.tiebreakEngage stats req sort unordered = some n) : 0 < n := by
  unfold tiebreakEngage at h
  split at h
  · cases h
  have hlen := (Option.filter_eq_some_iff.mp h).1
  unfold tiebreakPrefixLen at hlen
  simp only at hlen
  split at hlen
  · cases hlen
  · split at hlen
    · cases hlen
    · split at hlen
      · cases hlen
      · split at hlen
        · obtain rfl := Option.some.inj hlen
          omega
        · cases hlen

end TableMeta

/-! ## A fetch of an ordered connection -/

/-- What the SELECT is ordered by. -/
def sqlOrder (tiebreak : Option Nat) (sort : SortSpec) : SortSpec :=
  match tiebreak with
  | some n => sort.take n
  | none => sort

/-- The start bound of the SELECT. -/
def relaxedStart (tiebreak : Option Nat) (start : Option Start) : Option Start :=
  if tiebreak.isSome then start.map fun s => { s with basis := .atRow } else start

/-- `fetch` from the leaf on. -/
def fetchOver (conn : Connection) (req : FetchRequest) (overlay : Option Overlay) (tiebreak : Option Nat) (leaf : List Row) :
    List Row :=
  let stream := match tiebreak with
    | some prefixLen => tiebreakRows leaf conn.sort prefixLen req.reverse
    | none => leaf
  generateWithStart
    (generateWithOverlay (req.start.map (·.row)) stream req.constraint overlay conn.lastPushedEpoch conn.sort req.reverse
      (conn.filters.map fun f => f.predicate) req.multiConstraints)
    req.start conn.sort req.reverse

/-- The start clause keeps the stored row. -/
def StartKeeps (display : F64 → List UInt8) (start : Option Start) (reverse : Bool) (columns : List ColumnDef) (order : SortSpec)
    (x : List SqlValue) : Prop :=
  ∀ s, start = some s → (gatherStartConstraints display s reverse columns order).Holds (storedCell x)

/-- An answer of SQLite to the SELECT: the rows of the table that its start clause and its other terms
    (`keep`) keep, in the order asked for. -/
structure Selected (display : F64 → List UInt8) (start : Option Start) (reverse : Bool) (columns : List ColumnDef) (order : SortSpec)
    (keep : List SqlValue → Bool) (table ans : List (List SqlValue)) : Prop where
  mem : ∀ x, x ∈ ans ↔ x ∈ table ∧ StartKeeps display start reverse columns order x ∧ keep x = true
  nodup : ans.Nodup
  ordered : SList.Rising (fun x y => orderBy reverse order (storedCell x) (storedCell y)) ans

/-- The overlay as the fetch narrows it. -/
def shownOverlays (conn : Connection) (req : FetchRequest) (overlay : Option Overlay) : Overlays :=
  computeOverlays (req.start.map (·.row)) req.constraint (overlay.filter fun o => decide (o.epoch ≤ conn.lastPushedEpoch)) conn.sort
    req.reverse (conn.filters.map fun f => f.predicate) req.multiConstraints

/-- No row that ties the start on the prefix and is to be returned is in no group of the whole clause. -/
def NoTieLost (display : F64 → List UInt8) (columns : List ColumnDef) (conn : Connection) (req : FetchRequest)
    (overlay : Option Overlay) (prefixLen : Nat) (keep : List SqlValue → Bool) (table : List (List SqlValue)) : Prop :=
  ∀ start, req.start = some start → ∀ x ∈ table, keep x = true →
    (∀ p ∈ conn.sort.take prefixLen, (equalityTerm display start columns p).Holds (storedCell x)) →
    startReached start conn.sort req.reverse (readRow columns x) = true →
    ((shownOverlays conn req overlay).remove.all fun r => compareRowsRev conn.sort req.reverse r (readRow columns x) != .eq) = true →
    Lowered display start req.reverse columns (storedCell x) conn.sort

/-! ## The splice in front of the start gate -/

section
variable {α : Type} {cmp : α → α → Ordering}

/-- The added element behind those it does not sort before. -/
@[grind] def insertAfter (cmp : α → α → Ordering) (add : Option α) (l : List α) : List α :=
  match add with
  | none => l
  | some a => (l.filter fun x => cmp a x != .lt) ++ a :: l.filter fun x => cmp a x == .lt

variable [Std.TransCmp cmp]

omit [Std.TransCmp cmp] in
theorem insertAfter_all {a : α} {l : List α} (h : ∀ x ∈ l, cmp a x = .lt) : insertAfter cmp (some a) l = a :: l := by
  have hnone : (l.filter fun x => cmp a x != .lt) = [] := List.filter_eq_nil_iff.mpr fun x hx => by simp [h x hx]
  have hall : (l.filter fun x => cmp a x == .lt) = l := List.filter_eq_self.mpr fun x hx => by simp [h x hx]
  rw [insertAfter, hnone, hall, List.nil_append]

/-- On rows in order a splice puts the added row there. -/
theorem overlaySplice_eq {l : List α} (hl : SList.Rising cmp l) (add remove : Option α) :
    overlaySplice cmp add remove l = insertAfter cmp add (dropRemoved cmp remove l) := by
  induction l generalizing add remove with
  | nil => cases add <;> cases remove <;> simp [insertAfter, dropRemoved, SList.erase]
  | cons x l ih =>
    obtain ⟨hx, hl⟩ := SList.rising_cons.mp hl
    rw [overlaySplice, dropRemoved_cons]
    cases add with
    | none =>
      simp only [Option.any_none, Bool.false_eq_true, if_false]
      split
      · exact overlaySplice_none l
      · exact congrArg _ (ih hl none remove)
    | some a =>
      by_cases ha : cmp a x = .lt
      · have hbehind : ∀ b ∈ l, cmp a b = .lt := by
          intro b hb
          cases hc : cmp a b with
          | lt => rfl
          | eq =>
            rw [Std.TransCmp.congr_left hc] at ha
            exact absurd (SList.gt_iff_lt.mpr ha) (hx b hb)
          | gt => exact absurd (SList.gt_iff_lt.mpr (SList.lt_trans (SList.gt_iff_lt.mp hc) ha)) (hx b hb)
        simp only [Option.any_some, ha, beq_self_eq_true, if_true, Option.toList_some, List.singleton_append]
        split
        · rw [insertAfter_all hbehind, overlaySplice_none]
        · rw [insertAfter_all, ih hl none remove]
          · rfl
          · intro b hb
            rcases List.mem_cons.mp hb with rfl | hb
            · exact ha
            · exact hbehind b ((dropRemoved_sublist remove l).subset hb)
      · have hfalse : (cmp a x == .lt) = false := by simpa using ha
        simp only [Option.any_some, hfalse, Bool.false_eq_true, if_false]
        split
        · exact ih hl (some a) none
        · rw [ih hl (some a) remove]
          simp [insertAfter, hfalse, bne]

omit [Std.TransCmp cmp] in
theorem filter_insertAfter (p : α → Bool) (add : Option α) (l : List α) :
    (insertAfter cmp add l).filter p = match add with
      | none => l.filter p
      | some a => ((l.filter p).filter fun x => cmp a x != .lt) ++ (if p a then [a] else []) ++
          (l.filter p).filter fun x => cmp a x == .lt := by
  have hcomm : ∀ q : α → Bool, (l.filter q).filter p = (l.filter p).filter q := by
    intro q
    rw [List.filter_filter, List.filter_filter]
    exact List.filter_congr fun x _ => Bool.and_comm _ _
  cases add with
  | none => rfl
  | some a =>
    simp only [insertAfter, List.filter_append, List.filter_cons, hcomm]
    split <;> simp

/-- Behind a gate two splices are the same exactly when the scans without the removed row are. -/
theorem gated_splice_iff {l m : List α} (hl : SList.Rising cmp l) (hm : SList.Rising cmp m) (p : α → Bool) (add remove : Option α)
    (hext : ((dropRemoved cmp remove l).filter p).Perm ((dropRemoved cmp remove m).filter p) →
      (dropRemoved cmp remove l).filter p = (dropRemoved cmp remove m).filter p) :
    (overlaySplice cmp add remove l).filter p = (overlaySplice cmp add remove m).filter p ↔
      (dropRemoved cmp remove l).filter p = (dropRemoved cmp remove m).filter p := by
  constructor
  · intro h
    refine hext ?_
    have hpl := (@overlaySplice_perm α cmp _ add remove l).filter p
    have hpm := (@overlaySplice_perm α cmp _ add remove m).filter p
    rw [List.filter_append] at hpl hpm
    exact (List.perm_append_left_iff _).mp (hpl.symm.trans ((List.Perm.of_eq h).trans hpm))
  · intro h
    rw [overlaySplice_eq hl, overlaySplice_eq hm, filter_insertAfter, filter_insertAfter, h]

end

/-! ## The rows of the two SELECTs -/

section
variable {display : F64 → List UInt8} {columns : List ColumnDef} {conn : Connection} {req : FetchRequest}

/-- The inclusive prefix clause keeps what the whole clause keeps, and every row that ties on the prefix. -/
theorem lowered_atRow {start : Start} {reverse : Bool} {pre suf : SortSpec} {row : Nat → SqlValue} :
    Lowered display { start with basis := .atRow } reverse columns row pre ↔
      Lowered display start reverse columns row (pre ++ suf) ∨ ∀ p ∈ pre, (equalityTerm display start columns p).Holds row := by
  induction pre with
  | nil => simp [Lowered]
  | cons p pre ih =>
    rw [Lowered, ih, List.cons_append, Lowered, List.forall_mem_cons]
    show (rangeTerm display start reverse columns p).Holds row ∨ (equalityTerm display start columns p).Holds row ∧ _ ↔ _
    tauto

/-- The clause of a non-empty sort: its leading bound, which only reads the first column, and its groups. -/
theorem gatherStartConstraints_holds {start : Start} {reverse : Bool} {p : Nat × Bool} {order : SortSpec} {row : Nat → SqlValue} :
    (gatherStartConstraints display start reverse columns (p :: order)).Holds row ↔
      ((column columns p.1).optional = false →
        (Expr.cmp (if p.2 != reverse then .ge else .le) (.col p.1) (.param (startParam display start columns p.1))).Holds row) ∧
      Lowered display start reverse columns row (p :: order) := by
  rw [gatherStartConstraints, ← startGroups_lowered]
  cases (column columns p.1).optional <;> simp

/-- A tie meets the leading bound. -/
theorem leading_of_tie {start : Start} {reverse : Bool} {p : Nat × Bool} {row : Nat → SqlValue}
    (h : (equalityTerm display start columns p).Holds row) (hopt : (column columns p.1).optional = false) :
    (Expr.cmp (if p.2 != reverse then .ge else .le) (.col p.1) (.param (startParam display start columns p.1))).Holds row := by
  rw [equalityTerm, nullableAwareEquality, hopt, if_neg Bool.false_ne_true, Expr.holds_cmp] at h
  obtain ⟨hl, hr, htest⟩ := h
  refine Expr.holds_cmp.mpr ⟨hl, hr, ?_⟩
  have heq : SqlValue.cmp ((Operand.col p.1).eval row) ((Operand.param (startParam display start columns p.1)).eval row) = .eq := by
    simpa [CmpOp.test] using htest
  rw [heq]
  cases p.2 != reverse <;> rfl

/-- So a row that ties on a prefix is kept by the clause if it is in a group. -/
theorem clause_iff_of_tie {start : Start} {reverse : Bool} {sort : SortSpec} {n : Nat} (hn : 0 < n) {row : Nat → SqlValue}
    (htie : ∀ p ∈ sort.take n, (equalityTerm display start columns p).Holds row) :
    (gatherStartConstraints display start reverse columns sort).Holds row ↔ Lowered display start reverse columns row sort := by
  cases sort with
  | nil => exact startGroups_lowered
  | cons p sort =>
    obtain ⟨n, rfl⟩ := Nat.exists_eq_succ_of_ne_zero (by omega : n ≠ 0)
    rw [List.take_succ_cons, List.forall_mem_cons] at htie
    rw [gatherStartConstraints_holds]
    exact and_iff_right fun hopt => leading_of_tie htie.1 hopt

variable {start : Option Start} {keep : List SqlValue → Bool}

/-- What the engaged SELECT keeps and the bypassed one does not. -/
theorem startKeeps_relaxed {reverse : Bool} {sort : SortSpec} {n : Nat} (hn : 0 < n) {x : List SqlValue} :
    StartKeeps display (relaxedStart (some n) start) reverse columns (sqlOrder (some n) sort) x ↔
      StartKeeps display start reverse columns sort x ∨
        ∀ s, start = some s → ∀ p ∈ sort.take n, (equalityTerm display s columns p).Holds (storedCell x) := by
  cases start with
  | none => simp [StartKeeps, relaxedStart]
  | some s =>
    cases sort with
    | nil => simp [StartKeeps, relaxedStart, sqlOrder, gatherStartConstraints, startGroups_lowered, Lowered]
    | cons p sort =>
      obtain ⟨n, rfl⟩ := Nat.exists_eq_succ_of_ne_zero (by omega : n ≠ 0)
      have hsplit : p :: sort = (p :: sort.take n) ++ sort.drop n := by
        rw [List.cons_append, List.take_append_drop]
      have hlow := @lowered_atRow display columns s reverse (p :: sort.take n) (sort.drop n) (storedCell x)
      rw [← hsplit] at hlow
      simp only [StartKeeps, relaxedStart, Option.isSome_some, if_true, Option.map_some, Option.some.injEq, forall_eq', sqlOrder,
        List.take_succ_cons, gatherStartConstraints_holds, hlow]
      show (((column columns p.1).optional = false →
        (Expr.cmp (if p.2 != reverse then .ge else .le) (.col p.1) (.param (startParam display s columns p.1))).Holds
          (storedCell x)) ∧ _) ↔ _
      constructor
      · intro h
        rcases h.2 with hall | htie
        · exact Or.inl ⟨h.1, hall⟩
        · exact Or.inr htie
      · intro h
        rcases h with h | htie
        · exact ⟨h.1, Or.inl h.2⟩
        · exact ⟨leading_of_tie (htie p List.mem_cons_self), Or.inr htie⟩

theorem generateWithStart_filter {rows : List Row} (hrise : SList.Rising (compareRowsRev conn.sort req.reverse) rows) :
    generateWithStart rows req.start conn.sort req.reverse = rows.filter (MemorySource.pastStart conn req) := by
  rw [← @SList.dropWhile_eq_filter _ _ (MemorySource.pastStart conn req) (fun _ _ => MemorySource.pastStart_mono) _ hrise]
  unfold generateWithStart MemorySource.pastStart
  cases req.start with
  | none => cases rows <;> simp [List.dropWhile]
  | some st => rfl

/-- From a stream in order on, a fetch is a splice behind the start gate. -/
theorem fetchOver_eq {overlay : Option Overlay} {tiebreak : Option Nat} {leaf stream : List Row}
    (hs : stream = match tiebreak with
      | some prefixLen => tiebreakRows leaf conn.sort prefixLen req.reverse
      | none => leaf)
    (hrise : SList.Rising (compareRowsRev conn.sort req.reverse) stream) :
    fetchOver conn req overlay tiebreak leaf =
      (overlaySplice (compareRowsRev conn.sort req.reverse) (shownOverlays conn req overlay).add
        (shownOverlays conn req overlay).remove stream).filter (MemorySource.pastStart conn req) := by
  have hsplice : generateWithOverlayInner stream (shownOverlays conn req overlay) conn.sort req.reverse =
      overlaySplice (compareRowsRev conn.sort req.reverse) (shownOverlays conn req overlay).add
        (shownOverlays conn req overlay).remove stream := by
    unfold generateWithOverlayInner Overlays.isEmpty
    generalize shownOverlays conn req overlay = o
    obtain ⟨add, remove⟩ := o
    cases add <;> cases remove <;> simp
  unfold fetchOver generateWithOverlay
  rw [← hs]
  show generateWithStart (generateWithOverlayInner stream (shownOverlays conn req overlay) conn.sort req.reverse) _ _ _ = _
  rw [hsplice, generateWithStart_filter (overlaySplice_rising hrise _ _)]

/-- The rows of an answer are in the engine's order. -/
theorem Selected.rising {reverse : Bool} {order : SortSpec}
    {table ans : List (List SqlValue)} (h : Selected display start reverse columns order keep table ans)
    (hstored : ∀ x ∈ table, StoredRow columns x) (hwithin : ∀ p ∈ order, p.1 < columns.length) :
    SList.Rising (compareRowsRev order reverse) (ans.map (readRow columns)) := by
  refine List.pairwise_map.mpr (List.Pairwise.imp_of_mem (fun {a b} ha hb hab => ?_) h.ordered)
  rw [← orderBy_eq (hstored a ((h.mem a).mp ha).1) (hstored b ((h.mem b).mp hb).1) hwithin]
  exact hab

/-- Rows of a table that tie on a sort with the primary key are one row. -/
theorem answer_sorted {reverse : Bool} {order sort : SortSpec} {pk : List Nat}
    {table ans : List (List SqlValue)} {stream : List Row} (h : Selected display start reverse columns order keep table ans)
    (hcov : SortSpec.Covers sort pk) (hkeys : ∀ x ∈ table, ∀ y ∈ table, keyCmp pk (readRow columns x)
      (readRow columns y) = .eq → x = y)
    (hperm : stream.Perm (ans.map (readRow columns))) (hrise : SList.Rising (compareRowsRev sort reverse) stream) :
    SList.Sorted (compareRowsRev sort reverse) stream := by
  have htable : ∀ x ∈ ans, x ∈ table := fun x hx => ((h.mem x).mp hx).1
  refine hrise.sorted ?_
  have hsymm : ∀ {a b : Row}, compareRowsRev sort reverse a b ≠ .eq → compareRowsRev sort reverse b a ≠ .eq :=
    fun {a b} hab hba => hab (SList.eq_comm.mp hba)
  refine (hperm.pairwise_iff hsymm).mpr (List.pairwise_map.mpr (List.Pairwise.imp_of_mem (fun {a b} ha hb hab => ?_) h.nodup))
  intro htie
  exact hab (hkeys a (htable a ha) b (htable b hb) (hcov.key_tie (SList.dirCmp_eq_eq.mp htie)))

/-! ## Engaged and bypassed -/

/-- The adapter yields the rows it is given, each once, in the order of the whole sort; and a fetch that
    engages it returns what it would return bypassed exactly if no row that ties the start on the prefix is
    lost to the whole clause. -/
theorem tiebreak_exact (display : F64 → List UInt8) (m : TableMeta) (stats : String → Option String) (conn : Connection)
    (req : FetchRequest) (overlay : Option Overlay) (keep : List SqlValue → Bool) (table engaged bypassed : List (List SqlValue))
    (n : Nat) (hengage : m.tiebreakEngage stats req conn.sort conn.unordered = some n)
    (hwithin : ∀ p ∈ conn.sort, p.1 < m.columns.length) (hcov : SortSpec.Covers conn.sort m.primaryKey)
    (hstored : ∀ x ∈ table, StoredRow m.columns x)
    (hkeys : ∀ x ∈ table, ∀ y ∈ table, keyCmp m.primaryKey (readRow m.columns x) (readRow m.columns y) = .eq → x = y)
    (he : Selected display (relaxedStart (some n) req.start) req.reverse m.columns (sqlOrder (some n) conn.sort) keep table engaged)
    (hb : Selected display (relaxedStart none req.start) req.reverse m.columns (sqlOrder none conn.sort) keep table bypassed) :
    (∀ (rows : List Row) (sort : SortSpec) (k : Nat) (reverse : Bool),
      SList.Rising (compareRowsRev (sort.take k) reverse) rows →
        (tiebreakRows rows sort k reverse).Perm rows ∧ SList.Rising (compareRowsRev sort reverse) (tiebreakRows rows sort k reverse)) ∧
    (fetchOver conn req overlay (some n) (engaged.map (readRow m.columns)) =
        fetchOver conn req overlay none (bypassed.map (readRow m.columns)) ↔
      NoTieLost display m.columns conn req overlay n keep table) := by
  refine ⟨fun rows sort k reverse h => tiebreakRows_sorted h, ?_⟩
  have hn := TableMeta.tiebreakEngage_pos hengage
  -- the two streams in front of the splice
  have hprefix : SList.Rising (compareRowsRev (conn.sort.take n) req.reverse) (engaged.map (readRow m.columns)) :=
    he.rising hstored fun p hp => hwithin p (List.mem_of_mem_take hp)
  obtain ⟨hperm, hriseE⟩ := tiebreakRows_sorted hprefix
  have hriseB : SList.Rising (compareRowsRev conn.sort req.reverse) (bypassed.map (readRow m.columns)) := hb.rising hstored hwithin
  have hsortE := answer_sorted he hcov hkeys hperm hriseE
  have hsortB := answer_sorted hb hcov hkeys (List.Perm.refl _) hriseB
  rw [fetchOver_eq rfl hriseE, fetchOver_eq rfl hriseB]
  have hsortedDrop : ∀ {l : List Row}, SList.Sorted (compareRowsRev conn.sort req.reverse) l →
      SList.Sorted (compareRowsRev conn.sort req.reverse)
        ((dropRemoved (compareRowsRev conn.sort req.reverse) (shownOverlays conn req overlay).remove l).filter
          (MemorySource.pastStart conn req)) :=
    fun h => (h.sublist (dropRemoved_sublist _ _)).sublist List.filter_sublist
  rw [gated_splice_iff hriseE hriseB _ _ _ fun hp => (hsortedDrop hsortE).ext (hsortedDrop hsortB) fun r => hp.mem_iff]
  -- what is left of each, row by row
  have hmem : ∀ {l : List Row}, SList.Sorted (compareRowsRev conn.sort req.reverse) l → ∀ r,
      r ∈ (dropRemoved (compareRowsRev conn.sort req.reverse) (shownOverlays conn req overlay).remove l).filter
        (MemorySource.pastStart conn req) ↔
      r ∈ l ∧ ((shownOverlays conn req overlay).remove.all fun m => compareRowsRev conn.sort req.reverse m r != .eq) = true ∧
        MemorySource.pastStart conn req r = true := by
    intro l hl r
    rw [List.mem_filter]
    cases (shownOverlays conn req overlay).remove with
    | none => simp [dropRemoved]
    | some m =>
      rw [dropRemoved, SList.mem_erase hl]
      rw [Option.all_some, bne_iff_ne, Ne, Ne, @SList.eq_comm _ (compareRowsRev conn.sort req.reverse) _ r m, and_assoc]
  have hread : ∀ {ans : List (List SqlValue)} {l : List Row}, (∀ y ∈ ans, y ∈ table) → l.Perm (ans.map (readRow m.columns)) →
      ∀ x ∈ table, (readRow m.columns x ∈ l ↔ x ∈ ans) := by
    intro ans l hans hl x hx
    rw [hl.mem_iff, List.mem_map]
    constructor
    · intro h
      obtain ⟨y, hy, heq⟩ := h
      exact hkeys y (hans y hy) x hx (heq ▸ Std.ReflCmp.compare_self) ▸ hy
    · exact fun h => ⟨x, h, rfl⟩
  have hinE := hread (fun y hy => ((he.mem y).mp hy).1) hperm
  have hinB := hread (fun y hy => ((hb.mem y).mp hy).1) (List.Perm.refl _)
  constructor
  · intro heq start hstart x hx hkeep htie hreach hrem
    have hxe : x ∈ engaged := (he.mem x).mpr ⟨hx, (startKeeps_relaxed hn).mpr (Or.inr fun s hs => by
      obtain rfl := Option.some.inj (hstart.symm.trans hs)
      exact htie), hkeep⟩
    have hpast : MemorySource.pastStart conn req (readRow m.columns x) = true := by
      simp only [MemorySource.pastStart, hstart, Option.all_some]
      exact hreach
    have hmemE := (hmem hsortE _).mpr ⟨(hinE x hx).mpr hxe, hrem, hpast⟩
    rw [heq] at hmemE
    have hxb := (hinB x hx).mp ((hmem hsortB _).mp hmemE).1
    exact (clause_iff_of_tie hn htie).mp (((hb.mem x).mp hxb).2.1 start hstart)
  · intro hno
    refine (hsortedDrop hsortE).ext (hsortedDrop hsortB) fun r => ?_
    rw [hmem hsortE, hmem hsortB]
    refine and_congr_left fun h => ?_
    constructor
    · intro hr
      obtain ⟨x, hx, rfl⟩ := List.mem_map.mp (hperm.mem_iff.mp hr)
      obtain ⟨hxt, hkeeps, hkeep⟩ := (he.mem x).mp hx
      refine (hinB x hxt).mpr ((hb.mem x).mpr ⟨hxt, ?_, hkeep⟩)
      rcases (startKeeps_relaxed hn).mp hkeeps with hall | htie
      · exact hall
      · intro start hstart
        have hreach : startReached start conn.sort req.reverse (readRow m.columns x) = true := by
          have := h.2
          simp only [MemorySource.pastStart, (show req.start = some start from hstart), Option.all_some] at this
          exact this
        exact (clause_iff_of_tie hn (htie start hstart)).mpr (hno start hstart x hxt hkeep (htie start hstart) hreach h.1)
    · intro hr
      obtain ⟨x, hx, rfl⟩ := List.mem_map.mp hr
      obtain ⟨hxt, hkeeps, hkeep⟩ := (hb.mem x).mp hx
      exact (hinE x hxt).mpr ((he.mem x).mpr ⟨hxt, (startKeeps_relaxed hn).mpr (Or.inl hkeeps), hkeep⟩)

/-- Where the whole clause loses no row at all, in particular for a start row taken from the table, the two
    fetches are the same. -/
theorem noTieLost_of_lowered {overlay : Option Overlay} {n : Nat} {table : List (List SqlValue)}
    (hstored : ∀ x ∈ table, StoredRow columns x)
    (hl : ∀ s, req.start = some s → StartOf columns s conn.sort ∧ StartLowered s req.reverse columns conn.sort) :
    NoTieLost display columns conn req overlay n keep table := by
  intro start hstart x hx _ _ hreach _
  obtain ⟨ho, hlow⟩ := hl start hstart
  exact lowered_of_reached (hstored x hx) ho hlow hreach

end

/-! ## A page of issues -/

/-- `issues(id, created)` with an index on `created`. -/
def issueMeta : TableMeta := { columns := issueColumns, primaryKey := [0], allIndexCols := [("issues_created", [1])] }

def issueConn : Connection := { sort := [(1, true), (0, true)] }

/-- The issues from a bound on, as it is lowered. -/
def issuesFrom (row : Row) : FetchRequest := { start := some ⟨row, .atRow⟩ }

/-- The bound `created = 5` leaves the key null: engaged, the fetch returns the row `("a", 5)`, bypassed
    it does not. -/
theorem bound_without_key_differs :
    lowerStart createdBound issueSchema = .ok ⟨[.null, .int 5], .atRow⟩ ∧
      issueMeta.tiebreakEngage (fun _ => none) (issuesFrom [.null, .int 5]) issueConn.sort issueConn.unordered = some 1 ∧
      StoredRow issueColumns [.text [97], .int 5] ∧
      Selected (fun _ => []) (relaxedStart (some 1) (issuesFrom [.null, .int 5]).start) false issueColumns
        (sqlOrder (some 1) issueConn.sort) (fun _ => true) [[.text [97], .int 5]] [[.text [97], .int 5]] ∧
      Selected (fun _ => []) (relaxedStart none (issuesFrom [.null, .int 5]).start) false issueColumns
        (sqlOrder none issueConn.sort) (fun _ => true) [[.text [97], .int 5]] [] ∧
      fetchOver issueConn (issuesFrom [.null, .int 5]) none (some 1) ([[.text [97], .int 5]].map (readRow issueColumns)) =
        [readRow issueColumns [.text [97], .int 5]] ∧
      fetchOver issueConn (issuesFrom [.null, .int 5]) none none (([] : List (List SqlValue)).map (readRow issueColumns)) = [] := by
  refine ⟨rfl, by decide, by decide +kernel, ⟨?_, by decide, List.pairwise_singleton _ _⟩, ⟨?_, List.nodup_nil, List.Pairwise.nil⟩,
    by decide +kernel, rfl⟩
  · intro x
    have hholds : (gatherStartConstraints (fun _ => []) ⟨[.null, .int 5], .atRow⟩ false issueColumns [(1, true)]).Holds
        (storedCell [.text [97], .int 5]) := by decide +kernel
    constructor
    · intro hx
      obtain rfl := List.mem_singleton.mp hx
      refine ⟨hx, fun s hs => ?_, rfl⟩
      obtain rfl := Option.some.inj hs
      exact hholds
    · exact fun h => h.1
  · intro x
    have hlost : ¬ (gatherStartConstraints (fun _ => []) ⟨[.null, .int 5], .atRow⟩ false issueColumns [(1, true), (0, true)]).Holds
        (storedCell [.text [97], .int 5]) := by decide +kernel
    constructor
    · intro hx
      cases hx
    · intro h
      obtain rfl := List.mem_singleton.mp h.1
      exact absurd (h.2.1 _ rfl) hlost

/-- The bound `created = 5, id = "a"` names the key. -/
theorem tiebreak_exact_keyed :
    fetchOver issueConn (issuesFrom [.str [97], .int 5]) none (some 1)
        ([[.text [98], .int 5], [.text [97], .int 5]].map (readRow issueColumns)) =
      fetchOver issueConn (issuesFrom [.str [97], .int 5]) none none
        ([[.text [97], .int 5], [.text [98], .int 5]].map (readRow issueColumns)) := by
  have hstored : ∀ x ∈ [[SqlValue.text [97], .int 5], [.text [98], .int 5]], StoredRow issueColumns x := by decide +kernel
  have hselected : ∀ (order : SortSpec) (ans : List (List SqlValue)),
      (∀ x ∈ ans, x ∈ [[SqlValue.text [97], .int 5], [.text [98], .int 5]]) →
      (∀ x ∈ [[SqlValue.text [97], .int 5], [.text [98], .int 5]], x ∈ ans ∧
        (gatherStartConstraints (fun _ => []) ⟨[.str [97], .int 5], .atRow⟩ false issueColumns order).Holds (storedCell x)) →
      ans.Nodup → SList.Rising (fun x y => orderBy false order (storedCell x) (storedCell y)) ans →
      Selected (fun _ => []) (some ⟨[.str [97], .int 5], .atRow⟩) false issueColumns order (fun _ => true)
        [[SqlValue.text [97], .int 5], [.text [98], .int 5]] ans := by
    intro order ans hsub hall hnodup hrise
    refine ⟨fun x => ⟨fun hx => ⟨hsub x hx, fun s hs => ?_, rfl⟩, fun h => (hall x h.1).1⟩, hnodup, hrise⟩
    obtain rfl := Option.some.inj hs
    exact (hall x (hsub x hx)).2
  refine ((tiebreak_exact (fun _ => []) issueMeta (fun _ => none) issueConn (issuesFrom [.str [97], .int 5]) none (fun _ => true)
    [[.text [97], .int 5], [.text [98], .int 5]] [[.text [98], .int 5], [.text [97], .int 5]] [[.text [97], .int 5],
      [.text [98], .int 5]] 1
    (by decide) (by decide) (orderingIncludesPk_iff.mp rfl) hstored (by decide +kernel) ?_ ?_).2).mpr (noTieLost_of_lowered hstored ?_)
  · refine hselected [(1, true)] _ (by decide) (by decide +kernel) (by decide) ?_
    unfold SList.Rising
    decide +kernel
  · refine hselected [(1, true), (0, true)] _ (by decide) (by decide +kernel) (by decide) ?_
    unfold SList.Rising
    decide +kernel
  · intro s hs
    obtain rfl := Option.some.inj hs
    refine ⟨⟨by decide, ?_⟩, ?_⟩
    · intro p hp
      simp only [issueConn, List.mem_cons, List.not_mem_nil, or_false] at hp
      rcases hp with rfl | rfl
      · exact Or.inr ⟨rfl, by decide⟩
      · exact Or.inr ⟨rfl, by decide⟩
    · intro _ _
      exact trivial

end Rindle.Sqlite
