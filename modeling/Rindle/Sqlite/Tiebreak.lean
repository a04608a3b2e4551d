/-
  Rindle.Sqlite.Tiebreak — the in-engine sort tiebreak (`rindle-sqlite/src/tiebreak.rs`).

  SQLite is asked for the order of the user's columns alone, which an index can serve. The
  adapter cuts its answer into the runs that tie on those columns and sorts each run by the
  whole sort. A run ends at the first row that does not tie its first one; that row is read
  already and waits in `peeked`. An error of the leaf is parked and ends the stream.

  `tiebreakRows_sorted`: the rows that arrive come out, each once, in the order of the whole sort.
-/

import Rindle.Sqlite.Start

set_option linter.dupNamespace false

namespace Rindle.Sqlite

/-! ## The adapter -/

/-- What moves in a `TiebreakStream`; the sort, the length of its prefix and the direction are fixed. -/
structure TiebreakStream (ε : Type) where
  inner : List (Except ε Row)
  run : List Row := []
  pos : Nat := 0
  peeked : Option Row := none
  done : Bool := false
  errorSink : Option ε := none

namespace TiebreakStream

variable {ε : Type}

variable (s : TiebreakStream ε)

def pull : Option Row × TiebreakStream ε :=
  if s.done then (none, s)
  else
    match s.inner with
    | [] => (none, { s with done := true })
    | .ok row :: inner => (some row, { s with inner })
    | .error err :: inner => (none, { s with inner, errorSink := some err, done := true })

section
variable (sort : SortSpec) (prefixLen : Nat) (reverse : Bool)

/-- The rows tie on the prefix; the direction does not matter. -/
def tiesPrefix (seed cand : Row) : Bool := rowCmp (sort.take prefixLen) seed cand == .eq

/-- The loop of `refill`. -/
def gather : Nat → TiebreakStream ε → TiebreakStream ε
  | 0, s => s
  | fuel + 1, s =>
    match s.pull with
    | (none, s) => s
    | (some cand, s) =>
      if s.run.head?.any fun seed => tiesPrefix sort prefixLen seed cand then gather fuel { s with run := s.run ++ [cand] }
      else { s with peeked := some cand }

def sortRun (run : List Row) : List Row := run.insertionSort fun a b => compareRowsRev sort reverse a b ≠ .gt

def refill (s : TiebreakStream ε) : TiebreakStream ε :=
  let s := { s with run := [], pos := 0 }
  let (seed, s) := match s.peeked with
    | some row => (some row, { s with peeked := none })
    | none => s.pull
  match seed with
  | none => s
  | some seed =>
    let s := gather sort prefixLen (s.inner.length + 1) { s with run := [seed] }
    { s with run := sortRun sort reverse s.run }

def nextRow (s : TiebreakStream ε) : Option Row × TiebreakStream ε :=
  let s := if s.pos = s.run.length then refill sort prefixLen reverse s else s
  match s.run[s.pos]? with
  | none => (none, s)
  | some row => (some row, { s with pos := s.pos + 1 })

/-- The stream read to its end. -/
def drain : Nat → TiebreakStream ε → List Row
  | 0, _ => []
  | fuel + 1, s =>
    match nextRow sort prefixLen reverse s with
    | (none, _) => []
    | (some row, s) => row :: drain fuel s

end

/-! ## What arrives -/

/-- The rows before the first error. -/
@[grind] def arrived : List (Except ε Row) → List Row
  | .ok row :: inner => row :: arrived inner
  | _ => []

theorem arrived_ok (rows : List Row) : arrived (rows.map fun row => (Except.ok row : Except ε Row)) = rows := by
  induction rows with
  | nil => rfl
  | cons row rows ih => rw [List.map_cons, arrived, ih]

/-- What is left to read. -/
def rest : List Row := if s.done then [] else arrived s.inner

/-- What is left to vend after the run. -/
def pending : List Row := s.peeked.toList ++ s.rest

theorem pull_spec :
    s.pull.1 = s.rest.head? ∧ s.pull.2.rest = s.rest.tail ∧ s.pull.2.run = s.run ∧ s.pull.2.pos = s.pos ∧
      s.pull.2.peeked = s.peeked ∧ (s.pull.1.isSome = true → s.pull.2.inner.length + 1 = s.inner.length) := by
  unfold pull rest
  by_cases hdone : s.done = true
  · simp [hdone]
  · rw [Bool.not_eq_true] at hdone
    match hinner : s.inner with
    | [] => simp [hdone, arrived]
    | .ok row :: inner => simp [hdone, arrived]
    | .error err :: inner => simp [hdone, arrived]

/-! ## One run -/

section
variable {sort : SortSpec} {prefixLen : Nat} {reverse : Bool}

/-- The loop takes the rows that tie the first one; the next row waits. -/
theorem gather_spec {seed : Row} {fuel : Nat} {s : TiebreakStream ε} (hrun : s.run.head? = some seed) (hpeek : s.peeked = none)
    (hfuel : s.inner.length < fuel) :
    (gather sort prefixLen fuel s).run =
        s.run ++ s.rest.takeWhile (tiesPrefix sort prefixLen seed) ∧
      (gather sort prefixLen fuel s).pending = s.rest.dropWhile (tiesPrefix sort prefixLen seed) ∧
      (gather sort prefixLen fuel s).pos = s.pos := by
  induction fuel generalizing s with
  | zero => omega
  | succ fuel ih =>
    obtain ⟨hhead, htail, hrun', hpos, hpeek', hlen⟩ := pull_spec s
    rw [gather]
    match hpull : s.pull with
    | (none, t) =>
      rw [hpull] at hhead htail hrun' hpos hpeek'
      simp only at hhead htail hrun' hpos hpeek' ⊢
      have hnil : s.rest = [] := List.head?_eq_none_iff.mp hhead.symm
      refine ⟨?_, ?_, hpos⟩
      · simp [hrun', hnil]
      · simp [pending, hpeek', hpeek, htail, hnil]
    | (some cand, t) =>
      rw [hpull] at hhead htail hrun' hpos hpeek' hlen
      simp only at hhead htail hrun' hpos hpeek' hlen ⊢
      have hcons : s.rest = cand :: t.rest := by
        rw [htail]
        exact List.eq_cons_of_mem_head? hhead.symm
      have hsame : t.run.head?.any (fun seed => tiesPrefix sort prefixLen seed cand) = tiesPrefix sort prefixLen seed cand := by
        rw [hrun', hrun]
        rfl
      rw [hsame, hcons]
      by_cases htie : tiesPrefix sort prefixLen seed cand = true
      · have hlen' := hlen rfl
        have hnext := @ih { t with run := t.run ++ [cand] } (by simp [hrun', List.head?_append, hrun])
          (by simp [hpeek', hpeek]) (by simp only; omega)
        rw [if_pos htie, List.takeWhile_cons_of_pos htie, List.dropWhile_cons_of_pos htie]
        obtain ⟨h1, h2, h3⟩ := hnext
        refine ⟨?_, h2, h3.trans hpos⟩
        rw [h1, hrun', List.append_assoc]
        rfl
      · rw [if_neg htie, List.takeWhile_cons_of_neg htie, List.dropWhile_cons_of_neg htie]
        refine ⟨?_, ?_, hpos⟩
        · simp [hrun']
        · simp [pending, rest]

/-- Nothing left. -/
theorem refill_nil {s : TiebreakStream ε} (h : s.pending = []) :
    (refill sort prefixLen reverse s).run = [] ∧ (refill sort prefixLen reverse s).pos = 0 := by
  obtain ⟨hpeek, hrest⟩ := List.append_eq_nil_iff.mp h
  have hnone : s.peeked = none := by simpa using hpeek
  obtain ⟨hhead, -, hrun, hpos, -, -⟩ := pull_spec { s with run := [], pos := 0, peeked := none }
  have hnil : rest { s with run := [], pos := 0, peeked := none } = [] := hrest
  unfold refill
  simp only [hnone]
  match hpull : pull { s with run := [], pos := 0, peeked := none } with
  | (some row, t) =>
    rw [hpull, hnil] at hhead
    cases hhead
  | (none, t) =>
    rw [hpull] at hrun hpos
    exact ⟨hrun, hpos⟩

/-- Otherwise the rows that tie the first one, sorted. -/
theorem refill_cons {seed : Row} {rows : List Row} {s : TiebreakStream ε} (h : s.pending = seed :: rows) :
    (refill sort prefixLen reverse s).run = sortRun sort reverse (seed :: rows.takeWhile (tiesPrefix sort prefixLen seed)) ∧
      (refill sort prefixLen reverse s).pending = rows.dropWhile (tiesPrefix sort prefixLen seed) ∧
      (refill sort prefixLen reverse s).pos = 0 := by
  -- wherever the first row came from, `t` is what is left when it is the run
  have hloop : ∀ t : TiebreakStream ε, t.run = [seed] → t.peeked = none → t.rest = rows → t.pos = 0 →
      (gather sort prefixLen (t.inner.length + 1) t).run = seed :: rows.takeWhile (tiesPrefix sort prefixLen seed) ∧
        (gather sort prefixLen (t.inner.length + 1) t).pending = rows.dropWhile (tiesPrefix sort prefixLen seed) ∧
        (gather sort prefixLen (t.inner.length + 1) t).pos = 0 := by
    intro t hrun hpeek hrest hpos
    obtain ⟨h1, h2, h3⟩ := @gather_spec ε sort prefixLen seed (t.inner.length + 1) t (by rw [hrun]; rfl) hpeek (Nat.lt_succ_self _)
    rw [hrest] at h1 h2
    rw [hrun] at h1
    exact ⟨h1, h2, h3.trans hpos⟩
  unfold refill
  cases hpeek : s.peeked with
  | some row =>
    rw [pending, hpeek, Option.toList_some, List.singleton_append, List.cons.injEq] at h
    obtain ⟨rfl, hrest⟩ := h
    obtain ⟨h1, h2, h3⟩ := hloop { s with run := [row], pos := 0, peeked := none } rfl rfl hrest rfl
    exact ⟨congrArg _ h1, h2, h3⟩
  | none =>
    rw [pending, hpeek, Option.toList_none, List.nil_append] at h
    obtain ⟨hhead, htail, hrun, hpos, hpeek', -⟩ := pull_spec { s with run := [], pos := 0, peeked := none }
    have hrest : rest { s with run := [], pos := 0, peeked := none } = seed :: rows := h
    simp only
    match hpull : pull { s with run := [], pos := 0, peeked := none } with
    | (none, t) =>
      rw [hpull, hrest] at hhead
      cases hhead
    | (some row, t) =>
      rw [hpull] at hhead htail hrun hpos hpeek'
      rw [hrest] at hhead htail
      obtain rfl : row = seed := Option.some.inj hhead
      obtain ⟨h1, h2, h3⟩ := hloop { t with run := [row] } rfl hpeek' htail hpos
      exact ⟨congrArg _ h1, h2, h3⟩

/-! ## The whole stream -/

theorem sortRun_perm (run : List Row) : (sortRun sort reverse run).Perm run := List.perm_insertionSort _ run

theorem sortRun_rising (run : List Row) : SList.Rising (compareRowsRev sort reverse) (sortRun sort reverse run) := by
  let le : Row → Row → Prop := fun a b => compareRowsRev sort reverse a b ≠ .gt
  have htot : Std.Total le := ⟨fun a b => by
    by_cases h : compareRowsRev sort reverse a b = .lt
    · exact Or.inl fun h' => by rw [h] at h'; cases h'
    · exact Or.inr (SList.not_gt_of_not_lt h)⟩
  have htrans : IsTrans Row le := ⟨fun a b c h1 h2 => SList.not_gt_trans h1 h2⟩
  exact List.pairwise_insertionSort le run

/-- The prefix decides, then the rest of the sort. -/
theorem compareRowsRev_split (sort : SortSpec) (n : Nat) (reverse : Bool) (a b : Row) :
    compareRowsRev sort reverse a b =
      (compareRowsRev (sort.take n) reverse a b).then (compareRowsRev (sort.drop n) reverse a b) := by
  induction n generalizing sort with
  | zero => cases reverse <;> rfl
  | succ n ih =>
    cases sort with
    | nil => cases reverse <;> rfl
    | cons p sort =>
      rw [List.take_succ_cons, List.drop_succ_cons, compareRowsRev_cons, compareRowsRev_cons, ih sort, Ordering.then_assoc]

theorem tiesPrefix_iff {a b : Row} : tiesPrefix sort prefixLen a b = true ↔ compareRowsRev (sort.take prefixLen) reverse a b = .eq := by
  rw [tiesPrefix, beq_iff_eq]
  exact SList.dirCmp_eq_eq.symm

/-- In rows rising from `seed` on, those after the run are past it. -/
theorem after_run {seed : Row} {rows : List Row} (h : SList.Rising (compareRowsRev (sort.take prefixLen) reverse) (seed :: rows)) :
    ∀ b ∈ rows.dropWhile (tiesPrefix sort prefixLen seed), compareRowsRev (sort.take prefixLen) reverse seed b = .lt := by
  induction rows with
  | nil => intro b hb; cases hb
  | cons x rows ih =>
    obtain ⟨hseed, hrows⟩ := SList.rising_cons.mp h
    by_cases hx : tiesPrefix sort prefixLen seed x = true
    · rw [List.dropWhile_cons_of_pos hx]
      exact ih (h.sublist ((List.sublist_cons_self x rows).cons_cons seed))
    rw [List.dropWhile_cons_of_neg hx]
    have hlt : compareRowsRev (sort.take prefixLen) reverse seed x = .lt := by
      cases hc : compareRowsRev (sort.take prefixLen) reverse seed x with
      | lt => rfl
      | eq => exact absurd (tiesPrefix_iff.mpr hc) hx
      | gt => exact absurd hc (hseed x List.mem_cons_self)
    intro b hb
    rcases List.mem_cons.mp hb with rfl | hb
    · exact hlt
    · cases hc : compareRowsRev (sort.take prefixLen) reverse seed b with
      | lt => rfl
      | gt => exact absurd hc (hseed b (List.mem_cons_of_mem _ hb))
      | eq =>
        have hxb := (SList.rising_cons.mp hrows).1 b hb
        rw [← Std.TransCmp.congr_right hc, SList.gt_iff_lt.mpr hlt] at hxb
        exact absurd rfl hxb

theorem nextRow_of_lt {s : TiebreakStream ε} (h : s.pos < s.run.length) :
    nextRow sort prefixLen reverse s = (some s.run[s.pos], { s with pos := s.pos + 1 }) := by
  rw [nextRow, if_neg (by omega), List.getElem?_eq_getElem h]

/-- The rest of the run comes out, then what is pending, sorted. -/
theorem drain_spec {fuel : Nat} {s : TiebreakStream ε} (hpos : s.pos ≤ s.run.length)
    (hfuel : s.run.length - s.pos + s.pending.length < fuel)
    (hrise : SList.Rising (compareRowsRev (sort.take prefixLen) reverse) s.pending) :
    ∃ out, drain sort prefixLen reverse fuel s = s.run.drop s.pos ++ out ∧ out.Perm s.pending ∧
      SList.Rising (compareRowsRev sort reverse) out := by
  induction fuel generalizing s with
  | zero => omega
  | succ fuel ih =>
    by_cases hlt : s.pos < s.run.length
    · obtain ⟨out, hout, hperm, hsorted⟩ := @ih { s with pos := s.pos + 1 } hlt
        (by show s.run.length - (s.pos + 1) + s.pending.length < fuel; omega) hrise
      refine ⟨out, ?_, hperm, hsorted⟩
      rw [drain, nextRow_of_lt hlt, List.drop_eq_getElem_cons hlt]
      exact congrArg _ hout
    · have hend : s.pos = s.run.length := by omega
      have hdrop : s.run.drop s.pos = [] := List.drop_eq_nil_of_le (by omega)
      rw [hdrop]
      have hnext : nextRow sort prefixLen reverse s =
          match (refill sort prefixLen reverse s).run[(refill sort prefixLen reverse s).pos]? with
          | none => (none, refill sort prefixLen reverse s)
          | some row => (some row, { refill sort prefixLen reverse s with pos := (refill sort prefixLen reverse s).pos + 1 }) := by
        rw [nextRow, if_pos hend]
      cases hpend : s.pending with
      | nil =>
        obtain ⟨hrun, hzero⟩ := @refill_nil ε sort prefixLen reverse s hpend
        refine ⟨[], ?_, List.Perm.nil, List.Pairwise.nil⟩
        rw [hrun, hzero] at hnext
        rw [drain, hnext]
        rfl
      | cons seed rows =>
        obtain ⟨hrun, hleft, hzero⟩ := @refill_cons ε sort prefixLen reverse seed rows s hpend
        rw [hpend] at hrise hfuel
        have hperm := @sortRun_perm sort reverse (seed :: rows.takeWhile (tiesPrefix sort prefixLen seed))
        have hsorted := @sortRun_rising sort reverse (seed :: rows.takeWhile (tiesPrefix sort prefixLen seed))
        generalize hsort : sortRun sort reverse (seed :: rows.takeWhile (tiesPrefix sort prefixLen seed)) = run at hrun hperm hsorted
        have hlen : run.length + (rows.dropWhile (tiesPrefix sort prefixLen seed)).length = rows.length + 1 := by
          rw [hperm.length_eq, List.length_cons]
          have := congrArg List.length (@List.takeWhile_append_dropWhile _ (tiesPrefix sort prefixLen seed) rows)
          rw [List.length_append] at this
          omega
        cases run with
        | nil =>
          have := hperm.length_eq
          cases this
        | cons first run =>
          rw [hrun, hzero, List.getElem?_cons_zero] at hnext
          obtain ⟨out, hout, hpermOut, hsortedOut⟩ := @ih { refill sort prefixLen reverse s with pos := 0 + 1 }
            (by show 0 + 1 ≤ (refill sort prefixLen reverse s).run.length; rw [hrun, List.length_cons]; omega)
            (by
              show (refill sort prefixLen reverse s).run.length - (0 + 1) + (refill sort prefixLen reverse s).pending.length < fuel
              rw [hrun, hleft, List.length_cons]
              simp only [List.length_cons] at hlen hfuel
              omega)
            (by
              show SList.Rising _ (refill sort prefixLen reverse s).pending
              rw [hleft]
              exact (SList.rising_cons.mp hrise).2.sublist (List.dropWhile_sublist _))
          have hout' : drain sort prefixLen reverse fuel { refill sort prefixLen reverse s with pos := 0 + 1 } = run ++ out := by
            rw [hout]
            show List.drop 1 (refill sort prefixLen reverse s).run ++ out = run ++ out
            rw [hrun]
            rfl
          have hpermOut' : out.Perm (rows.dropWhile (tiesPrefix sort prefixLen seed)) := hleft ▸ hpermOut
          refine ⟨first :: (run ++ out), ?_, ?_, ?_⟩
          · rw [drain, hnext]
            exact congrArg _ hout'
          · have hwhole := hperm.append hpermOut'
            rw [List.cons_append, List.cons_append, List.takeWhile_append_dropWhile] at hwhole
            exact hwhole
          · rw [← List.cons_append]
            refine SList.rising_append.mpr ⟨hsorted, hsortedOut, fun a ha b hb => ?_⟩
            -- `a` ties the first row of the run on the prefix, `b` is past it
            have hseed : compareRowsRev (sort.take prefixLen) reverse seed a = .eq := by
              rcases List.mem_cons.mp (hperm.mem_iff.mp ha) with rfl | ha
              · exact Std.ReflCmp.compare_self
              · exact tiesPrefix_iff.mp (List.mem_takeWhile_imp ha)
            have hlt := after_run hrise b (hpermOut'.mem_iff.mp hb)
            rw [Std.TransCmp.congr_left hseed] at hlt
            rw [compareRowsRev_split sort prefixLen, hlt]
            intro h
            cases h

end

end TiebreakStream

/-- The adapter over a leaf, read to its end. -/
def tiebreakRows (rows : List Row) (sort : SortSpec) (prefixLen : Nat) (reverse : Bool) : List Row :=
  TiebreakStream.drain sort prefixLen reverse (rows.length + 1) { inner := rows.map fun row => (Except.ok row : Except Unit Row) }

/-- Rows in the order of the prefix come out, each once, in the order of the whole sort. -/
theorem tiebreakRows_sorted {rows : List Row} {sort : SortSpec} {prefixLen : Nat} {reverse : Bool}
    (h : SList.Rising (compareRowsRev (sort.take prefixLen) reverse) rows) :
    (tiebreakRows rows sort prefixLen reverse).Perm rows ∧
      SList.Rising (compareRowsRev sort reverse) (tiebreakRows rows sort prefixLen reverse) := by
  have hpend : TiebreakStream.pending { inner := rows.map fun row => (Except.ok row : Except Unit Row) } = rows :=
    TiebreakStream.arrived_ok rows
  obtain ⟨out, hout, hperm, hsorted⟩ := @TiebreakStream.drain_spec Unit sort prefixLen reverse (rows.length + 1)
    { inner := rows.map fun row => (Except.ok row : Except Unit Row) } (Nat.le_refl _)
    (by rw [hpend]; simp) (by rw [hpend]; exact h)
  rw [hpend] at hperm
  rw [tiebreakRows, hout]
  exact ⟨hperm, hsorted⟩

end Rindle.Sqlite
