/-
  Rindle.BTree.DiffProofs — the structural diff is the edit script of the two maps.

  The main loop merges two ordered walks. Its invariant (`Walking`) holds the stops ahead of
  each cursor, that a cursor which ran off its end lies behind the other, and what the
  `prev` gate can suppress: nothing, because after an equal turn the cursor that could emit
  rests on a node. Each turn emits what the edit script says for the rows it passes
  (`diffTurn_spec`), a skipped subtree being the same rows on both sides, so the loop
  computes `SList.diff` whatever is shared (`diffVisit_eq`).
-/

import Rindle.BTree.DiffWalk
import Rindle.BTree.Runs

set_option linter.dupNamespace false

namespace Rindle

open BNode DiffCursor

variable {α : Type} {cmp : α → α → Ordering} {same : α → α → Bool}

/-! ## Draining -/

theorem stopRows_row {c : DiffCursor α} {ss : List (Stop α)} (h : At c (stopOf c :: ss)) (hl : c.leaf.isSome = true) :
    stopRows (stopOf c :: ss) = c.currentKey :: stopRows ss := by
  have h0 := h.head.2.2.mp hl
  have hs : stopOf c = ⟨c.currentKey, 0⟩ := by
    rw [← h0]; rfl
  rw [hs, stopRows_cons_row]

theorem stopRows_node {c : DiffCursor α} {ss : List (Stop α)} (h : At c (stopOf c :: ss)) (hl : c.leaf = none) :
    stopRows (stopOf c :: ss) = stopRows ss := by
  apply stopRows_cons_node
  intro h0
  have := h.head.2.2.mpr h0
  rw [hl] at this
  cases this

/-- `step_to_end` reports the rows ahead. -/
theorem stepToEnd_spec (f : α → SourceChange α) (fuel : Nat) : ∀ {c : DiffCursor α} {ss : List (Stop α)}, At c ss →
    ss.length ≤ fuel → stepToEnd f fuel c = some ((stopRows ss).map f) := by
  induction fuel with
  | zero =>
    intro c ss h hlen
    obtain ⟨tt, rfl⟩ := h.head.1
    simp at hlen
  | succ fuel ih =>
    intro c ss h hlen
    obtain ⟨tt, rfl⟩ := h.head.1
    have hrows : (stopRows (stopOf c :: tt)).map f =
        (if c.leaf.isSome then [f c.currentKey] else []) ++ (stopRows tt).map f := by
      cases hl : c.leaf with
      | none => rw [stopRows_node h hl]; rfl
      | some l => rw [stopRows_row h (by simp [hl])]; rfl
    obtain ⟨c', ok, hstep, hok, hend⟩ := step_next h
    rw [stepToEnd, hstep, hrows]
    cases ok with
    | true =>
      have := ih (hok rfl) (by simp at hlen; omega)
      simp [this]
    | false =>
      obtain ⟨-, rfl, -⟩ := hend rfl
      simp

/-! ## The invariant of the loop -/

/-- One side: the cursor is placed, and `X` is what it still has to visit. -/
def Side (c : DiffCursor α) (ok : Bool) (X : List (Stop α)) : Prop :=
  ∃ ss, At c ss ∧ (ok = true → X = ss) ∧ (ok = false → X = [])

structure Walking (cmp : α → α → Ordering) (s : DiffState α) (X Y : List (Stop α)) : Prop where
  this : Side s.tc s.tok X
  that : Side s.oc s.ook Y
  sortedX : X.Pairwise fun a b => stopCmp cmp a b = .lt
  sortedY : Y.Pairwise fun a b => stopCmp cmp a b = .lt
  thisEnd : s.tok = false → s.ook = true → compareCursors cmp s.oc s.tc = .gt
  thatEnd : s.ook = false → s.tok = true → compareCursors cmp s.tc s.oc = .gt
  gate : s.tok = true → s.ook = true → s.prev = .eq →
    s.tc.leaf = none ∧ (s.oc.leaf = none ∨ compareCursors cmp s.tc s.oc = .lt)

theorem Side.placed {c : DiffCursor α} {ok : Bool} {X : List (Stop α)} (h : Side c ok X) :
    c.indices.length ≤ c.height + 2 := by
  obtain ⟨ss, hat, -⟩ := h
  exact hat.head.2.1

theorem Side.at {c : DiffCursor α} {X : List (Stop α)} (h : Side c true X) : At c X := by
  obtain ⟨ss, hat, heq, -⟩ := h
  rw [heq rfl]
  exact hat

/-- A step on one side. -/
theorem side_step {c : DiffCursor α} {xs : List (Stop α)} (h : At c (stopOf c :: xs)) :
    ∃ c' ok, c.step false = some (c', ok) ∧ Side c' ok xs ∧ (ok = false → c' = c ∧ c.leaf.isSome = true) ∧
      (ok = true → stopOf c' ∈ xs) := by
  obtain ⟨c', ok, hstep, hok, hend⟩ := step_next h
  cases ok with
  | true =>
    have hat := hok rfl
    obtain ⟨tt, htt⟩ := hat.head.1
    exact ⟨c', true, hstep, ⟨xs, hat, fun _ => rfl, by simp⟩, by simp, fun _ => by rw [htt]; exact List.mem_cons_self⟩
  | false =>
    obtain ⟨rfl, rfl, hl⟩ := hend rfl
    exact ⟨c', false, hstep, ⟨_, h, by simp, fun _ => rfl⟩, fun _ => ⟨rfl, hl⟩, by simp⟩

/-- A row ahead of a later stop has the greater key. -/
theorem key_lt_of_row {a b : Stop α} (ha : a.rank = 0) (h : stopCmp cmp a b = .lt) : cmp b.key a.key = .lt := by
  simp only [stopCmp, compareLex] at h
  cases hk : cmp b.key a.key with
  | lt => rfl
  | gt => rw [hk] at h; cases h
  | eq =>
    rw [hk] at h
    have : b.rank < a.rank := Nat.compare_eq_lt.mp h
    omega

theorem mem_stopRows {k : α} {ss : List (Stop α)} (h : k ∈ stopRows ss) : ∃ s ∈ ss, s.key = k := by
  obtain ⟨s, hs, hk⟩ := List.mem_filterMap.mp h
  split at hk
  · exact ⟨s, hs, Option.some_inj.mp hk⟩
  · cases hk

section
variable [Std.TransCmp cmp]

/-- Everything from a later stop on is later. -/
theorem lt_all {x y : Stop α} {ys : List (Stop α)} (hxy : stopCmp cmp x y = .lt)
    (hs : (y :: ys).Pairwise fun a b => stopCmp cmp a b = .lt) : ∀ s ∈ y :: ys, stopCmp cmp x s = .lt := by
  intro s hs'
  rcases List.mem_cons.mp hs' with rfl | hs'
  · exact hxy
  · exact Std.TransCmp.lt_trans hxy ((List.pairwise_cons.mp hs).1 s hs')

omit [Std.TransCmp cmp] in
theorem stopCmp_tie {x y : Stop α} (h : stopCmp cmp x y = .eq) : cmp y.key x.key = .eq ∧ x.rank = y.rank := by
  unfold stopCmp compareLex at h
  rw [Ordering.then_eq_eq] at h
  exact ⟨h.1, (Nat.compare_eq_eq.mp h.2).symm⟩

/-- What a turn must do. -/
def TurnSpec (cmp : α → α → Ordering) (same : α → α → Bool) (X Y : List (Stop α))
    (r : Option (List (SourceChange α) × DiffState α)) : Prop :=
  ∃ out s' X' Y', r = some (out, s') ∧ Walking cmp s' X' Y' ∧ X'.length + Y'.length < X.length + Y.length ∧
    SList.diff cmp same (stopRows X) (stopRows Y) = out ++ SList.diff cmp same (stopRows X') (stopRows Y')

variable {s : DiffState α} {X Y : List (Stop α)} {ident : Option (Identity α)}

omit [Std.TransCmp cmp] in
/-- Both cursors rest on the next stop of their tree, and compare as the stops do. -/
theorem Walking.meet (hw : Walking cmp s X Y) (htok : s.tok = true) (hook : s.ook = true) : At s.tc X ∧ At s.oc Y ∧
    (∃ xs, X = stopOf s.tc :: xs) ∧ (∃ ys, Y = stopOf s.oc :: ys) ∧
      ∀ o, compareCursors cmp s.tc s.oc = o → stopCmp cmp (stopOf s.tc) (stopOf s.oc) = o := by
  have hX : At s.tc X := (htok ▸ hw.this).at
  have hY : At s.oc Y := (hook ▸ hw.that).at
  refine ⟨hX, hY, hX.head.1, hY.head.1, fun o ho => ?_⟩
  rw [← compareCursors_eq hX.head.2.1 hY.head.2.1]
  exact ho

/-- Both cursors rest on a row of one key. -/
theorem turn_pair (hsame : ∀ a, same a a = true) (hw : Walking cmp s X Y) (htok : s.tok = true) (hook : s.ook = true)
    (hcmp : compareCursors cmp s.tc s.oc = .eq) (htl : s.tc.leaf.isSome = true) (hol : s.oc.leaf.isSome = true) :
    TurnSpec cmp same X Y (diffTurn cmp same ident s) := by
  obtain ⟨hX, hY, ⟨xs, rfl⟩, ⟨ys, rfl⟩, hstop⟩ := hw.meet htok hook
  obtain ⟨tc', tok', ht, hts, htend, htmem⟩ := side_step hX
  obtain ⟨oc', ook', ho, hos, hoend, homem⟩ := side_step hY
  obtain ⟨hxs, hsx⟩ := List.pairwise_cons.mp hw.sortedX
  obtain ⟨hys, hsy⟩ := List.pairwise_cons.mp hw.sortedY
  have htie := hstop _ hcmp
  have hkey : cmp s.oc.currentKey s.tc.currentKey = .eq := (stopCmp_tie htie).1
  unfold diffTurn
  simp only [hcmp, htl, hol, and_self, if_true, ht, ho]
  refine ⟨_, ⟨tc', oc', tok', ook', .lt⟩, xs, ys, rfl, ⟨hts, hos, hsx, hsy, ?_, ?_, ?_⟩, ?_, ?_⟩
  · intro h1 h2
    simp only at h1 h2
    obtain ⟨rfl, -⟩ := htend h1
    simp only
    rw [compareCursors_eq hos.placed hts.placed]
    have := hys _ (homem h2)
    rw [← Std.TransCmp.congr_left htie] at this
    exact SList.gt_iff_lt.mpr this
  · intro h1 h2
    simp only at h1 h2
    obtain ⟨rfl, -⟩ := hoend h1
    simp only
    rw [compareCursors_eq hts.placed hos.placed]
    have := hxs _ (htmem h2)
    rw [Std.TransCmp.congr_left htie] at this
    exact SList.gt_iff_lt.mpr this
  · intro _ _ h
    cases h
  · simp only [List.length_cons]; omega
  · rw [stopRows_row hX htl, stopRows_row hY hol, SList.diff_tie hkey]
    by_cases hid : (ident.any fun p => p.row s.tc s.oc) = true
    · have heq : s.tc.currentKey = s.oc.currentKey := by
        cases ident with
        | none => cases hid
        | some p => exact p.row_eq hid
      rw [if_pos hid, heq, if_pos (hsame _)]; rfl
    · rw [if_neg hid]
      by_cases hs : same s.tc.currentKey s.oc.currentKey = true
      · rw [if_pos hs, if_pos hs]; rfl
      · rw [if_neg hs, if_neg hs]; rfl

/-- Both cursors rest on one shared node. -/
theorem turn_skip (hsame : ∀ a, same a a = true) (hw : Walking cmp s X Y) (htok : s.tok = true) (hook : s.ook = true)
    (hcmp : compareCursors cmp s.tc s.oc = .eq) (htl : s.tc.leaf = none) (hol : s.oc.leaf = none)
    (hid : (ident.any fun p => p.node s.tc s.oc) = true) : TurnSpec cmp same X Y (diffTurn cmp same ident s) := by
  obtain ⟨hX, hY, ⟨tx, htx⟩, ⟨ty, hty⟩, hstop⟩ := hw.meet htok hook
  obtain ⟨n, h, xs, hn, hnok, -, rfl, tc', tok', ht, htok', htend⟩ := step_past hX htl
  obtain ⟨n', h', ys, hn', hnok', -, rfl, oc', ook', ho, hook', hoend⟩ := step_past hY hol
  -- the same pointer: the same node, with the same stops
  have hnn : n = n' := by
    have heq : s.tc.currentNode = s.oc.currentNode := by
      cases ident with
      | none => cases hid
      | some p => exact p.node_eq hid
    rw [hn, hn', Option.some_inj] at heq
    exact heq
  subst hnn
  have hhh : h = h' := hnok.height.symm.trans hnok'.height
  subst hhh
  obtain ⟨m, hm, -, -⟩ := hnok.exists_max
  obtain ⟨ss, hss⟩ := stops_head hnok hm
  have htie := hstop _ hcmp
  have hts : Side tc' tok' xs := by
    cases tok' with
    | true => exact ⟨xs, (htok' rfl).1, fun _ => rfl, by simp⟩
    | false => exact ⟨_, by rw [(htend rfl).1]; exact hX, by simp, fun _ => (htend rfl).2⟩
  have hos : Side oc' ook' ys := by
    cases ook' with
    | true => exact ⟨ys, (hook' rfl).1, fun _ => rfl, by simp⟩
    | false => exact ⟨_, by rw [(hoend rfl).1]; exact hY, by simp, fun _ => (hoend rfl).2⟩
  have hlater : ∀ {c : DiffCursor α} {Z T zs : List (Stop α)} {d : DiffCursor α}, At c (Z ++ zs) → Z ++ zs = stopOf c :: T →
      Z ≠ [] → ((Z ++ zs).Pairwise fun a b => stopCmp cmp a b = .lt) → At d zs → stopCmp cmp (stopOf c) (stopOf d) = .lt := by
    intro c Z T zs d _ heq hne hp hd
    obtain ⟨z, Z', rfl⟩ := List.exists_cons_of_ne_nil hne
    obtain ⟨zt, rfl⟩ := hd.head.1
    rw [List.cons_append, List.cons.injEq] at heq
    rw [← heq.1]
    exact (List.pairwise_cons.mp hp).1 _ (by simp)
  have hne : stops h n ≠ [] := by rw [hss]; simp
  unfold diffTurn
  have hb1 : ¬ (compareCursors cmp s.tc s.oc = .eq ∧ s.tc.leaf.isSome = true ∧ s.oc.leaf.isSome = true) := by simp [htl]
  have hb2 : ¬ (s.tc.leaf.isSome = true ∨ s.oc.leaf.isSome = true) ∧ compareCursors cmp s.tc s.oc = .eq ∧
      (ident.any fun p => p.node s.tc s.oc) = true := ⟨by simp [htl, hol], hcmp, hid⟩
  simp only [if_neg hb1, if_pos hb2, ht, ho]
  refine ⟨_, ⟨tc', oc', tok', ook', .eq⟩, xs, ys, rfl, ⟨hts, hos, ?_, ?_, ?_, ?_, ?_⟩, ?_, ?_⟩
  · exact (List.pairwise_append.mp hw.sortedX).2.1
  · exact (List.pairwise_append.mp hw.sortedY).2.1
  · intro h1 h2
    simp only at h1 h2
    obtain ⟨rfl, -⟩ := htend h1
    simp only
    rw [compareCursors_eq hos.placed hts.placed]
    have := hlater hY hty hne hw.sortedY (hook' h2).1
    rw [← Std.TransCmp.congr_left htie] at this
    exact SList.gt_iff_lt.mpr this
  · intro h1 h2
    simp only at h1 h2
    obtain ⟨rfl, -⟩ := hoend h1
    simp only
    rw [compareCursors_eq hts.placed hos.placed]
    have := hlater hX htx hne hw.sortedX (htok' h2).1
    rw [Std.TransCmp.congr_left htie] at this
    exact SList.gt_iff_lt.mpr this
  · intro h1 h2 _
    exact ⟨(htok' h1).2, Or.inl (hook' h2).2⟩
  · simp only [hss, List.length_append, List.length_cons]; omega
  · rw [stopRows_append, stopRows_append, SList.diff_append_left hsame]; rfl

/-- The first cursor is behind: it moves on, and its row is in the first tree only. -/
theorem turn_this (hw : Walking cmp s X Y) (htok : s.tok = true) (hook : s.ook = true)
    (hcmp : compareCursors cmp s.tc s.oc = .lt) : TurnSpec cmp same X Y (diffTurn cmp same ident s) := by
  obtain ⟨hX, hY, ⟨xs, rfl⟩, ⟨ys, rfl⟩, hstop⟩ := hw.meet htok hook
  obtain ⟨tc', tok', ht, hts, htend, -⟩ := side_step hX
  have hlt := hstop _ hcmp
  have hout : (if (s.tc.leaf.isSome = true ∨ s.oc.leaf.isSome = true) ∧ s.prev ≠ .eq then
      (if s.tc.leaf.isSome = true then [SList.Delta.remove s.tc.currentKey] else []) else []) =
      if s.tc.leaf.isSome = true then [SList.Delta.remove s.tc.currentKey] else [] := by
    by_cases htl : s.tc.leaf.isSome = true
    · have hprev : s.prev ≠ .eq := fun hp => by
        have := (hw.gate htok hook hp).1
        rw [this] at htl
        cases htl
      rw [if_pos ⟨Or.inl htl, hprev⟩]
    · rw [if_neg htl, ite_self]
  unfold diffTurn
  simp only [hcmp, reduceCtorEq, false_and, and_false, if_false, if_true, ht]
  refine ⟨_, ⟨tc', s.oc, tok', s.ook, .lt⟩, xs, stopOf s.oc :: ys, rfl, ⟨hts, hw.that, ?_, hw.sortedY, ?_, ?_, ?_⟩, ?_, ?_⟩
  · exact (List.pairwise_cons.mp hw.sortedX).2
  · intro h1 _
    simp only at h1
    obtain ⟨rfl, -⟩ := htend h1
    simp only
    rw [compareCursors_eq hw.that.placed hts.placed]
    exact SList.gt_iff_lt.mpr hlt
  · intro h1
    simp only [hook] at h1
    cases h1
  · intro _ _ h
    cases h
  · simp only [List.length_cons]; omega
  · rw [hout]
    by_cases htl : s.tc.leaf.isSome = true
    · have hahead : ∀ b ∈ stopRows (stopOf s.oc :: ys), cmp b s.tc.currentKey = .lt := by
        intro b hb
        obtain ⟨z, hz, rfl⟩ := mem_stopRows hb
        exact key_lt_of_row (a := stopOf s.tc) (hX.head.2.2.mp htl) (lt_all hlt hw.sortedY z hz)
      rw [if_pos htl, stopRows_row hX htl, SList.diff_remove hahead]; rfl
    · rw [if_neg htl, stopRows_node hX (by simpa using htl)]; rfl

/-- The second cursor is behind. -/
theorem turn_that (hw : Walking cmp s X Y) (htok : s.tok = true) (hook : s.ook = true)
    (hcmp : compareCursors cmp s.tc s.oc = .gt) : TurnSpec cmp same X Y (diffTurn cmp same ident s) := by
  obtain ⟨hX, hY, ⟨xs, rfl⟩, ⟨ys, rfl⟩, hstop⟩ := hw.meet htok hook
  obtain ⟨oc', ook', ho, hos, hoend, -⟩ := side_step hY
  have hgt := hstop _ hcmp
  have hout : (if (s.tc.leaf.isSome = true ∨ s.oc.leaf.isSome = true) ∧ s.prev ≠ .eq then
      (if s.oc.leaf.isSome = true then [SList.Delta.add s.oc.currentKey] else []) else []) =
      if s.oc.leaf.isSome = true then [SList.Delta.add s.oc.currentKey] else [] := by
    by_cases hol : s.oc.leaf.isSome = true
    · have hprev : s.prev ≠ .eq := fun hp => by
        rcases (hw.gate htok hook hp).2 with h | h
        · rw [h] at hol
          cases hol
        · rw [hcmp] at h
          cases h
      rw [if_pos ⟨Or.inr hol, hprev⟩]
    · rw [if_neg hol, ite_self]
  unfold diffTurn
  simp only [hcmp, reduceCtorEq, false_and, and_false, if_false, ho]
  refine ⟨_, ⟨s.tc, oc', s.tok, ook', .gt⟩, stopOf s.tc :: xs, ys, rfl, ⟨hw.this, hos, hw.sortedX, ?_, ?_, ?_, ?_⟩, ?_, ?_⟩
  · exact (List.pairwise_cons.mp hw.sortedY).2
  · intro h1
    simp only [htok] at h1
    cases h1
  · intro h1 _
    simp only at h1
    obtain ⟨rfl, -⟩ := hoend h1
    exact hcmp
  · intro _ _ h
    cases h
  · simp only [List.length_cons]; omega
  · rw [hout]
    by_cases hol : s.oc.leaf.isSome = true
    · have hahead : ∀ a ∈ stopRows (stopOf s.tc :: xs), cmp s.oc.currentKey a = .gt := by
        intro a ha
        obtain ⟨z, hz, rfl⟩ := mem_stopRows ha
        exact SList.gt_iff_lt.mpr
          (key_lt_of_row (a := stopOf s.oc) (hY.head.2.2.mp hol) (lt_all (SList.gt_iff_lt.mp hgt) hw.sortedX z hz))
      rw [if_pos hol, stopRows_row hY hol, SList.diff_add hahead]; rfl
    · rw [if_neg hol, stopRows_node hY (by simpa using hol)]; rfl

/-- Both cursors rest on nodes with one key and rank that are not shared. -/
theorem turn_descend (hw : Walking cmp s X Y) (htok : s.tok = true) (hook : s.ook = true)
    (hcmp : compareCursors cmp s.tc s.oc = .eq) (htl : s.tc.leaf = none) (hol : s.oc.leaf = none)
    (hid : ¬ (ident.any fun p => p.node s.tc s.oc) = true) : TurnSpec cmp same X Y (diffTurn cmp same ident s) := by
  obtain ⟨hX, hY, ⟨xs, rfl⟩, ⟨ys, rfl⟩, hstop⟩ := hw.meet htok hook
  obtain ⟨oc', ook', ho, hos, hoend, homem⟩ := side_step hY
  have hook' : ook' = true := by
    cases ook' with
    | true => rfl
    | false =>
      have := (hoend rfl).2
      rw [hol] at this
      cases this
  have htie := hstop _ hcmp
  unfold diffTurn
  have hb1 : ¬ (compareCursors cmp s.tc s.oc = .eq ∧ s.tc.leaf.isSome = true ∧ s.oc.leaf.isSome = true) := by simp [htl]
  have hb2 : ¬ (¬ (s.tc.leaf.isSome = true ∨ s.oc.leaf.isSome = true) ∧ compareCursors cmp s.tc s.oc = .eq ∧
      (ident.any fun p => p.node s.tc s.oc) = true) := fun h => hid h.2.2
  have hb3 : ¬ compareCursors cmp s.tc s.oc = .lt := by rw [hcmp]; simp
  simp only [if_neg hb1, if_neg hb2, if_neg hb3, ho]
  simp only [htl, hol, hcmp, Option.isSome_none, Bool.false_eq_true, or_self, false_and, if_false]
  refine ⟨[], ⟨s.tc, oc', s.tok, ook', .eq⟩, stopOf s.tc :: xs, ys, rfl, ⟨hw.this, hos, hw.sortedX, ?_, ?_, ?_, ?_⟩, ?_, ?_⟩
  · exact (List.pairwise_cons.mp hw.sortedY).2
  · intro h1
    simp only [htok] at h1
    cases h1
  · intro h1
    simp only [hook'] at h1
    cases h1
  · intro _ _ _
    refine ⟨htl, Or.inr ?_⟩
    simp only
    rw [compareCursors_eq hw.this.placed hos.placed, Std.TransCmp.congr_left htie]
    exact (List.pairwise_cons.mp hw.sortedY).1 _ (homem hook')
  · simp only [List.length_cons]; omega
  · rw [stopRows_node hY hol]; rfl

theorem diffTurn_spec (hsame : ∀ a, same a a = true) (hw : Walking cmp s X Y) (htok : s.tok = true)
    (hook : s.ook = true) : TurnSpec cmp same X Y (diffTurn cmp same ident s) := by
  cases hcmp : compareCursors cmp s.tc s.oc with
  | lt => exact turn_this hw htok hook hcmp
  | gt => exact turn_that hw htok hook hcmp
  | eq =>
    -- equal ranks: both rest on a row or both on a node
    obtain ⟨hX, hY, -, -, hstop⟩ := hw.meet htok hook
    have hrank : (stopOf s.tc).rank = (stopOf s.oc).rank := (stopCmp_tie (hstop _ hcmp)).2
    have hiff : s.tc.leaf.isSome = true ↔ s.oc.leaf.isSome = true := by
      rw [hX.head.2.2, hY.head.2.2, hrank]
    by_cases htl : s.tc.leaf.isSome = true
    · exact turn_pair hsame hw htok hook hcmp htl (hiff.mp htl)
    · have hol : s.oc.leaf = none := by simpa using mt hiff.mpr htl
      have htl' : s.tc.leaf = none := by simpa using htl
      by_cases hid : (ident.any fun p => p.node s.tc s.oc) = true
      · exact turn_skip hsame hw htok hook hcmp htl' hol hid
      · exact turn_descend hw htok hook hcmp htl' hol hid

/-- The loop and its drains emit the script of the rows ahead. -/
theorem diffLoop_spec (hsame : ∀ a, same a a = true) (fuel : Nat) : ∀ {s : DiffState α} {X Y : List (Stop α)},
    Walking cmp s X Y → X.length + Y.length < fuel →
    diffLoop cmp same ident fuel s = some (SList.diff cmp same (stopRows X) (stopRows Y)) := by
  induction fuel with
  | zero => intro s X Y _ h; omega
  | succ fuel ih =>
    intro s X Y hw hlen
    rw [diffLoop]
    cases htok : s.tok with
    | true =>
      cases hook : s.ook with
      | true =>
        have hspec : TurnSpec cmp same X Y (diffTurn cmp same ident s) := diffTurn_spec hsame hw htok hook
        obtain ⟨out, s', X', Y', hturn, hw', hless, hdiff⟩ := hspec
        simp [hturn, ih hw' (by omega), hdiff]
      | false =>
        have hX : At s.tc X := (htok ▸ hw.this).at
        obtain rfl : Y = [] := hw.that.choose_spec.2.2 hook
        have hend := stepToEnd_spec .remove fuel hX (by simp at hlen; omega)
        simp [finishWalk, hw.thatEnd hook htok, hend]
    | false =>
      obtain rfl : X = [] := hw.this.choose_spec.2.2 htok
      cases hook : s.ook with
      | true =>
        have hY : At s.oc Y := (hook ▸ hw.that).at
        have hend := stepToEnd_spec .add fuel hY (by simp at hlen; omega)
        simp [finishWalk, hw.thisEnd htok hook, hend]
      | false =>
        obtain rfl : Y = [] := hw.that.choose_spec.2.2 hook
        simp

/-! ## Whole trees -/

/-- The number of stops of a tree, a bound on the steps of a walk over it. -/
def walkLength (t : BTree α) : Nat := (stops t.root.height t.root).length

omit [Std.TransCmp cmp] in
theorem BTree.Valid.size_eq_zero {t : BTree α} (ht : t.Valid cmp) : t.size = 0 ↔ t.rows = [] := by
  rw [ht.size_eq, List.length_eq_zero_iff]

/-- A cursor over a non-empty valid tree has all its stops ahead. -/
theorem BTree.Valid.walk {t : BTree α} (ht : t.Valid cmp) (hne : t.size ≠ 0) :
    ∃ c ss, DiffCursor.new t = some c ∧ At c ss ∧ c.leaf = none ∧ ss.length = walkLength t ∧
      stopRows ss = t.rows.reverse ∧ ss.Pairwise fun a b => stopCmp cmp a b = .lt := by
  obtain ⟨h, hn⟩ := ht.shape
  have hok : NodeOk h false t.root := NodeOk.nonempty hn.mayEmpty fun h0 => hne (ht.size_eq_zero.mpr h0)
  obtain ⟨c, hc, hat, hl⟩ := new_at hok
  have hstops := stops_ok hok ht.sorted
  exact ⟨c, stops h t.root, hc, hat, hl, by rw [walkLength, hok.height], hstops.rows_eq, hstops.sorted⟩

/-- The walk terminates and emits the script of the two maps, whatever is shared. -/
theorem diffVisit_eq (hsame : ∀ a, same a a = true) {t u : BTree α} (ht : t.Valid cmp) (hu : u.Valid cmp)
    (ident : Option (Identity α)) {fuel : Nat} (hfuel : walkLength t + walkLength u < fuel) :
    diffVisit cmp same ident fuel t u = some (SList.diff cmp same t.rows.reverse u.rows.reverse) := by
  unfold diffVisit
  by_cases ht0 : t.size = 0
  · have htr := ht.size_eq_zero.mp ht0
    by_cases hu0 : u.size = 0
    · have hur := hu.size_eq_zero.mp hu0
      simp [ht0, hu0, htr, hur]
    · obtain ⟨c, ss, hc, hat, -, hlen, hrows, -⟩ := hu.walk hu0
      have hend := stepToEnd_spec .add fuel hat (by omega)
      simp [ht0, hu0, hc, hend, hrows, htr]
  · obtain ⟨tc, X, htc, hX, htl, hXlen, hXrows, hXs⟩ := ht.walk ht0
    by_cases hu0 : u.size = 0
    · have hur := hu.size_eq_zero.mp hu0
      have hend := stepToEnd_spec .remove fuel hX (by omega)
      simp [ht0, hu0, htc, hend, hXrows, hur]
    · obtain ⟨oc, Y, hoc, hY, hol, hYlen, hYrows, hYs⟩ := hu.walk hu0
      have hw : Walking cmp ⟨tc, oc, true, true, compareCursors cmp tc oc⟩ X Y :=
        ⟨⟨X, hX, fun _ => rfl, by simp⟩, ⟨Y, hY, fun _ => rfl, by simp⟩, hXs, hYs, by simp, by simp,
          fun _ _ _ => ⟨htl, Or.inl hol⟩⟩
      have hloop : diffLoop cmp same ident fuel ⟨tc, oc, true, true, compareCursors cmp tc oc⟩ = _ :=
        diffLoop_spec hsame fuel hw (by omega)
      rw [if_neg (fun h => ht0 h.1), if_neg ht0, if_neg hu0, htc, hoc]
      simp only [Option.bind_eq_bind, Option.bind_some]
      rw [hloop, hXrows, hYrows]

theorem apply_refines {t : BTree α} (ht : t.Valid cmp) (d : SourceChange α) :
    (applySourceChangeToTree cmp t d).Valid cmp ∧
      (applySourceChangeToTree cmp t d).rows = SList.patch cmp t.rows d := by
  cases d with
  | add r =>
    obtain ⟨h1, h2, -⟩ := BTree.add_spec ht r
    exact ⟨h1, h2⟩
  | remove r =>
    obtain ⟨h1, h2, -⟩ := BTree.delete_spec ht r
    exact ⟨h1, h2⟩
  | edit o r =>
    obtain ⟨h1, h2, -⟩ := BTree.delete_spec ht o
    obtain ⟨h3, h4, -⟩ := BTree.add_spec h1 r
    exact ⟨h3, by rw [applySourceChangeToTree, h4, h2]; rfl⟩

theorem applies_refine (D : List (SourceChange α)) : ∀ {t : BTree α}, t.Valid cmp →
    (D.foldl (applySourceChangeToTree cmp) t).Valid cmp ∧
      (D.foldl (applySourceChangeToTree cmp) t).rows = D.foldl (SList.patch cmp) t.rows := by
  induction D with
  | nil => intro t ht; exact ⟨ht, rfl⟩
  | cons d D ih =>
    intro t ht
    obtain ⟨h1, h2⟩ := apply_refines ht d
    obtain ⟨h3, h4⟩ := ih h1
    rw [h2] at h4
    exact ⟨h3, h4⟩

end

/-! ## Trees of rows -/

/-- The diff of two valid trees: what it visits, in which order, and what applying it gives. -/
theorem structural_diff_exact {kinds : List Kind} {sort : SortSpec} (hsort : sort.Within kinds)
    {t u : BTree (TypedRow kinds)} (ht : t.Valid (TypedRow.cmp sort)) (hu : u.Valid (TypedRow.cmp sort)) :
    ∃ D : List (SourceChange (TypedRow kinds)),
      (∀ (ident : Option (Identity (TypedRow kinds))) (fuel : Nat), walkLength t + walkLength u < fuel →
        diffVisit (TypedRow.cmp sort) TypedRow.same ident fuel t u = some D) ∧
      (∀ a b : TypedRow kinds, compareRows sort a.row b.row = some (TypedRow.cmp sort a b) ∧
        fullRowEqual a.row b.row = some (TypedRow.same a b)) ∧
      (∀ r, .remove r ∈ D ↔ r ∈ t.rows ∧ ∀ b ∈ u.rows, TypedRow.cmp sort b r ≠ .eq) ∧
      (∀ r, .add r ∈ D ↔ r ∈ u.rows ∧ ∀ a ∈ t.rows, TypedRow.cmp sort a r ≠ .eq) ∧
      (∀ a b, .edit a b ∈ D ↔ a ∈ t.rows ∧ b ∈ u.rows ∧ TypedRow.cmp sort a b = .eq ∧
        fullRowEqual a.row b.row = some false) ∧
      (D.Pairwise fun d e => TypedRow.cmp sort e.key d.key = .lt) ∧
      (D.foldl (applySourceChangeToTree (TypedRow.cmp sort)) t).Valid (TypedRow.cmp sort) ∧
      List.Forall₂ (fun x y => TypedRow.cmp sort x y = .eq ∧ fullRowEqual x.row y.row = some true)
        (D.foldl (applySourceChangeToTree (TypedRow.cmp sort)) t).rows u.rows ∧
      ((∀ a ∈ t.rows, ∀ b ∈ u.rows, fullRowEqual a.row b.row = some true → a = b) →
        (D.foldl (applySourceChangeToTree (TypedRow.cmp sort)) t).rows = u.rows) := by
  have htd : SList.Desc (TypedRow.cmp sort) t.rows.reverse := SList.desc_reverse.mpr ht.sorted
  have hud : SList.Desc (TypedRow.cmp sort) u.rows.reverse := SList.desc_reverse.mpr hu.sorted
  have hmem : ∀ d, d ∈ SList.diff (TypedRow.cmp sort) TypedRow.same t.rows.reverse u.rows.reverse ↔
      SList.Differs (TypedRow.cmp sort) TypedRow.same t.rows.reverse u.rows.reverse d :=
    fun d => SList.mem_diff d _ _ htd hud
  refine ⟨SList.diff (TypedRow.cmp sort) TypedRow.same t.rows.reverse u.rows.reverse, ?_, ?_, ?_, ?_, ?_, ?_, ?_, ?_, ?_⟩
  · intro ident fuel hfuel
    exact diffVisit_eq TypedRow.same_refl ht hu ident hfuel
  · intro a b
    exact ⟨compareRows_eq hsort a.fits b.fits, TypedRow.fullRowEqual_eq a b⟩
  · intro r
    rw [hmem]
    simp [SList.Differs]
  · intro r
    rw [hmem]
    simp only [SList.Differs, List.mem_reverse]
    refine and_congr_right fun _ => forall₂_congr fun a _ => not_congr SList.eq_comm
  · intro a b
    rw [hmem, TypedRow.fullRowEqual_eq, Option.some_inj]
    simp only [SList.Differs, List.mem_reverse]
    rw [SList.eq_comm]
  · exact SList.diff_desc _ _ htd hud
  · exact (applies_refine _ ht).1
  · rw [(applies_refine _ ht).2]
    simp only [TypedRow.fullRowEqual_eq, Option.some_inj]
    exact SList.patch_diff TypedRow.same_refl ht.sorted hu.sorted
  · intro heq
    rw [(applies_refine _ ht).2]
    simp only [TypedRow.fullRowEqual_eq, Option.some_inj] at heq
    exact SList.patch_diff_eq TypedRow.same_refl ht.sorted hu.sorted heq

/-- One row removed, one edited, one added. -/
theorem structural_diff_exact_three :
    let kinds := [Kind.number, Kind.str]
    let row (i : Int64) (s : List UInt8) (h : Row.Fits kinds [.int i, .str s]) : TypedRow kinds := ⟨[.int i, .str s], h⟩
    let t := BTree.fromSorted [row 1 [97] (by decide), row 2 [98] (by decide)]
    let u := BTree.fromSorted [row 2 [99] (by decide), row 3 [100] (by decide)]
    ∃ D, (∀ ident fuel, walkLength t + walkLength u < fuel →
        diffVisit (TypedRow.cmp [(0, true)]) TypedRow.same ident fuel t u = some D) ∧
      .remove (row 1 [97] (by decide)) ∈ D ∧ .edit (row 2 [98] (by decide)) (row 2 [99] (by decide)) ∈ D ∧
      .add (row 3 [100] (by decide)) ∈ D := by
  intro kinds row t u
  have ht : SList.Sorted (TypedRow.cmp [(0, true)]) [row 1 [97] (by decide), row 2 [98] (by decide)] := by decide +kernel
  have hu : SList.Sorted (TypedRow.cmp [(0, true)]) [row 2 [99] (by decide), row 3 [100] (by decide)] := by
    decide +kernel
  obtain ⟨htv, htr⟩ := BTree.fromSorted_spec ht
  obtain ⟨huv, hur⟩ := BTree.fromSorted_spec hu
  have hsort : SortSpec.Within [(0, true)] kinds := by decide
  obtain ⟨D, hD, -, hrem, hadd, hedit, -⟩ := structural_diff_exact hsort htv huv
  refine ⟨D, hD, (hrem _).mpr ?_, (hedit _ _).mpr ?_, (hadd _).mpr ?_⟩
  · rw [htr, hur]; decide +kernel
  · rw [htr, hur]; decide +kernel
  · rw [htr, hur]; decide +kernel

end Rindle
