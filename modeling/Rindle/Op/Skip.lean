/-
  Rindle.Op.Skip — the operator that drops the rows before a start bound (`rust/src/op/skip.rs`).

  On a fetch the bound is merged with the start of the request into the one start that goes to
  the input (`getStart_forward`, `getStart_reverse`); backwards, the rows before the bound come
  last and are cut off. On a push Skip is a gate on the bound. `skip_bound_filter`: an input that
  answers requests out of some nodes becomes one that answers them out of those past the bound,
  and downstream of any run of changes are, at each step, the input's nodes past the bound.
-/

import Rindle.Op.Gate
import Rindle.Op.Fed

set_option linter.dupNamespace false

namespace Rindle

/-! ## The operator -/

/-- `Skip`; `sort` is the order of its input. -/
structure Skip where
  bound : Start
  sort : SortSpec

/-- The start to send to the input, if any row can come back. -/
inductive Resolved where
  | empty
  | use (start : Option Start)

namespace Skip

variable (skip : Skip)

/-- `should_be_present`. -/
def shouldBePresent (row : Row) : Bool :=
  match rowCmp skip.sort skip.bound.row row with
  | .lt => true
  | .eq => skip.bound.basis == .atRow
  | .gt => false

/-- `get_start`. -/
def getStart (req : FetchRequest) : Resolved :=
  let exclusive := skip.bound.basis == .after
  match req.start with
  | none => if req.reverse then .use none else .use (some skip.bound)
  | some rs =>
    match req.reverse, rowCmp skip.sort skip.bound.row rs.row with
    | false, .gt => .use (some skip.bound)
    | false, .eq =>
      -- the shared row stays out if either side excludes it
      if exclusive || rs.basis == .after then .use (some ⟨skip.bound.row, .after⟩) else .use (some skip.bound)
    | false, .lt => .use (some rs)
    | true, .gt => .empty
    | true, .eq => if !exclusive && rs.basis == .atRow then .use (some skip.bound) else .empty
    | true, .lt => .use (some rs)

/-- `fetch`. -/
def fetch (up : Upstream) (req : FetchRequest) : Option (List Node) :=
  match skip.getStart req with
  | .empty => some []
  | .use start => (up { req with start }).map fun nodes => if req.reverse then nodes.takeWhile fun n => skip.shouldBePresent n.row else nodes

/-- `push`: what is sent on. -/
def push : Change → List Change
  | .edit node old =>
    match skip.shouldBePresent old.row, skip.shouldBePresent node.row with
    | true, true => [.edit node old]
    | true, false => [.remove old]
    | false, true => [.add node]
    | false, false => []
  | .add n => if skip.shouldBePresent n.row then [.add n] else []
  | .remove n => if skip.shouldBePresent n.row then [.remove n] else []
  | .child node rel child => if skip.shouldBePresent node.row then [.child node rel child] else []

end Skip

/-! ## Inputs -/

/-- The input answers each request with the nodes of `U` it asks for, in the order of `sort`. -/
def Answers (sort : SortSpec) (up : Upstream) (U : Set Node) : Prop :=
  ∀ req, ∃ nodes, up req = some nodes ∧ SList.Sorted (compareRowsRev sort req.reverse) (nodes.map Node.row) ∧
    ∀ n, n ∈ nodes ↔ n ∈ U ∧ asks sort req n.row = true ∧ MemorySource.matchesEach (MemorySource.batches req) n.row = true

namespace Skip

variable {skip : Skip}

/-! ## The merged start -/

/-- The row is past the start, if there is one. -/
def reached (sort : SortSpec) (reverse : Bool) (start : Option Start) (r : Row) : Bool := start.all fun s => startReached s sort reverse r

theorem startReached_false {s : Start} {sort : SortSpec} {r : Row} :
    startReached s sort false r = true ↔ rowCmp sort r s.row ≠ .lt ∧ (s.basis = .after → rowCmp sort r s.row = .gt) := by
  unfold startReached compareRowsRev SList.dirCmp
  cases s.basis <;> cases rowCmp sort r s.row <;> simp

theorem startReached_true {s : Start} {sort : SortSpec} {r : Row} :
    startReached s sort true r = true ↔ rowCmp sort r s.row ≠ .gt ∧ (s.basis = .after → rowCmp sort r s.row = .lt) := by
  unfold startReached compareRowsRev SList.dirCmp
  cases s.basis <;> cases rowCmp sort r s.row <;> simp

/-- The bound is a start of forward requests. -/
theorem shouldBePresent_iff {r : Row} :
    skip.shouldBePresent r = true ↔
      rowCmp skip.sort r skip.bound.row ≠ .lt ∧ (skip.bound.basis = .after → rowCmp skip.sort r skip.bound.row = .gt) := by
  unfold shouldBePresent
  rw [show rowCmp skip.sort skip.bound.row r = (rowCmp skip.sort r skip.bound.row).swap from Std.OrientedCmp.eq_swap]
  cases skip.bound.basis <;> cases rowCmp skip.sort r skip.bound.row <;> simp

theorem shouldBePresent_congr {a b : Row} (h : rowCmp skip.sort a b = .eq) : skip.shouldBePresent a = skip.shouldBePresent b := by
  unfold shouldBePresent
  rw [Std.TransCmp.congr_right h]

/-- A later row is past the bound too. -/
theorem shouldBePresent_mono {a b : Row} (hab : rowCmp skip.sort a b ≠ .gt) (ha : skip.shouldBePresent a = true) :
    skip.shouldBePresent b = true := by
  rw [shouldBePresent_iff] at ha ⊢
  rw [SList.not_gt_iff] at hab
  refine ⟨fun hb => ha.1 (Std.TransCmp.lt_of_isLE_of_lt hab hb), fun hafter => ?_⟩
  exact SList.gt_iff_lt.mpr (Std.TransCmp.lt_of_lt_of_isLE (SList.gt_iff_lt.mp (ha.2 hafter)) hab)

/-- Forward, the merged start is where both the bound and the request's start are passed. -/
theorem getStart_forward {req : FetchRequest} (hreq : req.reverse = false) :
    ∃ start, skip.getStart req = .use start ∧ ∀ r, reached skip.sort false start r = true ↔
      skip.shouldBePresent r = true ∧ reached skip.sort false req.start r = true := by
  have hbound : ∀ r, reached skip.sort false (some skip.bound) r = true ↔ skip.shouldBePresent r = true := fun r =>
    startReached_false.trans shouldBePresent_iff.symm
  cases hs : req.start with
  | none =>
    refine ⟨some skip.bound, by simp [getStart, hs, hreq], fun r => (hbound r).trans ?_⟩
    simp [reached]
  | some rs =>
    cases hc : rowCmp skip.sort skip.bound.row rs.row with
    | gt =>
      -- past the bound is past the start
      refine ⟨some skip.bound, by simp [getStart, hs, hreq, hc], fun r => (hbound r).trans (iff_self_and.mpr fun hr => ?_)⟩
      rw [shouldBePresent_iff] at hr
      have hle : (rowCmp skip.sort skip.bound.row r).isLE = true := SList.not_gt_iff.mp (SList.not_gt_of_not_lt hr.1)
      have hgt : rowCmp skip.sort r rs.row = .gt :=
        SList.gt_iff_lt.mpr (Std.TransCmp.lt_of_lt_of_isLE (SList.gt_iff_lt.mp hc) hle)
      refine startReached_false.mpr ⟨?_, fun _ => hgt⟩
      rw [hgt]
      decide
    | eq =>
      have hsame : ∀ r, rowCmp skip.sort r skip.bound.row = rowCmp skip.sort r rs.row := fun r => Std.TransCmp.congr_right hc
      by_cases hex : skip.bound.basis = .after ∨ rs.basis = .after
      · refine ⟨some ⟨skip.bound.row, .after⟩, by simp [getStart, hs, hreq, hc, hex], fun r => ?_⟩
        rw [shouldBePresent_iff, reached, reached, Option.all_some, Option.all_some, startReached_false, startReached_false, hsame]
        constructor
        · intro h
          have hgt := h.2 rfl
          exact ⟨⟨h.1, fun _ => hgt⟩, h.1, fun _ => hgt⟩
        · intro h
          exact ⟨h.1.1, fun _ => hex.elim h.1.2 h.2.2⟩
      · have hpush : skip.getStart req = .use (some skip.bound) := by simp [getStart, hs, hreq, hc, hex]
        refine ⟨some skip.bound, hpush, fun r => (hbound r).trans (iff_self_and.mpr fun hr => startReached_false.mpr ?_)⟩
        rw [shouldBePresent_iff, hsame] at hr
        exact ⟨hr.1, fun hafter => absurd (Or.inr hafter) hex⟩
    | lt =>
      -- past the start is past the bound
      refine ⟨some rs, by simp [getStart, hs, hreq, hc], fun r => iff_and_self.mpr fun hr => shouldBePresent_iff.mpr ?_⟩
      have hpast : startReached rs skip.sort false r = true := hr
      have hle : (rowCmp skip.sort rs.row r).isLE = true :=
        SList.not_gt_iff.mp (SList.not_gt_of_not_lt (startReached_false.mp hpast).1)
      have hgt : rowCmp skip.sort r skip.bound.row = .gt := SList.gt_iff_lt.mpr (Std.TransCmp.lt_of_lt_of_isLE hc hle)
      refine ⟨?_, fun _ => hgt⟩
      rw [hgt]
      decide

/-- Backwards, the merged start is the request's for the rows past the bound; there may be none of them. -/
theorem getStart_reverse {req : FetchRequest} (hreq : req.reverse = true) :
    (skip.getStart req = .empty ∧ ∀ r, skip.shouldBePresent r = true → reached skip.sort true req.start r ≠ true) ∨
      ∃ start, skip.getStart req = .use start ∧ ∀ r, skip.shouldBePresent r = true →
        (reached skip.sort true start r = true ↔ reached skip.sort true req.start r = true) := by
  cases hs : req.start with
  | none => exact Or.inr ⟨none, by simp [getStart, hs, hreq], fun r _ => Iff.rfl⟩
  | some rs =>
    cases hc : rowCmp skip.sort skip.bound.row rs.row with
    | gt =>
      refine Or.inl ⟨by simp [getStart, hs, hreq, hc], fun r hr hrs => ?_⟩
      rw [shouldBePresent_iff] at hr
      have hle : (rowCmp skip.sort skip.bound.row r).isLE = true := SList.not_gt_iff.mp (SList.not_gt_of_not_lt hr.1)
      have hgt := SList.gt_iff_lt.mpr (Std.TransCmp.lt_of_lt_of_isLE (SList.gt_iff_lt.mp hc) hle)
      exact (startReached_true.mp hrs).1 hgt
    | eq =>
      have hsame : ∀ r, rowCmp skip.sort r skip.bound.row = rowCmp skip.sort r rs.row := fun r => Std.TransCmp.congr_right hc
      by_cases hin : skip.bound.basis ≠ .after ∧ rs.basis = .atRow
      · refine Or.inr ⟨some skip.bound, by simp [getStart, hs, hreq, hc, hin], fun r _ => ?_⟩
        rw [reached, reached, Option.all_some, Option.all_some, startReached_true, startReached_true, hsame]
        simp [hin.1, hin.2]
      have hpush : skip.getStart req = .empty := by simpa [getStart, hs, hreq, hc] using hin
      refine Or.inl ⟨hpush, fun r hr hrs => hin ?_⟩
      -- the one row both could share is left out by one of them
      rw [shouldBePresent_iff, hsame] at hr
      have hrs := startReached_true.mp hrs
      have htie : rowCmp skip.sort r rs.row = .eq := by
        cases h : rowCmp skip.sort r rs.row with
        | lt => exact absurd h hr.1
        | gt => exact absurd h hrs.1
        | eq => rfl
      rw [htie] at hr hrs
      refine ⟨fun hb => (by cases hr.2 hb), ?_⟩
      cases hrb : rs.basis with
      | after => cases hrs.2 hrb
      | atRow => rfl
    | lt => exact Or.inr ⟨some rs, by simp [getStart, hs, hreq, hc], fun r _ => Iff.rfl⟩

/-! ## Fetch -/

theorem asks_iff {sort : SortSpec} {req : FetchRequest} {r : Row} :
    asks sort req r = true ↔ reached sort req.reverse req.start r = true ∧ constraintHolds req.constraint r = true := by
  rw [asks, Bool.and_eq_true]
  rfl

/-- Backwards the rows before the bound come last. -/
theorem takeWhile_present {nodes : List Node} (h : SList.Sorted (compareRowsRev skip.sort true) (nodes.map Node.row)) :
    (nodes.takeWhile fun n => skip.shouldBePresent n.row) = nodes.filter fun n => skip.shouldBePresent n.row := by
  induction nodes with
  | nil => rfl
  | cons x nodes ih =>
    obtain ⟨hx, hrest⟩ := SList.sorted_cons.mp (show SList.Sorted _ (x.row :: nodes.map Node.row) from h)
    by_cases hp : skip.shouldBePresent x.row = true
    · simp only [List.takeWhile_cons, List.filter_cons, hp, if_true, ih hrest]
    · have hnone : (nodes.filter fun n => skip.shouldBePresent n.row) = [] := by
        refine List.filter_eq_nil_iff.mpr fun n hn hpn => hp (shouldBePresent_mono ?_ hpn)
        have hlt := hx n.row (List.mem_map_of_mem hn)
        simp only [compareRowsRev, SList.dirCmp, if_true, Ordering.swap_eq_lt] at hlt
        rw [SList.gt_iff_lt.mp hlt]
        decide
      simp only [List.takeWhile_cons, List.filter_cons, hp, Bool.false_eq_true, if_false, hnone]

/-- Over an input that answers out of `U`, Skip answers out of the nodes of `U` past the bound. -/
theorem fetch_answers {up : Upstream} {U : Set Node} (h : Answers skip.sort up U) :
    Answers skip.sort (skip.fetch up) {n | n ∈ U ∧ skip.shouldBePresent n.row = true} := by
  intro req
  have hswap : ∀ (start : Option Start) (n : Node), asks skip.sort { req with start } n.row = true ↔
      reached skip.sort req.reverse start n.row = true ∧ constraintHolds req.constraint n.row = true := fun start n => asks_iff
  by_cases hrev : req.reverse = true
  · rcases @getStart_reverse skip req hrev with ⟨hempty, hnone⟩ | ⟨start, hstart, hreach⟩
    · refine ⟨[], by simp [fetch, hempty], SList.sorted_nil, fun n => ?_⟩
      constructor
      · intro hn
        cases hn
      · rintro ⟨⟨-, hp⟩, ha, -⟩
        rw [asks_iff, hrev] at ha
        exact absurd ha.1 (hnone n.row hp)
    · obtain ⟨nodes, hup, hsorted, hmem⟩ := h { req with start }
      have hdesc : SList.Sorted (compareRowsRev skip.sort true) (nodes.map Node.row) := by
        rw [← hrev]
        exact hsorted
      refine ⟨nodes.filter fun n => skip.shouldBePresent n.row, ?_, ?_, fun n => ?_⟩
      · simp only [fetch, hstart, hup, Option.map_some, if_pos hrev, takeWhile_present hdesc]
      · rw [hrev]
        exact hdesc.sublist (List.filter_sublist.map _)
      · have hsame := hreach n.row
        rw [List.mem_filter, hmem n, hswap, asks_iff, hrev, Set.mem_ofPred_eq]
        show (n ∈ U ∧ _ ∧ MemorySource.matchesEach (MemorySource.batches req) n.row = true) ∧ _ ↔ _
        tauto
  · rw [Bool.not_eq_true] at hrev
    obtain ⟨start, hstart, hreach⟩ := @getStart_forward skip req hrev
    obtain ⟨nodes, hup, hsorted, hmem⟩ := h { req with start }
    have hfetch : skip.fetch up req = some nodes := by
      rw [← Bool.not_eq_true] at hrev
      simp only [fetch, hstart, hup, Option.map_some, if_neg hrev]
    refine ⟨nodes, hfetch, hsorted, fun n => (hmem n).trans ?_⟩
    rw [hswap, asks_iff, hrev, hreach, Set.mem_ofPred_eq]
    show _ ∧ _ ∧ MemorySource.matchesEach (MemorySource.batches req) n.row = true ↔ _
    tauto

/-! ## Push -/

/-- What the input hands over with a change: the node of an edit is the whole node as it becomes, that of
    a child change is there. -/
def Delivered (schema : Schema) (U : List Tree) : Change → Prop
  | .edit n old => n.Keyed ∧ n.SetValued schema ∧
      ∃ t ∈ U, rowCmp schema.sort t.row old.row = .eq ∧ Tree.ofNode schema n = t.succ schema (.edit n old)
  | .child n _ _ => ∃ t ∈ U, rowCmp schema.sort t.row n.row = .eq
  | _ => True

/-- A run of valid changes, each handed over as it should be. -/
def DeliveredStream (schema : Schema) (U : List Tree) : List Change → Prop
  | [] => True
  | c :: rest => c.ValidFor schema U ∧ Delivered schema U c ∧ DeliveredStream schema (Tree.apply schema U c) rest

/-- The nodes past the bound. -/
def keeps (skip : Skip) (t : Tree) : Bool := skip.shouldBePresent t.row

/-- One push is what a gate on the bound makes. -/
theorem push_gate {schema : Schema} (hsort : skip.sort = schema.sort) {U : List Tree} {c : Change} (hv : c.ValidFor schema U)
    (hd : Delivered schema U c) : GateOut schema U skip.keeps c (skip.push c) := by
  have hsame : ∀ {a b : Row}, rowCmp schema.sort a b = .eq → skip.shouldBePresent a = skip.shouldBePresent b :=
    fun h => shouldBePresent_congr (hsort ▸ h)
  cases c with
  | add n =>
    simp only [push]
    have hn : skip.keeps (.ofNode schema n) = skip.shouldBePresent n.row := by rw [keeps, Tree.ofNode_row]
    cases hp : skip.shouldBePresent n.row with
    | true => exact .addKept (hn.trans hp)
    | false => exact .addDropped (hn.trans hp)
  | remove n =>
    simp only [push]
    obtain ⟨t, ht, hrow⟩ := hv
    have hn : skip.keeps t = skip.shouldBePresent n.row := hsame hrow
    cases hp : skip.shouldBePresent n.row with
    | true => exact .removeKept ht hrow (hn.trans hp)
    | false => exact .removeDropped ht hrow (hn.trans hp)
  | edit n old =>
    simp only [push]
    obtain ⟨hkeyed, hset, t, ht, hrow, htree⟩ := hd
    have hbefore : skip.keeps t = skip.shouldBePresent old.row := hsame hrow
    have hafter : skip.keeps (t.succ schema (.edit n old)) = skip.shouldBePresent n.row := rfl
    cases ho : skip.shouldBePresent old.row <;> cases hp : skip.shouldBePresent n.row
    · exact .silent rfl ht hrow (hbefore.trans ho) (hafter.trans hp)
    · exact .enter rfl ht hrow (hbefore.trans ho) (hafter.trans hp) htree hkeyed hset
    · exact .leave rfl ht hrow (hbefore.trans ho) (hafter.trans hp) rfl
    · exact .pass rfl ht hrow (hbefore.trans ho) (hafter.trans hp)
  | child n rel c =>
    simp only [push]
    obtain ⟨t, ht, hrow⟩ := hd
    have hbefore : skip.keeps t = skip.shouldBePresent n.row := hsame hrow
    have hafter : skip.keeps (t.succ schema (.child n rel c)) = skip.shouldBePresent n.row := by
      rw [keeps, Tree.succ_row_child]
      exact hbefore
    cases hp : skip.shouldBePresent n.row with
    | true => exact .pass rfl ht hrow (hbefore.trans hp) (hafter.trans hp)
    | false => exact .silent rfl ht hrow (hbefore.trans hp) (hafter.trans hp)

/-- Downstream of a run of pushes, step by step. -/
theorem pushAll_fold {schema : Schema} (hsort : skip.sort = schema.sort) (changes : List Change) : ∀ {U : List Tree},
    Tree.OrderedLevel schema U → DeliveredStream schema U changes →
    Change.ValidStream schema (U.filter skip.keeps) (changes.flatMap skip.push) ∧
      ∀ k, Tree.applyAll schema (U.filter skip.keeps) ((changes.take k).flatMap skip.push) =
        (Tree.applyAll schema U (changes.take k)).filter skip.keeps := by
  induction changes with
  | nil => intro U _ _; exact ⟨trivial, fun k => by simp [Tree.applyAll]⟩
  | cons c rest ih =>
    intro U hU hd
    obtain ⟨hv, hc, hrest⟩ := hd
    obtain ⟨hvalid, hfold⟩ := gate_fold hU hv (push_gate hsort hv hc)
    obtain ⟨hvalids, hfolds⟩ := ih (Tree.apply_ordered c hU) hrest
    refine ⟨?_, fun k => ?_⟩
    · rw [List.flatMap_cons]
      exact Change.validStream_append hvalid (hfold ▸ hvalids)
    · cases k with
      | zero => rfl
      | succ k =>
        rw [List.take_succ_cons, List.flatMap_cons, Tree.applyAll_append, hfold, hfolds k]
        rfl

end Skip

/-- Over an input that answers every request out of some nodes, Skip answers it out of those past the
    bound; and over any run of valid changes, what is downstream is at each step the input's nodes
    past the bound, no change it sends being out of place. -/
theorem skip_bound_filter {skip : Skip} {schema : Schema} (hsort : skip.sort = schema.sort) :
    (∀ up U, Answers skip.sort up U → Answers skip.sort (skip.fetch up) {n | n ∈ U ∧ skip.shouldBePresent n.row = true}) ∧
      ∀ U changes, Tree.OrderedLevel schema U → Skip.DeliveredStream schema U changes →
        Change.ValidStream schema (U.filter skip.keeps) (changes.flatMap skip.push) ∧
          ∀ k, Tree.applyAll schema (U.filter skip.keeps) ((changes.take k).flatMap skip.push) =
            (Tree.applyAll schema U (changes.take k)).filter skip.keeps :=
  ⟨fun _ _ h => Skip.fetch_answers h, fun _ changes hU hd => Skip.pushAll_fold hsort changes hU hd⟩

/-- From row 2 on: row 1 is edited into row 3. -/
theorem skip_bound_filter_enters :
    Tree.applyAll (.new ["id"] [0] [(0, true)]) (List.filter (Skip.keeps ⟨⟨[.int 2], .atRow⟩, [(0, true)]⟩) [⟨[.int 1], []⟩])
      (([Change.edit (.leaf [.int 3]) (.leaf [.int 1])].take 1).flatMap (Skip.push ⟨⟨[.int 2], .atRow⟩, [(0, true)]⟩)) =
    (Tree.applyAll (.new ["id"] [0] [(0, true)]) [⟨[.int 1], []⟩] ([Change.edit (.leaf [.int 3]) (.leaf [.int 1])].take 1)).filter
      (Skip.keeps ⟨⟨[.int 2], .atRow⟩, [(0, true)]⟩) := by
  have hU : Tree.OrderedLevel (.new ["id"] [0] [(0, true)]) [⟨[.int 1], []⟩] :=
    ⟨List.pairwise_singleton _ _, fun t ht => by
      rw [List.mem_singleton.mp ht]
      exact ⟨rfl, fun _ _ _ h => (by cases h), fun _ _ _ h => by cases h⟩⟩
  have hleaf : Node.Keyed (.leaf [.int 3]) ∧ Node.SetValued (.new ["id"] [0] [(0, true)]) (.leaf [.int 3]) :=
    ⟨⟨by simp, by simp⟩, ⟨by simp, by simp⟩⟩
  have htie : rowCmp [(0, true)] [.int 1] [.int 1] = .eq := Std.ReflCmp.compare_self
  have hd : Skip.DeliveredStream (.new ["id"] [0] [(0, true)]) [⟨[.int 1], []⟩] [.edit (.leaf [.int 3]) (.leaf [.int 1])] := by
    refine ⟨⟨⟨_, List.mem_singleton.mpr rfl, htie⟩, Or.inr fun t ht => ?_⟩,
      ⟨hleaf.1, hleaf.2, _, List.mem_singleton.mpr rfl, htie, rfl⟩, trivial⟩
    rw [List.mem_singleton.mp ht]
    decide +kernel
  exact ((@skip_bound_filter ⟨⟨[.int 2], .atRow⟩, [(0, true)]⟩ (.new ["id"] [0] [(0, true)]) rfl).2 _ _ hU hd).2 1

end Rindle
