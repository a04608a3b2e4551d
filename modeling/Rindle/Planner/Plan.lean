/-
  Rindle.Planner.Plan — what planning does to the joins.

  Every pass but a flip leaves the joins alone and is undone by a reset (`Prepares`), so what a
  pattern costs depends on the graph and the pattern only (`trial`). The search keeps a snapshot of
  a trial (`SearchOf`), and restoring a snapshot gives the joins of that trial back, so `plan`
  leaves each join as it was but for its type, and the type of one that may not flip as it began
  (`plan_retyped`).
-/

import Rindle.Planner.Graph

set_option linter.dupNamespace false

namespace Rindle.Planner

namespace PlannerGraph

/-! ## Passes -/

/-- The joins are as they were, and so is all that a reset keeps. -/
structure Prepares (g g' : PlannerGraph) : Prop where
  joins : g'.joins = g.joins
  reset : g'.resetPlanningState = g.resetPlanningState

variable (fuel : Nat) (g : PlannerGraph)

theorem Prepares.refl : Prepares g g := ⟨rfl, rfl⟩

theorem Prepares.trans {g g' g'' : PlannerGraph} (h : Prepares g g') (h' : Prepares g' g'') : Prepares g g'' :=
  ⟨h'.joins.trans h.joins, h'.reset.trans h.reset⟩

theorem map_modify_of {α β : Type} {f : α → α} {r : α → β} (h : ∀ x, r (f x) = r x) (l : List α) (i : Nat) :
    (l.modify i f).map r = l.map r := by
  apply List.ext_getElem?
  intro n
  rw [List.getElem?_map, List.getElem?_map, List.getElem?_modify]
  cases l[n]? with
  | none => rfl
  | some x =>
    by_cases hi : i = n
    · simp [hi, h]
    · simp [hi]

theorem foldl_prepares {α : Type} {f : PlannerGraph → α → PlannerGraph} (h : ∀ g a, Prepares g (f g a)) (l : List α) (g : PlannerGraph) :
    Prepares g (l.foldl f g) := by
  induction l generalizing g with
  | nil => exact .refl g
  | cons a l ih => exact (h g a).trans (ih _)

theorem modify_connections_prepares {f : PlannerConnection → PlannerConnection} (h : ∀ c, (f c).reset = c.reset) (g : PlannerGraph)
    (i : Nat) : Prepares g { g with connections := g.connections.modify i f } := by
  refine ⟨rfl, ?_⟩
  simp only [resetPlanningState, map_modify_of h]

theorem propagateConstraints_prepares (id : NodeId) (branch : List Nat)
    (constraint : Option PlannerConstraint) : Prepares g (propagateConstraints fuel g id branch constraint) := by
  induction fuel generalizing g id branch constraint with
  | zero => exact .refl g
  | succ fuel ih =>
    cases id with
    | connection i => exact @modify_connections_prepares (·.propagateConstraints branch constraint) (fun _ => rfl) g i
    | join i =>
      simp only [propagateConstraints]
      split
      · exact .refl g
      · split
        · exact (ih _ _ _ _).trans (ih _ _ _ _)
        · exact (ih _ _ _ _).trans (ih _ _ _ _)
    | fanOut i =>
      simp only [propagateConstraints]
      split
      · exact .refl g
      · exact ih _ _ _ _
    | fanIn i =>
      simp only [propagateConstraints]
      split
      · exact .refl g
      · exact foldl_prepares (fun g p => ih _ _ _ _) _ g
    | terminus =>
      simp only [propagateConstraints]
      split
      · exact .refl g
      · exact ih _ _ _ _

theorem propagateUnlimitFromFlippedJoin_prepares (id : NodeId) :
    Prepares g (propagateUnlimitFromFlippedJoin fuel g id) := by
  induction fuel generalizing g id with
  | zero => exact .refl g
  | succ fuel ih =>
    cases id with
    | connection i =>
      refine modify_connections_prepares (fun c => ?_) g i
      unfold PlannerConnection.unlimit
      split <;> rfl
    | join i =>
      simp only [propagateUnlimitFromFlippedJoin]
      split
      · exact .refl g
      · exact ih _ _
    | fanOut i =>
      simp only [propagateUnlimitFromFlippedJoin]
      split
      · exact .refl g
      · exact ih _ _
    | fanIn i =>
      simp only [propagateUnlimitFromFlippedJoin]
      split
      · exact .refl g
      · exact foldl_prepares (fun g p => ih _ _) _ g
    | terminus => exact .refl g

theorem propagateUnlimitForFlippedJoins_prepares : Prepares g g.propagateUnlimitForFlippedJoins := by
  refine foldl_prepares (fun g j => ?_) g.joins g
  split
  · exact propagateUnlimitFromFlippedJoin_prepares _ _ _
  · exact .refl g

theorem checkAndConvertFofi_prepares (cache : List (Nat × Option Nat × List Nat)) :
    Prepares g (g.checkAndConvertFofi cache) := by
  refine foldl_prepares (fun g e => ?_) cache g
  simp only
  split
  · split
    · refine ⟨rfl, ?_⟩
      simp only [resetPlanningState]
      rw [map_modify_of (f := PlannerFanOut.convertToUfo) (fun _ => rfl), map_modify_of (f := PlannerFanIn.convertToUfi) (fun _ => rfl)]
    · exact .refl g
  · exact .refl g

/-! ## Flipping -/

/-- The same join, of another type if it may flip. -/
def Retype (j j' : PlannerJoin) : Prop := j' = { j with type := j'.type } ∧ (j.flippable = false → j'.type = j.type)

theorem Retype.refl (j : PlannerJoin) : Retype j j := ⟨rfl, fun _ => rfl⟩

theorem Retype.trans {j j' j'' : PlannerJoin} (h : Retype j j') (h' : Retype j' j'') : Retype j j'' := by
  obtain ⟨he, hf⟩ := h
  obtain ⟨he', hf'⟩ := h'
  refine ⟨?_, ?_⟩
  · rw [he', he]
  · intro hj
    have : j'.flippable = false := by rw [he]; exact hj
    rw [hf' this, hf hj]

theorem Retype.reset {j j' : PlannerJoin} (h : Retype j j') : j'.reset = j.reset := by
  rw [h.1]
  rfl

theorem retyped_refl (joins : List PlannerJoin) : List.Forall₂ Retype joins joins := List.forall₂_same.mpr fun j _ => .refl j

theorem retyped_trans {a b c : List PlannerJoin} (h : List.Forall₂ Retype a b) (h' : List.Forall₂ Retype b c) : List.Forall₂ Retype a c := by
  induction h generalizing c with
  | nil => exact h'
  | cons hj _ ih =>
    cases h' with
    | cons hj' h' => exact .cons (hj.trans hj') (ih h')

theorem retyped_reset {a b : List PlannerJoin} (h : List.Forall₂ Retype a b) : b.map (·.reset) = a.map (·.reset) := by
  induction h with
  | nil => rfl
  | cons hj _ ih => rw [List.map_cons, List.map_cons, ih, hj.reset]

/-- The joins to flip: distinct, semi-joins, and such that may flip. -/
def Ready (ids : List Nat) : Prop :=
  ids.Nodup ∧ ∀ id ∈ ids, ∃ j, g.joins[id]? = some j ∧ j.type = .semi ∧ j.flippable = true

theorem flipJoin_ok {g : PlannerGraph} {id : Nat} {j : PlannerJoin} (hj : g.joins[id]? = some j) (hs : j.type = .semi)
    (hf : j.flippable = true) : g.flipJoin id = some { g with joins := g.joins.set id { j with type := .flipped } } := by
  simp [flipJoin, hj, PlannerJoin.flip, hs, hf]

theorem forall₂_set {α : Type} {R : α → α → Prop} (hr : ∀ a, R a a) {l : List α} {i : Nat} {a b : α} (h : l[i]? = some a) (hab : R a b) :
    List.Forall₂ R l (l.set i b) := by
  induction l generalizing i with
  | nil => simp at h
  | cons x l ih =>
    cases i with
    | zero =>
      simp only [List.getElem?_cons_zero, Option.some.injEq] at h
      subst h
      exact .cons hab (List.forall₂_same.mpr fun y _ => hr y)
    | succ i => exact .cons (hr x) (ih (by simpa using h))

/-- A pattern can be applied, and changes nothing but the types of joins that may flip. -/
theorem applyPattern_ok {ids : List Nat} (pattern : Nat) : ∀ (n : Nat) {g : PlannerGraph}, g.Ready ids →
    ∃ joins, (ids.zipIdx n).foldlM (fun g p => if pattern.testBit p.2 then g.flipJoin p.1 else some g) g = some { g with joins } ∧
      List.Forall₂ Retype g.joins joins := by
  induction ids with
  | nil => exact fun n g _ => ⟨g.joins, rfl, retyped_refl _⟩
  | cons id ids ih =>
    intro n g hready
    obtain ⟨hnodup, hids⟩ := hready
    obtain ⟨hnot, hnodup⟩ := List.nodup_cons.mp hnodup
    rw [List.forall_mem_cons] at hids
    obtain ⟨⟨j, hj, hs, hf⟩, hids⟩ := hids
    rw [List.zipIdx_cons, List.foldlM_cons]
    by_cases hbit : pattern.testBit n = true
    · simp only [hbit, if_true, flipJoin_ok hj hs hf]
      have hready' : Ready { g with joins := g.joins.set id { j with type := .flipped } } ids := by
        refine ⟨hnodup, fun id' hid' => ?_⟩
        have hne : id ≠ id' := fun h => hnot (h ▸ hid')
        rw [List.getElem?_set_ne hne]
        exact hids id' hid'
      obtain ⟨joins, hfold, hretype⟩ := ih (n + 1) hready'
      have hset : List.Forall₂ Retype g.joins (g.joins.set id { j with type := .flipped }) :=
        forall₂_set Retype.refl hj ⟨rfl, fun h => by rw [hf] at h; cases h⟩
      exact ⟨joins, hfold, retyped_trans hset hretype⟩
    · simp only [hbit, Bool.false_eq_true, if_false]
      exact ih (n + 1) ⟨hnodup, hids⟩

/-! ## Trials -/

/-- As it is built: no join has been planned, and one that may flip begins as a semi-join. -/
structure Fresh (g : PlannerGraph) : Prop where
  type : ∀ j ∈ g.joins, j.type = j.initialType
  semi : ∀ j ∈ g.joins, j.flippable = true → j.initialType = .semi

/-- The graph as a pattern leaves it for the estimate. -/
def trial (pattern : Nat) : Option PlannerGraph :=
  (g.resetPlanningState.applyPattern g.flippable pattern).map fun t =>
    (t.checkAndConvertFofi g.buildFofiCache).propagateUnlimitForFlippedJoins.propagateConstraintsFromTerminus

theorem mem_flippable {g : PlannerGraph} {id : Nat} : id ∈ g.flippable ↔ ∃ j, g.joins[id]? = some j ∧ j.flippable = true := by
  simp only [flippable, List.mem_map, List.mem_filter, Prod.exists, List.mem_zipIdx_iff_getElem?]
  constructor
  · intro h
    obtain ⟨j, i, ⟨hj, hf⟩, rfl⟩ := h
    exact ⟨j, hj, hf⟩
  · intro h
    obtain ⟨j, hj, hf⟩ := h
    exact ⟨j, id, ⟨hj, hf⟩, rfl⟩

theorem flippable_nodup : g.flippable.Nodup := by
  have hall : (g.joins.zipIdx.map (·.2)).Nodup := by
    rw [List.zipIdx_map_snd]
    exact List.nodup_range'
  exact hall.sublist ((List.filter_sublist).map _)

theorem reset_fresh {g : PlannerGraph} (h : g.Fresh) : g.joins.map (·.reset) = g.joins := by
  have hid : ∀ j ∈ g.joins, j.reset = id j := fun j hj => by
    have ht := h.type j hj
    cases j
    cases ht
    rfl
  rw [List.map_congr_left hid, List.map_id]

theorem trial_ok {g : PlannerGraph} (h : g.Fresh) (pattern : Nat) :
    ∃ t, g.trial pattern = some t ∧ t.resetPlanningState = g.resetPlanningState ∧ List.Forall₂ Retype g.joins t.joins := by
  have hreset : g.resetPlanningState.joins = g.joins := reset_fresh h
  have hready : g.resetPlanningState.Ready g.flippable := by
    refine ⟨flippable_nodup g, fun id hid => ?_⟩
    obtain ⟨j, hj, hf⟩ := mem_flippable.mp hid
    have hmem := List.mem_of_getElem? hj
    exact ⟨j, by rw [hreset]; exact hj, (h.type j hmem).trans (h.semi j hmem hf), hf⟩
  obtain ⟨joins, hfold, hretype⟩ := applyPattern_ok pattern 0 hready
  rw [hreset] at hretype
  have happly : g.resetPlanningState.applyPattern g.flippable pattern = some { g.resetPlanningState with joins } := hfold
  have hpasses : ∀ t : PlannerGraph, Prepares t
      (t.checkAndConvertFofi g.buildFofiCache).propagateUnlimitForFlippedJoins.propagateConstraintsFromTerminus := fun t =>
    (checkAndConvertFofi_prepares t _).trans
      ((propagateUnlimitForFlippedJoins_prepares _).trans (propagateConstraints_prepares _ _ _ _ _))
  refine ⟨_, by rw [trial, happly]; rfl, ?_, ?_⟩
  · rw [(hpasses _).reset]
    have hjoins : joins.map (·.reset) = g.joins.map (·.reset) := retyped_reset hretype
    simp only [resetPlanningState, hjoins, List.map_map]
    rfl
  · rw [(hpasses _).joins]
    exact hretype

/-! ## The search -/

section
variable {totalCost : PlannerGraph → F64} {g : PlannerGraph}

/-- The search so far: every pattern of `seen` was tried. -/
structure SearchOf (totalCost : PlannerGraph → F64) (g : PlannerGraph) (seen : List Nat) (s : Search) : Prop where
  reset : s.graph.resetPlanningState = g.resetPlanningState
  below : s.bestPlan ≠ none → F64.lt s.bestCost .infinity = true
  none : s.bestPlan = none → s.bestCost = .infinity ∧ ∀ p ∈ seen, ∀ t, g.trial p = some t → F64.lt (totalCost t) .infinity = false
  some : ∀ best, s.bestPlan = some best → ∃ p ∈ seen, ∃ t, g.trial p = some t ∧ F64.lt (totalCost t) .infinity = true ∧
    best = t.capturePlanningSnapshot

theorem planStep_eq {s : Search} (h : s.graph.resetPlanningState = g.resetPlanningState) (pattern : Nat) :
    planStep totalCost g.buildFofiCache g.flippable s pattern = (g.trial pattern).map fun t =>
      if F64.lt (totalCost t) s.bestCost then ⟨t, totalCost t, some t.capturePlanningSnapshot⟩ else { s with graph := t } := by
  rw [planStep, h, trial, Option.map_map]
  cases g.resetPlanningState.applyPattern g.flippable pattern <;> rfl

theorem lt_trans_f64 {a b c : F64} (h : F64.lt a b = true) (h' : F64.lt b c = true) : F64.lt a c = true := by
  simp only [F64.lt, Bool.and_eq_true, decide_eq_true_eq] at h h' ⊢
  exact ⟨⟨h.1.1, h'.1.2⟩, by omega⟩

theorem planStep_ok (hg : g.Fresh) {seen : List Nat} {s : Search} (hs : SearchOf totalCost g seen s) (pattern : Nat) :
    ∃ s', planStep totalCost g.buildFofiCache g.flippable s pattern = some s' ∧ SearchOf totalCost g (seen ++ [pattern]) s' := by
  obtain ⟨t, ht, hreset, -⟩ := trial_ok hg pattern
  rw [planStep_eq hs.reset, ht, Option.map_some]
  by_cases hlt : F64.lt (totalCost t) s.bestCost = true
  · rw [if_pos hlt]
    have hinf : F64.lt (totalCost t) .infinity = true := by
      by_cases hb : s.bestPlan = .none
      · rw [← (hs.none hb).1]
        exact hlt
      · exact lt_trans_f64 hlt (hs.below hb)
    refine ⟨_, rfl, hreset, fun _ => hinf, (fun h => by cases h), ?_⟩
    intro best hbest
    cases hbest
    exact ⟨pattern, by simp, t, ht, hinf, rfl⟩
  · rw [if_neg hlt]
    refine ⟨_, rfl, hreset, hs.below, ?_, ?_⟩
    · intro hb
      obtain ⟨hcost, hseen⟩ := hs.none hb
      refine ⟨hcost, fun p hp => ?_⟩
      rcases List.mem_append.mp hp with hp | hp
      · exact hseen p hp
      · intro t' ht'
        rw [List.mem_singleton.mp hp, ht] at ht'
        cases ht'
        rw [← hcost]
        simpa using hlt
    · intro best hbest
      obtain ⟨p, hp, hrest⟩ := hs.some best hbest
      exact ⟨p, List.mem_append_left _ hp, hrest⟩

theorem search_ok (hg : g.Fresh) (patterns : List Nat) : ∀ {seen : List Nat} {s : Search}, SearchOf totalCost g seen s →
    ∃ s', patterns.foldlM (planStep totalCost g.buildFofiCache g.flippable) s = some s' ∧
      SearchOf totalCost g (seen ++ patterns) s' := by
  induction patterns with
  | nil => exact fun {seen s} hs => ⟨s, rfl, by rw [List.append_nil]; exact hs⟩
  | cons p patterns ih =>
    intro seen s hs
    obtain ⟨s', hstep, hs'⟩ := planStep_ok hg hs p
    obtain ⟨s'', hfold, hs''⟩ := ih hs'
    refine ⟨s'', by rw [List.foldlM_cons, hstep]; exact hfold, ?_⟩
    rw [List.append_assoc] at hs''
    exact hs''

/-! ## Restoring -/

theorem restoreJoin_reset (j : PlannerJoin) (target : JoinType) : restoreJoin j.reset target = restoreJoin j target := rfl

theorem restoreJoins_reset (joins : List PlannerJoin) (targets : List JoinType) :
    restoreJoins (joins.map (·.reset)) targets = restoreJoins joins targets := by
  induction joins generalizing targets with
  | nil => cases targets <;> rfl
  | cons j joins ih =>
    cases targets with
    | nil => rfl
    | cons target targets =>
      rw [List.map_cons, restoreJoins, restoreJoins, restoreJoin_reset, ih]

/-- A snapshot of a retyped join gives it back. -/
theorem restoreJoin_type {j j' : PlannerJoin} (h : Retype j j') (hinit : j.type = j.initialType)
    (hsemi : j.flippable = true → j.initialType = .semi) : restoreJoin j j'.type = some j' := by
  obtain ⟨heq, hfixed⟩ := h
  cases j with
  | mk parent child parentConstraint childConstraint flippable planId initialType output type origin =>
    simp only at hinit hsemi hfixed
    subst hinit
    rw [heq]
    cases flippable with
    | false => simp [restoreJoin, PlannerJoin.reset, hfixed]
    | true =>
      rw [hsemi rfl]
      cases j'.type <;> simp [restoreJoin, PlannerJoin.reset, PlannerJoin.flip]

theorem restoreJoins_type {joins joins' : List PlannerJoin} (h : List.Forall₂ Retype joins joins')
    (hinit : ∀ j ∈ joins, j.type = j.initialType) (hsemi : ∀ j ∈ joins, j.flippable = true → j.initialType = .semi) :
    restoreJoins joins (joins'.map (·.type)) = some joins' := by
  induction h with
  | nil => rfl
  | cons hj _ ih =>
    rw [List.forall_mem_cons] at hinit hsemi
    rw [List.map_cons, restoreJoins, restoreJoin_type hj hinit.1 hsemi.1, ih hinit.2 hsemi.2]
    rfl

/-- Restoring a trial's snapshot gives its joins back. -/
theorem restore_trial (hg : g.Fresh) {s t : PlannerGraph} (hs : s.resetPlanningState = g.resetPlanningState)
    (ht : t.resetPlanningState = g.resetPlanningState) (hretype : List.Forall₂ Retype g.joins t.joins) :
    ∃ g', s.restorePlanningSnapshot t.capturePlanningSnapshot = some g' ∧ g'.joins = t.joins := by
  have hst := hs.trans ht.symm
  have hlen : ∀ {α : Type} (f : PlannerGraph → List α) (r : α → α), (∀ x : PlannerGraph, f x.resetPlanningState = (f x).map r) →
      (f s).length = (f t).length := by
    intro α f r hf
    have := congrArg (fun x => (f x).length) hst
    simpa [hf] using this
  have hjoins : restoreJoins s.joins (t.joins.map (·.type)) = some t.joins := by
    have hsj : s.joins.map (·.reset) = g.joins.map (·.reset) := congrArg joins hs
    rw [← restoreJoins_reset, hsj, restoreJoins_reset]
    exact restoreJoins_type hretype hg.type hg.semi
  have hlens : s.connections.length = t.connections.length ∧ s.joins.length = t.joins.length ∧ s.fanOuts.length = t.fanOuts.length ∧
      s.fanIns.length = t.fanIns.length :=
    ⟨hlen connections _ (fun _ => rfl), hlen joins _ (fun _ => rfl), hlen fanOuts _ (fun _ => rfl), hlen fanIns _ (fun _ => rfl)⟩
  simp only [restorePlanningSnapshot, capturePlanningSnapshot, List.length_map, hlens, and_self, if_true, hjoins]
  exact ⟨_, rfl, rfl⟩

/-! ## The plan -/

/-- Some pattern of the enumeration costs less than infinity, if there is anything to enumerate. -/
def Priced (totalCost : PlannerGraph → F64) (g : PlannerGraph) : Prop :=
  g.flippable = [] ∨ maxFlippableJoins < g.flippable.length ∨
    ∃ pattern, pattern < 2 ^ g.flippable.length ∧ ∃ t, g.trial pattern = some t ∧ F64.lt (totalCost t) .infinity = true

theorem plan_cases (hg : g.Fresh) :
    (∃ g', g.plan totalCost = some g' ∧ g.Priced totalCost ∧ List.Forall₂ Retype g.joins g'.joins) ∨
      (g.plan totalCost = none ∧ ¬ g.Priced totalCost) := by
  by_cases hmany : maxFlippableJoins < g.flippable.length
  · refine Or.inl ⟨g, ?_, Or.inr (Or.inl hmany), retyped_refl _⟩
    simp [plan, hmany]
  by_cases hnil : g.flippable = []
  · refine Or.inl ⟨g, ?_, Or.inl hnil, retyped_refl _⟩
    simp [plan, hnil]
  have hstart : SearchOf totalCost g [] ⟨g, .infinity, none⟩ :=
    ⟨rfl, fun h => absurd rfl h, fun _ => ⟨rfl, fun p hp => by cases hp⟩, fun _ h => by cases h⟩
  obtain ⟨s, hfold, hs⟩ := search_ok hg (List.range (2 ^ g.flippable.length)) hstart
  rw [List.nil_append] at hs
  have hpatterns : 2 ^ g.flippable.length ≠ 0 := by positivity
  have hempty : g.flippable.isEmpty = false := by simpa using hnil
  have hplan : g.plan totalCost = s.bestPlan.bind fun best =>
      (s.graph.restorePlanningSnapshot best).map propagateConstraintsFromTerminus := by
    unfold plan
    simp only [if_neg hmany, hempty, Bool.false_eq_true, if_false, hfold, hpatterns, Option.bind_eq_bind, Option.bind_some]
    cases s.bestPlan with
    | none => rfl
    | some best => cases h : s.graph.restorePlanningSnapshot best <;> simp [h]
  cases hbest : s.bestPlan with
  | none =>
    refine Or.inr ⟨by rw [hplan, hbest, Option.bind_none], ?_⟩
    intro hpriced
    rcases hpriced with h | h | ⟨pattern, hlt, t, ht, hcost⟩
    · exact hnil h
    · exact hmany h
    · have := (hs.none hbest).2 pattern (List.mem_range.mpr hlt) t ht
      rw [hcost] at this
      cases this
  | some best =>
    obtain ⟨p, hp, t, ht, hcost, rfl⟩ := hs.some best hbest
    obtain ⟨t', ht', hreset, hretype⟩ := trial_ok hg p
    rw [ht] at ht'
    cases ht'
    obtain ⟨g', hrestore, hjoins⟩ := restore_trial hg hs.reset hreset hretype
    refine Or.inl ⟨_, by rw [hplan, hbest, Option.bind_some, hrestore]; rfl, Or.inr (Or.inr ⟨p, List.mem_range.mp hp, t, ht, hcost⟩), ?_⟩
    rw [propagateConstraintsFromTerminus, (propagateConstraints_prepares _ _ _ _ _).joins, hjoins]
    exact hretype

/-- Planning retypes the joins that may flip and nothing else. -/
theorem plan_retyped (hg : g.Fresh) {g' : PlannerGraph} (h : g.plan totalCost = some g') : List.Forall₂ Retype g.joins g'.joins := by
  rcases @plan_cases totalCost g hg with ⟨g'', hplan, -, hretype⟩ | ⟨hplan, -⟩
  · rw [h] at hplan
    cases hplan
    exact hretype
  · rw [h] at hplan
    cases hplan

theorem plan_isSome (hg : g.Fresh) : (g.plan totalCost).isSome = true ↔ g.Priced totalCost := by
  rcases @plan_cases totalCost g hg with ⟨g', hplan, hpriced, -⟩ | ⟨hplan, hpriced⟩
  · simp [hplan, hpriced]
  · simp [hplan, hpriced]

end

end PlannerGraph

end Rindle.Planner
