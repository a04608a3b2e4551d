/-
  Rindle.Planner.Build — from a query to its plan graph (`rindle-planner/src/builder.rs`).

  A condition is walked from the left, an EXISTS after the condition of its own child, and each
  EXISTS met takes the next plan id and becomes a join. `existsAt` lists the EXISTS conditions of a
  condition in that order with the path to each, and `processCondition_joins` says that the joins
  are theirs, one each, in this order.

  A path names a condition by the child taken at each AND and OR and by 0 at each EXISTS.
-/

import Rindle.Planner.Plan

set_option linter.dupNamespace false

namespace Rindle.Planner

structure Builder where
  graph : PlannerGraph
  nextPlanId : Nat

mutual

/-- `has_correlated_subquery`. -/
def hasCorrelatedSubquery : Condition → Bool
  | .correlatedSubquery _ _ => true
  | .and conditions => anyCorrelatedSubquery conditions
  | .or conditions => anyCorrelatedSubquery conditions
  | .simple _ => false

def anyCorrelatedSubquery : List Condition → Bool
  | [] => false
  | c :: conditions => hasCorrelatedSubquery c || anyCorrelatedSubquery conditions

end

/-- `connect`. -/
def connect (table : String) (sort : List (String × Dir)) (filters : Option Condition) (isRoot : Bool)
    (baseConstraints : Option PlannerConstraint) (limit : Option Nat) : PlannerConnection :=
  ⟨table, sort, filters, isRoot, baseConstraints, limit, limit, []⟩

/-- Whether the planner may flip the join of an EXISTS, and the type it begins with. -/
def flippability (flags : ExistsFlags) : Bool × JoinType :=
  match flags.op with
  | .notExists => (false, .semi)
  | .exists =>
    match flags.flip with
    | some true => (false, .flipped)
    | some false => (false, .semi)
    | none => (true, .semi)

variable (b : Builder)

/-- The source of a table, registered once. -/
def Builder.source (table : String) : Builder :=
  if b.graph.sources.contains table then b else { b with graph := { b.graph with sources := b.graph.sources ++ [table] } }

/-- The connection of an EXISTS child: one row will do, for NOT EXISTS none is enough. -/
def Builder.connectChild (child : Ast) (op : ExistsOp) : NodeId × Builder :=
  let limit := match op with
    | .exists => some 1
    | .notExists => none
  let (id, graph) := (b.source child.table).graph.addConnection (connect child.table child.head.orderBy child.where? false none limit)
  (id, { b.source child.table with graph })

/-- The join of an EXISTS, wired to its inputs. -/
def Builder.join (path : List Nat) (correlation : Correlation) (flags : ExistsFlags) (input childEnd : NodeId) :
    NodeId × Builder :=
  let (flippable, initialType) := flippability flags
  let (id, graph) := b.graph.addJoin
    { parent := input, child := childEnd, parentConstraint := collect correlation.parentField,
      childConstraint := collect correlation.childField, flippable, planId := b.nextPlanId, initialType, output := none,
      type := initialType, origin := path }
  (id, { graph := (graph.wireOutput input id).wireOutput childEnd id, nextPlanId := b.nextPlanId + 1 })

/-- The fan-out of an OR. -/
def Builder.fanOut (input : NodeId) : NodeId × Builder :=
  let (id, graph) := b.graph.addFanOut ⟨.fo, input, []⟩
  (id, { b with graph := graph.wireOutput input id })

/-- The fan-in of an OR. -/
def Builder.fanIn (branches : List NodeId) : NodeId × Builder :=
  let (id, graph) := b.graph.addFanIn ⟨.fi, branches⟩
  (id, { b with graph := branches.foldl (fun g branch => g.wireOutput branch id) graph })

mutual

/-- `process_condition`, with `process_or` and `process_correlated_subquery`. -/
def processCondition (path : List Nat) : Condition → NodeId → Builder → NodeId × Builder
  | .simple _, input, b => (input, b)
  | .and conditions, input, b => processAnd path 0 conditions input b
  | .or conditions, input, b =>
    if !anyCorrelatedSubquery conditions then (input, b)
    else
      let (fanOut, b) := b.fanOut input
      let (branches, b) := processBranches path 0 conditions fanOut b
      b.fanIn branches
  | .correlatedSubquery ⟨correlation, child, _⟩ flags, input, b =>
    let (childConnection, b) := b.connectChild child flags.op
    let (childEnd, b) := processChild (path ++ [0]) child childConnection b
    b.join path correlation flags input childEnd

/-- `process_and`, from the `i`th condition on. -/
def processAnd (path : List Nat) (i : Nat) : List Condition → NodeId → Builder → NodeId × Builder
  | [], input, b => (input, b)
  | c :: conditions, input, b =>
    let (input, b) := processCondition (path ++ [i]) c input b
    processAnd path (i + 1) conditions input b

/-- The branches of `process_or`: those with a subquery. -/
def processBranches (path : List Nat) (i : Nat) : List Condition → NodeId → Builder → List NodeId × Builder
  | [], _, b => ([], b)
  | c :: conditions, fanOut, b =>
    if hasCorrelatedSubquery c then
      let (branch, b) := processCondition (path ++ [i]) c fanOut b
      let (branches, b) := processBranches path (i + 1) conditions fanOut { b with graph := b.graph.addOutput fanOut branch }
      (branch :: branches, b)
    else processBranches path (i + 1) conditions fanOut b

/-- The condition of an EXISTS child. -/
def processChild (path : List Nat) : Ast → NodeId → Builder → NodeId × Builder
  | .mk _ (some w) _ _, input, b => processCondition path w input b
  | .mk _ none _ _, input, b => (input, b)

end

/-- The graph of `build_plan_graph`. -/
def buildGraph (ast : Ast) (isRoot : Bool) (baseConstraints : Option PlannerConstraint) : PlannerGraph :=
  let b : Builder := ⟨{ sources := [ast.table] }, 0⟩
  let (connection, graph) := b.graph.addConnection
    (connect ast.table ast.head.orderBy ast.where? isRoot baseConstraints ast.head.limit)
  let (last, b) := processChild [] ast connection { b with graph }
  { b.graph.wireOutput last .terminus with terminus := some last }

/-! ## The EXISTS conditions of a condition -/

/-- An EXISTS with the path to it. -/
structure Occurrence where
  path : List Nat
  correlation : Correlation
  flags : ExistsFlags

mutual

/-- In the order of their plan ids: an EXISTS comes after those of its child. -/
def existsAt (path : List Nat) : Condition → List Occurrence
  | .simple _ => []
  | .and conditions => existsFrom path 0 conditions
  | .or conditions => existsFrom path 0 conditions
  | .correlatedSubquery ⟨correlation, child, _⟩ flags => existsUnder (path ++ [0]) child ++ [⟨path, correlation, flags⟩]

def existsFrom (path : List Nat) (i : Nat) : List Condition → List Occurrence
  | [] => []
  | c :: conditions => existsAt (path ++ [i]) c ++ existsFrom path (i + 1) conditions

def existsUnder (path : List Nat) : Ast → List Occurrence
  | .mk _ (some w) _ _ => existsAt path w
  | .mk _ none _ _ => []

end

mutual

theorem existsAt_nil : ∀ {path : List Nat} {c : Condition}, hasCorrelatedSubquery c = false → existsAt path c = []
  | _, .simple _, _ => rfl
  | _, .and _, h => existsFrom_nil h
  | _, .or _, h => existsFrom_nil h
  | _, .correlatedSubquery _ _, h => by cases h

theorem existsFrom_nil : ∀ {path : List Nat} {i : Nat} {conditions : List Condition}, anyCorrelatedSubquery conditions = false →
    existsFrom path i conditions = []
  | _, _, [], _ => rfl
  | _, _, _ :: _, h => by
    simp only [anyCorrelatedSubquery, Bool.or_eq_false_iff] at h
    rw [existsFrom, existsAt_nil h.1, existsFrom_nil h.2]
    rfl

end

/-! ## The joins -/

/-- The join of an EXISTS, before it is wired. -/
def joinFor (e : Occurrence) (planId : Nat) : PlannerJoin :=
  { parent := .terminus, child := .terminus, parentConstraint := collect e.correlation.parentField,
    childConstraint := collect e.correlation.childField, flippable := (flippability e.flags).1, planId,
    initialType := (flippability e.flags).2, output := none, type := (flippability e.flags).2, origin := e.path }

/-- A join without its wires. -/
def unwired (j : PlannerJoin) : PlannerJoin := { j with parent := .terminus, child := .terminus, output := none }

/-- The builder has added the joins of these EXISTS conditions, and taken as many plan ids. -/
structure Adds (b b' : Builder) (es : List Occurrence) : Prop where
  joins : b'.graph.joins.map unwired = b.graph.joins.map unwired ++ (es.zipIdx b.nextPlanId).map fun p => joinFor p.1 p.2
  nextPlanId : b'.nextPlanId = b.nextPlanId + es.length

theorem Adds.refl {b b' : Builder} (hj : b'.graph.joins.map unwired = b.graph.joins.map unwired) (hn : b'.nextPlanId = b.nextPlanId) :
    Adds b b' [] :=
  ⟨by simpa using hj, by simpa using hn⟩

theorem Adds.trans {b b' b'' : Builder} {es es' : List Occurrence} (h : Adds b b' es) (h' : Adds b' b'' es') :
    Adds b b'' (es ++ es') := by
  refine ⟨?_, ?_⟩
  · rw [h'.joins, h.joins, h.nextPlanId, List.zipIdx_append, List.map_append, List.append_assoc]
  · rw [h'.nextPlanId, h.nextPlanId, List.length_append, Nat.add_assoc]

theorem wireOutput_joins (g : PlannerGraph) (source target : NodeId) :
    (g.wireOutput source target).joins.map unwired = g.joins.map unwired := by
  cases source with
  | join i => exact PlannerGraph.map_modify_of (f := fun j => { j with output := some target }) (r := unwired) (fun _ => rfl) g.joins i
  | _ => rfl

theorem addOutput_joins (g : PlannerGraph) (fanOut target : NodeId) : (g.addOutput fanOut target).joins = g.joins := by
  cases fanOut <;> rfl

theorem fanOut_adds (input : NodeId) : Adds b (b.fanOut input).2 [] := .refl (wireOutput_joins _ _ _) rfl

theorem fanIn_adds (branches : List NodeId) : Adds b (b.fanIn branches).2 [] := by
  refine .refl ?_ rfl
  have hfold : ∀ (l : List NodeId) (g : PlannerGraph) (id : NodeId),
      (l.foldl (fun g branch => g.wireOutput branch id) g).joins.map unwired = g.joins.map unwired := by
    intro l
    induction l with
    | nil => exact fun _ _ => rfl
    | cons branch l ih =>
      intro g id
      rw [List.foldl_cons, ih, wireOutput_joins]
  exact hfold branches _ _

theorem connectChild_adds (child : Ast) (op : ExistsOp) : Adds b (b.connectChild child op).2 [] := by
  have hsource : (b.source child.table).graph.joins = b.graph.joins ∧ (b.source child.table).nextPlanId = b.nextPlanId := by
    unfold Builder.source
    split <;> exact ⟨rfl, rfl⟩
  exact .refl (congrArg (List.map unwired) hsource.1) hsource.2

theorem join_adds (path : List Nat) (correlation : Correlation) (flags : ExistsFlags) (input childEnd : NodeId) :
    Adds b (b.join path correlation flags input childEnd).2 [⟨path, correlation, flags⟩] := by
  refine ⟨?_, rfl⟩
  show (PlannerGraph.wireOutput (PlannerGraph.wireOutput _ _ _) _ _).joins.map unwired = _
  rw [wireOutput_joins, wireOutput_joins]
  show (b.graph.joins ++ [_]).map unwired = _
  rw [List.map_append]
  rfl

mutual

/-- Walking a condition adds the joins of its EXISTS conditions. -/
theorem processCondition_adds (path : List Nat) : ∀ (c : Condition) (input : NodeId) (b : Builder),
    Adds b (processCondition path c input b).2 (existsAt path c)
  | .simple _, _, _ => .refl rfl rfl
  | .and conditions, input, b => processAnd_adds path 0 conditions input b
  | .or conditions, input, b => by
    rw [processCondition, existsAt]
    by_cases h : anyCorrelatedSubquery conditions = true
    · rw [h, if_neg (by simp)]
      have := (fanOut_adds b input).trans ((processBranches_adds path 0 conditions (b.fanOut input).1 (b.fanOut input).2).trans
        (fanIn_adds _ (processBranches path 0 conditions (b.fanOut input).1 (b.fanOut input).2).1))
      rw [List.nil_append, List.append_nil] at this
      exact this
    · have hnone : anyCorrelatedSubquery conditions = false := by simpa using h
      rw [hnone, if_pos (by simp), existsFrom_nil hnone]
      exact .refl rfl rfl
  | .correlatedSubquery ⟨correlation, child, _⟩ flags, input, b => by
    have := (connectChild_adds b child flags.op).trans
      ((processChild_adds (path ++ [0]) child (b.connectChild child flags.op).1 (b.connectChild child flags.op).2).trans
        (join_adds _ path correlation flags input
          (processChild (path ++ [0]) child (b.connectChild child flags.op).1 (b.connectChild child flags.op).2).1))
    rw [List.nil_append] at this
    exact this

theorem processAnd_adds (path : List Nat) (i : Nat) : ∀ (conditions : List Condition) (input : NodeId) (b : Builder),
    Adds b (processAnd path i conditions input b).2 (existsFrom path i conditions)
  | [], _, _ => .refl rfl rfl
  | c :: conditions, input, b =>
    (processCondition_adds (path ++ [i]) c input b).trans (processAnd_adds path (i + 1) conditions _ _)

theorem processBranches_adds (path : List Nat) (i : Nat) : ∀ (conditions : List Condition) (fanOut : NodeId) (b : Builder),
    Adds b (processBranches path i conditions fanOut b).2 (existsFrom path i conditions)
  | [], _, _ => .refl rfl rfl
  | c :: conditions, fanOut, b => by
    rw [processBranches, existsFrom]
    by_cases h : hasCorrelatedSubquery c = true
    · rw [if_pos h]
      have hout : Adds (processCondition (path ++ [i]) c fanOut b).2
          { (processCondition (path ++ [i]) c fanOut b).2 with
            graph := (processCondition (path ++ [i]) c fanOut b).2.graph.addOutput fanOut (processCondition (path ++ [i]) c fanOut b).1 } [] :=
        .refl (congrArg (List.map unwired) (addOutput_joins _ _ _)) rfl
      have := (processCondition_adds (path ++ [i]) c fanOut b).trans (hout.trans (processBranches_adds path (i + 1) conditions fanOut _))
      rw [List.nil_append] at this
      exact this
    · rw [if_neg h, existsAt_nil (by simpa using h)]
      exact processBranches_adds path (i + 1) conditions fanOut b

theorem processChild_adds (path : List Nat) : ∀ (child : Ast) (input : NodeId) (b : Builder),
    Adds b (processChild path child input b).2 (existsUnder path child)
  | .mk _ (some w) _ _, input, b => processCondition_adds path w input b
  | .mk _ none _ _, _, _ => .refl rfl rfl

end

/-- The joins of a query's graph are those of its EXISTS conditions, in their order. -/
theorem buildGraph_joins (ast : Ast) (isRoot : Bool) (baseConstraints : Option PlannerConstraint) :
    (buildGraph ast isRoot baseConstraints).joins.map unwired = (existsUnder [] ast).zipIdx.map fun p => joinFor p.1 p.2 := by
  show (PlannerGraph.wireOutput _ _ _).joins.map unwired = _
  rw [wireOutput_joins, (processChild_adds [] ast _ _).joins]
  rfl

theorem buildGraph_fresh (ast : Ast) (isRoot : Bool) (baseConstraints : Option PlannerConstraint) :
    (buildGraph ast isRoot baseConstraints).Fresh := by
  have hall : ∀ j ∈ (buildGraph ast isRoot baseConstraints).joins, ∃ e n, unwired j = joinFor e n := by
    intro j hj
    have hmem := List.mem_map_of_mem (f := unwired) hj
    rw [buildGraph_joins] at hmem
    obtain ⟨p, -, hp⟩ := List.mem_map.mp hmem
    exact ⟨p.1, p.2, hp.symm⟩
  refine ⟨fun j hj => ?_, fun j hj hf => ?_⟩
  · obtain ⟨e, n, h⟩ := hall j hj
    have htype : (unwired j).type = (joinFor e n).type := congrArg (·.type) h
    have hinit : (unwired j).initialType = (joinFor e n).initialType := congrArg (·.initialType) h
    exact htype.trans hinit.symm
  · obtain ⟨e, n, h⟩ := hall j hj
    have hflip : (unwired j).flippable = (joinFor e n).flippable := congrArg (·.flippable) h
    have hinit : (unwired j).initialType = (joinFor e n).initialType := congrArg (·.initialType) h
    rw [show j.initialType = (flippability e.flags).2 from hinit]
    rw [show j.flippable = (flippability e.flags).1 from hflip] at hf
    unfold flippability at hf ⊢
    cases hop : e.flags.op with
    | notExists => rfl
    | «exists» =>
      rw [hop] at hf
      cases hfl : e.flags.flip with
      | none => rfl
      | some b => rw [hfl] at hf; cases b <;> cases hf

end Rindle.Planner
