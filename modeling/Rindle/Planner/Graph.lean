/-
  Rindle.Planner.Graph — the plan graph and the enumeration of flip patterns
  (`rindle-planner/src/graph.rs`, `join.rs`, `fan.rs`, `connection.rs`).

  Nodes are numbered by kind, in the order they were added, so a node of one kind cannot be
  taken for another. What the passes do to the planning state (join and fan types, limits,
  branch constraints) is modelled; the estimate they prepare is not: the total cost is any
  function of the graph. Every pass but `flip` leaves the joins alone and can be undone by
  `reset_planning_state`, so the cost of a pattern depends on the pattern only
  (`planStep_eq`), and what `plan` leaves in the joins is the initial type of each that may not
  flip (`plan_retyped`).

  A plan stops at its assertion exactly when it has joins to flip, no more than it enumerates, and
  no pattern costs less than infinity (`plan_isSome`).

  Left out: a connection's and a fan-in's output and the memo of connection costs, which nothing
  here reads. A limit is the number of rows it stands for.
-/

import Rindle.Ast

set_option linter.dupNamespace false

namespace Rindle.Planner

inductive JoinType where
  | semi
  | flipped
  deriving DecidableEq

inductive FanOutType where
  | fo
  | ufo
  deriving DecidableEq

inductive FanInType where
  | fi
  | ufi
  deriving DecidableEq

inductive NodeId where
  | connection (i : Nat)
  | join (i : Nat)
  | fanOut (i : Nat)
  | fanIn (i : Nat)
  | terminus
  deriving DecidableEq

/-! ## Constraints -/

/-- Column names in the order they were inserted, each once. -/
abbrev PlannerConstraint := List String

/-- Collecting into an insertion-ordered set. -/
def collect (fields : List String) : PlannerConstraint :=
  fields.foldl (fun set f => if set.contains f then set else set ++ [f]) []

/-- `merge_constraints`. -/
def mergeConstraints : Option PlannerConstraint → Option PlannerConstraint → Option PlannerConstraint
  | none, b => b
  | a, none => a
  | some a, some b => some (collect (a ++ b))

/-- `translate_constraints_for_flipped_join`. -/
def translateConstraintsForFlippedJoin (incoming : Option PlannerConstraint) (parentConstraint childConstraint : PlannerConstraint) :
    Option PlannerConstraint :=
  incoming.bind fun incoming =>
    let translated := collect (incoming.filterMap fun key => (parentConstraint.idxOf? key).bind (childConstraint[·]?))
    if translated.isEmpty then none else some translated

/-! ## Nodes -/

structure PlannerConnection where
  table : String
  sort : List (String × Dir)
  filters : Option Condition
  isRoot : Bool
  baseConstraints : Option PlannerConstraint
  baseLimit : Option Nat
  limit : Option Nat
  /-- By branch pattern, the last propagated first. -/
  constraints : List (List Nat × Option PlannerConstraint)

structure PlannerJoin where
  parent : NodeId
  child : NodeId
  parentConstraint : PlannerConstraint
  childConstraint : PlannerConstraint
  flippable : Bool
  planId : Nat
  initialType : JoinType
  output : Option NodeId
  type : JoinType
  /-- Where the condition it was built for stands in the query; nothing reads it. -/
  origin : List Nat

structure PlannerFanOut where
  type : FanOutType
  input : NodeId
  outputs : List NodeId

structure PlannerFanIn where
  type : FanInType
  inputs : List NodeId

namespace PlannerConnection

variable (c : PlannerConnection)

def propagateConstraints (path : List Nat) (constraint : Option PlannerConstraint) : PlannerConnection :=
  { c with constraints := (path, constraint) :: c.constraints.filter (·.1 != path) }

def unlimit : PlannerConnection := if c.isRoot then c else { c with limit := none }

def reset : PlannerConnection := { c with constraints := [], limit := c.baseLimit }

end PlannerConnection

namespace PlannerJoin

/-- `flip`: both assertions. -/
def flip (j : PlannerJoin) : Option PlannerJoin :=
  if j.type = .semi ∧ j.flippable = true then some { j with type := .flipped } else none

def reset (j : PlannerJoin) : PlannerJoin := { j with type := j.initialType }

end PlannerJoin

def PlannerFanOut.convertToUfo (f : PlannerFanOut) : PlannerFanOut := { f with type := .ufo }
def PlannerFanOut.reset (f : PlannerFanOut) : PlannerFanOut := { f with type := .fo }
def PlannerFanIn.convertToUfi (f : PlannerFanIn) : PlannerFanIn := { f with type := .ufi }
def PlannerFanIn.reset (f : PlannerFanIn) : PlannerFanIn := { f with type := .fi }

/-! ## The graph -/

structure PlannerGraph where
  connections : List PlannerConnection := []
  joins : List PlannerJoin := []
  fanOuts : List PlannerFanOut := []
  fanIns : List PlannerFanIn := []
  /-- The terminus, by its input. -/
  terminus : Option NodeId := none
  sources : List String := []

namespace PlannerGraph

def addConnection (g : PlannerGraph) (c : PlannerConnection) : NodeId × PlannerGraph :=
  (.connection g.connections.length, { g with connections := g.connections ++ [c] })

def addJoin (g : PlannerGraph) (j : PlannerJoin) : NodeId × PlannerGraph :=
  (.join g.joins.length, { g with joins := g.joins ++ [j] })

def addFanOut (g : PlannerGraph) (f : PlannerFanOut) : NodeId × PlannerGraph :=
  (.fanOut g.fanOuts.length, { g with fanOuts := g.fanOuts ++ [f] })

def addFanIn (g : PlannerGraph) (f : PlannerFanIn) : NodeId × PlannerGraph :=
  (.fanIn g.fanIns.length, { g with fanIns := g.fanIns ++ [f] })

@[grind] def addOutput (g : PlannerGraph) (fanOut target : NodeId) : PlannerGraph :=
  match fanOut with
  | .fanOut i => { g with fanOuts := g.fanOuts.modify i fun f => { f with outputs := f.outputs ++ [target] } }
  | _ => g

/-- `wire_output`. -/
@[grind] def wireOutput (g : PlannerGraph) (source target : NodeId) : PlannerGraph :=
  match source with
  | .join i => { g with joins := g.joins.modify i fun j => { j with output := some target } }
  | .fanOut _ => g.addOutput source target
  | _ => g

/-- `flipped_join_plan_ids`. -/
def flippedJoinPlanIds (g : PlannerGraph) : List Nat := (g.joins.filter fun j => j.type == .flipped).map (·.planId)

/-- Nodes, which bound the depth of the graph. -/
def size (g : PlannerGraph) : Nat := g.connections.length + g.joins.length + g.fanOuts.length + g.fanIns.length + 1

/-! ## The passes -/

/-- `propagate_constraints`; the depth left is `fuel`. -/
def propagateConstraints : Nat → PlannerGraph → NodeId → List Nat → Option PlannerConstraint → PlannerGraph
  | 0, g, _, _, _ => g
  | fuel + 1, g, id, branch, constraint =>
    match id with
    | .connection i => { g with connections := g.connections.modify i (·.propagateConstraints branch constraint) }
    | .join i =>
      match g.joins[i]? with
      | none => g
      | some j =>
        match j.type with
        | .semi =>
          let g := propagateConstraints fuel g j.child branch (some j.childConstraint)
          propagateConstraints fuel g j.parent branch constraint
        | .flipped =>
          let translated := translateConstraintsForFlippedJoin constraint j.parentConstraint j.childConstraint
          let g := propagateConstraints fuel g j.child branch translated
          propagateConstraints fuel g j.parent branch (mergeConstraints constraint (some j.parentConstraint))
    | .fanOut i =>
      match g.fanOuts[i]? with
      | none => g
      | some f => propagateConstraints fuel g f.input branch constraint
    | .fanIn i =>
      match g.fanIns[i]? with
      | none => g
      | some f =>
        f.inputs.zipIdx.foldl (fun g p =>
          propagateConstraints fuel g p.1 ((match f.type with | .fi => 0 | .ufi => p.2) :: branch) constraint) g
    | .terminus =>
      match g.terminus with
      | none => g
      | some input => propagateConstraints fuel g input [] none

/-- `propagate_constraints_from_terminus`. -/
def propagateConstraintsFromTerminus (g : PlannerGraph) : PlannerGraph := propagateConstraints (g.size + 1) g .terminus [] none

/-- `propagate_unlimit_from_flipped_join`. -/
def propagateUnlimitFromFlippedJoin : Nat → PlannerGraph → NodeId → PlannerGraph
  | 0, g, _ => g
  | fuel + 1, g, id =>
    match id with
    | .connection i => { g with connections := g.connections.modify i (·.unlimit) }
    | .join i =>
      match g.joins[i]? with
      | none => g
      | some j => propagateUnlimitFromFlippedJoin fuel g j.parent
    | .fanOut i =>
      match g.fanOuts[i]? with
      | none => g
      | some f => propagateUnlimitFromFlippedJoin fuel g f.input
    | .fanIn i =>
      match g.fanIns[i]? with
      | none => g
      | some f => f.inputs.foldl (propagateUnlimitFromFlippedJoin fuel) g
    | .terminus => g

/-- `propagate_unlimit_for_flipped_joins`. -/
def propagateUnlimitForFlippedJoins (g : PlannerGraph) : PlannerGraph :=
  g.joins.foldl (fun g j => if j.type = .flipped then propagateUnlimitFromFlippedJoin (g.size + 1) g j.child else g) g

/-- `reset_planning_state`. -/
def resetPlanningState (g : PlannerGraph) : PlannerGraph :=
  { g with
    joins := g.joins.map (·.reset)
    fanOuts := g.fanOuts.map (·.reset)
    fanIns := g.fanIns.map (·.reset)
    connections := g.connections.map (·.reset) }

/-- The search of `find_fi_and_joins`, with what is found so far. Every join is wired. -/
def findLoop (g : PlannerGraph) : Nat → List NodeId → List NodeId → Option Nat → List Nat → Option Nat × List Nat
  | 0, _, _, fi, between => (fi, between)
  | _ + 1, [], _, fi, between => (fi, between)
  | fuel + 1, node :: queue, visited, fi, between =>
    if visited.contains node then findLoop g fuel queue visited fi between
    else
      match node with
      | .join i => findLoop g fuel (queue ++ (g.joins[i]?.bind (·.output)).toList) (node :: visited) fi (between ++ [i])
      | .fanOut i => findLoop g fuel (queue ++ (g.fanOuts[i]?.map (·.outputs)).getD []) (node :: visited) fi between
      | .fanIn i => findLoop g fuel queue (node :: visited) (some i) between
      | _ => findLoop g fuel queue (node :: visited) fi between

/-- `find_fi_and_joins`: a node is queued at most once for each edge into it. -/
def findFiAndJoins (g : PlannerGraph) (f : PlannerFanOut) : Option Nat × List Nat :=
  let edges := g.joins.length + (g.fanOuts.map (·.outputs.length)).sum
  findLoop g (f.outputs.length + edges + 1) f.outputs [] none []

/-- `build_fofi_cache`: a fan-out, its fan-in, and the joins between them. -/
def buildFofiCache (g : PlannerGraph) : List (Nat × Option Nat × List Nat) :=
  g.fanOuts.zipIdx.map fun p => (p.2, g.findFiAndJoins p.1)

/-- `check_and_convert_fofi`. -/
def checkAndConvertFofi (g : PlannerGraph) (cache : List (Nat × Option Nat × List Nat)) : PlannerGraph :=
  cache.foldl (fun g e =>
    let hasFlipped := e.2.2.any fun i => g.joins[i]?.any fun j => j.type == .flipped
    match e.2.1 with
    | some fi =>
      if hasFlipped then
        { g with
          fanOuts := g.fanOuts.modify e.1 (·.convertToUfo)
          fanIns := g.fanIns.modify fi (·.convertToUfi) }
      else g
    | none => g) g

/-! ## Snapshots -/

structure PlanState where
  connections : List (Option Nat)
  joins : List JoinType
  fanOuts : List FanOutType
  fanIns : List FanInType
  connectionConstraints : List (List (List Nat × Option PlannerConstraint))

/-- `capture_planning_snapshot`. -/
def capturePlanningSnapshot (g : PlannerGraph) : PlanState where
  connections := g.connections.map (·.limit)
  joins := g.joins.map (·.type)
  fanOuts := g.fanOuts.map (·.type)
  fanIns := g.fanIns.map (·.type)
  connectionConstraints := g.connections.map (·.constraints)

/-- A join of `restore_planning_snapshot`: reset, flipped to the target, and checked. -/
def restoreJoin (j : PlannerJoin) (target : JoinType) : Option PlannerJoin := do
  let j := j.reset
  let j ← if target = .flipped ∧ j.type ≠ .flipped then j.flip else some j
  if target = j.type then some j else none

@[grind] def restoreJoins : List PlannerJoin → List JoinType → Option (List PlannerJoin)
  | j :: joins, target :: targets => do
    let j ← restoreJoin j target
    let joins ← restoreJoins joins targets
    pure (j :: joins)
  | _, _ => some []

/-- `restore_planning_snapshot`. Fans are only ever converted. -/
def restorePlanningSnapshot (g : PlannerGraph) (state : PlanState) : Option PlannerGraph :=
  if g.connections.length = state.connections.length ∧ g.joins.length = state.joins.length ∧
      g.fanOuts.length = state.fanOuts.length ∧ g.fanIns.length = state.fanIns.length ∧
      g.connections.length = state.connectionConstraints.length then do
    let joins ← restoreJoins g.joins state.joins
    pure { g with
      connections := List.zipWith (fun c s => { c with limit := s.1, constraints := s.2 }) g.connections
        (state.connections.zip state.connectionConstraints)
      joins
      fanOuts := List.zipWith (fun f t => if t = .ufo then f.convertToUfo else f) g.fanOuts state.fanOuts
      fanIns := List.zipWith (fun f t => if t = .ufi then f.convertToUfi else f) g.fanIns state.fanIns }
  else none

/-! ## Planning -/

def maxFlippableJoins : Nat := 9

/-- The joins the planner may flip, by index. -/
def flippable (g : PlannerGraph) : List Nat := (g.joins.zipIdx.filter fun p => p.1.flippable).map (·.2)

/-- `join_mut(id).flip()`. -/
def flipJoin (g : PlannerGraph) (id : Nat) : Option PlannerGraph :=
  match g.joins[id]? with
  | none => none
  | some j => j.flip.map fun j => { g with joins := g.joins.set id j }

/-- Bit `i` of the pattern flips the `i`th of the joins. -/
def applyPattern (g : PlannerGraph) (flippable : List Nat) (pattern : Nat) : Option PlannerGraph :=
  flippable.zipIdx.foldlM (fun g p => if pattern.testBit p.2 then g.flipJoin p.1 else some g) g

section
variable (totalCost : PlannerGraph → F64)

/-- What the search holds: the graph as the last pattern left it, and the best plan so far. -/
structure Search where
  graph : PlannerGraph
  bestCost : F64
  bestPlan : Option PlanState

/-- One pattern. -/
def planStep (cache : List (Nat × Option Nat × List Nat)) (flippable : List Nat) (s : Search) (pattern : Nat) : Option Search := do
  let g ← s.graph.resetPlanningState.applyPattern flippable pattern
  let g := (g.checkAndConvertFofi cache).propagateUnlimitForFlippedJoins.propagateConstraintsFromTerminus
  let total := totalCost g
  pure (if F64.lt total s.bestCost then ⟨g, total, some g.capturePlanningSnapshot⟩ else { s with graph := g })

/-- `plan`. -/
def plan (g : PlannerGraph) : Option PlannerGraph := do
  let flippable := g.flippable
  if flippable.length > maxFlippableJoins then some g
  else
    let cache := g.buildFofiCache
    let numPatterns := if flippable.isEmpty then 0 else 2 ^ flippable.length
    let s ← (List.range numPatterns).foldlM (planStep totalCost cache flippable) ⟨g, .infinity, none⟩
    match s.bestPlan with
    | some best => do
      let g ← s.graph.restorePlanningSnapshot best
      pure g.propagateConstraintsFromTerminus
    | none => if numPatterns = 0 then some s.graph else none

end

end PlannerGraph

end Rindle.Planner
