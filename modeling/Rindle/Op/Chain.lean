/-
  Rindle.Op.Chain — the filter chain: a condition as links of the graph (`apply_filter` of
  `rust/src/builder.rs`) and a change pushed through them (`chain_push`, `fan_out_push` and
  `collapse_accumulated` of `rust/src/graph.rs`).

  An AND is its conditions' links one after the other, an OR a fan-out with a branch for each
  condition and a fan-in that ends the branches. A link hands on what it lets through and returns
  what comes back: a fan-in returns the change to its fan-out, which collapses what all branches
  return to one change and goes on behind the fan-in; the end of the chain pushes it downstream.

  The arena is a list of links, where a new one is the last; whatever else the graph has is
  `other`. A link's input, which only a fetch reads, is left out, and so are the probes of tests.
  `none` is a panic, a debug assertion that fails, or no fuel. To replay a change to the branches
  copies it with its nodes' relationships, which are lists here.
-/

import Rindle.Lib.Wire
import Rindle.Op.Exists
import Rindle.Op.Union
import Rindle.Predicate.Basic

set_option linter.dupNamespace false

namespace Rindle

/-! ## Links -/

inductive Link where
  | filterStart (chainHead : Option Nat)
  | filter (pred : CompiledPredicate) (output : Option Nat)
  | gate (exists? : Exists) (output : Option Nat)
  | fanOut (outputs : List Nat) (fanIn : Option Nat)
  | fanIn (output : Option Nat)
  | filterEnd (output : Option Nat)
  | other

/-- The link with its downstream wired, if it is one with a single output. -/
def Link.withOutput (downstream : Nat) : Link → Option Link
  | .filter pred _ => some (.filter pred (some downstream))
  | .gate e _ => some (.gate e (some downstream))
  | .fanIn _ => some (.fanIn (some downstream))
  | .filterEnd _ => some (.filterEnd (some downstream))
  | .filterStart _ => none
  | .fanOut _ _ => none
  | .other => none

abbrev Links := List Link

namespace Links

variable {ε : Type}

def add (g : Links) (l : Link) : Links × Nat := (g ++ [l], g.length)

def setOutput (g : Links) (op downstream : Nat) : Outcome ε Links :=
  match g[op]?.bind (Link.withOutput downstream) with
  | some l => .ok (g.set op l)
  | none => .panic

def setChainHead (g : Links) (start head : Nat) : Outcome ε Links :=
  match g[start]? with
  | some (.filterStart _) => .ok (g.set start (.filterStart (some head)))
  | _ => .panic

def setFan (g : Links) (fanOut : Nat) (branches : List Nat) (fanIn : Nat) : Outcome ε Links :=
  match g[fanOut]? with
  | some (.fanOut _ _) => .ok (g.set fanOut (.fanOut branches (some fanIn)))
  | _ => .panic

end Links

/-! ## Lowering a condition -/

variable (schema : Schema)

def Schema.relSlot (name : String) : Option Nat :=
  schema.relationships.findIdx? fun r => r.name == name

def resolveCols (names : List String) (schema : Schema) : Except BuildError (List Nat) := names.mapM (colId schema)

def Outcome.ofExcept {ε α : Type} : Except ε α → Outcome ε α
  | .ok a => .ok a
  | .error e => .error e

/-- What a condition that is no AND or OR becomes. -/
inductive Leaf where
  | filter (pred : CompiledPredicate)
  | gate (exists? : Exists)

def Leaf.link : Leaf → Link
  | .filter pred => .filter pred none
  | .gate e => .gate e none

/-- `apply_csq_condition`: over a subquery of no rows the answer is known. -/
def csqLeaf (related : CorrelatedSubquery Ast) (flags : ExistsFlags) : Except BuildError Leaf :=
  let not := flags.op == .notExists
  if related.subquery.head.limit = some 0 then pure (.filter (.const not))
  else
    match related.subquery.head.aliasName with
    | none => .error (.invalid "an EXISTS subquery must have an alias")
    | some relName =>
      match schema.relSlot relName with
      | none => .error (.unknownRelationship relName)
      | some relSlot => do
        let parentKey ← resolveCols related.correlation.parentField schema
        pure (.gate (.new relSlot parentKey not schema.primaryKey))

/-- The leaf of a condition that has no others in it. -/
def Condition.leaf : Condition → Option (Except BuildError Leaf)
  | .simple sc => some ((createPredicate sc schema).map .filter)
  | .correlatedSubquery related flags => some (csqLeaf schema related flags)
  | .and _ => none
  | .or _ => none

open Links in
mutual

/-- `apply_filter`: the links, the first and the last of them. -/
def applyFilter (schema : Schema) : Condition → Links → Outcome BuildError (Links × Nat × Nat)
  | .simple sc, g => do
    let pred ← Outcome.ofExcept (createPredicate sc schema)
    let (g, f) := g.add (.filter pred none)
    pure (g, f, f)
  | .correlatedSubquery related flags, g => do
    let leaf ← Outcome.ofExcept (csqLeaf schema related flags)
    let (g, node) := g.add leaf.link
    pure (g, node, node)
  | .and conditions, g => applyAnd schema conditions g
  | .or conditions, g =>
    if conditions.isEmpty then
      let (g, f) := g.add (.filter (.const false) none)
      pure (g, f, f)
    else do
      let (g, fanOut) := g.add (.fanOut [] none)
      let (g, fanIn) := g.add (.fanIn none)
      let (g, branchHeads) ← applyBranches schema conditions g fanIn
      let g ← g.setFan fanOut branchHeads fanIn
      pure (g, fanOut, fanIn)

/-- `apply_and`. -/
def applyAnd (schema : Schema) : List Condition → Links → Outcome BuildError (Links × Nat × Nat)
  | [], g =>
    let (g, f) := g.add (.filter (.const true) none)
    pure (g, f, f)
  | first :: rest, g => do
    let (g, head, tail) ← applyFilter schema first g
    let (g, tail) ← applyNext schema rest g tail
    pure (g, head, tail)

/-- The loop of `apply_and`. -/
def applyNext (schema : Schema) : List Condition → Links → Nat → Outcome BuildError (Links × Nat)
  | [], g, tail => pure (g, tail)
  | c :: rest, g, tail => do
    let (g, h, t) ← applyFilter schema c g
    let g ← g.setOutput tail h
    applyNext schema rest g t

/-- The loop of `apply_or`. -/
def applyBranches (schema : Schema) : List Condition → Links → Nat → Outcome BuildError (Links × List Nat)
  | [], g, _ => pure (g, [])
  | c :: rest, g, fanIn => do
    let (g, head, tail) ← applyFilter schema c g
    let g ← g.setOutput tail fanIn
    let (g, heads) ← applyBranches schema rest g fanIn
    pure (g, head :: heads)

end

/-- `build_filter_branch`: the start and the end of the chain. -/
def buildFilterBranch (g : Links) (cond : Condition) : Outcome BuildError (Links × Nat × Nat) := do
  let (g, fs) := g.add (.filterStart none)
  let (g, head, tail) ← applyFilter schema cond g
  let (g, fe) := g.add (.filterEnd none)
  let g ← g.setChainHead fs head
  let g ← g.setOutput tail fe
  pure (g, fs, fe)

/-! ## Pushing -/

/-- What a push returns to its caller, and what it pushes downstream of the chain on the way. -/
structure Emitted where
  leftover : List Change
  pushed : List (Nat × Change)

namespace Emitted

def nothing : Emitted := ⟨[], []⟩

def append (a b : Emitted) : Emitted := ⟨a.leftover ++ b.leftover, a.pushed ++ b.pushed⟩

end Emitted

/-- `filter_chain_push`: an edit is split on whether the old and the new node pass. -/
@[grind] def filterChainPush (p : Node → Bool) : Change → List Change
  | .add n => if p n then [.add n] else []
  | .remove n => if p n then [.remove n] else []
  | .edit n old =>
    match p old, p n with
    | true, true => [.edit n old]
    | true, false => [.remove old]
    | false, true => [.add n]
    | false, false => []
  | .child n rel c => if p n then [.child n rel c] else []

namespace Collapse

/-- The first change of each type. -/
structure Firsts where
  add : Option Node := none
  remove : Option Node := none
  edit : Option (Node × Node) := none
  child : Option (Node × Nat × Change) := none

def Firsts.take (s : Firsts) : Change → Firsts
  | .add n => { s with add := s.add.or (some n) }
  | .remove n => { s with remove := s.remove.or (some n) }
  | .edit n old => { s with edit := s.edit.or (some (n, old)) }
  | .child n rel c => { s with child := s.child.or (some (n, rel, c)) }

/-- One of an addition and a removal. -/
def either (add remove : Option Node) : List Change :=
  match add, remove with
  | some n, _ => [.add n]
  | none, some old => [.remove old]
  | none, none => []

def Firsts.emit (s : Firsts) : ChangeType → Option (List Change)
  | .add => if s.remove.isNone && s.edit.isNone && s.child.isNone then some (either s.add none) else none
  | .remove => if s.add.isNone && s.edit.isNone && s.child.isNone then some (either none s.remove) else none
  | .edit =>
    if s.child.isNone then
      match s.edit, s.add, s.remove with
      | some (n, old), _, _ => some [.edit n old]
      | none, some n, some old => some [.edit n old]
      | none, add, remove => some (either add remove)
    else none
  | .child =>
    if s.edit.isNone then
      match s.child with
      | some (n, rel, c) => some [.child n rel c]
      | none => if s.add.isSome && s.remove.isSome then none else some (either s.add s.remove)
    else none

end Collapse

/-- `collapse_accumulated`. -/
def collapseAccumulated (acc : List Change) (fanOutType : ChangeType) : Option (List Change) :=
  (acc.foldl Collapse.Firsts.take {}).emit fanOutType

/-- Each of the changes to what is next, in order. -/
def forward (next : Change → Option Emitted) : List Change → Option Emitted
  | [] => some .nothing
  | c :: rest => do
    let e ← next c
    let es ← forward next rest
    pure (e.append es)

/-- The change to each of the branches, in order. -/
def replay (branch : Nat → Option Emitted) : List Nat → Option Emitted
  | [] => some .nothing
  | b :: rest => do
    let e ← branch b
    let es ← replay branch rest
    pure (e.append es)

namespace Links

/-- `fan_continuation`: what is wired behind the fan-in. -/
def fanContinuation (g : Links) (fanIn : Option Nat) : Option (Option Nat) :=
  match fanIn.bind (g[·]?) with
  | some (.fanIn output) => some output
  | _ => none

/-- `chain_push`. -/
@[grind] def chainPush (g : Links) : Nat → Nat → Change → Option Emitted
  | 0, _, _ => none
  | fuel + 1, link, change =>
    match g[link]? with
    | some (.filter pred output) =>
      output.bind fun out => forward (g.chainPush fuel out) (filterChainPush (fun n => pred.eval n.row) change)
    | some (.gate e output) =>
      (e.pushChain (fun c => [c]) change).bind fun kept =>
        forward (fun c => output.bind fun out => g.chainPush fuel out c) kept
    | some (.fanOut outputs fanIn) => do
      let acc ← replay (fun b => g.chainPush fuel b change) outputs
      let collapsed ← collapseAccumulated acc.leftover change.changeType
      let cont ← g.fanContinuation fanIn
      let rest ← match cont with
        | some next => forward (g.chainPush fuel next) collapsed
        | none => some ⟨collapsed, []⟩
      -- what a branch pushed downstream it pushed before
      pure ⟨rest.leftover, acc.pushed ++ rest.pushed⟩
    | some (.fanIn _) => some ⟨[change], []⟩
    | some (.filterEnd output) => output.map fun out => ⟨[], [(out, change)]⟩
    | _ => none

/-- A push into the chain: nothing may be left over. -/
def push (g : Links) (fuel filterStart : Nat) (change : Change) : Option (List (Nat × Change)) :=
  match g[filterStart]? with
  | some (.filterStart (some head)) =>
    (g.chainPush fuel head change).bind fun e => if e.leftover.isEmpty then some e.pushed else none
  | _ => none

end Links

end Rindle
