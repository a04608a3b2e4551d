/-
  Rindle.BTree.Diff — the structural diff of two trees (`rust/src/btree.rs`, `diff_visit`).

  Two cursors walk the trees in descending order. A cursor can rest on a node, which is what
  lets a shared subtree be skipped, or on a row of a leaf. `none` is a panic of the source:
  an index out of range, `max_key` of an empty node, the debug assertion of `finish_walk`;
  in the loops it is also the end of the fuel. The work counters are left out.

  Pointer identity depends on where a node or a row is stored, not on its contents, so
  `Identity` is a relation between cursors (which know their place), constrained only by
  what sharing means: the same pointer, the same contents.
-/

import Rindle.BTree.Tree
import Rindle.Lib.SortedDiff

namespace Rindle

open BNode

/-- `SourceChange`: one change of a table. -/
abbrev SourceChange (α : Type) := SList.Delta α

structure DiffCursor (α : Type) where
  /-- Edges from the root to a leaf. -/
  height : Nat
  /-- The sibling nodes at each level; the root alone at level 0. -/
  spine : List (List (BNode α))
  /-- The selected sibling at each level, and the place in the leaf when the cursor is in one. -/
  indices : List Nat
  leaf : Option (BNode α)
  currentKey : α

variable {α : Type}

namespace DiffCursor

/-- `new`: on the root of a non-empty tree. -/
def new (t : BTree α) : Option (DiffCursor α) :=
  t.root.maxKey?.map fun key => ⟨t.root.height, [[t.root]], [0], none, key⟩

variable (c : DiffCursor α)

/-- `current_node`. -/
def currentNode : Option (BNode α) := do
  let last := c.spine.length - 1
  let siblings ← c.spine[last]?
  let i ← c.indices[last]?
  siblings[i]?

/-- The deepest of the first `n` levels that still has a left sibling. -/
def lastPositive (indices : List Nat) : Nat → Option Nat
  | 0 => none
  | k + 1 => if indices[k]?.getD 0 > 0 then some k else lastPositive indices k

/-- The part of `step` that moves to the previous node; `false` at the far-left end. -/
def stepNode : Option (DiffCursor α × Bool) :=
  match lastPositive c.indices c.spine.length with
  | none => some (c, false)
  | some k => do
    let i ← c.indices[k]?
    let siblings ← c.spine[k]?
    let node ← siblings[i - 1]?
    let key ← node.maxKey?
    some (⟨c.height, c.spine.take (k + 1), (c.indices.take (k + 1)).set k (i - 1), none, key⟩, true)

/-- The part of `step` that moves to the previous row of the leaf. -/
def stepRow (leaf : BNode α) : Option (DiffCursor α × Bool) := do
  let i ← c.indices[c.indices.length - 1]?
  let key ← leaf.keys[i - 1]?
  some ({ c with indices := c.indices.set (c.indices.length - 1) (i - 1), currentKey := key }, true)

/-- The part of `step` that descends, rightmost first. -/
def stepDown : BNode α → Option (DiffCursor α × Bool)
  | .leaf keys => do
    let key ← keys[keys.length - 1]?
    some ({ c with indices := c.indices ++ [keys.length - 1], leaf := some (.leaf keys), currentKey := key }, true)
  | .internal _ children => do
    let child ← children[children.length - 1]?
    let key ← child.maxKey?
    some ({ c with spine := c.spine ++ [children], indices := c.indices ++ [children.length - 1], currentKey := key },
      true)

/-- `step`. -/
def step (toNode : Bool) (c : DiffCursor α) : Option (DiffCursor α × Bool) :=
  match toNode, c.leaf with
  | true, _ => c.stepNode
  | false, some leaf => if c.indices[c.indices.length - 1]? = some 0 then c.stepNode else c.stepRow leaf
  | false, none => c.currentNode.bind c.stepDown

end DiffCursor

open DiffCursor

/-- What pointer equality can be: for nodes and rows at two cursors' places. -/
structure Identity (α : Type) where
  node : DiffCursor α → DiffCursor α → Bool
  row : DiffCursor α → DiffCursor α → Bool
  node_eq : ∀ {c d}, node c d = true → c.currentNode = d.currentNode
  row_eq : ∀ {c d}, row c d = true → c.currentKey = d.currentKey

section
variable (cmp : α → α → Ordering) (same : α → α → Bool)

/-- `compare_cursors`: descending keys; on one key the cursor that is higher above the leaves
    is behind. -/
def compareCursors (a b : DiffCursor α) : Ordering :=
  match cmp b.currentKey a.currentKey with
  | .eq =>
    let hmin := min a.height b.height
    let da : Int := (a.indices.length : Int) - ((a.height - hmin : Nat) : Int)
    let db : Int := (b.indices.length : Int) - ((b.height - hmin : Nat) : Int)
    compare da db
  | o => o

/-- `step_to_end`: every row from the cursor on. -/
def stepToEnd (f : α → SourceChange α) : Nat → DiffCursor α → Option (List (SourceChange α))
  | 0, _ => none
  | fuel + 1, c => do
    let here := if c.leaf.isSome then [f c.currentKey] else []
    match ← c.step false with
    | (c', true) => return here ++ (← stepToEnd f fuel c')
    | (_, false) => return here

/-- `finish_walk`: drain the cursor that still has rows. -/
def finishWalk (f : α → SourceChange α) (fuel : Nat) (c finished : DiffCursor α) : Option (List (SourceChange α)) :=
  match compareCursors cmp c finished with
  | .eq => do
    match ← c.step false with
    | (_, false) => return []
    | (c', true) => stepToEnd f fuel c'
  | .lt => none
  | .gt => stepToEnd f fuel c

/-- The state of the main loop. -/
structure DiffState (α : Type) where
  tc : DiffCursor α
  oc : DiffCursor α
  tok : Bool
  ook : Bool
  prev : Ordering

/-- One turn of the main loop: the changes it emits and the state after it. -/
def diffTurn (ident : Option (Identity α)) (s : DiffState α) : Option (List (SourceChange α) × DiffState α) :=
  let order := compareCursors cmp s.tc s.oc
  let tl := s.tc.leaf.isSome
  let ol := s.oc.leaf.isSome
  if order = .eq ∧ tl ∧ ol then do
    -- both on a row of this key: pair them
    let out :=
      if ident.any fun p => p.row s.tc s.oc then []
      else if same s.tc.currentKey s.oc.currentKey then []
      else [SList.Delta.edit s.tc.currentKey s.oc.currentKey]
    let (tc, tok) ← s.tc.step false
    let (oc, ook) ← s.oc.step false
    return (out, ⟨tc, oc, tok, ook, .lt⟩)
  else if ¬ (tl ∨ ol) ∧ order = .eq ∧ ident.any fun p => p.node s.tc s.oc then do
    -- both on one shared node: skip its subtree
    let (tc, tok) ← s.tc.step true
    let (oc, ook) ← s.oc.step true
    return ([], ⟨tc, oc, tok, ook, .eq⟩)
  else do
    let out : List (SourceChange α) :=
      if (tl ∨ ol) ∧ s.prev ≠ .eq then
        match order with
        | .eq => []
        | .gt => if ol then [.add s.oc.currentKey] else []
        | .lt => if tl then [.remove s.tc.currentKey] else []
      else []
    if order = .lt then
      let (tc, tok) ← s.tc.step false
      return (out, ⟨tc, s.oc, tok, s.ook, order⟩)
    else
      let (oc, ook) ← s.oc.step false
      return (out, ⟨s.tc, oc, s.tok, ook, order⟩)

/-- The main loop, with the drains after it. -/
def diffLoop (ident : Option (Identity α)) : Nat → DiffState α → Option (List (SourceChange α))
  | 0, _ => none
  | fuel + 1, s =>
    if s.tok ∧ s.ook then do
      let (out, s') ← diffTurn cmp same ident s
      return out ++ (← diffLoop ident fuel s')
    else do
      let this ← if s.tok then finishWalk cmp .remove fuel s.tc s.oc else some []
      let other ← if s.ook then finishWalk cmp .add fuel s.oc s.tc else some []
      return this ++ other

/-- `diff_visit`, collecting what it emits as `structural_diff` does; `ident` is `none` when
    `use_identity` is off. -/
def diffVisit (ident : Option (Identity α)) (fuel : Nat) (t u : BTree α) : Option (List (SourceChange α)) :=
  if t.size = 0 ∧ u.size = 0 then some []
  else if t.size = 0 then do stepToEnd .add fuel (← DiffCursor.new u)
  else if u.size = 0 then do stepToEnd .remove fuel (← DiffCursor.new t)
  else do
    let tc ← DiffCursor.new t
    let oc ← DiffCursor.new u
    diffLoop cmp same ident fuel ⟨tc, oc, true, true, compareCursors cmp tc oc⟩

/-- `structural_diff`. -/
def structuralDiff (ident : Identity α) (fuel : Nat) (t u : BTree α) : Option (List (SourceChange α)) :=
  diffVisit cmp same (some ident) fuel t u

/-- `apply_source_change_to_tree`. -/
def applySourceChangeToTree (t : BTree α) : SourceChange α → BTree α
  | .add row => (t.add cmp row).1
  | .remove row => (t.delete cmp row).1
  | .edit old row => ((t.delete cmp old).1.add cmp row).1

end

end Rindle
