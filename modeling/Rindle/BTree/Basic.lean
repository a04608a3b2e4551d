/-
  Rindle.BTree.Basic — the copy-on-write B+tree (`rust/src/btree.rs`).

  The tree is generic in its rows and its comparator (the source threads a `Sort` through
  every call). `Rc::make_mut` copies a node before it is changed, so a value-level model
  needs no sharing: an operation returns the new node. A vector index that is in range by
  the tree's invariant is read with `[i]?`; `max_key` of an empty node, which panics in the
  source, is `none` here and is met on no well-formed tree (`maxKey?_eq`).

  `checkInvariants` is the source's own checker, error texts included.
-/

import Rindle.Lib.Bisect

namespace Rindle

/-- `MAX_NODE_SIZE`. -/
def maxNodeSize : Nat := 64

inductive BNode (α : Type) where
  | leaf (keys : List α)
  | internal (keys : List α) (children : List (BNode α))

namespace BNode

variable {α : Type}

def emptyLeaf : BNode α := .leaf []

def isLeaf : BNode α → Bool
  | .leaf _ => true
  | .internal _ _ => false

/-- The rows of a leaf; the children's maxima of an internal node. -/
def keys : BNode α → List α
  | .leaf ks => ks
  | .internal ks _ => ks

def children : BNode α → List (BNode α)
  | .leaf _ => []
  | .internal _ cs => cs

/-- `max_key`. -/
def maxKey? (n : BNode α) : Option α := n.keys.getLast?

def isEmptyNode : BNode α → Bool
  | .leaf ks => ks.isEmpty
  | .internal _ cs => cs.isEmpty

/-- Edges from this node to its leftmost leaf (`BTree::height`). -/
def height : BNode α → Nat
  | .leaf _ => 0
  | .internal _ [] => 1
  | .internal _ (c :: _) => c.height + 1

mutual
/-- The rows below a node, in order. -/
def rows : BNode α → List α
  | .leaf ks => ks
  | .internal _ cs => rowsAll cs

def rowsAll : List (BNode α) → List α
  | [] => []
  | c :: cs => c.rows ++ rowsAll cs
end

end BNode

open BNode

variable {α : Type} (cmp : α → α → Ordering)

/-! ## Descent -/

variable (merge : BNode α → BNode α → BNode α) (keys : List α) (children : List (BNode α)) (i : Nat)

/-- `lower_bound`: the first index whose key is not below `key`. -/
def lowerBound (key : α) : Nat := bisect (fun k => cmp k key == .lt) keys

/-- `child_index`: as `lowerBound`, the last child when every key is below. -/
def childIndex (key : α) : Nat :=
  if lowerBound cmp keys key = keys.length then keys.length - 1 else lowerBound cmp keys key

mutual
/-- `find`. -/
def nodeFind (key : α) : BNode α → Option α
  | .leaf keys =>
    match search cmp keys key with
    | .ok i => keys[i]?
    | .error _ => none
  | .internal keys children => if children.isEmpty then none else findAt key children (childIndex cmp keys key)

/-- `find` in the child at an index. -/
def findAt (key : α) : List (BNode α) → Nat → Option α
  | [], _ => none
  | c :: _, 0 => nodeFind key c
  | _ :: cs, i + 1 => findAt key cs i
end

/-! ## Insertion -/

inductive InsertResult (α : Type) where
  | existed
  | inserted
  | split (right : BNode α)

/-- `keys[i] = children[i].max_key().clone()`. -/
def refreshKey : List α :=
  match children[i]?.bind maxKey? with
  | some k => keys.set i k
  | none => keys

/-- The end of an internal node's insertion: graft the right half of a split child, and split
    in turn when that overflows. -/
def graft : InsertResult α → BNode α × InsertResult α
  | .existed => (.internal keys children, .existed)
  | .inserted => (.internal keys children, .inserted)
  | .split right =>
    let keys := refreshKey keys children i
    let children' := children.insertIdx (i + 1) right
    let keys' := match right.maxKey? with
      | some k => keys.insertIdx (i + 1) k
      | none => keys
    if children'.length > maxNodeSize then
      let mid := children'.length / 2
      (.internal (keys'.take mid) (children'.take mid), .split (.internal (keys'.drop mid) (children'.drop mid)))
    else (.internal keys' children', .inserted)

mutual
/-- `node_set`. -/
def nodeSet (key : α) : BNode α → BNode α × InsertResult α
  | .leaf keys =>
    match search cmp keys key with
    | .ok i => (.leaf (keys.set i key), .existed)
    | .error i =>
      let keys' := keys.insertIdx i key
      if keys'.length > maxNodeSize then
        let mid := keys'.length / 2
        (.leaf (keys'.take mid), .split (.leaf (keys'.drop mid)))
      else (.leaf keys', .inserted)
  | .internal keys children =>
    let i := childIndex cmp keys key
    let (children', res) := setAt key children i
    graft (refreshKey keys children' i) children' i res

/-- `node_set` on the child at an index, in place. -/
def setAt (key : α) : List (BNode α) → Nat → List (BNode α) × InsertResult α
  | [], _ => ([], .existed)
  | c :: cs, 0 => ((nodeSet key c).1 :: cs, (nodeSet key c).2)
  | c :: cs, i + 1 => (c :: (setAt key cs i).1, (setAt key cs i).2)
end

/-! ## Deletion -/

/-- `try_merge` at index `i`, given how two siblings merge. -/
def tryMergeWith :
    List α × List (BNode α) :=
  match children[i]?, children[i + 1]? with
  | some left, some right =>
    if left.keys.length + right.keys.length ≤ maxNodeSize then
      let children' := (children.eraseIdx (i + 1)).set i (merge left right)
      (refreshKey (keys.eraseIdx (i + 1)) children' i, children')
    else (keys, children)
  | _, _ => (keys, children)

/-- `merge_into`: append the right sibling; for internal nodes also try the new seam. The
    number bounds the depth of seams. -/
def mergeInto : Nat → BNode α → BNode α → BNode α
  | _, .leaf lk, .leaf rk => .leaf (lk ++ rk)
  | n + 1, .internal lk lc, .internal rk rc =>
    let (ks, cs) := tryMergeWith (mergeInto n) (lk ++ rk) (lc ++ rc) (lc.length - 1)
    .internal ks cs
  | _, left, _ => left

/-- `try_merge`. -/
def tryMerge : List α × List (BNode α) :=
  tryMergeWith (fun l r => mergeInto l.height l r) keys children i

/-- One turn of the merge scan: drop an emptied child, merge an underfull one. -/
def mergeScan (s : List α × List (BNode α)) (j : Nat) : List α × List (BNode α) :=
  match s.2[j]? with
  | some c =>
    if c.keys.length ≤ maxNodeSize / 2 then
      if c.isEmptyNode then (s.1.eraseIdx j, s.2.eraseIdx j) else tryMerge s.1 s.2 j
    else s
  | none => s

/-- The scan over child `i` and its left neighbour. -/
def mergeScans : List α × List (BNode α) :=
  if i = 0 then mergeScan (keys, children) 0 else mergeScan (mergeScan (keys, children) i) (i - 1)

mutual
/-- `node_delete`. -/
def nodeDelete (key : α) : BNode α → BNode α × Bool
  | .leaf keys =>
    match search cmp keys key with
    | .ok i => (.leaf (keys.eraseIdx i), true)
    | .error _ => (.leaf keys, false)
  | .internal keys children =>
    let i := lowerBound cmp keys key
    if i ≥ children.length then (.internal keys children, false)
    else
      let (children', removed) := deleteAt key children i
      let keys' := if (children'[i]?.any isEmptyNode) then keys else refreshKey keys children' i
      let (ks, cs) := mergeScans keys' children' i
      (.internal ks cs, removed)

/-- `node_delete` on the child at an index, in place. -/
def deleteAt (key : α) : List (BNode α) → Nat → List (BNode α) × Bool
  | [], _ => ([], false)
  | c :: cs, 0 => ((nodeDelete key c).1 :: cs, (nodeDelete key c).2)
  | c :: cs, i + 1 => (c :: (deleteAt key cs i).1, (deleteAt key cs i).2)
end

/-! ## The tree -/

structure BTree (α : Type) where
  root : BNode α
  size : Nat

namespace BTree

def empty : BTree α := ⟨emptyLeaf, 0⟩

variable (t : BTree α)

def len : Nat := t.size

/-- The rows of the tree, in order. -/
def rows : List α := t.root.rows

def get (key : α) : Option α := nodeFind cmp key t.root

def has (key : α) : Bool := (t.get cmp key).isSome

def add (t : BTree α) (key : α) : BTree α × Bool :=
  match nodeSet cmp key t.root with
  | (root, .existed) => (⟨root, t.size⟩, false)
  | (root, .inserted) => (⟨root, t.size + 1⟩, true)
  | (left, .split right) =>
    (⟨.internal (left.maxKey?.toList ++ right.maxKey?.toList) [left, right], t.size + 1⟩, true)

/-- `collapse_root`: descend while the root has a single child. -/
def collapseRoot : BNode α → BNode α
  | .internal _ [c] => collapseRoot c
  | .internal _ [] => emptyLeaf
  | n => n

def delete (key : α) : BTree α × Bool :=
  match nodeDelete cmp key t.root with
  | (root, true) => (⟨collapseRoot root, t.size - 1⟩, true)
  | (root, false) => (⟨root, t.size⟩, false)

/-- `chunks(n)`: consecutive pieces of `n` elements, the last one perhaps shorter. -/
def chunksGo {β : Type} (n : Nat) : Nat → List β → List (List β)
  | 0, _ => []
  | _ + 1, [] => []
  | f + 1, x :: xs => (x :: xs).take n :: chunksGo n f ((x :: xs).drop n)

def chunks {β : Type} (n : Nat) (l : List β) : List (List β) := chunksGo n l.length l

/-- One level of internal nodes over a level of nodes. -/
def nextLevel (level : List (BNode α)) : List (BNode α) :=
  (chunks maxNodeSize level).map fun c => .internal (c.filterMap maxKey?) c

/-- Levels until one node is left; the level shrinks at every turn. -/
def buildLevels : Nat → List (BNode α) → List (BNode α)
  | 0, level => level
  | n + 1, level => if level.length > 1 then buildLevels n (nextLevel level) else level

/-- `from_sorted`. -/
def fromSorted (rows : List α) : BTree α :=
  if rows.isEmpty then empty
  else
    let level := (chunks maxNodeSize rows).map BNode.leaf
    ⟨(buildLevels level.length level).head?.getD emptyLeaf, rows.length⟩

/-! ## The checker -/

/-- The first adjacent pair that is not strictly ascending. -/
def strictlySorted : List α → Bool
  | x :: y :: l => cmp x y == .lt && strictlySorted (y :: l)
  | _ => true

variable [DecidableEq α]

mutual
/-- `walk`: depth and number of rows, or the first violation. Row identity (`ptr_eq`) between a
    separator and its child's maximum is equality of rows here. -/
def walk (isRoot : Bool) : BNode α → Except String (Nat × Nat)
  | .leaf keys =>
    if !isRoot && keys.isEmpty then .error "empty non-root leaf"
    else if keys.length > maxNodeSize then .error s!"overfull leaf: {keys.length} keys"
    else if !strictlySorted cmp keys then .error "leaf keys not strictly sorted"
    else .ok (0, keys.length)
  | .internal keys children =>
    if children.isEmpty then .error "empty internal node"
    else if keys.length ≠ children.length then
      .error s!"keys.len {keys.length} != children.len {children.length}"
    else if children.length > maxNodeSize then .error s!"overfull internal: {children.length} children"
    else
      match walkAll keys children 0 none 0 with
      | .error e => .error e
      | .ok (depth, total) =>
        if !strictlySorted cmp keys then .error "separator keys not strictly increasing"
        else .ok (depth.getD 0 + 1, total)

/-- The loop over the children of an internal node. -/
def walkAll : List α → List (BNode α) → Nat → Option Nat → Nat → Except String (Option Nat × Nat)
  | _, [], _, depth, total => .ok (depth, total)
  | keys, c :: cs, i, depth, total =>
    if keys.head? ≠ c.maxKey? then .error s!"cached-max not Arc-identical at child {i}"
    else
      match walk false c with
      | .error e => .error e
      | .ok (d, n) =>
        match depth with
        | none => walkAll keys.tail cs (i + 1) (some d) (total + n)
        | some dd =>
          if dd ≠ d then .error "unbalanced subtree depths" else walkAll keys.tail cs (i + 1) depth (total + n)
end

/-- `check_invariants`. -/
def checkInvariants : Except String Unit :=
  match walk cmp true t.root with
  | .error e => .error e
  | .ok (_, count) => if count ≠ t.size then .error s!"size {t.size} != actual count {count}" else .ok ()

end BTree

end Rindle
