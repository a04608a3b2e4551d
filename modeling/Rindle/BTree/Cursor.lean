/-
  Rindle.BTree.Cursor — the ordered cursor (`rust/src/btree.rs`, `BTreeCursor`).

  A cursor holds the path to its leaf as a stack, top first, and a place in the leaf. A bound
  is given by how it compares with each row (`cmp_bound_row` at a fixed sort and bound); it is
  monotone when a row below one it reaches lies strictly below it. The rows a cursor still
  yields are read off its position (`ahead`, `behind`); `scan` is the whole stream.
-/

import Rindle.BTree.Tree

namespace Rindle

open BNode

structure BTreeCursor (α : Type) where
  stack : List (BNode α × Nat)
  leaf : Option (BNode α)
  pos : Nat
  reverse : Bool
  started : Bool

variable {α : Type}

/-! ## Descent -/

mutual
/-- The descents of the source: push each internal node with the child it takes, down to a leaf. -/
def descend (pick : BNode α → Nat) (stack : List (BNode α × Nat)) : BNode α → Option (List (BNode α × Nat) × BNode α)
  | .leaf ks => some (stack, .leaf ks)
  | .internal ks cs =>
    descendAt pick ((.internal ks cs, pick (.internal ks cs)) :: stack) cs (pick (.internal ks cs))

def descendAt (pick : BNode α → Nat) (stack : List (BNode α × Nat)) :
    List (BNode α) → Nat → Option (List (BNode α × Nat) × BNode α)
  | [], _ => none
  | c :: _, 0 => descend pick stack c
  | _ :: cs, i + 1 => descendAt pick stack cs i
end

variable (seek : α → Ordering)

/-- `child_index_bound`: the first child that reaches the bound, else the last. -/
def childIndexBound (keys : List α) : Nat :=
  if bisect (fun k => seek k == .gt) keys = keys.length then keys.length - 1
  else bisect (fun k => seek k == .gt) keys

/-- `leaf_lower_bound`. -/
def leafLowerBound (keys : List α) : Nat := bisect (fun k => seek k == .gt) keys

/-- `leaf_upper_bound`. -/
def leafUpperBound (keys : List α) : Nat := bisect (fun k => seek k != .lt) keys

namespace BTreeCursor

def empty (reverse : Bool) : BTreeCursor α := ⟨[], none, 0, reverse, false⟩

/-- `current`. -/
def current (c : BTreeCursor α) : Option α := c.leaf.bind fun leaf => leaf.keys[c.pos]?

/-- `descend_first`. -/
def descendFirst (c : BTreeCursor α) (stack : List (BNode α × Nat)) (n : BNode α) : Option (BTreeCursor α) := do
  let (stack, leaf) ← descend (fun _ => 0) stack n
  some { c with stack := stack, leaf := some leaf, pos := 0 }

/-- `descend_last`. -/
def descendLast (c : BTreeCursor α) (stack : List (BNode α × Nat)) (n : BNode α) : Option (BTreeCursor α) := do
  let (stack, leaf) ← descend (fun n => n.children.length - 1) stack n
  some { c with stack := stack, leaf := some leaf, pos := leaf.keys.length - 1 }

/-- `next_leaf`: the first pending right sibling. -/
def nextLeaf (c : BTreeCursor α) : List (BNode α × Nat) → Option (BTreeCursor α)
  | [] => some { c with stack := [], leaf := none }
  | (n, d) :: stack =>
    if d + 1 < n.children.length then do
      let child ← n.children[d + 1]?
      c.descendFirst ((n, d + 1) :: stack) child
    else nextLeaf c stack

/-- `prev_leaf`. -/
def prevLeaf (c : BTreeCursor α) : List (BNode α × Nat) → Option (BTreeCursor α)
  | [] => some { c with stack := [], leaf := none }
  | (n, d) :: stack =>
    if d > 0 then do
      let child ← n.children[d - 1]?
      c.descendLast ((n, d - 1) :: stack) child
    else prevLeaf c stack

/-- `normalize_forward`. The number bounds the turns: a leaf below the root is not empty, so
    one move to another leaf is enough. -/
def normalizeForward : Nat → BTreeCursor α → Option (BTreeCursor α)
  | 0, _ => none
  | n + 1, c =>
    match c.leaf with
    | none => some c
    | some leaf => if c.pos < leaf.keys.length then some c else (c.nextLeaf c.stack).bind (normalizeForward n)

/-- `normalize_reverse`. -/
def normalizeReverse : Nat → BTreeCursor α → Option (BTreeCursor α)
  | 0, _ => none
  | n + 1, c =>
    match c.leaf with
    | none => some c
    | some leaf =>
      if leaf.keys ≠ [] ∧ c.pos < leaf.keys.length then some c else (c.prevLeaf c.stack).bind (normalizeReverse n)

/-- `descend_seek`. -/
def descendSeek (c : BTreeCursor α) (seek : α → Ordering) (inclusive : Bool) (n : BNode α) :
    Option (BTreeCursor α) := do
  let (stack, leaf) ← descend (fun n => childIndexBound seek n.keys) [] n
  let pos := leafLowerBound seek leaf.keys
  let pos := if !inclusive && (leaf.keys[pos]?.any fun k => seek k == .eq) then pos + 1 else pos
  some { c with stack := stack, leaf := some leaf, pos := pos }

/-- `descend_seek_reverse`. -/
def descendSeekReverse (c : BTreeCursor α) (seek : α → Ordering) (inclusive : Bool) (n : BNode α) :
    Option (BTreeCursor α) := do
  let (stack, leaf) ← descend (fun n => childIndexBound seek n.keys) [] n
  let j := if inclusive then leafUpperBound seek leaf.keys else leafLowerBound seek leaf.keys
  if j = 0 then ({ c with stack := stack, leaf := some leaf } : BTreeCursor α).prevLeaf stack
  else some { c with stack := stack, leaf := some leaf, pos := j - 1 }

/-- `step`. -/
def step (c : BTreeCursor α) : Option (BTreeCursor α) :=
  if c.reverse then
    if c.pos = 0 then c.prevLeaf c.stack else some { c with pos := c.pos - 1 }
  else
    let c' := { c with pos := c.pos + 1 }
    if c'.leaf.any fun l => c'.pos < l.keys.length then some c' else c'.nextLeaf c'.stack

/-- `next_row`. -/
def nextRow (c : BTreeCursor α) : Option (BTreeCursor α × Option α) :=
  if c.started then c.step.map fun c' => (c', c'.current)
  else some ({ c with started := true }, ({ c with started := true } : BTreeCursor α).current)

/-- The rows the cursor yields, at most as many as the number says. -/
def collect : Nat → BTreeCursor α → Option (List α)
  | 0, _ => none
  | n + 1, c => do
    match ← c.nextRow with
    | (_, none) => some []
    | (c', some row) => return row :: (← collect n c')

end BTreeCursor

open BTreeCursor

namespace BTree

/-- `values_from`. -/
def valuesFrom (t : BTree α) (bound : Option (α → Ordering)) (inclusive : Bool) : Option (BTreeCursor α) :=
  if t.size = 0 then some (.empty false)
  else do
    let c ← match bound with
      | none => descendFirst (.empty false) [] t.root
      | some seek => descendSeek (.empty false) seek inclusive t.root
    c.normalizeForward 2

/-- `values_from_reversed`. -/
def valuesFromReversed (t : BTree α) (bound : Option (α → Ordering)) (inclusive : Bool) : Option (BTreeCursor α) :=
  if t.size = 0 then some (.empty true)
  else do
    let c ← match bound with
      | none => descendLast (.empty true) [] t.root
      | some seek => descendSeekReverse (.empty true) seek inclusive t.root
    c.normalizeReverse 2

/-- A scan drained to its end. -/
def scan (t : BTree α) (bound : Option (α → Ordering)) (inclusive reverse : Bool) : Option (List α) := do
  let c ← if reverse then t.valuesFromReversed bound inclusive else t.valuesFrom bound inclusive
  c.collect (t.size + 1)

end BTree

/-! ## Stacks -/

/-- The rows to the right of a path, and to its left. -/
def rightOf : List (BNode α × Nat) → List α
  | [] => []
  | (n, d) :: st => rowsAll (n.children.drop (d + 1)) ++ rightOf st

def leftOf : List (BNode α × Nat) → List α
  | [] => []
  | (n, d) :: st => leftOf st ++ rowsAll (n.children.take d)

/-- Each frame is a well-formed internal node with a child selected. -/
def StackOk (st : List (BNode α × Nat)) : Prop :=
  ∀ f ∈ st, ∃ h, NodeOk (h + 1) false f.1 ∧ f.2 < f.1.children.length

theorem descendAt_eq (pick : BNode α → Nat) (st : List (BNode α × Nat)) :
    ∀ (cs : List (BNode α)) (i : Nat) (c : BNode α), cs[i]? = some c → descendAt pick st cs i = descend pick st c
  | [], _, _, h => by simp at h
  | d :: _, 0, c, h => by
    obtain rfl : d = c := by simpa using h
    rw [descendAt]
  | _ :: cs, i + 1, c, h => by
    rw [descendAt]
    exact descendAt_eq pick st cs i c (by simpa using h)

/-- What a descent must do: reach a non-empty leaf, the path splitting the node's rows. -/
def Reaches (L R : α → Prop) (st : List (BNode α × Nat)) (n : BNode α)
    (r : Option (List (BNode α × Nat) × BNode α)) : Prop :=
  ∃ st' ks A B, r = some (st', .leaf ks) ∧ ks ≠ [] ∧ StackOk st' ∧ leftOf st' = leftOf st ++ A ∧
    rightOf st' = B ++ rightOf st ∧ n.rows = A ++ ks ++ B ∧ (∀ x ∈ A, L x) ∧ ∀ x ∈ B, R x

/-- A descent, given at each node what its choice leaves on either side. -/
theorem descend_spec {pick : BNode α → Nat} (L R : α → Prop) (good : BNode α → Prop)
    (hpick : ∀ {h : Nat} {ks : List α} {cs : List (BNode α)}, NodeOk (h + 1) false (.internal ks cs) →
      good (.internal ks cs) → ∃ A c B, cs = A ++ c :: B ∧ pick (.internal ks cs) = A.length ∧
        (∀ x ∈ rowsAll A, L x) ∧ (∀ x ∈ rowsAll B, R x) ∧ good c) {h : Nat} :
    ∀ {st : List (BNode α × Nat)} {n : BNode α}, NodeOk h false n → good n → StackOk st →
      Reaches L R st n (descend pick st n) := by
  induction h with
  | zero =>
    intro st n hn _ hst
    cases n with
    | internal ks cs => exact hn.elim
    | leaf ks =>
      rw [descend]
      exact ⟨st, ks, [], [], rfl, hn.1 rfl, hst, by simp, by simp, by simp, by simp, by simp⟩
  | succ h ih =>
    intro st n hn hgood hst
    cases n with
    | leaf ks => exact hn.elim
    | internal ks cs =>
      obtain ⟨A, c, B, rfl, hp, hA, hB, hc⟩ := hpick hn hgood
      have hcok := hn.2.2.2 c (by simp)
      have hst' : StackOk ((BNode.internal ks (A ++ c :: B), A.length) :: st) := by
        intro f hf
        rcases List.mem_cons.mp hf with rfl | hf
        · exact ⟨h, hn, by simp [children]⟩
        · exact hst f hf
      rw [descend, hp, descendAt_eq _ _ _ _ c (by simp)]
      obtain ⟨st', ks', A', B', heq, hne, hok, hl, hr, hrows, hLA, hRB⟩ := ih hcok hc hst'
      refine ⟨st', ks', rowsAll A ++ A', B' ++ rowsAll B, heq, hne, hok, ?_, ?_, ?_, ?_, ?_⟩
      · rw [hl]
        simp [leftOf, children]
      · rw [hr, rightOf, children, drop_mid_succ, List.append_assoc]
      · rw [rows_internal, rowsAll_append, rowsAll_cons, hrows]
        simp
      · intro x hx
        rcases List.mem_append.mp hx with hx | hx
        · exact hA x hx
        · exact hLA x hx
      · intro x hx
        rcases List.mem_append.mp hx with hx | hx
        · exact hRB x hx
        · exact hB x hx

/-! ## Positions -/

/-- A forward cursor with these rows to yield, the current one first. -/
def Ahead (c : BTreeCursor α) (rows : List α) : Prop :=
  (c.leaf = none ∧ rows = []) ∨
    ∃ ks, c.leaf = some (.leaf ks) ∧ StackOk c.stack ∧ c.pos < ks.length ∧ rows = ks.drop c.pos ++ rightOf c.stack

/-- A reverse cursor with these rows to yield, the current one first. -/
def Behind (c : BTreeCursor α) (rows : List α) : Prop :=
  (c.leaf = none ∧ rows = []) ∨
    ∃ ks, c.leaf = some (.leaf ks) ∧ StackOk c.stack ∧ c.pos < ks.length ∧
      rows = (ks.take (c.pos + 1)).reverse ++ (leftOf c.stack).reverse

def Yields (c : BTreeCursor α) (rows : List α) : Prop := if c.reverse then Behind c rows else Ahead c rows

/-- Two cursors of one direction and stage. -/
def SameMode (c c' : BTreeCursor α) : Prop := c'.reverse = c.reverse ∧ c'.started = c.started

variable {c : BTreeCursor α} {st : List (BNode α × Nat)}

theorem descendFirst_spec (c : BTreeCursor α) {n : BNode α} {h : Nat}
    (hn : NodeOk h false n) (hst : StackOk st) :
    ∃ c', c.descendFirst st n = some c' ∧ Ahead c' (n.rows ++ rightOf st) ∧ SameMode c c' := by
  have hreach : Reaches (fun _ => False) (fun _ => True) st n (descend (fun _ => 0) st n) := by
    apply descend_spec (fun _ => False) (fun _ => True) (fun _ => True) ?_ hn trivial hst
    intro h ks cs hok _
    obtain ⟨c, cs, rfl⟩ := List.exists_cons_of_ne_nil (hok.1 rfl)
    exact ⟨[], c, cs, rfl, rfl, by simp, by simp, trivial⟩
  obtain ⟨st', ks, A, B, heq, hne, hok, -, hr, hrows, hA, -⟩ := hreach
  obtain rfl : A = [] := List.eq_nil_iff_forall_not_mem.mpr hA
  refine ⟨{ c with stack := st', leaf := some (.leaf ks), pos := 0 }, by rw [descendFirst, heq]; rfl, ?_, rfl, rfl⟩
  refine Or.inr ⟨ks, rfl, hok, List.length_pos_iff.mpr hne, ?_⟩
  rw [hrows, hr]
  simp

theorem descendLast_spec (c : BTreeCursor α) {n : BNode α} {h : Nat}
    (hn : NodeOk h false n) (hst : StackOk st) :
    ∃ c', c.descendLast st n = some c' ∧ Behind c' (n.rows.reverse ++ (leftOf st).reverse) ∧ SameMode c c' := by
  have hreach : Reaches (fun _ => True) (fun _ => False) st n (descend (fun n => n.children.length - 1) st n) := by
    apply descend_spec (fun _ => True) (fun _ => False) (fun _ => True) ?_ hn trivial hst
    intro h ks cs hok _
    obtain ⟨A, c, rfl⟩ := (List.eq_nil_or_concat cs).resolve_left (hok.1 rfl)
    exact ⟨A, c, [], by simp, by simp [children], by simp, by simp, trivial⟩
  obtain ⟨st', ks, A, B, heq, hne, hok, hl, -, hrows, -, hB⟩ := hreach
  obtain rfl : B = [] := List.eq_nil_iff_forall_not_mem.mpr hB
  have hpos : 0 < ks.length := List.length_pos_iff.mpr hne
  refine ⟨{ c with stack := st', leaf := some (.leaf ks), pos := ks.length - 1 }, by rw [descendLast, heq]; rfl, ?_, rfl,
    rfl⟩
  refine Or.inr ⟨ks, rfl, hok, by simp only; omega, ?_⟩
  simp only
  rw [hrows, hl, List.take_of_length_le (by omega)]
  simp

theorem StackOk.tail {f : BNode α × Nat} (h : StackOk (f :: st)) : StackOk st :=
  fun g hg => h g (List.mem_cons_of_mem _ hg)

theorem nextLeaf_spec (c : BTreeCursor α) : ∀ {st : List (BNode α × Nat)}, StackOk st →
    ∃ c', c.nextLeaf st = some c' ∧ Ahead c' (rightOf st) ∧ SameMode c c'
  | [], _ => ⟨_, rfl, Or.inl ⟨rfl, rfl⟩, rfl, rfl⟩
  | (n, d) :: st, hst => by
    obtain ⟨h, hn, hd⟩ := hst (n, d) List.mem_cons_self
    rw [nextLeaf]
    by_cases hlt : d + 1 < n.children.length
    · have hchild : n.children[d + 1]? = some n.children[d + 1] := List.getElem?_eq_getElem hlt
      have hok : NodeOk h false n.children[d + 1] := by
        cases n with
        | leaf ks => exact hn.elim
        | internal ks cs => exact hn.2.2.2 _ (List.getElem_mem hlt)
      have hst' : StackOk ((n, d + 1) :: st) := by
        intro f hf
        rcases List.mem_cons.mp hf with rfl | hf
        · exact ⟨h, hn, hlt⟩
        · exact hst.tail f hf
      obtain ⟨c', heq, hat, hmode⟩ := descendFirst_spec c hok hst'
      refine ⟨c', by rw [if_pos hlt, hchild]; exact heq, ?_, hmode⟩
      rw [rightOf, List.drop_eq_getElem_cons hlt, rowsAll_cons, List.append_assoc]
      exact hat
    · obtain ⟨c', heq, hat, hmode⟩ := nextLeaf_spec c hst.tail
      refine ⟨c', by rw [if_neg hlt]; exact heq, ?_, hmode⟩
      rw [rightOf, List.drop_eq_nil_of_le (by omega)]
      exact hat

theorem prevLeaf_spec (c : BTreeCursor α) : ∀ {st : List (BNode α × Nat)}, StackOk st →
    ∃ c', c.prevLeaf st = some c' ∧ Behind c' (leftOf st).reverse ∧ SameMode c c'
  | [], _ => ⟨_, rfl, Or.inl ⟨rfl, rfl⟩, rfl, rfl⟩
  | (n, d) :: st, hst => by
    obtain ⟨h, hn, hd⟩ := hst (n, d) List.mem_cons_self
    rw [prevLeaf]
    simp only at hd
    by_cases hpos : d > 0
    · have hlt : d - 1 < n.children.length := by omega
      have hchild : n.children[d - 1]? = some n.children[d - 1] := List.getElem?_eq_getElem hlt
      have hok : NodeOk h false n.children[d - 1] := by
        cases n with
        | leaf ks => exact hn.elim
        | internal ks cs => exact hn.2.2.2 _ (List.getElem_mem hlt)
      have hst' : StackOk ((n, d - 1) :: st) := by
        intro f hf
        rcases List.mem_cons.mp hf with rfl | hf
        · exact ⟨h, hn, hlt⟩
        · exact hst.tail f hf
      obtain ⟨c', heq, hat, hmode⟩ := descendLast_spec c hok hst'
      refine ⟨c', by rw [if_pos hpos, hchild]; exact heq, ?_, hmode⟩
      have htake : n.children.take d = n.children.take (d - 1) ++ [n.children[d - 1]] := by
        conv_lhs => rw [show d = d - 1 + 1 by omega, List.take_add_one, hchild]
        rfl
      have hleft : (leftOf ((n, d) :: st)).reverse =
          (n.children[d - 1]).rows.reverse ++ (leftOf ((n, d - 1) :: st)).reverse := by
        rw [leftOf, leftOf, htake, rowsAll_append, rowsAll_cons, rowsAll_nil, List.append_nil]
        simp only [List.reverse_append, List.append_assoc]
      rw [hleft]
      exact hat
    · obtain ⟨c', heq, hat, hmode⟩ := prevLeaf_spec c hst.tail
      obtain rfl : d = 0 := by omega
      refine ⟨c', by rw [if_neg hpos]; exact heq, ?_, hmode⟩
      simpa [leftOf] using hat

/-! ## Streams -/

theorem Yields.current {rows : List α} (h : Yields c rows) : c.current = rows.head? := by
  unfold Yields at h
  cases hr : c.reverse with
  | true =>
    rw [hr, if_pos rfl] at h
    rcases h with ⟨hl, rfl⟩ | ⟨ks, hl, -, hpos, rfl⟩
    · simp [BTreeCursor.current, hl]
    · have hk : ks[c.pos]? = some ks[c.pos] := List.getElem?_eq_getElem hpos
      rw [List.take_add_one, hk]
      simp only [Option.toList_some, List.reverse_append, List.reverse_singleton, List.cons_append, List.head?_cons]
      simp [BTreeCursor.current, hl, keys, hpos]
  | false =>
    rw [hr, if_neg (by simp)] at h
    rcases h with ⟨hl, rfl⟩ | ⟨ks, hl, -, hpos, rfl⟩
    · simp [BTreeCursor.current, hl]
    · rw [List.drop_eq_getElem_cons hpos]
      simp [BTreeCursor.current, hl, keys, hpos]

theorem step_yields {x : α} {rows : List α} (h : Yields c (x :: rows)) :
    ∃ c', c.step = some c' ∧ Yields c' rows ∧ SameMode c c' := by
  unfold Yields at h
  cases hr : c.reverse with
  | true =>
    rw [hr, if_pos rfl] at h
    obtain ⟨-, h0⟩ | ⟨ks, hl, hst, hpos, hrows⟩ := h
    · cases h0
    have hk : ks[c.pos]? = some ks[c.pos] := List.getElem?_eq_getElem hpos
    rw [List.take_add_one, hk] at hrows
    simp only [Option.toList_some, List.reverse_append, List.reverse_singleton, List.cons_append, List.cons.injEq,
      List.nil_append] at hrows
    obtain ⟨-, rfl⟩ := hrows
    by_cases h0 : c.pos = 0
    · obtain ⟨c', heq, hat, hmode⟩ := prevLeaf_spec c hst
      refine ⟨c', by simp [step, hr, h0, heq], ?_, hmode⟩
      simpa [Yields, hmode.1, hr, h0] using hat
    · refine ⟨{ c with pos := c.pos - 1 }, by simp [step, hr, h0], ?_, rfl, rfl⟩
      simp only [Yields, hr, if_true]
      refine Or.inr ⟨ks, hl, hst, by simp only; omega, ?_⟩
      simp only [show c.pos - 1 + 1 = c.pos by omega]
  | false =>
    rw [hr, if_neg (by simp)] at h
    obtain ⟨-, h0⟩ | ⟨ks, hl, hst, hpos, hrows⟩ := h
    · cases h0
    rw [List.drop_eq_getElem_cons hpos, List.cons_append, List.cons.injEq] at hrows
    obtain ⟨-, rfl⟩ := hrows
    by_cases hlt : c.pos + 1 < ks.length
    · refine ⟨{ c with pos := c.pos + 1 }, by simp [step, hr, hl, keys, hlt], ?_, rfl, rfl⟩
      simp only [Yields, hr, Bool.false_eq_true, if_false]
      exact Or.inr ⟨ks, hl, hst, hlt, rfl⟩
    · obtain ⟨c', heq, hat, hmode⟩ := nextLeaf_spec { c with pos := c.pos + 1 } hst
      have hstep : c.step = some c' := by
        unfold step
        rw [if_neg (by simp [hr]), ← heq]
        exact if_neg (by simp [hl, keys, hlt])
      refine ⟨c', hstep, ?_, hmode⟩
      rw [List.drop_eq_nil_of_le (by omega)]
      have hrev : c'.reverse = false := hmode.1.trans hr
      simpa [Yields, hrev] using hat

/-- A cursor that has yielded its current row yields the rest. -/
theorem collect_started (n : Nat) : ∀ {c : BTreeCursor α} {x : α} {rows : List α}, Yields c (x :: rows) →
    c.started = true → rows.length < n → c.collect n = some rows := by
  induction n with
  | zero => intro c x rows _ _ hn; omega
  | succ n ih =>
    intro c x rows h hs hn
    obtain ⟨c', hstep, hy, hmode⟩ := step_yields h
    rw [collect, nextRow, if_pos hs, hstep]
    simp only [Option.map_some, hy.current]
    cases rows with
    | nil => rfl
    | cons y rows =>
      have := ih hy (hmode.2.trans hs) (by simp at hn; omega)
      simp [this]

theorem collect_eq {rows : List α} (h : Yields c rows) (hs : c.started = false) {n : Nat}
    (hn : rows.length < n) : c.collect n = some rows := by
  obtain ⟨n, rfl⟩ : ∃ m, n = m + 1 := ⟨n - 1, by omega⟩
  have h' : Yields { c with started := true } rows := h
  rw [collect, nextRow, if_neg (by simp [hs])]
  simp only [h'.current]
  cases rows with
  | nil => rfl
  | cons x rows =>
    have := collect_started n h' rfl (by simp at hn; omega)
    simp [this]

/-! ## Scans -/

section
variable {cmp : α → α → Ordering}

/-- A bound that lies strictly above every row below one it is not below. -/
def SeekMono (cmp : α → α → Ordering) (seek : α → Ordering) : Prop :=
  ∀ a b, cmp a b = .lt → seek b ≠ .lt → seek a = .gt

variable {seek : α → Ordering}

theorem SeekMono.below (hm : SeekMono cmp seek) : ∀ a b, cmp a b = .lt → (seek b == .gt) = true → (seek a == .gt) = true := by
  intro a b hab hb
  rw [beq_iff_eq] at hb ⊢
  apply hm a b hab
  rw [hb]
  simp

theorem SeekMono.notAbove (hm : SeekMono cmp seek) :
    ∀ a b, cmp a b = .lt → (seek b != .lt) = true → (seek a != .lt) = true := by
  intro a b hab hb
  have ha := hm a b hab (by simpa using hb)
  simp [ha]

/-- A row above one that is not below the bound is above it. -/
theorem SeekMono.above (hm : SeekMono cmp seek) {a b : α} (hab : cmp a b = .lt) (ha : seek a ≠ .gt) : seek b = .lt := by
  by_contra h
  exact ha (hm a b hab h)

/-- The descent of a seek: everything to the left is below the bound, to the right above it. -/
theorem seek_reaches (hm : SeekMono cmp seek) {h : Nat} {n : BNode α} (hn : NodeOk h false n)
    (hs : SList.Sorted cmp n.rows) :
    Reaches (fun x => seek x = .gt) (fun x => seek x = .lt) [] n (descend (fun n => childIndexBound seek n.keys) [] n) := by
  apply descend_spec _ _ (fun n => SList.Sorted cmp n.rows) ?_ hn hs (fun f hf => by cases hf)
  intro h ks cs hok hs
  obtain ⟨hne, -, hk, hcs⟩ := hok
  rw [rows_internal] at hs
  obtain ⟨L, R, rfl, hL, hidx, hR⟩ := cut_split hm.below hk hcs hs
  have hL' : ∀ x ∈ rowsAll L, seek x = .gt := fun x hx => by simpa using hL x hx
  simp only [childIndexBound, keys, hidx, hk.length]
  rcases hR with rfl | ⟨c, R', m, rfl, hlast, hm', hR'⟩
  · obtain ⟨A, c, rfl⟩ := (List.eq_nil_or_concat L).resolve_left (by simpa using hne rfl)
    rw [List.concat_eq_append] at *
    refine ⟨A, c, [], by simp, by simp, fun x hx => hL' x (by simp [hx]), by simp, ?_⟩
    simp only [List.append_nil, rowsAll_append, rowsAll_cons, rowsAll_nil] at hs
    exact (SList.sorted_append.mp hs).2.1
  · refine ⟨L, c, R', rfl, by rw [if_neg (by simp)], hL', fun x hx => ?_, ?_⟩
    · exact hm.above (hR' x hx) (by simpa using hm')
    · simp only [rowsAll_append, rowsAll_cons] at hs
      exact (SList.sorted_append.mp (SList.sorted_append.mp hs).2.1).1

variable {c : BTreeCursor α}

theorem normalizeForward_of_ahead {rows : List α} (h : Ahead c rows) (n : Nat) :
    c.normalizeForward (n + 1) = some c := by
  rcases h with ⟨hl, -⟩ | ⟨ks, hl, -, hpos, -⟩
  · simp [normalizeForward, hl]
  · simp [normalizeForward, hl, keys, hpos]

theorem normalizeReverse_of_behind {rows : List α} (h : Behind c rows) (n : Nat) :
    c.normalizeReverse (n + 1) = some c := by
  rcases h with ⟨hl, -⟩ | ⟨ks, hl, -, hpos, -⟩
  · simp [normalizeReverse, hl]
  · have hne : ks ≠ [] := List.ne_nil_of_length_pos (by omega)
    simp [normalizeReverse, hl, keys, hpos, hne]

/-- A forward position that may lie past the end of its leaf. -/
theorem normalizeForward_spec {ks : List α} (hl : c.leaf = some (.leaf ks)) (hst : StackOk c.stack) :
    ∃ c', c.normalizeForward 2 = some c' ∧ Ahead c' (ks.drop c.pos ++ rightOf c.stack) ∧ SameMode c c' := by
  by_cases hpos : c.pos < ks.length
  · have hat : Ahead c (ks.drop c.pos ++ rightOf c.stack) := Or.inr ⟨ks, hl, hst, hpos, rfl⟩
    exact ⟨c, normalizeForward_of_ahead hat 1, hat, rfl, rfl⟩
  · obtain ⟨c', heq, hat, hmode⟩ := nextLeaf_spec c hst
    refine ⟨c', ?_, ?_, hmode⟩
    · rw [normalizeForward, hl]
      simp only [keys, hpos, if_false, heq, Option.bind_some]
      exact normalizeForward_of_ahead hat 0
    · rw [List.drop_eq_nil_of_le (by omega)]
      exact hat

theorem filter_all {p : α → Bool} {l : List α} (h : ∀ x ∈ l, p x = true) : l.filter p = l := List.filter_eq_self.mpr h

theorem filter_none {p : α → Bool} {l : List α} (h : ∀ x ∈ l, p x = false) : l.filter p = [] :=
  List.filter_eq_nil_iff.mpr fun x hx => by simp [h x hx]

/-- Which rows a forward scan yields. -/
def fromBound (inclusive : Bool) (seek : α → Ordering) (x : α) : Bool :=
  if inclusive then seek x != .gt else seek x == .lt

/-- Which rows a reverse scan yields. -/
def toBound (inclusive : Bool) (seek : α → Ordering) (x : α) : Bool :=
  if inclusive then seek x != .lt else seek x == .gt

theorem descendSeek_spec (hm : SeekMono cmp seek) {h : Nat} {n : BNode α} (hn : NodeOk h false n)
    (hs : SList.Sorted cmp n.rows) (inclusive : Bool) :
    ∃ c c', descendSeek (.empty false) seek inclusive n = some c ∧ c.normalizeForward 2 = some c' ∧
      Ahead c' (n.rows.filter (fromBound inclusive seek)) ∧ c'.reverse = false ∧ c'.started = false := by
  obtain ⟨st, ks, A, B, heq, -, hok, -, hr, hrows, hA, hB⟩ := seek_reaches hm hn hs
  have hks : SList.Sorted cmp ks := by
    rw [hrows] at hs
    exact (SList.sorted_append.mp (SList.sorted_append.mp hs).1).2.1
  obtain ⟨K, J, rfl, hK, hJ, hidx⟩ := SList.cut hm.below hks
  have hK' : ∀ x ∈ K, seek x = .gt := fun x hx => by simpa using hK x hx
  have hJ' : ∀ x ∈ J, seek x ≠ .gt := fun x hx => by simpa using hJ x hx
  -- rows below the bound are dropped, rows above it kept, in both readings
  have hrest : ∀ l : List α, (∀ x ∈ l, seek x = .lt) → l.filter (fromBound inclusive seek) = l := fun l hl =>
    filter_all fun x hx => by cases inclusive <;> simp [fromBound, hl x hx]
  have hdrop : ∀ l : List α, (∀ x ∈ l, seek x = .gt) → l.filter (fromBound inclusive seek) = [] := fun l hl =>
    filter_none fun x hx => by cases inclusive <;> simp [fromBound, hl x hx]
  have hfilter : n.rows.filter (fromBound inclusive seek) = J.filter (fromBound inclusive seek) ++ B := by
    rw [hrows]
    simp [hdrop A hA, hdrop K hK', hrest B hB]
  have hpos : ∃ pos, descendSeek (.empty false) seek inclusive n = some ⟨st, some (.leaf (K ++ J)), pos, false, false⟩ ∧
      (K ++ J).drop pos = J.filter (fromBound inclusive seek) := by
    unfold descendSeek
    rw [heq]
    simp only [Option.bind_eq_bind, Option.bind_some, keys, leafLowerBound, hidx]
    refine ⟨_, rfl, ?_⟩
    cases inclusive with
    | true =>
      simp only [Bool.not_true, Bool.false_and, Bool.false_eq_true, if_false, List.drop_left]
      exact (filter_all fun x hx => by simpa [fromBound] using hJ' x hx).symm
    | false =>
      cases J with
      | nil => simp
      | cons x J =>
        have hJs := (SList.sorted_cons.mp (SList.sorted_append.mp hks).2.1).1
        have hJlt : ∀ y ∈ J, seek y = .lt := fun y hy => hm.above (hJs y hy) (hJ' x List.mem_cons_self)
        by_cases hx : seek x = .eq
        · simp only [getElem?_mid, Option.any_some, hx, beq_self_eq_true, Bool.not_false, Bool.and_self, if_true,
            drop_mid_succ]
          rw [List.filter_cons_of_neg (by simp [fromBound, hx]), hrest J hJlt]
        · have hxlt : seek x = .lt := by
            cases h : seek x with
            | lt => rfl
            | eq => exact absurd h hx
            | gt => exact absurd h (hJ' x List.mem_cons_self)
          have hne : (seek x == .eq) = false := by simp [hxlt]
          simp only [getElem?_mid, Option.any_some, hne, Bool.and_false, Bool.false_eq_true, if_false, List.drop_left]
          refine (hrest _ fun y hy => ?_).symm
          rcases List.mem_cons.mp hy with rfl | hy
          · exact hxlt
          · exact hJlt y hy
  obtain ⟨pos, hseek, hd⟩ := hpos
  obtain ⟨c', hnorm, hat, hmode⟩ := normalizeForward_spec (c := ⟨st, some (.leaf (K ++ J)), pos, false, false⟩) rfl hok
  refine ⟨_, c', hseek, hnorm, ?_, hmode.1, hmode.2⟩
  simp only [hd, hr, rightOf, List.append_nil] at hat
  rw [hfilter]
  exact hat

theorem descendSeekReverse_spec (hm : SeekMono cmp seek) {h : Nat} {n : BNode α} (hn : NodeOk h false n)
    (hs : SList.Sorted cmp n.rows) (inclusive : Bool) :
    ∃ c, descendSeekReverse (.empty true) seek inclusive n = some c ∧
      Behind c (n.rows.filter (toBound inclusive seek)).reverse ∧ c.reverse = true ∧ c.started = false := by
  obtain ⟨st, ks, A, B, heq, -, hok, hl, -, hrows, hA, hB⟩ := seek_reaches hm hn hs
  have hks : SList.Sorted cmp ks := by
    rw [hrows] at hs
    exact (SList.sorted_append.mp (SList.sorted_append.mp hs).1).2.1
  -- both bounds cut the leaf after the rows that are kept
  have hcut : ∃ K J, ks = K ++ J ∧ (∀ x ∈ K, toBound inclusive seek x = true) ∧
      (∀ x ∈ J, toBound inclusive seek x = false) ∧
      (if inclusive then leafUpperBound seek ks else leafLowerBound seek ks) = K.length := by
    cases inclusive with
    | true =>
      obtain ⟨K, J, rfl, hK, hJ, hidx⟩ := SList.cut hm.notAbove hks
      exact ⟨K, J, rfl, hK, hJ, hidx⟩
    | false =>
      obtain ⟨K, J, rfl, hK, hJ, hidx⟩ := SList.cut hm.below hks
      exact ⟨K, J, rfl, hK, hJ, hidx⟩
  obtain ⟨K, J, rfl, hK, hJ, hidx⟩ := hcut
  have hfilter : n.rows.filter (toBound inclusive seek) = A ++ K := by
    rw [hrows]
    simp only [List.filter_append]
    rw [filter_all (l := A) fun x hx => by cases inclusive <;> simp [toBound, hA x hx], filter_all hK, filter_none hJ,
      filter_none (l := B) fun x hx => by cases inclusive <;> simp [toBound, hB x hx]]
    simp
  unfold descendSeekReverse
  rw [heq, hfilter, List.reverse_append]
  simp only [Option.bind_eq_bind, Option.bind_some, keys, hidx]
  by_cases h0 : K.length = 0
  · obtain rfl : K = [] := List.eq_nil_of_length_eq_zero h0
    rw [if_pos h0]
    obtain ⟨c', hprev, hat, hmode⟩ :=
      prevLeaf_spec ({ (.empty true : BTreeCursor α) with stack := st, leaf := some (.leaf ([] ++ J)) }) hok
    refine ⟨c', hprev, ?_, hmode.1, hmode.2⟩
    rw [hl] at hat
    simpa [leftOf] using hat
  · rw [if_neg h0]
    refine ⟨_, rfl, Or.inr ⟨K ++ J, rfl, hok, ?_, ?_⟩, rfl, rfl⟩
    · simp only [List.length_append]; omega
    · simp only [hl, leftOf, List.nil_append]
      rw [show K.length - 1 + 1 = K.length by omega, List.take_left]

namespace BTree

variable {t : BTree α}

theorem Valid.nonempty (ht : t.Valid cmp) (h0 : t.size ≠ 0) : ∃ h, NodeOk h false t.root := by
  obtain ⟨h, hn⟩ := ht.shape
  refine ⟨h, NodeOk.nonempty hn.mayEmpty fun hr => h0 ?_⟩
  rw [ht.size_eq, rows, hr]
  rfl

theorem Valid.rows_nil (ht : t.Valid cmp) (h0 : t.size = 0) : t.rows = [] :=
  List.eq_nil_of_length_eq_zero (ht.size_eq.symm.trans h0)

theorem scan_empty {seek : Option (α → Ordering)} {inclusive reverse : Bool} (h0 : t.size = 0) :
    t.scan seek inclusive reverse = some [] := by
  unfold scan
  cases reverse <;> simp [valuesFrom, valuesFromReversed, h0, collect, nextRow, BTreeCursor.empty, current]

/-- A scan without a bound yields the whole tree. -/
theorem scan_all (ht : t.Valid cmp) (inclusive reverse : Bool) :
    t.scan none inclusive reverse = some (if reverse then t.rows.reverse else t.rows) := by
  have hlen : t.rows.length < t.size + 1 := by rw [ht.size_eq]; omega
  by_cases h0 : t.size = 0
  · rw [scan_empty h0, ht.rows_nil h0]
    cases reverse <;> rfl
  unfold scan
  obtain ⟨h, hn⟩ := ht.nonempty h0
  have hnil : StackOk ([] : List (BNode α × Nat)) := fun f hf => by cases hf
  cases reverse with
  | true =>
    obtain ⟨c, heq, hat, hrev, hst⟩ := descendLast_spec (.empty true) hn hnil
    have hy : Yields c t.rows.reverse := by
      have hat' : Behind c t.rows.reverse := by simpa [leftOf, rows] using hat
      have hrev' : c.reverse = true := hrev
      rw [Yields, if_pos hrev']
      exact hat'
    have hcol := collect_eq hy hst (n := t.size + 1) (by rw [List.length_reverse]; exact hlen)
    simp [valuesFromReversed, h0, heq, normalizeReverse_of_behind hat, hcol]
  | false =>
    obtain ⟨c, heq, hat, hrev, hst⟩ := descendFirst_spec (.empty false) hn hnil
    have hy : Yields c t.rows := by
      have hat' : Ahead c t.rows := by simpa [rightOf, rows] using hat
      rw [Yields, if_neg (by simp [hrev, BTreeCursor.empty])]
      exact hat'
    have hcol := collect_eq hy hst hlen
    simp [valuesFrom, h0, heq, normalizeForward_of_ahead hat, hcol]

/-- A scan from a monotone bound yields the rows on its side of the bound. -/
theorem scan_bound (ht : t.Valid cmp) (hm : SeekMono cmp seek) (inclusive reverse : Bool) :
    t.scan (some seek) inclusive reverse = some
      (if reverse then (t.rows.filter (toBound inclusive seek)).reverse else t.rows.filter (fromBound inclusive seek)) := by
  have hsize := ht.size_eq
  by_cases h0 : t.size = 0
  · rw [scan_empty h0, ht.rows_nil h0]
    cases reverse <;> rfl
  unfold scan
  obtain ⟨h, hn⟩ := ht.nonempty h0
  cases reverse with
  | true =>
    obtain ⟨c, heq, hat, hrev, hst⟩ := descendSeekReverse_spec hm hn ht.sorted inclusive
    have hy : Yields c (t.rows.filter (toBound inclusive seek)).reverse := by
      rw [Yields, if_pos hrev]
      exact hat
    have hlen : (t.rows.filter (toBound inclusive seek)).reverse.length < t.size + 1 := by
      have := List.length_filter_le (toBound inclusive seek) t.rows
      rw [List.length_reverse]
      omega
    simp [valuesFromReversed, h0, heq, normalizeReverse_of_behind hat, collect_eq hy hst hlen]
  | false =>
    obtain ⟨c, c', heq, hnorm, hat, hrev, hst⟩ := descendSeek_spec hm hn ht.sorted inclusive
    have hy : Yields c' (t.rows.filter (fromBound inclusive seek)) := by
      rw [Yields, if_neg (by simp [hrev])]
      exact hat
    have hlen : (t.rows.filter (fromBound inclusive seek)).length < t.size + 1 := by
      have := List.length_filter_le (fromBound inclusive seek) t.rows
      omega
    simp [valuesFrom, h0, heq, hnorm, collect_eq hy hst hlen]

end BTree

end

end Rindle
