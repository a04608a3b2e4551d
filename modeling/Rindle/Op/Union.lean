/-
  Rindle.Op.Union — the OR fan over full nodes (`rust/src/op/union.rs`): a fan-out that
  broadcasts a change to its branches and a fan-in that makes one change of what they forward.

  A change upstream takes a row away, brings one in, or turns one into another. A branch that
  keeps the row before and after forwards the change, one that starts to keep it forwards an
  addition, one that stops forwards a removal (`Emits`). The fan-in collapses what it gets to
  the change of the union: `collapse_emits`. A flipped join pushes into an idle fan-in, which
  then asks every branch for the row.

  Under a child change the collapse rests on one gate flipping at a time: every EXISTS has a
  slot of its own. Given an addition and a removal, and no branch that forwards the child, it
  forwards the addition (the source asserts in debug builds that this cannot be).
-/

import Mathlib.Data.Set.Insert
import Rindle.Change
import Rindle.View.Schema

set_option linter.dupNamespace false

namespace Rindle

inductive ChangeType where
  | add
  | remove
  | edit
  | child

def Change.changeType : Change → ChangeType
  | .add _ => .add
  | .remove _ => .remove
  | .edit _ _ => .edit
  | .child _ _ _ => .child

namespace Union

/-! ## The collapse -/

/-- `merge_owned_rels`: the slots of both, left first. -/
def mergeOwnedRels (left right : List (Nat × List Node)) : List (Nat × List Node) :=
  right.foldl (fun left r => if left.any fun s => s.1 == r.1 then left else left ++ [r]) left

/-- A node with another's slots merged in. -/
def mergeNode (existing incoming : Node) : Node := .mk existing.row (mergeOwnedRels existing.rels incoming.rels)

/-- `merge_node_into`, `merge_edit_into` and `merge_child_into`: the first of a type stays and takes the later ones in. -/
def mergeInto {β : Type} (merge : β → β → β) (slot : Option β) (incoming : β) : Option β :=
  match slot with
  | some existing => some (merge existing incoming)
  | none => some incoming

/-- One change of each type at most. -/
structure Collapsed where
  add : Option Node := none
  remove : Option Node := none
  edit : Option (Node × Node) := none
  child : Option (Node × Nat × Change) := none

def mergeEdit (existing incoming : Node × Node) : Node × Node :=
  (mergeNode existing.1 incoming.1, mergeNode existing.2 incoming.2)

/-- The first child's slot and change stay. -/
def mergeChild (existing incoming : Node × Nat × Change) : Node × Nat × Change :=
  (mergeNode existing.1 incoming.1, existing.2)

/-- A step of phase 1. -/
def Collapsed.take (s : Collapsed) : Change → Collapsed
  | .add n => { s with add := mergeInto mergeNode s.add n }
  | .remove n => { s with remove := mergeInto mergeNode s.remove n }
  | .edit n old => { s with edit := mergeInto mergeEdit s.edit (n, old) }
  | .child n rel c => { s with child := mergeInto mergeChild s.child (n, rel, c) }

/-- An empty list for each slot of the schema that the node lacks. -/
def fillRels (schema : Schema) (n : Node) : Node :=
  .mk n.row ((List.range schema.relationships.length).foldl
    (fun rels i => if rels.any fun s => s.1 == i then rels else rels ++ [(i, [])]) n.rels)

def addEmptyRelationships (schema : Schema) : Change → Change
  | .add n => .add (fillRels schema n)
  | .remove n => .remove (fillRels schema n)
  | .edit n old => .edit (fillRels schema n) (fillRels schema old)
  | .child n rel c => .child n rel c

/-- Phase 2: by the type of what was broadcast. -/
def Collapsed.emit (s : Collapsed) (schema : Schema) : ChangeType → Option Change
  | .remove => s.remove.map fun r => addEmptyRelationships schema (.remove r)
  | .add => s.add.map fun a => addEmptyRelationships schema (.add a)
  | .edit =>
    (match s.edit with
      | some (node, old) =>
        some (Change.edit (match s.add with | some a => mergeNode node a | none => node)
          (match s.remove with | some r => mergeNode old r | none => old))
      | none =>
        match s.add, s.remove with
        | some a, some r => some (.edit a r)
        | some a, none => some (.add a)
        | none, some r => some (.remove r)
        | none, none => none).map (addEmptyRelationships schema)
  | .child =>
    match s.child with
    | some (n, rel, c) => some (.child n rel c)
    | none =>
      (match s.add, s.remove with
        | some a, _ => some (Change.add a)
        | none, some r => some (.remove r)
        | none, none => none).map (addEmptyRelationships schema)

/-- `push_accumulated_changes`. -/
def pushAccumulatedChanges (acc : List Change) (fanOutType : ChangeType) (schema : Schema) : Option Change :=
  (acc.foldl Collapsed.take {}).emit schema fanOutType

/-! ## The fan -/

structure FanIn where
  schema : Schema
  fanOutPushStarted : Bool
  accumulated : List Change

namespace FanIn

/-- `fan_out_started`; `none` where a broadcast is already on. -/
def fanOutStarted (f : FanIn) : Option FanIn :=
  if f.fanOutPushStarted then none else some { f with fanOutPushStarted := true }

/-- `push_internal_change`: `present` says of each branch whether a fetch by the row's primary key yields it. -/
def pushInternalChange (present : List Bool) (change : Change) : Option Change :=
  let forward :=
    match change with
    | .child _ _ _ => true
    | .edit _ _ => true
    | .add _ => present.count true == 1
    | .remove _ => present.count true == 0
  if forward then some change else none

/-- `push`: accumulate during a broadcast, else forward at once what the branches do not already have. -/
def push (f : FanIn) (present : List Bool) (change : Change) : FanIn × Option Change :=
  if f.fanOutPushStarted then ({ f with accumulated := f.accumulated ++ [change] }, none)
  else (f, pushInternalChange present change)

/-- `fan_out_done`. -/
def fanOutDone (f : FanIn) (fanOutType : ChangeType) : FanIn × Option Change :=
  ({ f with fanOutPushStarted := false, accumulated := [] }, pushAccumulatedChanges f.accumulated fanOutType f.schema)

/-- A branch's pushes during a broadcast. -/
def pushAll (f : FanIn) (present : List Bool) (changes : List Change) : FanIn :=
  changes.foldl (fun f c => (f.push present c).1) f

/-- The push of the fan-out: each branch gets the change and pushes what it makes of it. -/
def broadcast (f : FanIn) (present : List Bool) (branches : List (Change → List Change)) (change : Change) :
    Option (FanIn × Option Change) :=
  f.fanOutStarted.map fun f =>
    (branches.foldl (fun f branch => f.pushAll present (branch change)) f).fanOutDone change.changeType

theorem pushAll_accumulates {f : FanIn} (hf : f.fanOutPushStarted = true) (present : List Bool) (changes : List Change) :
    f.pushAll present changes = { f with accumulated := f.accumulated ++ changes } := by
  induction changes generalizing f with
  | nil => simp [pushAll]
  | cons c rest ih =>
    have hstep : (f.push present c).1 = { f with accumulated := f.accumulated ++ [c] } := by simp [push, hf]
    rw [pushAll, List.foldl_cons, hstep]
    have := @ih { f with accumulated := f.accumulated ++ [c] } hf
    rw [pushAll] at this
    rw [this]
    simp

/-- A broadcast collapses what all branches made of the change, and leaves the fan-in as it was. -/
theorem broadcast_eq {f : FanIn} (hidle : f.fanOutPushStarted = false) (hacc : f.accumulated = []) (present : List Bool)
    (branches : List (Change → List Change)) (change : Change) :
    f.broadcast present branches change =
      some (f, pushAccumulatedChanges (branches.flatMap fun b => b change) change.changeType f.schema) := by
  have hrun : ∀ (branches : List (Change → List Change)) (g : FanIn), g.fanOutPushStarted = true →
      branches.foldl (fun f branch => f.pushAll present (branch change)) g =
        { g with accumulated := g.accumulated ++ branches.flatMap fun b => b change } := by
    intro branches
    induction branches with
    | nil => intro g _; simp
    | cons b rest ih =>
      intro g hg
      rw [List.foldl_cons, pushAll_accumulates hg, ih { g with accumulated := g.accumulated ++ b change } hg]
      simp
  obtain ⟨schema, started, acc⟩ := f
  simp only at hidle hacc
  subst hidle hacc
  simp only [broadcast, fanOutStarted, Bool.false_eq_true, if_false, Option.map_some]
  rw [hrun branches _ rfl]
  simp [fanOutDone]

end FanIn

/-! ## What branches forward -/

end Union

/-- The row a change takes away. -/
@[grind] def Change.leaves : Change → Option Row
  | .add _ => none
  | .remove n => some n.row
  | .edit _ old => some old.row
  | .child n _ _ => some n.row

/-- The row a change brings. -/
@[grind] def Change.comes : Change → Option Row
  | .add n => some n.row
  | .remove _ => none
  | .edit n _ => some n.row
  | .child n _ _ => some n.row

namespace Union

/-- What one that keeps the row before (`was`) and after (`is`) forwards of a change upstream.
    The rows are the upstream's, the relationships its own. -/
inductive Emits (u : Change) : Bool → Bool → List Change → Prop
  | silent : Emits u false false []
  | enter {m : Node} (h : u.comes = some m.row) : Emits u false true [.add m]
  | leave {m : Node} (h : u.leaves = some m.row) : Emits u true false [.remove m]
  | edit {n old m o : Node} (hu : u = .edit n old) (hm : m.row = n.row) (ho : o.row = old.row) :
      Emits u true true [.edit m o]
  | child {n m : Node} {rel : Nat} {c c' : Change} (hu : u = .child n rel c) (hm : m.row = n.row) :
      Emits u true true [.child m rel c']

/-- A branch over one change upstream: the rows it keeps all along, whether it kept the row that leaves and keeps
    the row that comes, and what it forwards. -/
structure Branch where
  rest : Set Row
  was : Bool
  is : Bool
  out : List Change

/-- The rows of a branch before the change, and after it. -/
def Branch.before (u : Change) (b : Branch) : Set Row := b.rest ∪ {r | b.was = true ∧ u.leaves = some r}

def Branch.after (u : Change) (b : Branch) : Set Row := b.rest ∪ {r | b.is = true ∧ u.comes = some r}

/-- The other rows of the input are not the change's: it takes one of them away and brings a new one. -/
structure Branch.Over (u : Change) (b : Branch) : Prop where
  others : ∀ r ∈ b.rest, u.leaves ≠ some r ∧ u.comes ≠ some r
  emits : Emits u b.was b.is b.out

/-- The union of the branches, before and after. -/
def before (u : Change) (bs : List Branch) : Set Row := {r | ∃ b ∈ bs, r ∈ b.before u}

def after (u : Change) (bs : List Branch) : Set Row := {r | ∃ b ∈ bs, r ∈ b.after u}

/-! ## Phase 1 -/

/-- Merging keeps what the first one fixes. -/
theorem foldl_mergeInto {β κ : Type} {merge : β → β → β} (key : β → κ) (hkey : ∀ a b, key (merge a b) = key a) (l : List β) :
    ∀ first, ∃ e, l.foldl (mergeInto merge) (some first) = some e ∧ key e = key first := by
  induction l with
  | nil => intro first; exact ⟨first, rfl, rfl⟩
  | cons x rest ih =>
    intro first
    obtain ⟨e, he, hk⟩ := ih (merge first x)
    exact ⟨e, he, hk.trans (hkey first x)⟩

/-- Nothing of a type, or one that has the key of one of them. -/
theorem merged_cases {β κ : Type} {merge : β → β → β} (key : β → κ) (hkey : ∀ a b, key (merge a b) = key a) (l : List β) :
    (l.foldl (mergeInto merge) none = none ∧ l = []) ∨
      ∃ e, l.foldl (mergeInto merge) none = some e ∧ ∃ x ∈ l, key x = key e := by
  cases l with
  | nil => exact .inl ⟨rfl, rfl⟩
  | cons x rest =>
    obtain ⟨e, he, hk⟩ := foldl_mergeInto key hkey rest x
    exact .inr ⟨e, he, x, List.mem_cons_self .., hk.symm⟩

def addOf : Change → Option Node
  | .add n => some n
  | _ => none

def removeOf : Change → Option Node
  | .remove n => some n
  | _ => none

def editOf : Change → Option (Node × Node)
  | .edit n old => some (n, old)
  | _ => none

def childOf : Change → Option (Node × Nat × Change)
  | .child n rel c => some (n, rel, c)
  | _ => none

/-- Phase 1 goes through each type by itself. -/
theorem foldl_take (acc : List Change) : ∀ s : Collapsed, acc.foldl Collapsed.take s =
    { add := (acc.filterMap addOf).foldl (mergeInto mergeNode) s.add
      remove := (acc.filterMap removeOf).foldl (mergeInto mergeNode) s.remove
      edit := (acc.filterMap editOf).foldl (mergeInto mergeEdit) s.edit
      child := (acc.filterMap childOf).foldl (mergeInto mergeChild) s.child } := by
  induction acc with
  | nil => intro s; rfl
  | cons c rest ih =>
    intro s
    rw [List.foldl_cons, ih]
    cases c <;> rfl

/-! ## The collapse of what branches forward -/

section
variable {u : Change} {bs : List Branch}

/-- A type's slot after phase 1: filled where some branch forwards that type, with the rows every branch gives it. -/
theorem slot_cases {β κ : Type} (merge : β → β → β) (of : Change → Option β) (flag : Branch → Bool) (key : β → κ)
    (hkey : ∀ a b, key (merge a b) = key a) {target : κ}
    (hin : ∀ b ∈ bs, flag b = true → ∃ c ∈ b.out, ∃ x, of c = some x)
    (hout : ∀ b ∈ bs, ∀ c ∈ b.out, ∀ x, of c = some x → flag b = true ∧ key x = target) :
    ((((bs.flatMap (·.out)).filterMap of).foldl (mergeInto merge) none = none) ∧ bs.any flag = false) ∨
      ∃ e, ((bs.flatMap (·.out)).filterMap of).foldl (mergeInto merge) none = some e ∧ key e = target ∧
        bs.any flag = true := by
  rcases merged_cases key hkey ((bs.flatMap (·.out)).filterMap of) with ⟨h, hnil⟩ | ⟨e, he, x, hx, hk⟩
  · refine .inl ⟨h, List.any_eq_false.mpr fun b hb hf => ?_⟩
    obtain ⟨c, hc, x, hx⟩ := hin b hb hf
    have hmem : x ∈ (bs.flatMap (·.out)).filterMap of :=
      List.mem_filterMap.mpr ⟨c, List.mem_flatMap.mpr ⟨b, hb, hc⟩, hx⟩
    rw [hnil] at hmem
    exact List.not_mem_nil hmem
  · obtain ⟨c, hc, hof⟩ := List.mem_filterMap.mp hx
    obtain ⟨b, hb, hc⟩ := List.mem_flatMap.mp hc
    obtain ⟨hf, hkx⟩ := hout b hb c hc x hof
    exact .inr ⟨e, he, hk.symm.trans hkx, List.any_eq_true.mpr ⟨b, hb, hf⟩⟩

/-- Whether some branch starts to keep the row, stops to, or keeps it on both sides. -/
def entered (bs : List Branch) : Bool := bs.any fun b => !b.was && b.is

def left (bs : List Branch) : Bool := bs.any fun b => b.was && !b.is

def stayed (bs : List Branch) : Bool := bs.any fun b => b.was && b.is

theorem was_any (bs : List Branch) : (bs.any (·.was)) = (left bs || stayed bs) := by
  induction bs with
  | nil => rfl
  | cons b rest ih =>
    simp only [left, stayed, List.any_cons] at ih ⊢
    rw [ih]
    grind

theorem is_any (bs : List Branch) : (bs.any (·.is)) = (entered bs || stayed bs) := by
  induction bs with
  | nil => rfl
  | cons b rest ih =>
    simp only [entered, stayed, List.any_cons] at ih ⊢
    rw [ih]
    grind

theorem add_slot (hbs : ∀ b ∈ bs, Emits u b.was b.is b.out) :
    (((bs.flatMap (·.out)).filterMap addOf).foldl (mergeInto mergeNode) none = none ∧ entered bs = false) ∨
      ∃ a, ((bs.flatMap (·.out)).filterMap addOf).foldl (mergeInto mergeNode) none = some a ∧
        some a.row = u.comes ∧ entered bs = true := by
  refine slot_cases mergeNode addOf (fun b => !b.was && b.is) (fun n => some n.row) (fun _ _ => rfl) ?_ ?_
  · intro b hb hf
    have h := hbs b hb
    obtain ⟨rest, was, is, out⟩ := b
    cases h <;> simp [addOf] at hf ⊢
  · intro b hb c hc x hof
    have h := hbs b hb
    obtain ⟨rest, was, is, out⟩ := b
    cases h <;> simp only [List.mem_singleton, List.not_mem_nil] at hc <;> subst hc <;> simp [addOf] at hof
    subst hof
    exact ⟨rfl, Eq.symm ‹_›⟩

theorem remove_slot (hbs : ∀ b ∈ bs, Emits u b.was b.is b.out) :
    (((bs.flatMap (·.out)).filterMap removeOf).foldl (mergeInto mergeNode) none = none ∧ left bs = false) ∨
      ∃ r, ((bs.flatMap (·.out)).filterMap removeOf).foldl (mergeInto mergeNode) none = some r ∧
        some r.row = u.leaves ∧ left bs = true := by
  refine slot_cases mergeNode removeOf (fun b => b.was && !b.is) (fun n => some n.row) (fun _ _ => rfl) ?_ ?_
  · intro b hb hf
    have h := hbs b hb
    obtain ⟨rest, was, is, out⟩ := b
    cases h <;> simp [removeOf] at hf ⊢
  · intro b hb c hc x hof
    have h := hbs b hb
    obtain ⟨rest, was, is, out⟩ := b
    cases h <;> simp only [List.mem_singleton, List.not_mem_nil] at hc <;> subst hc <;> simp [removeOf] at hof
    subst hof
    exact ⟨rfl, Eq.symm ‹_›⟩

theorem edit_slot {n old : Node} (hbs : ∀ b ∈ bs, Emits (.edit n old) b.was b.is b.out) :
    (((bs.flatMap (·.out)).filterMap editOf).foldl (mergeInto mergeEdit) none = none ∧ stayed bs = false) ∨
      ∃ e, ((bs.flatMap (·.out)).filterMap editOf).foldl (mergeInto mergeEdit) none = some e ∧
        (e.1.row, e.2.row) = (n.row, old.row) ∧ stayed bs = true := by
  refine slot_cases mergeEdit editOf (fun b => b.was && b.is) (fun e => (e.1.row, e.2.row)) (fun _ _ => rfl) ?_ ?_
  · intro b hb hf
    have h := hbs b hb
    obtain ⟨rest, was, is, out⟩ := b
    cases h with
    | edit hu hm ho => exact ⟨_, List.mem_singleton.mpr rfl, _, rfl⟩
    | child hu hm => cases hu
    | _ => simp at hf
  · intro b hb c hc x hof
    have h := hbs b hb
    obtain ⟨rest, was, is, out⟩ := b
    cases h with
    | edit hu hm ho =>
      cases hu
      rw [List.mem_singleton.mp hc] at hof
      cases hof
      exact ⟨rfl, by rw [hm, ho]⟩
    | _ => simp_all [editOf]

theorem child_slot {n : Node} {rel : Nat} {c : Change} (hbs : ∀ b ∈ bs, Emits (.child n rel c) b.was b.is b.out) :
    (((bs.flatMap (·.out)).filterMap childOf).foldl (mergeInto mergeChild) none = none ∧ stayed bs = false) ∨
      ∃ e, ((bs.flatMap (·.out)).filterMap childOf).foldl (mergeInto mergeChild) none = some e ∧
        (e.1.row, e.2.1) = (n.row, rel) ∧ stayed bs = true := by
  refine slot_cases mergeChild childOf (fun b => b.was && b.is) (fun e => (e.1.row, e.2.1)) (fun _ _ => rfl) ?_ ?_
  · intro b hb hf
    have h := hbs b hb
    obtain ⟨rest, was, is, out⟩ := b
    cases h with
    | child hu hm => exact ⟨_, List.mem_singleton.mpr rfl, _, rfl⟩
    | edit hu hm ho => cases hu
    | _ => simp at hf
  · intro b hb c' hc x hof
    have h := hbs b hb
    obtain ⟨rest, was, is, out⟩ := b
    cases h with
    | child hu hm =>
      cases hu
      rw [List.mem_singleton.mp hc] at hof
      cases hof
      exact ⟨rfl, by rw [hm]⟩
    | _ => simp_all [childOf]

/-- No branch starts to keep the node of a child change while another stops, unless one keeps it on both sides. -/
def OneGate (u : Change) (bs : List Branch) : Prop :=
  u.changeType = .child → entered bs = true → left bs = true → stayed bs = true

/-- The collapse forwards what the union itself, taken as one branch, would. -/
theorem collapse_emits (hbs : ∀ b ∈ bs, Emits u b.was b.is b.out) (hgate : OneGate u bs) (schema : Schema) :
    Emits u (bs.any (·.was)) (bs.any (·.is))
      (pushAccumulatedChanges (bs.flatMap (·.out)) u.changeType schema).toList := by
  rw [was_any, is_any, pushAccumulatedChanges, foldl_take]
  have hadd := add_slot hbs
  have hremove := remove_slot hbs
  -- An addition stays in no branch and leaves none, a removal stays in none and enters none.
  cases u with
  | add n =>
    have hnot : left bs = false ∧ stayed bs = false := by
      constructor <;> refine List.any_eq_false.mpr fun b hb hf => ?_ <;> have h := hbs b hb <;>
        obtain ⟨rest, was, is, out⟩ := b <;> cases h <;> simp_all [Change.leaves]
    rw [hnot.1, hnot.2]
    rcases hadd with ⟨ha, he⟩ | ⟨a, ha, hrow, he⟩
    · simp only [he, ha, Collapsed.emit, Change.changeType]
      exact .silent
    · simp only [he, ha, Collapsed.emit, Change.changeType]
      exact .enter hrow.symm
  | remove n =>
    have hnot : entered bs = false ∧ stayed bs = false := by
      constructor <;> refine List.any_eq_false.mpr fun b hb hf => ?_ <;> have h := hbs b hb <;>
        obtain ⟨rest, was, is, out⟩ := b <;> cases h <;> simp_all [Change.comes]
    rw [hnot.1, hnot.2]
    rcases hremove with ⟨hr, hl⟩ | ⟨r, hr, hrow, hl⟩
    · simp only [hl, hr, Collapsed.emit, Change.changeType]
      exact .silent
    · simp only [hl, hr, Collapsed.emit, Change.changeType]
      exact .leave hrow.symm
  | edit n old =>
    rcases edit_slot hbs with ⟨hedit, hs⟩ | ⟨e, hedit, hrows, hs⟩
    · rcases hadd with ⟨ha, he⟩ | ⟨a, ha, harow, he⟩ <;> rcases hremove with ⟨hr, hl⟩ | ⟨r, hr, hrrow, hl⟩ <;>
        simp only [hs, he, hl, ha, hr, hedit, Collapsed.emit, Change.changeType]
      · exact .silent
      · exact .leave hrrow.symm
      · exact .enter harow.symm
      · exact .edit rfl (Option.some.inj harow) (Option.some.inj hrrow)
    · simp only [hs, hedit, Collapsed.emit, Change.changeType, Bool.or_true]
      simp only [Prod.mk.injEq] at hrows
      refine .edit rfl ?_ ?_
      · rw [← hrows.1]
        cases ((bs.flatMap (·.out)).filterMap addOf).foldl (mergeInto mergeNode) none <;> rfl
      · rw [← hrows.2]
        cases ((bs.flatMap (·.out)).filterMap removeOf).foldl (mergeInto mergeNode) none <;> rfl
  | child n rel c =>
    rcases child_slot hbs with ⟨hchild, hs⟩ | ⟨e, hchild, hrows, hs⟩
    · rcases hadd with ⟨ha, he⟩ | ⟨a, ha, harow, he⟩ <;> rcases hremove with ⟨hr, hl⟩ | ⟨r, hr, hrrow, hl⟩ <;>
        simp only [hs, he, hl, ha, hr, hchild, Collapsed.emit, Change.changeType]
      · exact .silent
      · exact .leave hrrow.symm
      · exact .enter harow.symm
      · exact absurd ((hgate rfl he hl).symm.trans hs) (by decide)
    · obtain ⟨m, mrel, mc⟩ := e
      simp only [hs, hchild, Collapsed.emit, Change.changeType, Bool.or_true]
      simp only [Prod.mk.injEq] at hrows
      obtain ⟨hm, rfl⟩ := hrows
      exact .child rfl hm

end

/-! ## The set downstream -/

end Union

/-- What a change does to a set of rows. -/
def Change.effect : Change → Set Row → Set Row
  | .add n, rows => insert n.row rows
  | .remove n, rows => rows \ {n.row}
  | .edit n old, rows => insert n.row (rows \ {old.row})
  | .child _ _ _, rows => rows

/-- It adds what is absent, and removes, edits or descends into what is present. -/
def Change.Applies : Change → Set Row → Prop
  | .add n, rows => n.row ∉ rows
  | .remove n, rows => n.row ∈ rows
  | .edit n old, rows => old.row ∈ rows ∧ n.row ∉ rows \ {old.row}
  | .child n _ _, rows => n.row ∈ rows

namespace Union

/-- What is forwarded, at most one change, takes a set of rows exactly to another. -/
def Moves (rows rows' : Set Row) : Option Change → Prop
  | none => rows' = rows
  | some c => c.Applies rows ∧ c.effect rows = rows'

section
variable {u : Change}

theorem Emits.moves {was is : Bool} {out : Option Change} (h : Emits u was is out.toList) {rest : Set Row}
    (hrest : ∀ r ∈ rest, u.leaves ≠ some r ∧ u.comes ≠ some r) :
    Moves (rest ∪ {r | was = true ∧ u.leaves = some r}) (rest ∪ {r | is = true ∧ u.comes = some r}) out := by
  rcases out with _ | c
  · cases h
    simp [Moves]
  cases h with
  | enter hc =>
    refine ⟨?_, ?_⟩
    · simp only [Change.Applies, Bool.false_eq_true, false_and, Set.ofPred_false, Set.union_empty]
      exact fun hm => (hrest _ hm).2 hc
    · ext r
      simp [Change.effect, hc, eq_comm, or_comm]
  | leave hl =>
    refine ⟨?_, ?_⟩
    · simp [Change.Applies, hl]
    · ext r
      simp only [Change.effect, Set.mem_sdiff, Set.mem_union, Set.mem_ofPred_eq, Set.mem_singleton_iff, hl]
      grind
  | edit hu hm ho =>
    subst hu
    simp only [Change.leaves, Change.comes] at hrest
    refine ⟨⟨?_, ?_⟩, ?_⟩
    · simp [Change.leaves, ho]
    · simp only [Change.leaves, Set.mem_sdiff, Set.mem_union, Set.mem_ofPred_eq, Set.mem_singleton_iff, hm, ho]
      grind
    · ext r
      simp only [Change.effect, Change.leaves, Change.comes, Set.mem_insert_iff, Set.mem_sdiff, Set.mem_union,
        Set.mem_ofPred_eq, Set.mem_singleton_iff, hm, ho]
      grind
  | child hu hm =>
    subst hu
    refine ⟨?_, ?_⟩
    · simp [Change.Applies, Change.leaves, hm]
    · simp [Change.effect, Change.leaves, Change.comes]

variable {bs : List Branch}

/-- The rows that branches keep all along. -/
def rest (bs : List Branch) : Set Row := {r | ∃ b ∈ bs, r ∈ b.rest}

theorem before_eq : before u bs = rest bs ∪ {r | bs.any (·.was) = true ∧ u.leaves = some r} := by
  ext r
  simp only [before, Branch.before, rest, Set.mem_union, Set.mem_ofPred_eq, List.any_eq_true]
  grind

theorem after_eq : after u bs = rest bs ∪ {r | bs.any (·.is) = true ∧ u.comes = some r} := by
  ext r
  simp only [after, Branch.after, rest, Set.mem_union, Set.mem_ofPred_eq, List.any_eq_true]
  grind

theorem rest_others (hbs : ∀ b ∈ bs, b.Over u) : ∀ r ∈ rest bs, u.leaves ≠ some r ∧ u.comes ≠ some r := by
  rintro r ⟨b, hb, hr⟩
  exact (hbs b hb).others r hr

/-- A broadcast moves the set downstream from the union of the branches before to the union after. -/
theorem collapse_moves (hbs : ∀ b ∈ bs, b.Over u) (hgate : OneGate u bs) (schema : Schema) :
    Moves (before u bs) (after u bs) (pushAccumulatedChanges (bs.flatMap (·.out)) u.changeType schema) := by
  rw [before_eq, after_eq]
  exact (collapse_emits (fun b hb => (hbs b hb).emits) hgate schema).moves (rest_others hbs)

/-! ## A change into the idle fan-in -/

/-- A branch that a change upstream of another one leaves alone. -/
def Branch.Quiet (u : Change) (b : Branch) : Prop :=
  (∀ r ∈ b.rest, u.leaves ≠ some r ∧ u.comes ≠ some r) ∧ b.is = b.was

theorem any_mid (f : Branch → Bool) (pre post : List Branch) (p : Branch) :
    (pre ++ p :: post).any f = (f p || (pre ++ post).any f) := by
  simp only [List.any_append, List.any_cons]
  cases f p <;> simp

theorem count_mid (f : Branch → Bool) (pre post : List Branch) (p : Branch) :
    ((pre ++ p :: post).map f).count true = (if f p then 1 else 0) + ((pre ++ post).map f).count true := by
  simp only [List.map_append, List.map_cons, List.count_append, List.count_cons]
  cases f p
  · simp
  · simp
    omega

theorem any_eq_count (f : Branch → Bool) (bs : List Branch) : bs.any f = decide (0 < (bs.map f).count true) := by
  induction bs with
  | nil => rfl
  | cons b rest ih =>
    simp only [List.any_cons, List.map_cons, List.count_cons, ih]
    cases f b <;> simp

theorem internal_moves {pre post : List Branch} {p : Branch} {c : Change} {r : Row} (hl : u.leaves = some r)
    (hc : u.comes = some r) (hp : p.Over u) (hout : p.out = [c]) (hquiet : ∀ b ∈ pre ++ post, b.Quiet u) :
    Moves (before u (pre ++ p :: post)) (after u (pre ++ p :: post))
      (FanIn.pushInternalChange ((pre ++ p :: post).map (·.is)) c) := by
  have hrest : ∀ r ∈ rest (pre ++ p :: post), u.leaves ≠ some r ∧ u.comes ≠ some r := by
    rintro r ⟨b, hb, hr⟩
    rcases List.mem_append.mp hb with hb | hb
    · exact (hquiet b (List.mem_append_left _ hb)).1 r hr
    · rcases List.mem_cons.mp hb with rfl | hb
      · exact hp.others r hr
      · exact (hquiet b (List.mem_append_right _ hb)).1 r hr
  -- The other branches keep the row on both sides or on neither.
  have hsame : (pre ++ post).any (·.was) = (pre ++ post).any (·.is) := by
    rw [Bool.eq_iff_iff, List.any_eq_true, List.any_eq_true]
    constructor <;> rintro ⟨b, hb, h⟩ <;> refine ⟨b, hb, ?_⟩
    · rw [(hquiet b hb).2, h]
    · rw [← (hquiet b hb).2, h]
  have hstay : (pre ++ post).any (·.is) = true → Moves (before u (pre ++ p :: post)) (after u (pre ++ p :: post)) none := by
    intro h
    simp only [Moves, before_eq, after_eq, any_mid, hsame, h, Bool.or_true, hl, hc]
  have hemits := hp.emits
  have hcount := any_eq_count (·.is) (pre ++ post)
  have hmoves : ∀ {out : Option Change}, Emits u ((pre ++ p :: post).any (·.was)) ((pre ++ p :: post).any (·.is)) out.toList →
      Moves (before u (pre ++ p :: post)) (after u (pre ++ p :: post)) out := by
    intro out h
    rw [before_eq, after_eq]
    exact h.moves hrest
  simp only [any_mid, hsame] at hmoves
  obtain ⟨others, was, is, out⟩ := p
  simp only at hout
  subst hout
  simp only at hemits hmoves
  cases hemits with
  | enter hm =>
    simp only [FanIn.pushInternalChange, count_mid, if_true]
    by_cases h : ((pre ++ post).map (·.is)).count true = 0
    · rw [h] at hcount ⊢
      refine hmoves ?_
      rw [hcount]
      exact .enter hm
    · have hone : (1 + ((pre ++ post).map (·.is)).count true == 1) = false := by
        rw [beq_eq_false_iff_ne]
        omega
      rw [hone]
      refine hstay ?_
      rw [hcount]
      exact decide_eq_true (by omega)
  | leave hm =>
    simp only [FanIn.pushInternalChange, count_mid, Bool.false_eq_true, if_false, Nat.zero_add]
    by_cases h : ((pre ++ post).map (·.is)).count true = 0
    · rw [h] at hcount ⊢
      refine hmoves ?_
      rw [hcount]
      exact .leave hm
    · have hone : (((pre ++ post).map (·.is)).count true == 0) = false := by
        rw [beq_eq_false_iff_ne]
        omega
      rw [hone]
      refine hstay ?_
      rw [hcount]
      exact decide_eq_true (by omega)
  | edit hu hm ho => exact hmoves (.edit hu hm ho)
  | child hu hm => exact hmoves (.child hu hm)

/-- A broadcast leaves the fan-in idle and moves the set downstream from the union of the branches before the change
    to their union after it, by at most one change; so does a push of one branch into the idle fan-in. -/
theorem union_collapse_exact :
    (∀ (f : FanIn) (present : List Bool) (branches : List (Change → List Change)) (u : Change) (bs : List Branch),
      f.fanOutPushStarted = false → f.accumulated = [] → branches.map (fun b => b u) = bs.map (·.out) →
      (∀ b ∈ bs, b.Over u) → OneGate u bs →
      ∃ out, f.broadcast present branches u = some (f, out) ∧ Moves (before u bs) (after u bs) out) ∧
    (∀ (f : FanIn) (u : Change) (r : Row) (pre post : List Branch) (p : Branch) (c : Change),
      f.fanOutPushStarted = false → u.leaves = some r → u.comes = some r → p.Over u → p.out = [c] →
      (∀ b ∈ pre ++ post, b.Quiet u) →
      ∃ out, f.push ((pre ++ p :: post).map (·.is)) c = (f, out) ∧
        Moves (before u (pre ++ p :: post)) (after u (pre ++ p :: post)) out) := by
  refine ⟨?_, ?_⟩
  · intro f present branches u bs hidle hacc hout hbs hgate
    refine ⟨_, FanIn.broadcast_eq hidle hacc present branches u, ?_⟩
    have hflat : (branches.flatMap fun b => b u) = bs.flatMap (·.out) := by
      rw [List.flatMap_def, List.flatMap_def, hout]
    rw [hflat]
    exact collapse_moves hbs hgate f.schema
  · intro f u r pre post p c hidle hl hc hp hout hquiet
    refine ⟨_, ?_, internal_moves hl hc hp hout hquiet⟩
    simp [FanIn.push, hidle]

end

def oneRow (i : Int64) : Row := [.int i]

def oneNode (i : Int64) : Node := .mk (oneRow i) []

def plainSchema : Schema :=
  { columns := ["id"], primaryKey := [0], sort := [(0, true)], relationships := [], singular := false }

/-- An edit that leaves one branch and enters another. -/
def split : List Branch :=
  [{ rest := {oneRow 5}, was := false, is := true, out := [.add (oneNode 2)] },
    { rest := ∅, was := true, is := false, out := [.remove (oneNode 1)] }]

theorem union_collapse_exact_split :
    ∃ out, FanIn.broadcast ⟨plainSchema, false, []⟩ [] [fun _ => [.add (oneNode 2)], fun _ => [.remove (oneNode 1)]]
        (.edit (oneNode 2) (oneNode 1)) = some (⟨plainSchema, false, []⟩, out) ∧
      Moves (before (.edit (oneNode 2) (oneNode 1)) split) (after (.edit (oneNode 2) (oneNode 1)) split) out := by
  refine union_collapse_exact.1 ⟨plainSchema, false, []⟩ [] _ (.edit (oneNode 2) (oneNode 1)) split rfl rfl rfl ?_ ?_
  · intro b hb
    simp only [split, List.mem_cons, List.not_mem_nil, or_false] at hb
    rcases hb with rfl | rfl
    · refine ⟨?_, .enter rfl⟩
      rintro r rfl
      constructor <;> decide
    · exact ⟨fun r hr => hr.elim, .leave rfl⟩
  · intro h
    cases h

def oneChild : Change := .child (oneNode 1) 0 (.add (oneNode 2))

/-- One gate opens and another closes. -/
def crossed : List Branch :=
  [{ rest := ∅, was := false, is := true, out := [.add (oneNode 1)] },
    { rest := ∅, was := true, is := false, out := [.remove (oneNode 1)] }]

/-- A child change that opens one gate and closes another: the row is in the union on both sides, and is added. -/
theorem union_collapse_crossed_gates :
    ∃ (u : Change) (bs : List Branch) (schema : Schema), (∀ b ∈ bs, b.Over u) ∧
      ¬ Moves (before u bs) (after u bs) (pushAccumulatedChanges (bs.flatMap (·.out)) u.changeType schema) := by
  refine ⟨oneChild, crossed, plainSchema, ?_, ?_⟩
  · intro b hb
    simp only [crossed, List.mem_cons, List.not_mem_nil, or_false] at hb
    rcases hb with rfl | rfl
    · exact ⟨fun r hr => hr.elim, .enter rfl⟩
    · exact ⟨fun r hr => hr.elim, .leave rfl⟩
  · intro h
    refine h.1 ?_
    exact ⟨_, List.mem_cons_of_mem _ (List.mem_singleton.mpr rfl), .inr ⟨rfl, rfl⟩⟩

end Union

end Rindle
