/-
  Rindle.Op.Gate — operators that keep some nodes of their input and drop the rest.

  The input is a level of the reference (`Rindle.View.Reference`): its nodes, sorted, with
  their relationships. A change touches one node, which it takes away, brings in, or turns
  into another (`Tree.succ`). A gate is right if it forwards the change when it keeps the node
  on both sides, adds the node when it starts to keep it, removes it when it stops, and is
  silent otherwise (`GateOut`). Then what is downstream goes on being the input's nodes that
  the gate keeps, and no node is added twice or removed when it is not there (`gate_fold`).
-/

import Rindle.View.Reference

set_option linter.dupNamespace false

namespace Rindle

namespace Tree

section
variable {schema : Schema} {U : List Tree} {t : Tree} {p : Tree → Bool}

/-! ## Levels under a filter -/

theorem OrderedLevel.filter (h : OrderedLevel schema U) (p : Tree → Bool) : OrderedLevel schema (U.filter p) :=
  ⟨h.sorted.sublist List.filter_sublist, fun t ht => h.ordered t (List.mem_filter.mp ht).1⟩

theorem insert_of_split {sort : SortSpec} {A C : List Tree} (hA : ∀ a ∈ A, byRow sort a t = .lt)
    (hC : ∀ c ∈ C, byRow sort c t = .gt) : SList.insert (byRow sort) t (A ++ C) = A ++ t :: C := by
  have h : SList.insert (byRow sort) t (A ++ [] ++ C) = _ := SList.insert_mid hA hC
  simpa [SList.insert] using h

theorem filter_insert (h : SList.Sorted (byRow schema.sort) U) (ht : ∀ x ∈ U, rowCmp schema.sort x.row t.row ≠ .eq) :
    (SList.insert (byRow schema.sort) t U).filter p =
      if p t then SList.insert (byRow schema.sort) t (U.filter p) else U.filter p := by
  obtain ⟨A, C, rfl, hA, hC, hins⟩ := split_absent h ht
  rw [hins, List.filter_append, List.filter_cons, List.filter_append]
  have hsplit : SList.insert (byRow schema.sort) t (A.filter p ++ C.filter p) = A.filter p ++ t :: C.filter p :=
    insert_of_split (fun a ha => hA a (List.mem_filter.mp ha).1) fun c hc => hC c (List.mem_filter.mp hc).1
  split
  · exact hsplit.symm
  · rfl

theorem filter_erase (h : SList.Sorted (byRow schema.sort) U) (ht : t ∈ U) {row : Row}
    (hrow : rowCmp schema.sort t.row row = .eq) :
    (SList.erase (byRow schema.sort) (key row) U).filter p =
      if p t then SList.erase (byRow schema.sort) (key row) (U.filter p) else U.filter p := by
  obtain ⟨A, x, C, rfl, hA, hC, hx⟩ := split_present h ⟨t, ht, hrow⟩
  obtain rfl : t = x := h.eq_of_cmp ht (by simp)
    ((Std.TransCmp.congr_right (Std.OrientedCmp.eq_symm hx)).symm.trans hrow)
  rw [erase_present hA hC hx, List.filter_append, List.filter_append, List.filter_cons]
  split
  · rw [erase_present (fun a ha => hA a (List.mem_filter.mp ha).1) (fun c hc => hC c (List.mem_filter.mp hc).1) hx]
  · rfl

/-! ## The node a change touches -/

/-- What an edit or a child change turns a node into. -/
@[grind] def succ (schema : Schema) (t : Tree) : Change → Tree
  | .edit n _ => { t with row := n.row }
  | .child _ rel c =>
    match schema.relChild rel with
    | none => t
    | some child => { t with kids := t.kids.modify rel fun kids => apply child kids c }
  | _ => t

end

end Tree

/-- The row a change finds its node by. -/
def Change.located : Change → Row
  | .add n => n.row
  | .remove n => n.row
  | .edit _ old => old.row
  | .child n _ _ => n.row

/-- Edits and child changes. -/
def Change.isTouch : Change → Bool
  | .edit _ _ => true
  | .child _ _ _ => true
  | _ => false

namespace Tree

section
variable {schema : Schema} {U : List Tree} {t : Tree} {c : Change}

theorem succ_row_child (schema : Schema) (t : Tree) (n : Node) (rel : Nat) (c : Change) :
    (succ schema t (.child n rel c)).row = t.row := by
  simp only [succ]
  split <;> rfl

theorem apply_child_eq (h : OrderedLevel schema U) {n : Node} {rel : Nat} (ht : t ∈ U)
    (hrow : rowCmp schema.sort t.row n.row = .eq) : apply schema U (.child n rel c) =
      SList.insert (byRow schema.sort) (succ schema t (.child n rel c)) (SList.erase (byRow schema.sort) (key n.row) U) := by
  obtain ⟨A, x, C, rfl, hA, hC, hx⟩ := split_present h.sorted ⟨t, ht, hrow⟩
  obtain rfl : t = x := eq_of_key h ht (by simp) hrow hx
  have hsame : ∀ b, byRow schema.sort b (succ schema t (.child n rel c)) = byRow schema.sort b (key n.row) := by
    intro b
    simp only [byRow, succ_row_child, key]
    exact Std.TransCmp.congr_right hrow
  rw [erase_present hA hC hx, insert_of_split (fun a ha => (hsame a).trans (hA a ha)) fun b hb => (hsame b).trans (hC b hb)]
  simp only [apply, succ]
  cases schema.relChild rel with
  | none => rfl
  | some sub => exact map_at hA hC hx _

theorem apply_edit_eq (h : OrderedLevel schema U) {n old : Node} (ht : t ∈ U)
    (hrow : rowCmp schema.sort t.row old.row = .eq) : apply schema U (.edit n old) =
      SList.insert (byRow schema.sort) (succ schema t (.edit n old)) (SList.erase (byRow schema.sort) (key old.row) U) := by
  have hfind : SList.find (byRow schema.sort) (key old.row) U = some t :=
    (SList.find_eq_some h.sorted).mpr ⟨ht, hrow⟩
  simp only [apply, hfind, succ]

/-- A touched node goes out under its old key and comes in as what it turned into. -/
theorem apply_touch (h : OrderedLevel schema U) (hc : c.isTouch = true) (ht : t ∈ U)
    (hrow : rowCmp schema.sort t.row c.located = .eq) : apply schema U c =
      SList.insert (byRow schema.sort) (succ schema t c) (SList.erase (byRow schema.sort) (key c.located) U) := by
  cases c with
  | add n => cases hc
  | remove n => cases hc
  | edit n old => exact apply_edit_eq h ht hrow
  | child n rel c => exact apply_child_eq h ht hrow

/-- What a touched node turns into has a key of its own once the old one is gone. -/
theorem succ_fresh (h : OrderedLevel schema U) (hc : c.isTouch = true) (hv : c.ValidFor schema U)
    (hrow : rowCmp schema.sort t.row c.located = .eq) :
    ∀ x ∈ SList.erase (byRow schema.sort) (key c.located) U, rowCmp schema.sort x.row (succ schema t c).row ≠ .eq := by
  intro x hx he
  obtain ⟨hxU, hne⟩ := (SList.mem_erase h.sorted).mp hx
  cases c with
  | add n => cases hc
  | remove n => cases hc
  | edit n old =>
    rcases hv.2 with hsame | habs
    · exact hne ((Std.TransCmp.congr_right hsame).trans he)
    · exact habs x hxU he
  | child n rel c =>
    rw [succ_row_child] at he
    exact hne ((Std.TransCmp.congr_right hrow).symm.trans he)

/-- A touch that is valid for a level is valid for each part of it that has the node. -/
theorem validFor_filter {p : Tree → Bool} (h : OrderedLevel schema U) (hc : c.isTouch = true) (hv : c.ValidFor schema U)
    (ht : t ∈ U.filter p) (hrow : rowCmp schema.sort t.row c.located = .eq) : c.ValidFor schema (U.filter p) := by
  cases c with
  | add n => cases hc
  | remove n => cases hc
  | edit n old => exact ⟨⟨t, ht, hrow⟩, hv.2.imp_right fun h x hx => h x (List.mem_filter.mp hx).1⟩
  | child n rel c =>
    simp only [Change.ValidFor] at hv ⊢
    cases hgate : schema.relChild rel with
    | none => trivial
    | some sub =>
      simp only [hgate] at hv ⊢
      obtain ⟨u, hu, hur, kids, hkids, hvalid⟩ := hv
      obtain rfl : u = t := eq_of_key h hu (List.mem_filter.mp ht).1 hur hrow
      exact ⟨u, ht, hur, kids, hkids, hvalid⟩

end

end Tree

/-! ## Gates -/

/-- What a gate that keeps the nodes of `p` may make of a change. -/
inductive GateOut (schema : Schema) (U : List Tree) (p : Tree → Bool) : Change → List Change → Prop
  | addKept {n : Node} (hp : p (.ofNode schema n) = true) : GateOut schema U p (.add n) [.add n]
  | addDropped {n : Node} (hp : p (.ofNode schema n) = false) : GateOut schema U p (.add n) []
  | removeKept {n : Node} {t : Tree} (ht : t ∈ U) (hrow : rowCmp schema.sort t.row n.row = .eq) (hp : p t = true) :
      GateOut schema U p (.remove n) [.remove n]
  | removeDropped {n : Node} {t : Tree} (ht : t ∈ U) (hrow : rowCmp schema.sort t.row n.row = .eq) (hp : p t = false) :
      GateOut schema U p (.remove n) []
  | pass {c : Change} {t : Tree} (hc : c.isTouch = true) (ht : t ∈ U) (hrow : rowCmp schema.sort t.row c.located = .eq)
      (before : p t = true) (after : p (t.succ schema c) = true) : GateOut schema U p c [c]
  | silent {c : Change} {t : Tree} (hc : c.isTouch = true) (ht : t ∈ U) (hrow : rowCmp schema.sort t.row c.located = .eq)
      (before : p t = false) (after : p (t.succ schema c) = false) : GateOut schema U p c []
  | enter {c : Change} {t : Tree} {n : Node} (hc : c.isTouch = true) (ht : t ∈ U)
      (hrow : rowCmp schema.sort t.row c.located = .eq) (before : p t = false) (after : p (t.succ schema c) = true)
      (hn : Tree.ofNode schema n = t.succ schema c) (hkeyed : n.Keyed) (hset : n.SetValued schema) :
      GateOut schema U p c [.add n]
  | leave {c : Change} {t : Tree} {n : Node} (hc : c.isTouch = true) (ht : t ∈ U)
      (hrow : rowCmp schema.sort t.row c.located = .eq) (before : p t = true) (after : p (t.succ schema c) = false)
      (hn : n.row = c.located) : GateOut schema U p c [.remove n]

/-- What is downstream of a gate goes on being what it keeps; each change it makes is valid there. -/
theorem gate_fold {schema : Schema} {U : List Tree} {p : Tree → Bool} {c : Change} {out : List Change}
    (h : Tree.OrderedLevel schema U) (hv : c.ValidFor schema U) (hout : GateOut schema U p c out) :
    Change.ValidStream schema (U.filter p) out ∧
      Tree.applyAll schema (U.filter p) out = (Tree.apply schema U c).filter p := by
  have hsub : ∀ x ∈ U.filter p, x ∈ U := fun x hx => (List.mem_filter.mp hx).1
  -- the level once a touched node is gone, and what is left of it downstream
  have hgone : ∀ {c : Change} {t : Tree}, c.isTouch = true → c.ValidFor schema U → t ∈ U →
      rowCmp schema.sort t.row c.located = .eq → (Tree.apply schema U c).filter p =
        if p (t.succ schema c) then SList.insert (byRow schema.sort) (t.succ schema c)
          (if p t then SList.erase (byRow schema.sort) (.key c.located) (U.filter p) else U.filter p)
        else if p t then SList.erase (byRow schema.sort) (.key c.located) (U.filter p) else U.filter p := by
    intro c t hc hv ht hrow
    rw [Tree.apply_touch h hc ht hrow, Tree.filter_insert (SList.sorted_erase h.sorted) (Tree.succ_fresh h hc hv hrow),
      Tree.filter_erase h.sorted ht hrow]
  cases hout with
  | addKept hp =>
    obtain ⟨hk, hs, habs⟩ := hv
    refine ⟨⟨⟨hk, hs, fun x hx => habs x (hsub x hx)⟩, trivial⟩, ?_⟩
    simp only [Tree.applyAll, List.foldl_cons, List.foldl_nil, Tree.apply]
    rw [Tree.filter_insert h.sorted (by rw [Tree.ofNode_row]; exact habs), if_pos hp]
  | addDropped hp =>
    refine ⟨trivial, ?_⟩
    simp only [Tree.applyAll, List.foldl_nil, Tree.apply]
    rw [Tree.filter_insert h.sorted (by rw [Tree.ofNode_row]; exact hv.2.2), if_neg (by simp [hp])]
  | removeKept ht hrow hp =>
    refine ⟨⟨⟨_, List.mem_filter.mpr ⟨ht, hp⟩, hrow⟩, trivial⟩, ?_⟩
    simp only [Tree.applyAll, List.foldl_cons, List.foldl_nil, Tree.apply]
    rw [Tree.filter_erase h.sorted ht hrow, if_pos hp]
  | removeDropped ht hrow hp =>
    refine ⟨trivial, ?_⟩
    simp only [Tree.applyAll, List.foldl_nil, Tree.apply]
    rw [Tree.filter_erase h.sorted ht hrow, if_neg (by simp [hp])]
  | pass hc ht hrow before after =>
    have hkept := List.mem_filter.mpr ⟨ht, before⟩
    refine ⟨⟨Tree.validFor_filter h hc hv hkept hrow, trivial⟩, ?_⟩
    simp only [Tree.applyAll, List.foldl_cons, List.foldl_nil]
    rw [hgone hc hv ht hrow, if_pos after, if_pos before, Tree.apply_touch (h.filter p) hc hkept hrow]
  | silent hc ht hrow before after =>
    refine ⟨trivial, ?_⟩
    simp only [Tree.applyAll, List.foldl_nil]
    rw [hgone hc hv ht hrow, if_neg (by simp [after]), if_neg (by simp [before])]
  | @enter _ t n hc ht hrow before after hn hkeyed hset =>
    have herase : ∀ x ∈ U.filter p, x ∈ SList.erase (byRow schema.sort) (.key c.located) U := by
      intro x hx
      refine (SList.mem_erase h.sorted).mpr ⟨hsub x hx, fun he => ?_⟩
      obtain rfl : x = t := Tree.eq_of_key h (hsub x hx) ht he hrow
      rw [(List.mem_filter.mp hx).2] at before
      cases before
    refine ⟨⟨⟨hkeyed, hset, fun x hx => ?_⟩, trivial⟩, ?_⟩
    · rw [← Tree.ofNode_row schema n, hn]
      exact Tree.succ_fresh h hc hv hrow x (herase x hx)
    · simp only [Tree.applyAll, List.foldl_cons, List.foldl_nil, Tree.apply]
      rw [hgone hc hv ht hrow, if_pos after, if_neg (by simp [before]), hn]
  | leave hc ht hrow before after hn =>
    refine ⟨⟨⟨_, List.mem_filter.mpr ⟨ht, before⟩, hn ▸ hrow⟩, trivial⟩, ?_⟩
    simp only [Tree.applyAll, List.foldl_cons, List.foldl_nil, Tree.apply]
    rw [hgone hc hv ht hrow, if_neg (by simp [after]), if_pos before, hn]

end Rindle
