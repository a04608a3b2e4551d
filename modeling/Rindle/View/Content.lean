/-
  Rindle.View.Content — the view and the receiver fold one stream to one tree.

  `Entry.content` forgets the stamps of an entry: what is left is a receiver's node. Each
  operation of the view then is the receiver's on the content, whatever the mode and the
  generation (`apply_content`): the path of the flat change is the nesting of the change, and a
  slot out of view is skipped on both sides before anything is looked up.

  A node drained for the wire has its slots ascending, and the last of two for one slot; the
  view goes through them as the node has them. Both are the same for a node that has no slot
  twice (`Node.Keyed`), which the dataflow's nodes never do.
-/

import Mathlib.Data.List.InsertIdx
import Rindle.View.Apply

set_option linter.dupNamespace false

namespace Rindle

/-! ## Contents -/

mutual

def Entry.content : Entry → RecvNode
  | ⟨row, rc, _, rels⟩ => ⟨row, rc, contentRels rels⟩

def contentRels : List (EntryList Entry) → List (List RecvNode)
  | [] => []
  | ⟨_, items⟩ :: rest => contentItems items :: contentRels rest

def contentItems : List Entry → List RecvNode
  | [] => []
  | e :: rest => e.content :: contentItems rest

end

theorem contentItems_eq (items : List Entry) : contentItems items = items.map Entry.content := by
  induction items with
  | nil => rfl
  | cons e rest ih => simp only [contentItems, ih, List.map_cons]

/-- The list of a slot, without the stamps. -/
@[grind] def EntryList.content (l : EntryList Entry) : List RecvNode := l.items.map Entry.content

theorem contentRels_eq (rels : List (EntryList Entry)) : contentRels rels = rels.map EntryList.content := by
  induction rels with
  | nil => rfl
  | cons l rest ih => simp only [contentRels, ih, List.map_cons, contentItems_eq, EntryList.content]

variable (e : Entry) (rels : List (Nat × List Node))

theorem Entry.content_eq : e.content = ⟨e.row, e.rc, e.rels.map EntryList.content⟩ := by
  cases e
  simp only [Entry.content, contentRels_eq]

@[simp] theorem Entry.content_row : e.content.row = e.row := by rw [Entry.content_eq]

@[simp] theorem Entry.content_rc : e.content.rc = e.rc := by rw [Entry.content_eq]

@[simp] theorem Entry.content_rels : e.content.rels = e.rels.map EntryList.content := by
  rw [Entry.content_eq]

/-- A node with another list in a slot. -/
@[grind] def RecvNode.putSlot (rel : Nat) (n : RecvNode) (list : List RecvNode) : RecvNode :=
  { n with rels := n.rels.set rel list }

namespace View

theorem locate_content (sort : SortSpec) (items : List Entry) (row : Row) :
    Receiver.locate sort (items.map Entry.content) row = locate sort items row := by
  simp only [Receiver.locate, locate, binarySearchBy_map, Entry.content_row]

theorem content_putItems (gen rel : Nat) (items : List Entry) (parent : Entry) :
    (putItems gen rel items parent).content = parent.content.putSlot rel (items.map Entry.content) := by
  simp only [putItems, entryCow, Entry.content_eq, List.map_set, EntryList.content, RecvNode.putSlot]

theorem set_of_getElem? {α : Type} {l : List α} {i : Nat} {x : α} (h : l[i]? = some x) : l.set i x = l := by
  obtain ⟨hi, rfl⟩ := List.getElem?_eq_some_iff.mp h
  exact List.set_getElem_self hi

theorem map_modify_of {α β : Type} {f : α → β} {g : α → α} {g' : β → β} (h : ∀ x, f (g x) = g' (f x)) (l : List α)
    (p : Nat) : (l.modify p g).map f = (l.map f).modify p g' := by
  refine List.ext_getElem? fun i => ?_
  simp only [List.getElem?_map, List.getElem?_modify]
  cases l[i]? with
  | none => rfl
  | some x =>
    by_cases hp : p = i
    · simp [hp, h]
    · simp [hp]

end View

/-! ## Nodes -/

/-- No node of the tree has a slot twice. -/
inductive Node.Keyed : Node → Prop
  | mk {row : Row} {rels : List (Nat × List Node)} (slots : (rels.map Prod.fst).Nodup)
      (children : ∀ p ∈ rels, ∀ c ∈ p.2, Keyed c) : Keyed (.mk row rels)

/-- The node a change adds in view has no slot twice. -/
@[grind] def Change.Keyed (schema : Schema) : Change → Prop
  | .add n => n.Keyed
  | .remove _ => True
  | .edit _ _ => True
  | .child _ rel c =>
    match schema.relChild rel with
    | none => True
    | some sub => c.Keyed sub

instance {β : Type} : Std.TransCmp (slotCmp (β := β)) := SList.transCmp_comap compare Prod.fst

theorem slotCmp_eq_eq {β : Type} {a b : Nat × β} : slotCmp a b = .eq ↔ a.1 = b.1 := Nat.compare_eq_eq

theorem SList.Sorted.nodup_slots {β : Type} {l : List (Nat × β)} (h : Sorted slotCmp l) : (l.map Prod.fst).Nodup := by
  refine List.pairwise_map.mpr (h.imp fun {a b} hlt he => ?_)
  rw [slotCmp_eq_eq.mpr he] at hlt
  cases hlt

theorem expandRels_sorted :
    ∀ {acc}, SList.Sorted slotCmp acc → SList.Sorted slotCmp (expandRels rels acc) := by
  induction rels with
  | nil => intro acc h; exact h
  | cons p rest ih =>
    intro acc h
    obtain ⟨slot, children⟩ := p
    exact ih (SList.sorted_insert h)

theorem mem_expandRels {k : Nat} {v : List CaughtNode} :
    (rels.map Prod.fst).Nodup → ∀ {acc}, SList.Sorted slotCmp acc → (∀ p ∈ rels, ∀ q ∈ acc, q.1 ≠ p.1) →
      ((k, v) ∈ expandRels rels acc ↔ (∃ children, (k, children) ∈ rels ∧ v = expandNodes children) ∨ (k, v) ∈ acc) := by
  induction rels with
  | nil => intro _ acc _ _; simp [expandRels]
  | cons p rest ih =>
    intro hnd acc hacc hfresh
    obtain ⟨slot, children⟩ := p
    obtain ⟨hslot, hnd⟩ := List.nodup_cons.mp hnd
    have hne : ∀ q ∈ acc, slotCmp q (slot, expandNodes children) ≠ .eq := fun q hq he =>
      hfresh _ (List.mem_cons_self ..) q hq (slotCmp_eq_eq.mp he)
    have hmem : ∀ q : Nat × List CaughtNode, q ∈ SList.insert slotCmp (slot, expandNodes children) acc ↔
        q = (slot, expandNodes children) ∨ q ∈ acc := by
      intro q
      rw [SList.mem_insert hacc]
      constructor
      · rintro (h | h)
        · exact .inl h
        · exact .inr h.1
      · rintro (h | h)
        · exact .inl h
        · exact .inr ⟨h, hne q h⟩
    rw [expandRels, ih hnd (SList.sorted_insert hacc), hmem]
    · constructor
      · rintro (⟨c, hc, rfl⟩ | h | h)
        · exact .inl ⟨c, List.mem_cons_of_mem _ hc, rfl⟩
        · cases h
          exact .inl ⟨children, List.mem_cons_self .., rfl⟩
        · exact .inr h
      · rintro (⟨c, hc, rfl⟩ | h)
        · rcases List.mem_cons.mp hc with he | hc
          · cases he
            exact .inr (.inl rfl)
          · exact .inl ⟨c, hc, rfl⟩
        · exact .inr (.inr h)
    · intro p hp q hq
      rcases (hmem q).mp hq with rfl | hq
      · intro he
        exact hslot (he ▸ List.mem_map_of_mem hp)
      · exact hfresh p (List.mem_cons_of_mem _ hp) q hq

theorem wireRels_eq (l : List (Nat × List CaughtNode)) : wireRels l = l.map fun p => (p.1, wireNodes p.2) := by
  induction l with
  | nil => rfl
  | cons p rest ih => obtain ⟨slot, children⟩ := p; simp only [wireRels, ih, List.map_cons]

/-- The wire form of a node's relationships. -/
def wiredRels : List (Nat × List WireNode) := wireRels (expandRels rels [])

theorem nodup_wiredRels : ((wiredRels rels).map Prod.fst).Nodup := by
  have h := (expandRels_sorted rels SList.sorted_nil).nodup_slots
  rw [wiredRels, wireRels_eq, List.map_map]
  exact h

theorem mem_wiredRels {rels : List (Nat × List Node)} (hnd : (rels.map Prod.fst).Nodup) {k : Nat} {w : List WireNode} :
    (k, w) ∈ wiredRels rels ↔ ∃ children, (k, children) ∈ rels ∧ w = wireNodes (expandNodes children) := by
  rw [wiredRels, wireRels_eq, List.mem_map]
  constructor
  · rintro ⟨⟨k', v⟩, hv, he⟩
    cases he
    rcases (mem_expandRels rels hnd SList.sorted_nil (by simp)).mp hv with ⟨children, hc, rfl⟩ | hv
    · exact ⟨children, hc, rfl⟩
    · cases hv
  · rintro ⟨children, hc, rfl⟩
    exact ⟨(k, expandNodes children), (mem_expandRels rels hnd SList.sorted_nil (by simp)).mpr (.inl ⟨children, hc, rfl⟩), rfl⟩

theorem slots_wiredRels {rels : List (Nat × List Node)} (hnd : (rels.map Prod.fst).Nodup) {k : Nat}
    (h : k ∈ (wiredRels rels).map Prod.fst) : k ∈ rels.map Prod.fst := by
  obtain ⟨⟨k', w⟩, hw, rfl⟩ := List.mem_map.mp h
  obtain ⟨cs, hcs, -⟩ := (mem_wiredRels hnd).mp hw
  exact List.mem_map_of_mem hcs

namespace Receiver

/-- A slot that is not filled keeps its list. -/
theorem buildRels_other {schema : Schema} {k : Nat} (rels : List (Nat × List WireNode)) :
    ∀ {acc}, schema.relChild k = none ∨ k ∉ rels.map Prod.fst → (buildRels schema rels acc)[k]? = acc[k]? := by
  induction rels with
  | nil => intro acc _; rfl
  | cons p rest ih =>
    intro acc h
    obtain ⟨slot, children⟩ := p
    have hrest : schema.relChild k = none ∨ k ∉ rest.map Prod.fst := h.imp_right fun h h' => h (List.mem_cons_of_mem _ h')
    simp only [buildRels]
    split
    · exact ih hrest
    · rename_i child hchild
      rw [ih hrest, List.getElem?_set_ne]
      rintro rfl
      rcases h with h | h
      · rw [hchild] at h; cases h
      · exact h (List.mem_cons_self ..)

theorem buildRels_slot {schema child : Schema} {k : Nat} {children : List WireNode} (hchild : schema.relChild k = some child)
    (rels : List (Nat × List WireNode)) : (rels.map Prod.fst).Nodup → (k, children) ∈ rels →
      ∀ {acc : List (List RecvNode)}, k < acc.length →
      (buildRels schema rels acc)[k]? = some (buildChildren child children []) := by
  induction rels with
  | nil => intro _ h; cases h
  | cons p rest ih =>
    intro hnd hmem acc hk
    obtain ⟨slot, cs⟩ := p
    obtain ⟨hslot, hnd⟩ := List.nodup_cons.mp hnd
    simp only [buildRels]
    rcases List.mem_cons.mp hmem with he | hmem
    · cases he
      simp only [hchild]
      rw [buildRels_other rest (.inr hslot), List.getElem?_set_self hk]
    · split
      · exact ih hnd hmem hk
      · exact ih hnd hmem (by simpa using hk)

theorem length_buildRels (schema : Schema) (rels : List (Nat × List WireNode)) :
    ∀ acc, (buildRels schema rels acc).length = acc.length := by
  induction rels with
  | nil => intro acc; rfl
  | cons p rest ih =>
    intro acc
    obtain ⟨slot, children⟩ := p
    simp only [buildRels]
    split
    · exact ih acc
    · rw [ih, List.length_set]

end Receiver

/-- One list for each slot of the schema, at every level in view. -/
inductive RecvNode.Shaped : Schema → RecvNode → Prop
  | mk {schema : Schema} {n : RecvNode} (length : n.rels.length = schema.relationships.length)
      (children : ∀ k child slot, schema.relChild k = some child → n.rels[k]? = some slot → ∀ c ∈ slot, Shaped child c) :
      Shaped schema n

namespace RecvNode.Shaped

variable {schema : Schema} {n : RecvNode}

/-- The row and the count are not of the shape. -/
theorem of_rels (h : n.Shaped schema) {m : RecvNode} (hm : m.rels = n.rels) : m.Shaped schema := by
  cases h with
  | mk length children => exact ⟨hm ▸ length, fun k child slot hk hs => children k child slot hk (hm ▸ hs)⟩

theorem slot (h : n.Shaped schema) {child : Schema} {k : Nat} (hk : schema.relChild k = some child) :
    ∃ slot, n.rels[k]? = some slot ∧ ∀ c ∈ slot, Shaped child c := by
  cases h with
  | mk length children =>
    have hlt : k < n.rels.length := length ▸ Schema.relChild_lt hk
    exact ⟨_, List.getElem?_eq_getElem hlt, children k child _ hk (List.getElem?_eq_getElem hlt)⟩

theorem putSlot (h : n.Shaped schema) {child : Schema} {k : Nat} (hk : schema.relChild k = some child)
    {list : List RecvNode} (hl : ∀ c ∈ list, Shaped child c) : (n.putSlot k list).Shaped schema := by
  cases h with
  | mk length children =>
    refine ⟨by simpa [RecvNode.putSlot] using length, fun k' child' slot hk' hs => ?_⟩
    simp only [RecvNode.putSlot, List.getElem?_set] at hs
    split at hs
    · rename_i he
      subst he
      rw [hk] at hk'
      cases hk'
      split at hs
      · cases hs; exact hl
      · cases hs
    · exact children k' child' slot hk' hs

end RecvNode.Shaped

namespace Receiver

theorem forall_mem_modify {α : Type} {P : α → Prop} {l : List α} (h : ∀ x ∈ l, P x) {f : α → α} (hf : ∀ x, P x → P (f x))
    (p : Nat) : ∀ x ∈ l.modify p f, P x := by
  intro x hx
  obtain ⟨i, hi⟩ := List.getElem?_of_mem hx
  rw [List.getElem?_modify] at hi
  obtain ⟨y, hy, rfl⟩ := Option.map_eq_some_iff.mp hi
  split
  · exact hf y (h y (List.mem_of_getElem? hy))
  · exact h y (List.mem_of_getElem? hy)

theorem forall_mem_insertIdx {α : Type} {P : α → Prop} {l : List α} (h : ∀ x ∈ l, P x) {y : α} (hy : P y) (p : Nat) :
    ∀ x ∈ l.insertIdx p y, P x := by
  intro x hx
  rcases List.eq_or_mem_of_mem_insertIdx hx with rfl | hx
  · exact hy
  · exact h x hx

theorem forall_mem_set {α : Type} {P : α → Prop} {l : List α} (h : ∀ x ∈ l, P x) {y : α} (hy : P y) (p : Nat) :
    ∀ x ∈ l.set p y, P x := by
  intro x hx
  rcases List.mem_or_eq_of_mem_set hx with hx | rfl
  · exact h x hx
  · exact hy

/-- The lists of the slots in view are shaped. -/
def SlotsShaped (schema : Schema) (rels : List (List RecvNode)) : Prop :=
  ∀ k child slot, schema.relChild k = some child → rels[k]? = some slot → ∀ c ∈ slot, RecvNode.Shaped child c

mutual

theorem buildNode_shaped (schema : Schema) : ∀ node : WireNode, (buildNode schema node).Shaped schema
  | ⟨row, rels⟩ => by
    refine ⟨by simp [buildNode, length_buildRels], buildRels_shaped schema rels _ fun k child slot _ hs => ?_⟩
    rw [(List.mem_replicate.mp (List.mem_of_getElem? hs)).2]
    simp

theorem buildRels_shaped (schema : Schema) : ∀ (rels : List (Nat × List WireNode)) (acc : List (List RecvNode)),
    SlotsShaped schema acc → SlotsShaped schema (buildRels schema rels acc)
  | [], acc, h => h
  | (slot, children) :: rest, acc, h => by
    simp only [buildRels]
    cases hchild : schema.relChild slot with
    | none => exact buildRels_shaped schema rest acc h
    | some child =>
      refine buildRels_shaped schema rest _ fun k child' list hk hs => ?_
      rw [List.getElem?_set] at hs
      split at hs
      · rename_i he
        subst he
        rw [hchild] at hk
        cases hk
        split at hs
        · cases hs; exact buildChildren_shaped child children [] (by simp)
        · cases hs
      · exact h k child' list hk hs

theorem buildChildren_shaped (schema : Schema) : ∀ (cs : List WireNode) (built : List RecvNode),
    (∀ n ∈ built, n.Shaped schema) → ∀ n ∈ buildChildren schema cs built, n.Shaped schema
  | [], built, h => h
  | c :: rest, built, h => by
    have hnode := buildNode_shaped schema c
    simp only [buildChildren]
    split
    · refine buildChildren_shaped schema rest _ (forall_mem_modify h (fun n hn => ?_) _)
      exact hn.of_rels rfl
    · exact buildChildren_shaped schema rest _ (forall_mem_insertIdx h hnode _)

end

section
variable {schema : Schema} {list list' : List RecvNode}

theorem applyAdd_shaped (h : ∀ n ∈ list, n.Shaped schema) (node : WireNode) :
    ∀ n ∈ applyAdd schema list node, n.Shaped schema := by
  simp only [applyAdd]
  split
  · refine forall_mem_modify h (fun n hn => ?_) _
    exact hn.of_rels rfl
  · exact forall_mem_insertIdx h (buildNode_shaped schema node) _

theorem applyRemove_shaped (h : ∀ n ∈ list, n.Shaped schema) {row : Row} (hr : applyRemove schema list row = some list') :
    ∀ n ∈ list', n.Shaped schema := by
  simp only [applyRemove] at hr
  split at hr
  · cases hr
  · split at hr
    · cases hr
    · cases hr
      split
      · exact fun n hn => h n (List.mem_of_mem_eraseIdx hn)
      · refine forall_mem_modify h (fun n hn => ?_) _
        exact hn.of_rels rfl

theorem moveRow_shaped (h : ∀ n ∈ list, n.Shaped schema) {oldPos : Nat} {oldEntry : RecvNode}
    (he : list[oldPos]? = some oldEntry) {raw : Except Nat Nat} {new : Row}
    (hr : moveRow list oldPos oldEntry raw new = some list') : ∀ n ∈ list', n.Shaped schema := by
  have hrest : ∀ n ∈ (if oldEntry.rc - 1 = 0 then list.eraseIdx oldPos
      else list.modify oldPos fun n => { n with rc := oldEntry.rc - 1 }), n.Shaped schema := by
    split
    · exact fun n hn => h n (List.mem_of_mem_eraseIdx hn)
    · refine forall_mem_modify h (fun n hn => ?_) _
      exact hn.of_rels rfl
  simp only [moveRow] at hr
  split at hr
  · cases hr
    refine forall_mem_modify h (fun n hn => ?_) _
    exact hn.of_rels rfl
  · split at hr
    · split at hr
      · cases hr
      · rename_i existing hex
        cases hr
        refine forall_mem_set hrest ?_ _
        exact (hrest existing (List.mem_of_getElem? hex)).of_rels rfl
    · cases hr
      refine forall_mem_insertIdx hrest ?_ _
      exact (h oldEntry (List.mem_of_getElem? he)).of_rels rfl

theorem applyEdit_shaped (h : ∀ n ∈ list, n.Shaped schema) {old new : Row}
    (hr : applyEdit schema list old new = some list') : ∀ n ∈ list', n.Shaped schema := by
  simp only [applyEdit] at hr
  split at hr
  · cases hr
  · split at hr
    · cases hr
      refine forall_mem_modify h (fun n hn => ?_) _
      exact hn.of_rels rfl
    · split at hr
      · cases hr
      · rename_i he
        exact moveRow_shaped h he hr

/-- A fold keeps the shape. -/
theorem applyAt_shaped {op : FlatOp} (path : List PathSeg) : ∀ {schema : Schema} {list list' : List RecvNode},
    (∀ n ∈ list, n.Shaped schema) → applyAt schema list op path = some list' → ∀ n ∈ list', n.Shaped schema := by
  induction path with
  | nil =>
    intro schema list list' h hr
    cases op with
    | add node =>
      simp only [applyAt, applyOp, Option.some.injEq] at hr
      exact hr ▸ applyAdd_shaped h node
    | remove row => exact applyRemove_shaped h hr
    | edit old new => exact applyEdit_shaped h hr
  | cons seg rest ih =>
    intro schema list list' h hr
    simp only [applyAt] at hr
    split at hr
    · cases hr; exact h
    · rename_i child hchild
      split at hr
      · cases hr
      · split at hr
        · cases hr
        · rename_i n hn
          have hshape := h n (List.mem_of_getElem? hn)
          obtain ⟨slot, hslot, hslots⟩ := hshape.slot hchild
          simp only [hslot] at hr
          obtain ⟨slot', hrec, rfl⟩ := Option.map_eq_some_iff.mp hr
          exact forall_mem_set h (hshape.putSlot hchild (ih hslots hrec)) _

end

end Receiver

namespace View

variable {schema : Schema}

theorem initRels_other {gen : Nat} {k : Nat} (rels : List (Nat × List Node)) :
    ∀ {acc}, schema.relChild k = none ∨ k ∉ rels.map Prod.fst → (initRels gen schema rels acc)[k]? = acc[k]? := by
  induction rels with
  | nil => intro acc _; rfl
  | cons p rest ih =>
    intro acc h
    obtain ⟨slot, children⟩ := p
    have hrest : schema.relChild k = none ∨ k ∉ rest.map Prod.fst := h.imp_right fun h h' => h (List.mem_cons_of_mem _ h')
    simp only [initRels]
    split
    · exact ih hrest
    · rename_i child hchild
      rw [ih hrest]
      split
      · rfl
      · refine List.getElem?_set_ne ?_
        rintro rfl
        rcases h with h | h
        · rw [hchild] at h; cases h
        · exact h (List.mem_cons_self ..)

/-- A slot still empty holds the node's children; one drained empty stays as it was. -/
theorem initRels_slot {gen : Nat} {schema child : Schema} {k : Nat} {children : List Node}
    (hchild : schema.relChild k = some child) (rels : List (Nat × List Node)) :
    (rels.map Prod.fst).Nodup → (k, children) ∈ rels → ∀ {acc : List (EntryList Entry)}, acc[k]? = some emptyEntryList →
      (initRels gen schema rels acc)[k]?.map EntryList.content =
        some ((initChildren gen child children []).map Entry.content) := by
  induction rels with
  | nil => intro _ h; cases h
  | cons p rest ih =>
    intro hnd hmem acc hk
    obtain ⟨slot, cs⟩ := p
    obtain ⟨hslot, hnd⟩ := List.nodup_cons.mp hnd
    simp only [initRels]
    rcases List.mem_cons.mp hmem with he | hmem
    · cases he
      simp only [hchild]
      rw [initRels_other rest (.inr hslot)]
      split
      · rename_i hempty
        rw [hk, List.isEmpty_iff.mp hempty]
        rfl
      · rw [List.getElem?_set_self (List.getElem?_eq_some_iff.mp hk).1]
        rfl
    · split
      · exact ih hnd hmem hk
      · refine ih hnd hmem ?_
        split
        · exact hk
        · rw [List.getElem?_set_ne, hk]
          rintro rfl
          exact hslot (List.mem_map.mpr ⟨_, hmem, rfl⟩)

theorem length_initRels (gen : Nat) (schema : Schema) (rels : List (Nat × List Node)) :
    ∀ acc, (initRels gen schema rels acc).length = acc.length := by
  induction rels with
  | nil => intro acc; rfl
  | cons p rest ih =>
    intro acc
    obtain ⟨slot, children⟩ := p
    simp only [initRels]
    split
    · exact ih acc
    · rw [ih]
      split
      · rfl
      · rw [List.length_set]

/-- Children built from nodes that build alike. -/
theorem initChildren_content {gen : Nat} (cs : List Node)
    (hcs : ∀ c ∈ cs, (newEntry gen schema c).content = Receiver.buildNode schema (wireNode (expandNode c))) :
    ∀ items, (initChildren gen schema cs items).map Entry.content =
      Receiver.buildChildren schema (wireNodes (expandNodes cs)) (items.map Entry.content) := by
  induction cs with
  | nil => intro items; rfl
  | cons c rest ih =>
    intro items
    have hrow : (wireNode (expandNode c)).row = c.row := by cases c; rfl
    have hrest := ih fun d hd => hcs d (List.mem_cons_of_mem _ hd)
    simp only [initChildren, expandNodes, wireNodes, Receiver.buildChildren, hrow, locate_content]
    cases locate schema.sort items c.row with
    | ok p =>
      have hmod : (items.modify p fun e => { e with rc := e.rc + 1 }).map Entry.content =
          (items.map Entry.content).modify p fun n => { n with rc := n.rc + 1 } :=
        map_modify_of (fun e => by simp only [Entry.content_eq]) _ _
      rw [hrest, hmod]
    | error ins => rw [hrest, List.map_insertIdx, hcs c (List.mem_cons_self ..)]

/-- A new entry holds what the receiver builds from the wire. -/
theorem newEntry_content {gen : Nat} {n : Node} (h : n.Keyed) :
    ∀ schema, (newEntry gen schema n).content = Receiver.buildNode schema (wireNode (expandNode n)) := by
  induction h with
  | @mk row rels slots children ih =>
    intro schema
    simp only [newEntry, Entry.content, contentRels_eq, expandNode, wireNode, Receiver.buildNode]
    congr 1
    refine List.ext_getElem? fun k => ?_
    rw [List.getElem?_map]
    by_cases hk : k < schema.relationships.length
    · have hempty : (List.replicate schema.relationships.length emptyEntryList)[k]? = some emptyEntryList :=
        List.getElem?_replicate_of_lt hk
      by_cases hslot : schema.relChild k = none ∨ k ∉ rels.map Prod.fst
      · have hwire : schema.relChild k = none ∨ k ∉ (wiredRels rels).map Prod.fst :=
          hslot.imp_right fun h h' => h (slots_wiredRels slots h')
        rw [initRels_other rels hslot, hempty]
        exact ((Receiver.buildRels_other (wiredRels rels) hwire).trans (List.getElem?_replicate_of_lt hk)).symm
      · rw [not_or, not_not] at hslot
        obtain ⟨child, hchild⟩ := Option.ne_none_iff_exists'.mp hslot.1
        obtain ⟨⟨k', cs⟩, hcs, rfl⟩ := List.mem_map.mp hslot.2
        rw [initRels_slot hchild rels slots hcs hempty,
          initChildren_content cs fun c hc => ih _ hcs c hc child]
        exact (Receiver.buildRels_slot hchild (wiredRels rels) (nodup_wiredRels rels)
          ((mem_wiredRels slots).mpr ⟨cs, hcs, rfl⟩) (by simpa using hk)).symm
    · rw [List.getElem?_eq_none (by simpa [length_initRels] using hk),
        List.getElem?_eq_none (by simpa [Receiver.length_buildRels] using hk)]
      rfl

/-! ## Operations -/

section
variable {mode : Mutate} {gen rel : Nat} {schema : Schema} {parent : Entry} {list : EntryList Entry}

theorem applyAdd_content (hl : parent.rels[rel]? = some list) {node : Node} (hn : node.Keyed) :
    (applyAdd gen schema rel parent node).map (·.1.content) =
      some (parent.content.putSlot rel (Receiver.applyAdd schema list.content (wireNode (expandNode node)))) := by
  have hrow : (wireNode (expandNode node)).row = node.row := by cases node; rfl
  simp only [applyAdd, hl, Receiver.applyAdd, EntryList.content, hrow, locate_content]
  cases locate schema.sort list.items node.row with
  | ok p =>
    have hmod : (list.items.modify p fun e => { entryCow gen e with rc := e.rc + 1 }).map Entry.content =
        (list.items.map Entry.content).modify p fun n => { n with rc := n.rc + 1 } :=
      map_modify_of (fun e => by simp only [entryCow, Entry.content_eq]) _ _
    simp only [Option.map_some, content_putItems, hmod]
  | error ins => simp only [Option.map_some, content_putItems, List.map_insertIdx, newEntry_content hn]

theorem applyRemove_content (hl : parent.rels[rel]? = some list) (row : Row) :
    (applyRemove gen schema rel parent row).map (·.1.content) =
      (Receiver.applyRemove schema list.content row).map (parent.content.putSlot rel) := by
  simp only [applyRemove, hl, Receiver.applyRemove, EntryList.content, locate_content]
  cases locate schema.sort list.items row with
  | error p => rfl
  | ok pos =>
    simp only [List.getElem?_map]
    cases list.items[pos]? with
    | none => rfl
    | some e =>
      have hmod : (list.items.modify pos fun e => { entryCow gen e with rc := e.rc - 1 }).map Entry.content =
          (list.items.map Entry.content).modify pos fun n => { n with rc := n.rc - 1 } :=
        map_modify_of (fun e => by simp only [entryCow, Entry.content_eq]) _ _
      simp only [Option.map_some, content_putItems, Entry.content_rc]
      split
      · rw [List.eraseIdx_map]
      · rw [hmod]

theorem applyEdit_content (mode : Mutate) (gen : Nat) (schema : Schema) (new old : Row) (e : Entry) :
    (applyEdit mode gen schema new old e).content = { e.content with row := new } := by
  simp only [applyEdit]
  split <;> simp only [entryCow, Entry.content_eq]

theorem moveEntry_content (mode : Mutate) (gen : Nat) (schema : Schema) (items : List Entry) (oldPos : Nat) (oldEntry : Entry) (raw : Except Nat Nat) (new old : Row) :
    (moveEntry mode gen schema items oldPos oldEntry raw new old).map (List.map Entry.content) =
      Receiver.moveRow (items.map Entry.content) oldPos oldEntry.content raw new := by
  have hedit : (items.modify oldPos (applyEdit mode gen schema new old)).map Entry.content =
      (items.map Entry.content).modify oldPos fun n => { n with row := new } :=
    map_modify_of (applyEdit_content mode gen schema new old) _ _
  have hghost : (items.modify oldPos fun e => { entryCow gen e with rc := oldEntry.rc - 1 }).map Entry.content =
      (items.map Entry.content).modify oldPos fun n => { n with rc := oldEntry.rc - 1 } :=
    map_modify_of (fun e => by simp only [entryCow, Entry.content_eq]) _ _
  have hput : ∀ (e : Entry) (rc : Nat), Entry.content { entryCow gen (applyEdit mode gen schema new old e) with rc := rc } =
      { e.content with row := new, rc := rc } := by
    intro e rc
    have h := applyEdit_content mode gen schema new old e
    simp only [Entry.content_eq, RecvNode.mk.injEq, entryCow] at h ⊢
    exact ⟨h.1, trivial, h.2.2⟩
  simp only [moveEntry, Receiver.moveRow, Entry.content_rc]
  by_cases hfast : oldEntry.rc = 1 ∧ (searchPos raw = oldPos ∨ searchPos raw = oldPos + 1)
  · simp only [hfast, and_self, if_true, Option.map_some, hedit]
  simp only [hfast, if_false]
  have hrest : (if oldEntry.rc - 1 = 0 then items.eraseIdx oldPos
      else items.modify oldPos fun e => { entryCow gen e with rc := oldEntry.rc - 1 }).map Entry.content =
      if oldEntry.rc - 1 = 0 then (items.map Entry.content).eraseIdx oldPos
      else (items.map Entry.content).modify oldPos fun n => { n with rc := oldEntry.rc - 1 } := by
    split
    · rw [List.eraseIdx_map]
    · exact hghost
  cases raw with
  | ok p =>
    simp only [← hrest, List.getElem?_map]
    split
    · rename_i h; simp only [h, Option.map_none]
    · rename_i e h
      simp only [h, Option.map_some, List.map_set, hput, Entry.content_rc]
  | error p => simp only [← hrest, Option.map_some, List.map_insertIdx, hput]

theorem applyEditChange_content (hl : parent.rels[rel]? = some list) (new old : Row) :
    (applyEditChange mode gen schema rel parent new old).map (·.1.content) =
      (Receiver.applyEdit schema list.content old new).map (parent.content.putSlot rel) := by
  simp only [applyEditChange, hl, Receiver.applyEdit, EntryList.content, locate_content]
  cases locate schema.sort list.items old with
  | error p => rfl
  | ok oldPos =>
    by_cases hkey : rowCmp schema.sort old new = .eq
    · have hedit : (list.items.modify oldPos (applyEdit mode gen schema new old)).map Entry.content =
          (list.items.map Entry.content).modify oldPos fun n => { n with row := new } :=
        map_modify_of (applyEdit_content mode gen schema new old) _ _
      simp only [hkey, if_true, Option.map_some, content_putItems, hedit]
    · simp only [hkey, if_false, List.getElem?_map]
      cases list.items[oldPos]? with
      | none => rfl
      | some oldEntry =>
        simp only [Option.map_some, ← moveEntry_content mode gen schema _ _ _ _ new old, Option.map_map]
        refine congrFun (congrArg Option.map (funext fun items => ?_)) _
        exact content_putItems gen rel items parent

/-- A fold that reports no change left the content alone. -/
theorem apply_unchanged (c : ViewChange) : ∀ {schema : Schema} {rel : Nat} {parent p : Entry},
    apply mode gen schema rel parent c = some (p, false) → p.content = parent.content := by
  induction c with
  | add node =>
    intro schema rel parent p h
    simp only [apply, applyAdd] at h
    split at h
    · cases h
    · split at h <;> cases h
  | remove node =>
    intro schema rel parent p h
    simp only [apply, applyRemove] at h
    split at h
    · cases h
    · split at h
      · cases h
      · split at h <;> cases h
  | edit row old =>
    intro schema rel parent p h
    simp only [apply, applyEditChange] at h
    split at h
    · cases h
    · split at h
      · cases h
      · split at h
        · cases h
        · split at h
          · cases h
          · obtain ⟨items, -, he⟩ := Option.map_eq_some_iff.mp h
            cases he
  | child row childRel change ih =>
    intro schema rel parent p h
    simp only [apply] at h
    split at h
    · cases h; rfl
    split at h
    · cases h
    rename_i list hl
    split at h
    · cases h
    split at h
    · cases h
    rename_i pos _ _ child hchild
    obtain ⟨⟨child', flag⟩, happ, he⟩ := Option.map_eq_some_iff.mp h
    split at he
    · simp only [Prod.mk.injEq] at he
      obtain ⟨rfl, rfl⟩ := he
      have hset : (list.items.set pos child').map Entry.content = list.items.map Entry.content := by
        rw [List.map_set, ih happ, ← List.map_set, set_of_getElem? hchild]
      rw [content_putItems, hset, RecvNode.putSlot, Entry.content_rels]
      have hslot : (parent.rels.map EntryList.content)[rel]? = some (list.items.map Entry.content) := by
        rw [List.getElem?_map, hl]; rfl
      rw [set_of_getElem? hslot]
      simp only [Entry.content_eq]
    · cases he
      rfl

/-- The view's fold of a change is the receiver's fold of its flat form. -/
theorem apply_content (mode : Mutate) (gen : Nat) (c : Change) : ∀ {schema : Schema} {rel : Nat} {parent : Entry}
    {list : EntryList Entry}, c.Keyed schema → parent.rels[rel]? = some list → (∀ n ∈ list.content, n.Shaped schema) →
    (apply mode gen schema rel parent (.fromChange c)).map (·.1.content) =
      (Receiver.applyAt schema list.content (flatten (expandChange c)).op (flatten (expandChange c)).path).map
        (parent.content.putSlot rel) := by
  induction c with
  | add node => intro schema rel parent list hc hl _; exact applyAdd_content hl hc
  | remove node =>
    intro schema rel parent list _ hl _
    have hrow : (expandNode node).row = node.row := by cases node; rfl
    simp only [ViewChange.fromChange, apply, expandChange, flatten, flattenFrom, Receiver.applyAt, Receiver.applyOp, hrow]
    exact applyRemove_content hl node.row
  | edit node old => intro schema rel parent list _ hl _; exact applyEditChange_content hl node.row old.row
  | child node childRel change ih =>
    intro schema rel parent list hc hl hshaped
    simp only [ViewChange.fromChange, expandChange, flatten_child, apply, Receiver.applyAt, hl]
    have hsame : parent.content.putSlot rel list.content = parent.content := by
      have hslot : (parent.rels.map EntryList.content)[rel]? = some list.content := by
        rw [List.getElem?_map, hl]; rfl
      simp only [RecvNode.putSlot, Entry.content_rels, set_of_getElem? hslot]
      rw [Entry.content_eq]
    cases hgate : schema.relChild childRel with
    | none => simp only [Option.map_some, hsame]
    | some childSchema =>
      simp only [Change.Keyed, hgate] at hc
      simp only [EntryList.content, locate_content, List.getElem?_map]
      cases locate schema.sort list.items node.row with
      | error p => rfl
      | ok pos =>
        cases hchild : list.items[pos]? with
        | none => simp only [hchild, Option.map_none]
        | some child =>
          have hmem : child.content ∈ list.content := List.mem_map_of_mem (List.mem_of_getElem? hchild)
          obtain ⟨slot, hslot, hslots⟩ := (hshaped _ hmem).slot hgate
          rw [Entry.content_rels, List.getElem?_map] at hslot
          obtain ⟨slist, hslist, rfl⟩ := Option.map_eq_some_iff.mp hslot
          have hrec := ih hc hslist hslots
          simp only [hchild, Option.map_some, Entry.content_rels, List.getElem?_map, hslist]
          cases happ : apply mode gen childSchema childRel child (.fromChange change) with
          | none =>
            rw [happ, Option.map_none, eq_comm, Option.map_eq_none_iff] at hrec
            rw [hrec]
            rfl
          | some q =>
            obtain ⟨child', flag⟩ := q
            rw [happ, Option.map_some, eq_comm] at hrec
            obtain ⟨slot', hat, hput⟩ := Option.map_eq_some_iff.mp hrec
            rw [hat]
            simp only [Option.map_some]
            have hnode : ({ child.content with rels := (child.rels.map EntryList.content).set childRel slot' } : RecvNode) =
                child'.content := by
              rw [← hput, RecvNode.putSlot, Entry.content_rels]
            rw [hnode]
            split
            · rw [content_putItems, List.map_set]
            · rename_i hflag
              have hf : flag = false := by
                cases flag with
                | true => simp at hflag
                | false => rfl
              subst hf
              have hback : (list.items.map Entry.content).set pos child'.content = list.content := by
                rw [apply_unchanged _ happ]
                refine set_of_getElem? ?_
                rw [List.getElem?_map, hchild]; rfl
              rw [hback, hsame]

end

/-! ## Streams -/

/-- A root whose slot holds what a receiver holds. -/
structure Mirrors (schema : Schema) (root : Entry) (top : List RecvNode) : Prop where
  slot : ∃ list, root.rels[0]? = some list ∧ list.content = top
  shaped : ∀ n ∈ top, n.Shaped schema

theorem Mirrors.top_eq {root : Entry} {top : List RecvNode} (h : Mirrors schema root top) :
    top = (viewData root).map Entry.content := by
  obtain ⟨list, hl, rfl⟩ := h.slot
  simp only [viewData, hl, Option.map_some, Option.getD_some, EntryList.content]

/-- One change: both fold it, or both panic. -/
theorem Mirrors.step {root : Entry} {top : List RecvNode} (h : Mirrors schema root top)
    (mode : Mutate) (gen : Nat) {c : Change} (hc : c.Keyed schema) :
    match applyChange mode gen schema root c, Receiver.apply ⟨schema, top⟩ (flatten (expandChange c)) with
    | some root', some r => r.schema = schema ∧ Mirrors schema root' r.top
    | none, none => True
    | _, _ => False := by
  obtain ⟨⟨list, hl, rfl⟩, hshaped⟩ := h
  have hsim := apply_content mode gen c hc hl hshaped
  simp only [applyChange, Receiver.apply]
  cases happ : apply mode gen schema 0 root (.fromChange c) with
  | none =>
    rw [happ, Option.map_none, eq_comm, Option.map_eq_none_iff] at hsim
    simp only [hsim, Option.map_none]
  | some q =>
    rw [happ, Option.map_some, eq_comm] at hsim
    obtain ⟨top', hat, hput⟩ := Option.map_eq_some_iff.mp hsim
    simp only [hat, Option.map_some, true_and]
    refine ⟨?_, Receiver.applyAt_shaped _ hshaped hat⟩
    have hrels : q.1.content.rels[0]? = some top' := by
      have hlt : 0 < (root.rels.map EntryList.content).length := by
        rw [List.length_map]
        exact (List.getElem?_eq_some_iff.mp hl).1
      rw [← hput, RecvNode.putSlot, Entry.content_rels, List.getElem?_set_self hlt]
    rw [Entry.content_rels, List.getElem?_map] at hrels
    exact Option.map_eq_some_iff.mp hrels

theorem mirrors_syntheticRoot (schema : Schema) : Mirrors schema syntheticRoot [] :=
  ⟨⟨⟨0, []⟩, rfl, rfl⟩, by simp⟩

/-- A whole stream, from a root and a receiver that agree. -/
theorem Mirrors.stream (steps : List ((Mutate × Nat) × Change)) (hsteps : ∀ s ∈ steps, s.2.Keyed schema) :
    ∀ {root : Entry} {top : List RecvNode}, Mirrors schema root top →
    match applyChanges schema root steps,
      Receiver.applyAll ⟨schema, top⟩ (flattenAll (steps.map fun s => expandChange s.2)) with
    | some root', some r => r.schema = schema ∧ Mirrors schema root' r.top
    | none, none => True
    | _, _ => False := by
  induction steps with
  | nil => intro root top h; exact ⟨rfl, h⟩
  | cons s rest ih =>
    intro root top h
    have hstep := h.step s.1.1 s.1.2 (hsteps s (List.mem_cons_self ..))
    have hrest := @ih fun t ht => hsteps t (List.mem_cons_of_mem _ ht)
    simp only [applyChanges, Receiver.applyAll, flattenAll, List.map_cons, List.foldlM_cons] at hrest ⊢
    cases hview : applyChange s.1.1 s.1.2 schema root s.2 with
    | none =>
      cases hrecv : Receiver.apply ⟨schema, top⟩ (flatten (expandChange s.2)) with
      | none => trivial
      | some r => rw [hview, hrecv] at hstep; exact hstep.elim
    | some root' =>
      cases hrecv : Receiver.apply ⟨schema, top⟩ (flatten (expandChange s.2)) with
      | none => rw [hview, hrecv] at hstep; exact hstep.elim
      | some r =>
        rw [hview, hrecv] at hstep
        obtain ⟨rschema, rtop⟩ := r
        obtain ⟨rfl, hm⟩ := hstep
        exact hrest hm

/-- The receiver of the flat stream does not panic where the view does not, and holds the view's
    tree: the same rows, counts, order and children in every slot. -/
theorem receiver_rebuilds_view {schema : Schema} {steps : List ((Mutate × Nat) × Change)}
    (hsteps : ∀ s ∈ steps, s.2.Keyed schema) {root : Entry} (hview : applyChanges schema syntheticRoot steps = some root) :
    ∃ r, (Receiver.new schema).applyAll (flattenAll (steps.map fun s => expandChange s.2)) = some r ∧
      r.top = (viewData root).map Entry.content := by
  have h := Mirrors.stream steps hsteps (mirrors_syntheticRoot schema)
  simp only [hview] at h
  cases hrecv : Receiver.applyAll ⟨schema, []⟩ (flattenAll (steps.map fun s => expandChange s.2)) with
  | none => rw [hrecv] at h; exact h.elim
  | some r =>
    rw [hrecv] at h
    exact ⟨r, hrecv, h.2.top_eq⟩

/-- A parent with a child, a second child in mode `cow`, a change of a gate, and an edit that moves the parent. -/
theorem receiver_rebuilds_view_moved :
    ∃ root r, applyChanges ((Schema.new ["id"] [0] [(0, true)]).withRelationships
        [.related "kids" (.new ["id"] [0] [(0, true)]), .new "gate"]) syntheticRoot
        [((.inPlace, 0), .add (.mk [.int 1] [(0, [.leaf [.int 7]]), (1, [])])),
          ((.inPlace, 0), .add (.leaf [.int 2])),
          ((.cow, 1), .child (.leaf [.int 1]) 0 (.add (.leaf [.int 5]))),
          ((.cow, 1), .child (.leaf [.int 9]) 1 (.add (.leaf [.int 5]))),
          ((.cow, 2), .edit (.leaf [.int 3]) (.leaf [.int 1]))] = some root ∧
      Receiver.applyAll (.new ((Schema.new ["id"] [0] [(0, true)]).withRelationships
        [.related "kids" (.new ["id"] [0] [(0, true)]), .new "gate"]))
        (flattenAll [expandChange (.add (.mk [.int 1] [(0, [.leaf [.int 7]]), (1, [])])),
          expandChange (.add (.leaf [.int 2])), expandChange (.child (.leaf [.int 1]) 0 (.add (.leaf [.int 5]))),
          expandChange (.child (.leaf [.int 9]) 1 (.add (.leaf [.int 5]))),
          expandChange (.edit (.leaf [.int 3]) (.leaf [.int 1]))]) = some r ∧
      r.top = (viewData root).map Entry.content := by
  have hleaf : ∀ row, Node.Keyed (.leaf row) := fun row => ⟨by simp, by simp⟩
  refine (Option.isSome_iff_exists.mp ?some).elim fun root hroot =>
    (receiver_rebuilds_view ?keyed hroot).elim fun r hr => ⟨root, r, hroot, hr⟩
  case some => decide +kernel
  intro s hs
  simp only [List.mem_cons, List.not_mem_nil, or_false] at hs
  rcases hs with rfl | rfl | rfl | rfl | rfl
  · exact ⟨by decide, by simp [hleaf]⟩
  · exact hleaf _
  · exact hleaf _
  · trivial
  · trivial

end View

end Rindle
