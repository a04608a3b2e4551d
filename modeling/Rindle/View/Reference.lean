/-
  Rindle.View.Reference — what the view is for: at each level the rows present, strictly sorted
  by the level's comparator, each with its children.

  `Tree.apply` is the fold of a change into such a level: a row is added with its children, is
  removed with them, keeps them when it is edited, and passes a child change on to one of its
  slots; a slot out of view is passed over. There are no counts, no positions and no modes.

  A change is valid for a level (`Change.ValidFor`) as a change of a set: what is added is
  absent, what is removed, edited or descended into is present, and an edit that changes the
  sort key moves to one that is free. On valid changes no count ever leaves 1, and the
  receiver's fold is the reference's (`applyAt_reference`); with `apply_content` so is the
  view's.
-/

import Rindle.View.Content

set_option linter.dupNamespace false

namespace Rindle

structure Tree where
  row : Row
  kids : List (List Tree)

/-- A level's order. -/
@[grind] def byRow (sort : SortSpec) (a b : Tree) : Ordering := rowCmp sort a.row b.row

instance (sort : SortSpec) : Std.TransCmp (byRow sort) := SList.transCmp_comap (rowCmp sort) Tree.row

namespace Tree

/-! ## The reference fold -/

/-- A key to look a row up with. -/
@[grind] def key (row : Row) : Tree := ⟨row, []⟩

mutual

/-- A node as it enters the view: its slots in view, sorted. -/
def ofNode (schema : Schema) : Node → Tree
  | .mk row rels => ⟨row, (List.range schema.relationships.length).map fun k => ((ofRels schema rels).lookup k).getD []⟩

@[grind] def ofRels (schema : Schema) : List (Nat × List Node) → List (Nat × List Tree)
  | [] => []
  | (slot, children) :: rest =>
    match schema.relChild slot with
    | none => ofRels schema rest
    | some child => (slot, ofNodes child children []) :: ofRels schema rest

@[grind] def ofNodes (schema : Schema) : List Node → List Tree → List Tree
  | [], acc => acc
  | c :: rest, acc => ofNodes schema rest (SList.insert (byRow schema.sort) (ofNode schema c) acc)

end

/-- A change of a level. -/
@[grind] def apply (schema : Schema) (level : List Tree) : Change → List Tree
  | .add n => SList.insert (byRow schema.sort) (ofNode schema n) level
  | .remove n => SList.erase (byRow schema.sort) (key n.row) level
  | .edit n old =>
    match SList.find (byRow schema.sort) (key old.row) level with
    | none => level
    | some t => SList.insert (byRow schema.sort) { t with row := n.row } (SList.erase (byRow schema.sort) (key old.row) level)
  | .child n rel c =>
    match schema.relChild rel with
    | none => level
    | some child =>
      level.map fun t =>
        if rowCmp schema.sort t.row n.row = .eq then { t with kids := t.kids.modify rel fun kids => apply child kids c }
        else t

/-- A stream of changes. -/
def applyAll (schema : Schema) (level : List Tree) (changes : List Change) : List Tree :=
  changes.foldl (apply schema) level

end Tree

/-- The children of every slot in view have keys of their own, at every level. -/
inductive Node.SetValued : Schema → Node → Prop
  | mk {schema : Schema} {row : Row} {rels : List (Nat × List Node)}
      (keys : ∀ slot cs child, (slot, cs) ∈ rels → schema.relChild slot = some child →
        cs.Pairwise fun a b => rowCmp child.sort a.row b.row ≠ .eq)
      (children : ∀ slot cs child, (slot, cs) ∈ rels → schema.relChild slot = some child → ∀ c ∈ cs, SetValued child c) :
      SetValued schema (.mk row rels)

namespace Change

/-- A change of the level as a set. -/
@[grind] def ValidFor (schema : Schema) (level : List Tree) : Change → Prop
  | .add n => n.Keyed ∧ n.SetValued schema ∧ ∀ t ∈ level, rowCmp schema.sort t.row n.row ≠ .eq
  | .remove n => ∃ t ∈ level, rowCmp schema.sort t.row n.row = .eq
  | .edit n old => (∃ t ∈ level, rowCmp schema.sort t.row old.row = .eq) ∧
      (rowCmp schema.sort old.row n.row = .eq ∨ ∀ t ∈ level, rowCmp schema.sort t.row n.row ≠ .eq)
  | .child n rel c =>
    match schema.relChild rel with
    | none => True
    | some sub => ∃ t ∈ level, rowCmp schema.sort t.row n.row = .eq ∧ ∃ kids, t.kids[rel]? = some kids ∧ c.ValidFor sub kids

/-- Each change is valid where it comes. -/
def ValidStream (schema : Schema) (level : List Tree) : List Change → Prop
  | [] => True
  | c :: rest => c.ValidFor schema level ∧ ValidStream schema (Tree.apply schema level c) rest

/-- A child change that a slot out of view ends, at any depth. -/
def OutOfView (schema : Schema) : Change → Prop
  | .child _ rel c =>
    match schema.relChild rel with
    | none => True
    | some sub => c.OutOfView sub
  | _ => False

end Change

/-- Each level strictly sorted, with a list for each slot. -/
inductive Tree.Ordered : Schema → Tree → Prop
  | mk {schema : Schema} {t : Tree} (length : t.kids.length = schema.relationships.length)
      (sorted : ∀ k child kids, schema.relChild k = some child → t.kids[k]? = some kids → SList.Sorted (byRow child.sort) kids)
      (children : ∀ k child kids, schema.relChild k = some child → t.kids[k]? = some kids → ∀ c ∈ kids, Ordered child c) :
      Ordered schema t

/-- A level of the reference. -/
structure Tree.OrderedLevel (schema : Schema) (level : List Tree) : Prop where
  sorted : SList.Sorted (byRow schema.sort) level
  ordered : ∀ t ∈ level, t.Ordered schema

/-! ## The tree as a receiver holds it -/

mutual

/-- Every row once. -/
def Tree.held : Tree → RecvNode
  | ⟨row, kids⟩ => ⟨row, 1, heldSlots kids⟩

def heldSlots : List (List Tree) → List (List RecvNode)
  | [] => []
  | l :: rest => heldList l :: heldSlots rest

def heldList : List Tree → List RecvNode
  | [] => []
  | t :: rest => t.held :: heldList rest

end

theorem heldList_eq (l : List Tree) : heldList l = l.map Tree.held := by
  induction l with
  | nil => rfl
  | cons t rest ih => simp only [heldList, ih, List.map_cons]

theorem heldSlots_eq (kids : List (List Tree)) : heldSlots kids = kids.map (List.map Tree.held) := by
  induction kids with
  | nil => rfl
  | cons l rest ih => simp only [heldSlots, ih, heldList_eq, List.map_cons]

theorem Tree.held_eq (t : Tree) : t.held = ⟨t.row, 1, t.kids.map (List.map Tree.held)⟩ := by
  cases t
  simp only [Tree.held, heldSlots_eq]

@[simp] theorem Tree.held_row (t : Tree) : t.held.row = t.row := by rw [Tree.held_eq]

theorem modify_mid {α : Type} (A : List α) (x : α) (C : List α) (f : α → α) :
    (A ++ x :: C).modify A.length f = A ++ f x :: C := by
  induction A with
  | nil => rfl
  | cons a A ih => simpa using ih

/-- Around a key that a level has or lacks, the search finds the place. -/
theorem locate_held {sort : SortSpec} {row : Row} {A E C : List Tree} (hA : ∀ a ∈ A, byRow sort a (.key row) = .lt)
    (hC : ∀ c ∈ C, byRow sort c (.key row) = .gt) (hE : E = [] ∨ ∃ x, E = [x] ∧ byRow sort x (.key row) = .eq) :
    Receiver.locate sort ((A ++ E ++ C).map Tree.held) row = if E = [] then .error A.length else .ok A.length := by
  rw [Receiver.locate, binarySearchBy_map]
  simp only [Tree.held_row]
  exact binarySearchBy_eq hA hC hE

/-! ## Nodes that enter -/

namespace Tree

theorem lookup_ofRels_none {schema : Schema} {k : Nat} (rels : List (Nat × List Node))
    (h : schema.relChild k = none ∨ k ∉ rels.map Prod.fst) : (ofRels schema rels).lookup k = none := by
  induction rels with
  | nil => rfl
  | cons p rest ih =>
    obtain ⟨slot, cs⟩ := p
    have hrest := ih (h.imp_right fun h h' => h (List.mem_cons_of_mem _ h'))
    simp only [ofRels]
    split
    · exact hrest
    · rename_i child hchild
      have hne : (k == slot) = false := by
        rw [beq_eq_false_iff_ne]
        rintro rfl
        rcases h with h | h
        · rw [hchild] at h; cases h
        · exact h (List.mem_cons_self ..)
      rw [List.lookup_cons, hne]
      exact hrest

theorem lookup_ofRels {schema child : Schema} {k : Nat} {cs : List Node} (hchild : schema.relChild k = some child)
    (rels : List (Nat × List Node)) (hnd : (rels.map Prod.fst).Nodup) (hmem : (k, cs) ∈ rels) :
    (ofRels schema rels).lookup k = some (ofNodes child cs []) := by
  induction rels with
  | nil => cases hmem
  | cons p rest ih =>
    obtain ⟨slot, ds⟩ := p
    obtain ⟨hslot, hnd⟩ := List.nodup_cons.mp hnd
    simp only [ofRels]
    rcases List.mem_cons.mp hmem with he | hrest
    · cases he
      simp only [hchild, List.lookup_cons, beq_self_eq_true]
    · split
      · exact ih hnd hrest
      · have hne : (k == slot) = false := by
          rw [beq_eq_false_iff_ne]
          rintro rfl
          exact hslot (List.mem_map.mpr ⟨(k, cs), hrest, rfl⟩)
        rw [List.lookup_cons, hne]
        exact ih hnd hrest

theorem ofNode_row (schema : Schema) (n : Node) : (ofNode schema n).row = n.row := by cases n; rfl

/-- Adding what is absent puts it between what is below and what is above. -/
theorem split_absent {sort : SortSpec} {l : List Tree} (hl : SList.Sorted (byRow sort) l) {t : Tree}
    (ht : ∀ x ∈ l, rowCmp sort x.row t.row ≠ .eq) : ∃ A C, l = A ++ C ∧ (∀ a ∈ A, byRow sort a t = .lt) ∧
      (∀ c ∈ C, byRow sort c t = .gt) ∧ SList.insert (byRow sort) t l = A ++ t :: C := by
  obtain ⟨A, E, C, rfl, hA, hC, hE⟩ := SList.split3 t hl
  rcases hE with rfl | ⟨x, rfl, hx⟩
  · refine ⟨A, C, by simp, hA, hC, ?_⟩
    rw [SList.insert_mid hA hC]
    simp [SList.insert]
  · exact absurd hx (ht x (by simp))

theorem split_present {sort : SortSpec} {l : List Tree} (hl : SList.Sorted (byRow sort) l) {row : Row}
    (hr : ∃ t ∈ l, rowCmp sort t.row row = .eq) : ∃ A x C, l = A ++ x :: C ∧ (∀ a ∈ A, byRow sort a (key row) = .lt) ∧
      (∀ c ∈ C, byRow sort c (key row) = .gt) ∧ byRow sort x (key row) = .eq := by
  obtain ⟨A, E, C, rfl, hA, hC, hE⟩ := SList.split3 (key row) hl
  rcases hE with rfl | ⟨x, rfl, hx⟩
  · obtain ⟨t, ht, he⟩ := hr
    rcases List.mem_append.mp (by simpa using ht) with ht | ht
    · have := hA t ht
      rw [byRow, key, he] at this
      cases this
    · have := hC t ht
      rw [byRow, key, he] at this
      cases this
  · exact ⟨A, x, C, by simp, hA, hC, hx⟩

/-- Children with keys of their own are built as they are sorted. -/
theorem buildChildren_held {schema : Schema} (cs : List Node) (hkeys : cs.Pairwise fun a b => rowCmp schema.sort a.row b.row ≠ .eq)
    (hcs : ∀ c ∈ cs, Receiver.buildNode schema (wireNode (expandNode c)) = (ofNode schema c).held) :
    ∀ acc, SList.Sorted (byRow schema.sort) acc → (∀ t ∈ acc, ∀ c ∈ cs, rowCmp schema.sort t.row c.row ≠ .eq) →
      Receiver.buildChildren schema (wireNodes (expandNodes cs)) (acc.map held) = (ofNodes schema cs acc).map held := by
  induction cs with
  | nil => intro acc _ _; rfl
  | cons c rest ih =>
    intro acc hacc hfresh
    obtain ⟨hc, hkeys⟩ := List.pairwise_cons.mp hkeys
    have hrow : (wireNode (expandNode c)).row = c.row := by cases c; rfl
    have habsent : ∀ x ∈ acc, rowCmp schema.sort x.row (ofNode schema c).row ≠ .eq := by
      intro x hx
      rw [ofNode_row]
      exact hfresh x hx c (List.mem_cons_self ..)
    obtain ⟨A, C, rfl, hA, hC, hins⟩ := split_absent hacc habsent
    have hloc : Receiver.locate schema.sort ((A ++ C).map held) c.row = .error A.length := by
      have h := @locate_held schema.sort c.row A [] C (by simpa [byRow, key, ofNode_row] using hA)
        (by simpa [byRow, key, ofNode_row] using hC) (.inl rfl)
      simpa using h
    simp only [expandNodes, wireNodes, Receiver.buildChildren, hrow, hloc, ofNodes, hins]
    have hput : ((A ++ C).map held).insertIdx A.length (Receiver.buildNode schema (wireNode (expandNode c))) =
        (A ++ ofNode schema c :: C).map held := by
      have h := insertIdx_mid (A.map held) (ofNode schema c).held (C.map held)
      rw [List.length_map] at h
      rw [hcs c (List.mem_cons_self ..), List.map_append, h]
      simp
    rw [hput]
    refine ih hkeys (fun d hd => hcs d (List.mem_cons_of_mem _ hd)) _ (hins ▸ SList.sorted_insert hacc) ?_
    intro t ht d hd
    rcases List.mem_append.mp ht with ht | ht
    · exact hfresh t (List.mem_append_left _ ht) d (List.mem_cons_of_mem _ hd)
    · rcases List.mem_cons.mp ht with rfl | ht
      · rw [ofNode_row]; exact hc d hd
      · exact hfresh t (List.mem_append_right _ ht) d (List.mem_cons_of_mem _ hd)

/-- What enters is what the receiver builds from the wire. -/
theorem buildNode_held {n : Node} (hk : n.Keyed) : ∀ {schema : Schema}, n.SetValued schema →
    Receiver.buildNode schema (wireNode (expandNode n)) = (ofNode schema n).held := by
  induction hk with
  | @mk row rels slots _ ih =>
    intro schema hs
    cases hs with
    | mk keys children =>
      simp only [expandNode, wireNode, Receiver.buildNode, ofNode, held, heldSlots_eq]
      congr 1
      refine List.ext_getElem? fun k => ?_
      by_cases hk : k < schema.relationships.length
      · simp only [List.getElem?_map, List.getElem?_range hk, Option.map_some]
        by_cases hslot : schema.relChild k = none ∨ k ∉ rels.map Prod.fst
        · have hwire : schema.relChild k = none ∨ k ∉ (wiredRels rels).map Prod.fst :=
            hslot.imp_right fun h h' => h (slots_wiredRels slots h')
          rw [lookup_ofRels_none rels hslot]
          exact (Receiver.buildRels_other (wiredRels rels) hwire).trans (List.getElem?_replicate_of_lt hk)
        · rw [not_or, not_not] at hslot
          obtain ⟨child, hchild⟩ := Option.ne_none_iff_exists'.mp hslot.1
          obtain ⟨⟨k', cs⟩, hcs, rfl⟩ := List.mem_map.mp hslot.2
          rw [lookup_ofRels hchild rels slots hcs]
          have hbuilt := buildChildren_held cs (keys _ cs child hcs hchild)
            (fun c hc => ih _ hcs c hc (children _ cs child hcs hchild c hc)) [] SList.sorted_nil (by simp)
          rw [List.map_nil] at hbuilt
          rw [Option.getD_some, ← hbuilt]
          exact Receiver.buildRels_slot hchild (wiredRels rels) (nodup_wiredRels rels)
            ((mem_wiredRels slots).mpr ⟨cs, hcs, rfl⟩) (by simpa using hk)
      · rw [List.getElem?_eq_none (by simpa [Receiver.length_buildRels] using hk),
          List.getElem?_eq_none (by simpa using hk)]

/-- A list of a slot is a level of its own. -/
def SlotLevels (schema : Schema) (l : List (Nat × List Tree)) : Prop :=
  ∀ k kids child, l.lookup k = some kids → schema.relChild k = some child → OrderedLevel child kids

mutual

theorem ofNode_ordered (schema : Schema) : ∀ n : Node, (ofNode schema n).Ordered schema
  | .mk row rels => by
    have hl := ofRels_levels schema rels
    have hkids : ∀ k child kids, schema.relChild k = some child → (ofNode schema (.mk row rels)).kids[k]? = some kids →
        OrderedLevel child kids := by
      intro k child kids hk hkids
      simp only [ofNode, List.getElem?_map] at hkids
      obtain ⟨k', hk', rfl⟩ := Option.map_eq_some_iff.mp hkids
      obtain rfl : k' = k := by
        have := List.getElem?_range (Schema.relChild_lt hk)
        rw [this] at hk'
        exact (Option.some.inj hk').symm
      cases hlook : (ofRels schema rels).lookup k' with
      | none => exact ⟨SList.sorted_nil, by simp⟩
      | some kids => exact hl k' kids child hlook hk
    exact ⟨by simp [ofNode], fun k child kids hk h => (hkids k child kids hk h).sorted,
      fun k child kids hk h => (hkids k child kids hk h).ordered⟩

theorem ofRels_levels (schema : Schema) : ∀ rels : List (Nat × List Node), SlotLevels schema (ofRels schema rels)
  | [] => by intro k kids child h; cases h
  | (slot, cs) :: rest => by
    intro k kids child hlook hk
    have hrest := ofRels_levels schema rest
    simp only [ofRels] at hlook
    split at hlook
    · exact hrest k kids child hlook hk
    · rename_i sub hsub
      rw [List.lookup_cons] at hlook
      split at hlook
      · rename_i he
        obtain rfl := beq_iff_eq.mp he
        rw [hsub] at hk
        cases hk
        cases hlook
        exact ofNodes_level child cs [] ⟨SList.sorted_nil, by simp⟩
      · exact hrest k kids child hlook hk

theorem ofNodes_level (schema : Schema) : ∀ (cs : List Node) (acc : List Tree), OrderedLevel schema acc →
    OrderedLevel schema (ofNodes schema cs acc)
  | [], acc, h => h
  | c :: rest, acc, h => by
    have hc := ofNode_ordered schema c
    refine ofNodes_level schema rest _ ⟨SList.sorted_insert h.sorted, fun t ht => ?_⟩
    rcases (SList.mem_insert h.sorted).mp ht with rfl | ⟨ht, -⟩
    · exact hc
    · exact h.ordered t ht

end

/-! ## One level -/

section
variable {schema : Schema} {level : List Tree}

variable {row : Row} {A C : List Tree}

theorem locate_absent (hA : ∀ a ∈ A, byRow schema.sort a (key row) = .lt)
    (hC : ∀ c ∈ C, byRow schema.sort c (key row) = .gt) :
    Receiver.locate schema.sort ((A ++ C).map held) row = .error A.length := by
  have h := @locate_held schema.sort row A [] C hA hC (.inl rfl)
  simpa using h

theorem locate_present {x : Tree} (hA : ∀ a ∈ A, byRow schema.sort a (key row) = .lt)
    (hC : ∀ c ∈ C, byRow schema.sort c (key row) = .gt) (hx : byRow schema.sort x (key row) = .eq) :
    Receiver.locate schema.sort ((A ++ x :: C).map held) row = .ok A.length := by
  have h := @locate_held schema.sort row A [x] C hA hC (.inr ⟨x, rfl, hx⟩)
  simpa using h

theorem getElem?_held (A : List Tree) (x : Tree) (C : List Tree) : ((A ++ x :: C).map held)[A.length]? = some x.held := by
  simp

theorem editAt_held (A : List Tree) (x : Tree) (C : List Tree) (row : Row) :
    ((A ++ x :: C).map held).modify A.length (fun n => { n with row := row }) =
      (A ++ { x with row := row } :: C).map held := by
  have h := modify_mid (A.map held) x.held (C.map held) fun n => { n with row := row }
  rw [List.length_map] at h
  rw [List.map_append, List.map_cons, h, List.map_append, List.map_cons]
  simp only [held_eq]

theorem insertIdx_held (A C : List Tree) (x : Tree) :
    ((A ++ C).map held).insertIdx A.length x.held = (A ++ x :: C).map held := by
  have h := insertIdx_mid (A.map held) x.held (C.map held)
  rw [List.length_map] at h
  rw [List.map_append, h, List.map_append, List.map_cons]

theorem eraseIdx_held (A : List Tree) (x : Tree) (C : List Tree) :
    ((A ++ x :: C).map held).eraseIdx A.length = (A ++ C).map held := by
  have h := eraseIdx_mid (A.map held) x.held (C.map held)
  rw [List.length_map] at h
  rw [List.map_append, List.map_cons, h, List.map_append]

theorem erase_present {x : Tree} (hA : ∀ a ∈ A, byRow schema.sort a (key row) = .lt)
    (hC : ∀ c ∈ C, byRow schema.sort c (key row) = .gt) (hx : byRow schema.sort x (key row) = .eq) :
    SList.erase (byRow schema.sort) (key row) (A ++ x :: C) = A ++ C := by
  have h := @SList.erase_mid _ (byRow schema.sort) (key row) A [x] C (fun a ha => by simp [hA a ha])
    (fun c hc => by simp [hC c hc])
  simpa [SList.erase, hx] using h

theorem find_present {x : Tree} (hA : ∀ a ∈ A, byRow schema.sort a (key row) = .lt)
    (hx : byRow schema.sort x (key row) = .eq) : SList.find (byRow schema.sort) (key row) (A ++ x :: C) = some x := by
  have hnone : SList.find (byRow schema.sort) (key row) A = none :=
    SList.find_eq_none.mpr fun a ha => by simp [hA a ha]
  rw [SList.find_append, hnone]
  simp [SList.find, hx]

theorem applyAdd_reference (h : OrderedLevel schema level) {n : Node} (hk : n.Keyed) (hs : n.SetValued schema)
    (habs : ∀ t ∈ level, rowCmp schema.sort t.row n.row ≠ .eq) :
    Receiver.applyAdd schema (level.map held) (wireNode (expandNode n)) =
      (SList.insert (byRow schema.sort) (ofNode schema n) level).map held := by
  have hrow : (wireNode (expandNode n)).row = n.row := by cases n; rfl
  have habs' : ∀ t ∈ level, rowCmp schema.sort t.row (ofNode schema n).row ≠ .eq := by rwa [ofNode_row]
  obtain ⟨A, C, rfl, hA, hC, hins⟩ := split_absent h.sorted habs'
  have hloc : Receiver.locate schema.sort ((A ++ C).map held) n.row = .error A.length :=
    locate_absent (by simpa [byRow, key, ofNode_row] using hA) (by simpa [byRow, key, ofNode_row] using hC)
  simp only [Receiver.applyAdd, hrow, hloc, hins, buildNode_held hk hs, insertIdx_held]

theorem applyRemove_reference (h : OrderedLevel schema level)
    (hp : ∃ t ∈ level, rowCmp schema.sort t.row row = .eq) :
    Receiver.applyRemove schema (level.map held) row =
      some ((SList.erase (byRow schema.sort) (key row) level).map held) := by
  obtain ⟨A, x, C, rfl, hA, hC, hx⟩ := split_present h.sorted hp
  have hrc : x.held.rc = 1 := by rw [held_eq]
  simp only [Receiver.applyRemove, locate_present hA hC hx, getElem?_held, hrc, if_true, erase_present hA hC hx,
    eraseIdx_held]

/-- The receiver's move of a row to a key that is free. -/
theorem moveRow_reference {A C A' C' : List Tree} {x : Tree} {new : Row} (hsplit : A ++ x :: C = A' ++ C')
    (hA' : ∀ a ∈ A', byRow schema.sort a (key new) = .lt) (hC' : ∀ c ∈ C', byRow schema.sort c (key new) = .gt) :
    Receiver.moveRow ((A ++ x :: C).map held) A.length x.held (.error A'.length) new =
      some ((SList.insert (byRow schema.sort) { x with row := new } (A ++ C)).map held) := by
  have hrc : x.held.rc = 1 := by rw [held_eq]
  have hmoved : ({ x.held with row := new, rc := 1 } : RecvNode) = held { x with row := new } := by simp only [held_eq]
  have hfree : ∀ {B D : List Tree}, (∀ b ∈ B, byRow schema.sort b (key new) = .lt) →
      (∀ d ∈ D, byRow schema.sort d (key new) = .gt) →
      SList.insert (byRow schema.sort) { x with row := new } (B ++ D) = B ++ { x with row := new } :: D := by
    intro B D hB hD
    have h : SList.insert (byRow schema.sort) { x with row := new } (B ++ [] ++ D) = _ := SList.insert_mid hB hD
    simpa [SList.insert] using h
  simp only [Receiver.moveRow, searchPos, hrc, true_and, Nat.sub_self, if_true, hmoved]
  rcases List.append_eq_append_iff.mp hsplit with ⟨B, rfl, hB⟩ | ⟨B, rfl, hB⟩
  · -- the new key is above the old one, unless it takes the old one's very place
    cases B with
    | nil =>
      simp only [List.append_nil, List.nil_append] at hB hA' ⊢
      subst hB
      have hC : ∀ c ∈ C, byRow schema.sort c (key new) = .gt := fun c hc => hC' c (List.mem_cons_of_mem _ hc)
      simp only [true_or, if_true, editAt_held, hfree hA' hC]
    | cons y B =>
      obtain ⟨rfl, rfl⟩ : x = y ∧ C = B ++ C' := by simpa using hB
      have hA : ∀ a ∈ A ++ B, byRow schema.sort a (key new) = .lt := by
        intro a ha
        rcases List.mem_append.mp ha with ha | ha
        · exact hA' a (List.mem_append_left _ ha)
        · exact hA' a (List.mem_append_right _ (List.mem_cons_of_mem _ ha))
      rw [← List.append_assoc A B C', hfree hA hC']
      by_cases hnext : B = []
      · subst hnext
        simp only [List.length_append, List.length_singleton, or_true, if_true, List.nil_append, List.append_nil, editAt_held]
      · have hlen : 0 < B.length := List.length_pos_of_ne_nil hnext
        have hslow : ¬((A ++ x :: B).length = A.length ∨ (A ++ x :: B).length = A.length + 1) := by
          simp only [List.length_append, List.length_cons]; omega
        have hpos : A.length < (A ++ x :: B).length := by simp
        have hadj : (A ++ x :: B).length - 1 = (A ++ B).length := by
          simp only [List.length_append, List.length_cons]; omega
        simp only [hslow, if_false, hpos, if_true, hadj, eraseIdx_held]
        rw [← List.append_assoc A B C', insertIdx_held]
  · -- the new key is below the old one
    have hgt : ∀ c ∈ B ++ C, byRow schema.sort c (key new) = .gt := by
      intro c hc
      refine hC' c (hB ▸ ?_)
      rcases List.mem_append.mp hc with hc | hc
      · exact List.mem_append_left _ hc
      · exact List.mem_append_right _ (List.mem_cons_of_mem _ hc)
    rw [List.append_assoc A' B C, hfree hA' hgt]
    by_cases hsame : B = []
    · subst hsame
      simp only [List.append_nil, List.nil_append, true_or, if_true, editAt_held]
    · have hlen : 0 < B.length := List.length_pos_of_ne_nil hsame
      have hslow : ¬(A'.length = (A' ++ B).length ∨ A'.length = (A' ++ B).length + 1) := by
        simp only [List.length_append]; omega
      have hpos : ¬(A' ++ B).length < A'.length := by simp
      simp only [hslow, if_false, hpos, eraseIdx_held]
      rw [List.append_assoc A' B C, insertIdx_held]

theorem applyEdit_reference (h : OrderedLevel schema level) {n old : Node}
    (hp : ∃ t ∈ level, rowCmp schema.sort t.row old.row = .eq)
    (hn : rowCmp schema.sort old.row n.row = .eq ∨ ∀ t ∈ level, rowCmp schema.sort t.row n.row ≠ .eq) :
    Receiver.applyEdit schema (level.map held) old.row n.row = some ((apply schema level (.edit n old)).map held) := by
  obtain ⟨A, x, C, rfl, hA, hC, hx⟩ := split_present h.sorted hp
  simp only [Receiver.applyEdit, locate_present hA hC hx, apply, find_present hA hx, erase_present hA hC hx]
  by_cases hsame : rowCmp schema.sort old.row n.row = .eq
  · have hA' : ∀ a ∈ A, byRow schema.sort a { x with row := n.row } = .lt := fun a ha =>
      (Std.TransCmp.congr_right hsame).symm.trans (hA a ha)
    have hC' : ∀ c ∈ C, byRow schema.sort c { x with row := n.row } = .gt := fun c hc =>
      (Std.TransCmp.congr_right hsame).symm.trans (hC c hc)
    have hins : SList.insert (byRow schema.sort) { x with row := n.row } (A ++ [] ++ C) = _ := SList.insert_mid hA' hC'
    rw [List.append_nil] at hins
    simp only [hsame, if_true, editAt_held, hins, SList.insert, List.append_assoc, List.singleton_append]
  · have habs : ∀ t ∈ A ++ x :: C, rowCmp schema.sort t.row (key n.row).row ≠ .eq := hn.resolve_left hsame
    obtain ⟨A', C', hsplit, hA', hC', -⟩ := split_absent h.sorted habs
    have hloc : Receiver.locate schema.sort ((A ++ x :: C).map held) n.row = .error A'.length := by
      rw [hsplit]; exact locate_absent hA' hC'
    simp only [hsame, if_false, getElem?_held, hloc]
    exact moveRow_reference hsplit hA' hC'

end

/-- A level changed at one key. -/
theorem map_at {sort : SortSpec} {row : Row} {A C : List Tree} {x : Tree} (hA : ∀ a ∈ A, byRow sort a (key row) = .lt)
    (hC : ∀ c ∈ C, byRow sort c (key row) = .gt) (hx : byRow sort x (key row) = .eq) (g : Tree → Tree) :
    (A ++ x :: C).map (fun t => if rowCmp sort t.row row = .eq then g t else t) = A ++ g x :: C := by
  have hkeep : ∀ B : List Tree, (∀ b ∈ B, byRow sort b (key row) ≠ .eq) →
      B.map (fun t => if rowCmp sort t.row row = .eq then g t else t) = B := fun B hB =>
    (List.map_congr_left fun b hb => if_neg (hB b hb)).trans (List.map_id' _)
  rw [List.map_append, List.map_cons, hkeep A fun a ha => by simp [hA a ha], hkeep C fun c hc => by simp [hC c hc]]
  exact congrArg (fun y => A ++ y :: C) (if_pos hx)

/-- The rows of a level are found by key. -/
theorem eq_of_key {schema : Schema} {level : List Tree} (h : OrderedLevel schema level) {t u : Tree} {row : Row}
    (ht : t ∈ level) (hu : u ∈ level) (htr : rowCmp schema.sort t.row row = .eq) (hur : rowCmp schema.sort u.row row = .eq) :
    t = u :=
  h.sorted.eq_of_cmp ht hu ((Std.TransCmp.congr_right (Std.OrientedCmp.eq_symm hur)).symm.trans htr)

/-- The receiver folds a valid change as the reference does, at any depth. -/
theorem applyAt_reference (c : Change) : ∀ {schema : Schema} {level : List Tree}, OrderedLevel schema level →
    c.ValidFor schema level →
    Receiver.applyAt schema (level.map held) (flatten (expandChange c)).op (flatten (expandChange c)).path =
      some ((apply schema level c).map held) := by
  induction c with
  | add n =>
    intro schema level h hv
    obtain ⟨hk, hs, habs⟩ := hv
    exact congrArg some (applyAdd_reference h hk hs habs)
  | remove n =>
    intro schema level h hv
    have hrow : (expandNode n).row = n.row := by cases n; rfl
    simp only [expandChange, flatten, flattenFrom, Receiver.applyAt, Receiver.applyOp, hrow]
    exact applyRemove_reference h hv
  | edit n old =>
    intro schema level h hv
    exact applyEdit_reference h hv.1 hv.2
  | child n rel c ih =>
    intro schema level h hv
    simp only [expandChange, flatten_child, Receiver.applyAt, apply]
    simp only [Change.ValidFor] at hv
    cases hgate : schema.relChild rel with
    | none => rfl
    | some sub =>
      simp only [hgate] at hv
      obtain ⟨t, ht, htr, kids, hkids, hvalid⟩ := hv
      obtain ⟨A, x, C, rfl, hA, hC, hx⟩ := split_present h.sorted ⟨t, ht, htr⟩
      obtain rfl : t = x := eq_of_key h ht (by simp) htr hx
      have hrels : t.held.rels[rel]? = some (kids.map held) := by
        rw [held_eq, List.getElem?_map, hkids]; rfl
      have hlevel : OrderedLevel sub kids := by
        cases h.ordered t ht with
        | mk length sorted children => exact ⟨sorted rel sub kids hgate hkids, children rel sub kids hgate hkids⟩
      simp only [locate_present hA hC hx, getElem?_held, hrels, ih hlevel hvalid, Option.map_some]
      have hset := set_mid (A.map held) t.held { t.held with rels := t.held.rels.set rel ((apply sub kids c).map held) }
        (C.map held)
      rw [List.length_map] at hset
      rw [List.map_append, List.map_cons, hset, map_at hA hC hx, List.map_append, List.map_cons]
      have hmod : t.kids.modify rel (fun kids => apply sub kids c) = t.kids.set rel (apply sub kids c) := by
        rw [List.modify_eq_set_getElem?, hkids]
        rfl
      simp only [held_eq, hmod, List.map_set]

/-- The reference keeps its levels sorted. -/
theorem apply_ordered (c : Change) : ∀ {schema : Schema} {level : List Tree}, OrderedLevel schema level →
    OrderedLevel schema (apply schema level c) := by
  have hinsert : ∀ {schema : Schema} {level : List Tree} {t : Tree}, OrderedLevel schema level → t.Ordered schema →
      OrderedLevel schema (SList.insert (byRow schema.sort) t level) := by
    intro schema level t h ht
    refine ⟨SList.sorted_insert h.sorted, fun u hu => ?_⟩
    rcases (SList.mem_insert h.sorted).mp hu with rfl | ⟨hu, -⟩
    · exact ht
    · exact h.ordered u hu
  have herase : ∀ {schema : Schema} {level : List Tree} (t : Tree), OrderedLevel schema level →
      OrderedLevel schema (SList.erase (byRow schema.sort) t level) := fun t h =>
    ⟨SList.sorted_erase h.sorted, fun u hu => h.ordered u ((SList.mem_erase h.sorted).mp hu).1⟩
  induction c with
  | add n => intro schema level h; exact hinsert h (ofNode_ordered schema n)
  | remove n => intro schema level h; exact herase _ h
  | edit n old =>
    intro schema level h
    simp only [apply]
    split
    · exact h
    · rename_i t hfind
      refine hinsert (herase _ h) ?_
      cases h.ordered t (SList.find_some hfind).1 with
      | mk length sorted children => exact ⟨length, sorted, children⟩
  | child n rel c ih =>
    intro schema level h
    simp only [apply]
    split
    · exact h
    rename_i sub hgate
    refine ⟨List.pairwise_map.mpr (h.sorted.imp fun {a b} hab => ?_), fun u hu => ?_⟩
    · have hrow : ∀ t : Tree, (if rowCmp schema.sort t.row n.row = .eq
          then { t with kids := t.kids.modify rel fun kids => apply sub kids c } else t : Tree).row = t.row := by
        intro t
        split <;> rfl
      simp only [byRow, hrow]
      exact hab
    · obtain ⟨t, ht, rfl⟩ := List.mem_map.mp hu
      cases h.ordered t ht with
      | mk length sorted children =>
        split
        · have hslot : ∀ k child kids, schema.relChild k = some child →
              (t.kids.modify rel fun kids => apply sub kids c)[k]? = some kids → OrderedLevel child kids := by
            intro k child kids hk hkids
            rw [List.getElem?_modify] at hkids
            obtain ⟨kids', hkids', rfl⟩ := Option.map_eq_some_iff.mp hkids
            have hbefore : OrderedLevel child kids' := ⟨sorted k child kids' hk hkids', children k child kids' hk hkids'⟩
            split
            · rename_i he
              subst he
              rw [hgate] at hk
              cases hk
              exact ih hbefore
            · exact hbefore
          exact ⟨by simpa using length, fun k child kids hk h => (hslot k child kids hk h).sorted,
            fun k child kids hk h => (hslot k child kids hk h).ordered⟩
        · exact ⟨length, sorted, children⟩

end Tree

/-! ## The view -/

theorem Change.ValidFor.keyed {c : Change} : ∀ {schema : Schema} {level : List Tree}, c.ValidFor schema level →
    c.Keyed schema := by
  induction c with
  | add n => intro schema level h; exact h.1
  | remove n => intro schema level _; trivial
  | edit n old => intro schema level _; trivial
  | child n rel c ih =>
    intro schema level h
    simp only [Change.ValidFor] at h
    simp only [Change.Keyed]
    cases hgate : schema.relChild rel with
    | none => trivial
    | some sub =>
      simp only [hgate] at h
      obtain ⟨t, -, -, kids, -, hv⟩ := h
      exact ih hv

namespace View

/-- A change that ends in a slot out of view reports that nothing changed. -/
theorem apply_outOfView {mode : Mutate} {gen : Nat} (c : Change) : ∀ {schema : Schema} {rel : Nat} {parent p : Entry}
    {flag : Bool}, c.OutOfView schema → apply mode gen schema rel parent (.fromChange c) = some (p, flag) → flag = false := by
  induction c with
  | add n => intro schema rel parent p flag h; exact h.elim
  | remove n => intro schema rel parent p flag h; exact h.elim
  | edit n old => intro schema rel parent p flag h; exact h.elim
  | child n childRel c ih =>
    intro schema rel parent p flag h happ
    simp only [Change.OutOfView] at h
    simp only [ViewChange.fromChange, apply] at happ
    cases hgate : schema.relChild childRel with
    | none =>
      simp only [hgate] at happ
      cases happ
      rfl
    | some sub =>
      simp only [hgate] at h happ
      split at happ
      · cases happ
      · split at happ
        · cases happ
        · split at happ
          · cases happ
          · obtain ⟨⟨child', flag'⟩, hrec, he⟩ := Option.map_eq_some_iff.mp happ
            obtain rfl := ih h hrec
            split at he <;> cases he <;> rfl

theorem applyChange_outOfView {mode : Mutate} {gen : Nat} {schema : Schema} {root root' : Entry} {c : Change}
    (hc : c.OutOfView schema) (h : applyChange mode gen schema root c = some root') : root'.content = root.content := by
  obtain ⟨⟨p, flag⟩, happ, rfl⟩ := Option.map_eq_some_iff.mp h
  obtain rfl := apply_outOfView c hc happ
  exact apply_unchanged _ happ

/-- A valid change does not panic, and the view goes on holding the reference. -/
theorem Mirrors.reference {schema : Schema} {root : Entry} {level : List Tree} (h : Mirrors schema root (level.map Tree.held))
    (hl : Tree.OrderedLevel schema level) (mode : Mutate) (gen : Nat) {c : Change} (hc : c.ValidFor schema level) :
    ∃ root', applyChange mode gen schema root c = some root' ∧
      Mirrors schema root' ((Tree.apply schema level c).map Tree.held) := by
  have hstep := h.step mode gen hc.keyed
  have hrecv : Receiver.apply ⟨schema, level.map Tree.held⟩ (flatten (expandChange c)) =
      some ⟨schema, (Tree.apply schema level c).map Tree.held⟩ := by
    simp only [Receiver.apply, Tree.applyAt_reference c hl hc, Option.map_some]
  rw [hrecv] at hstep
  cases hview : applyChange mode gen schema root c with
  | none => rw [hview] at hstep; exact hstep.elim
  | some root' =>
    rw [hview] at hstep
    exact ⟨root', rfl, hstep.2⟩

theorem Mirrors.referenceStream {schema : Schema} (changes : List Change) : ∀ {root : Entry} {level : List Tree}
    (modes : List (Mutate × Nat)), modes.length = changes.length → Mirrors schema root (level.map Tree.held) →
    Tree.OrderedLevel schema level → Change.ValidStream schema level changes →
    ∃ root', applyChanges schema root (modes.zip changes) = some root' ∧
      Mirrors schema root' ((Tree.applyAll schema level changes).map Tree.held) := by
  induction changes with
  | nil =>
    intro root level modes _ h _ _
    rw [List.zip_nil_right]
    exact ⟨root, rfl, h⟩
  | cons c rest ih =>
    intro root level modes hlen h hl hv
    cases modes with
    | nil => cases hlen
    | cons m modes =>
      obtain ⟨root₁, happ, h₁⟩ := h.reference hl m.1 m.2 hv.1
      obtain ⟨root', hrest, h'⟩ := ih modes (Nat.succ.inj hlen) h₁ (Tree.apply_ordered c hl) hv.2
      refine ⟨root', ?_, h'⟩
      rw [List.zip_cons_cons, applyChanges, List.foldlM_cons]
      simp only [happ]
      exact hrest

end View

theorem Tree.applyAll_append (schema : Schema) (level : List Tree) (a b : List Change) :
    applyAll schema level (a ++ b) = applyAll schema (applyAll schema level a) b := List.foldl_append

theorem Change.validStream_append {schema : Schema} {a b : List Change} : ∀ {level : List Tree},
    ValidStream schema level a → ValidStream schema (Tree.applyAll schema level a) b →
    ValidStream schema level (a ++ b) := by
  induction a with
  | nil => intro level _ h; exact h
  | cons c rest ih => intro level ha hb; exact ⟨ha.1, ih ha.2 hb⟩

theorem Tree.applyAll_ordered {schema : Schema} (changes : List Change) : ∀ {level : List Tree},
    OrderedLevel schema level → OrderedLevel schema (applyAll schema level changes) := by
  induction changes with
  | nil => intro level h; exact h
  | cons c rest ih => intro level h; exact ih (apply_ordered c h)

/-- Over every stream of valid changes, in whatever modes and generations: the view does not
    panic, holds the reference's tree, every level of it strictly sorted, and leaves it alone on
    changes that end out of view. -/
theorem view_holds_reference {schema : Schema} {changes : List Change} (hv : Change.ValidStream schema [] changes) :
    Tree.OrderedLevel schema (Tree.applyAll schema [] changes) ∧
      ∀ modes : List (Mutate × Nat), modes.length = changes.length →
        ∃ root, View.applyChanges schema View.syntheticRoot (modes.zip changes) = some root ∧
          (View.viewData root).map Entry.content = (Tree.applyAll schema [] changes).map Tree.held ∧
          ∀ mode gen c root', Change.OutOfView schema c → View.applyChange mode gen schema root c = some root' →
            root'.content = root.content := by
  have hnil : Tree.OrderedLevel schema [] := ⟨SList.sorted_nil, by simp⟩
  refine ⟨Tree.applyAll_ordered changes hnil, fun modes hlen => ?_⟩
  obtain ⟨root, hrun, h⟩ := View.Mirrors.referenceStream changes modes hlen (View.mirrors_syntheticRoot schema) hnil hv
  exact ⟨root, hrun, h.top_eq.symm, fun mode gen c root' hc happ => View.applyChange_outOfView hc happ⟩

/-- A parent with a child, an edit that moves it past another, and a child added under its new key. -/
theorem view_holds_reference_moved :
    ∃ root, View.applyChanges ((Schema.new ["id"] [0] [(0, true)]).withRelationships
        [.related "kids" (.new ["id"] [0] [(0, true)])]) View.syntheticRoot
        [((.inPlace, 0), .add (.mk [.int 1] [(0, [.leaf [.int 7]])])), ((.immutable, 1), .add (.leaf [.int 2])),
          ((.cow, 1), .edit (.leaf [.int 3]) (.leaf [.int 1])),
          ((.cow, 1), .child (.leaf [.int 3]) 0 (.add (.leaf [.int 5])))] = some root ∧
      (View.viewData root).map (fun e => (e.row, e.content.rels.map (List.map RecvNode.row))) =
        [([.int 2], [[]]), ([.int 3], [[[.int 5], [.int 7]]])] := by
  have hleaf : ∀ row, Node.Keyed (.leaf row) := fun row => ⟨by simp, by simp⟩
  have hset : ∀ schema row, Node.SetValued schema (.leaf row) := fun schema row => ⟨by simp, by simp⟩
  have hv : Change.ValidStream ((Schema.new ["id"] [0] [(0, true)]).withRelationships
      [.related "kids" (.new ["id"] [0] [(0, true)])]) []
      [.add (.mk [.int 1] [(0, [.leaf [.int 7]])]), .add (.leaf [.int 2]), .edit (.leaf [.int 3]) (.leaf [.int 1]),
        .child (.leaf [.int 3]) 0 (.add (.leaf [.int 5]))] := by
    refine ⟨⟨⟨by simp, by simp [hleaf]⟩, ⟨?_, ?_⟩, by simp⟩, ⟨hleaf _, hset _ _, by decide +kernel⟩,
      ⟨by decide +kernel, by decide +kernel⟩, ?_, trivial⟩
    · intro slot cs child hmem _
      cases List.mem_singleton.mp hmem
      simp
    · intro slot cs child hmem _ c hc
      cases List.mem_singleton.mp hmem
      rw [List.mem_singleton.mp hc]
      exact hset _ _
    · have hfree : ∀ S : Schema, S = (Schema.new ["id"] [0] [(0, true)]).withRelationships
          [.related "kids" (.new ["id"] [0] [(0, true)])] →
          ∃ t ∈ Tree.apply S (Tree.apply S (Tree.apply S [] (.add (.mk [.int 1] [(0, [.leaf [.int 7]])]))) (.add (.leaf [.int 2])))
            (.edit (.leaf [.int 3]) (.leaf [.int 1])), rowCmp [(0, true)] t.row [.int 3] = .eq ∧
            ∃ kids ∈ t.kids[0]?, ∀ u ∈ kids, rowCmp [(0, true)] u.row [.int 5] ≠ .eq := by
        intro S hS
        subst hS
        decide +kernel
      obtain ⟨t, ht, hrow, kids, hkids, habs⟩ := hfree _ rfl
      exact ⟨t, ht, hrow, kids, hkids, hleaf _, hset _ _, habs⟩
  obtain ⟨root, hrun, hroot, -⟩ := (view_holds_reference hv).2 [(.inPlace, 0), (.immutable, 1), (.cow, 1), (.cow, 1)] rfl
  refine ⟨root, hrun, ?_⟩
  have hshow : (View.viewData root).map (fun e => (e.row, e.content.rels.map (List.map RecvNode.row))) =
      ((View.viewData root).map Entry.content).map fun n => (n.row, n.rels.map (List.map RecvNode.row)) := by
    simp only [List.map_map, Function.comp_def, Entry.content_row]
  rw [hshow, hroot]
  decide +kernel

end Rindle
