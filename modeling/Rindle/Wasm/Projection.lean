/-
  Rindle.Wasm.Projection — the local engine's project-at-emit (`rust/src/wasm/db.rs`).

  Before a batch of flat changes leaves the engine, every row in it is blanked outside the
  columns its level reports: the selected ones, the primary key and the sort. The path of a
  change is blanked level by level, its operation at the level it reaches.

  `blankNode` blanks a tree the same way. Folding the projected stream is folding the stream and
  blanking the tree (`project_commutes`): no row is found by a column outside its level's mask.
-/

import Rindle.View.Content

set_option linter.dupNamespace false

namespace Rindle.Wasm

/-! ## Project at emit -/

variable (changes : List FlatChange) (schema : Schema) (n : RecvNode) (list : List RecvNode)

/-- `keep_mask`: the selected columns, the primary key and the sort. -/
def keepMask : Option (List Bool) :=
  schema.projection.map fun proj =>
    let set := fun (keep : List Bool) (c : Nat) => keep.set c true
    let keep := proj.foldl set (List.replicate schema.columns.length false)
    (schema.sort.map (·.1)).foldl set (schema.primaryKey.foldl set keep)

/-- `project_row`. -/
def projectRow (keep : List Bool) (row : Row) : Row :=
  row.mapIdx fun i cell => if keep[i]?.getD true then cell else .absent

/-- A row of this level. -/
def projectAt (row : Row) : Row :=
  match keepMask schema with
  | some keep => projectRow keep row
  | none => row

mutual

/-- `project_node`. -/
def projectNode (schema : Schema) : WireNode → WireNode
  | ⟨row, rels⟩ => ⟨projectAt schema row, projectRels schema rels⟩

def projectRels (schema : Schema) : List (Nat × List WireNode) → List (Nat × List WireNode)
  | [] => []
  | (rel, children) :: rest =>
    (rel, match schema.relChild rel with
      | some child => projectNodes child children
      | none => children) :: projectRels schema rest

def projectNodes (schema : Schema) : List WireNode → List WireNode
  | [] => []
  | c :: rest => projectNode schema c :: projectNodes schema rest

end

/-- The loop over a path, and the level it reaches. -/
def projectPath (cur : Schema) : List PathSeg → List PathSeg × Schema
  | [] => ([], cur)
  | seg :: rest =>
    let seg' := { seg with parentRow := projectAt cur seg.parentRow }
    match cur.relChild seg.rel with
    | some child => (seg' :: (projectPath child rest).1, (projectPath child rest).2)
    | none => (seg' :: rest, cur)

def projectOp (cur : Schema) : FlatOp → FlatOp
  | .add node => .add (projectNode cur node)
  | .remove row => .remove (projectAt cur row)
  | .edit old new => .edit (projectAt cur old) (projectAt cur new)

def projectFlatChange (change : FlatChange) : FlatChange :=
  ⟨(projectPath schema change.path).1, projectOp (projectPath schema change.path).2 change.op⟩

def projectFlatChanges : List FlatChange :=
  changes.map (projectFlatChange schema)

/-! ## Blanked trees -/

mutual

/-- The tree with every cell outside its level's mask blanked. -/
def blankNode (schema : Schema) : RecvNode → RecvNode
  | ⟨row, rc, rels⟩ => ⟨projectAt schema row, rc, blankRels schema 0 rels⟩

@[grind] def blankRels (schema : Schema) (slot : Nat) : List (List RecvNode) → List (List RecvNode)
  | [] => []
  | list :: rest =>
    (match schema.relChild slot with
      | some child => blankNodes child list
      | none => list) :: blankRels schema (slot + 1) rest

@[grind] def blankNodes (schema : Schema) : List RecvNode → List RecvNode
  | [] => []
  | n :: rest => blankNode schema n :: blankNodes schema rest

end

/-- Outside its level's mask every row of the tree is blank. -/
inductive Masked : Schema → RecvNode → Prop
  | mk {schema : Schema} {row : Row} {rc : Nat} {rels : List (List RecvNode)}
      (cells : ∀ keep, keepMask schema = some keep → ∀ i, keep[i]? = some false → row.cell i = .absent)
      (children : ∀ slot child list, schema.relChild slot = some child → rels[slot]? = some list → ∀ n ∈ list, Masked child n) :
      Masked schema ⟨row, rc, rels⟩

/-- The list in a slot, blanked. -/
def blankSlot (slot : Nat) (list : List RecvNode) : List RecvNode :=
  match schema.relChild slot with
  | some child => list.map (blankNode child)
  | none => list

theorem blankNodes_eq : blankNodes schema list = list.map (blankNode schema) := by
  induction list with
  | nil => rfl
  | cons n rest ih => simp only [blankNodes, ih, List.map_cons]

theorem blankRels_eq (rels : List (List RecvNode)) :
    ∀ slot, blankRels schema slot rels = rels.mapIdx fun i list => blankSlot schema (slot + i) list := by
  induction rels with
  | nil => intro slot; rfl
  | cons list rest ih =>
    intro slot
    rw [blankRels, ih, List.mapIdx_cons]
    congr 1
    · unfold blankSlot
      cases schema.relChild (slot + 0) <;> simp [blankNodes_eq]
    · refine congrArg (fun f => rest.mapIdx f) ?_
      funext i l
      rw [Nat.add_right_comm, Nat.add_assoc]

theorem blankNode_eq :
    blankNode schema n = ⟨projectAt schema n.row, n.rc, n.rels.mapIdx (blankSlot schema)⟩ := by
  cases n
  simp only [blankNode, blankRels_eq, Nat.zero_add]

@[simp] theorem blankNode_row : (blankNode schema n).row = projectAt schema n.row := by
  rw [blankNode_eq]

@[simp] theorem blankNode_rc : (blankNode schema n).rc = n.rc := by rw [blankNode_eq]

@[simp] theorem blankNode_rels :
    (blankNode schema n).rels = n.rels.mapIdx (blankSlot schema) := by rw [blankNode_eq]

/-! ## No row is found by a blanked cell -/

theorem foldl_set_true (cs : List Nat) : ∀ (keep : List Bool) (c : Nat), c ∈ cs ∨ keep[c]?.getD true = true →
    (cs.foldl (fun keep c => keep.set c true) keep)[c]?.getD true = true := by
  induction cs with
  | nil =>
    intro keep c h
    exact h.resolve_left List.not_mem_nil
  | cons d cs ih =>
    intro keep c h
    refine ih (keep.set d true) c ?_
    rw [List.getElem?_set]
    by_cases hd : d = c
    · right
      rw [if_pos hd]
      split <;> rfl
    · rw [if_neg hd]
      rcases h with h | h
      · exact Or.inl ((List.mem_cons.mp h).resolve_left fun he => hd he.symm)
      · exact Or.inr h

/-- A sort column is kept. -/
theorem cell_projectAt {schema : Schema} {c : Nat} (hc : c ∈ schema.sort.map (·.1)) (row : Row) :
    (projectAt schema row).cell c = row.cell c := by
  unfold projectAt
  cases hk : keepMask schema with
  | none => rfl
  | some keep =>
    obtain ⟨proj, -, hproj⟩ := Option.map_eq_some_iff.mp hk
    have hkeep : keep[c]?.getD true = true := by
      rw [← hproj]
      exact foldl_set_true _ _ c (Or.inl hc)
    simp only [projectRow, Row.cell, List.getElem?_mapIdx]
    cases row[c]? with
    | none => rfl
    | some v =>
      rw [Option.map_some, if_pos hkeep]

theorem rowCmp_congr {sort : SortSpec} {a b a' b' : Row} (h : ∀ c ∈ sort.map (·.1), a'.cell c = a.cell c ∧ b'.cell c = b.cell c) :
    rowCmp sort a' b' = rowCmp sort a b := by
  induction sort with
  | nil => rfl
  | cons p sort ih =>
    obtain ⟨c, asc⟩ := p
    obtain ⟨ha, hb⟩ := h c List.mem_cons_self
    rw [rowCmp_cons, rowCmp_cons, ih fun c hc => h c (List.mem_cons_of_mem _ hc)]
    cases asc <;> simp only [cellCmp, ha, hb]

theorem rowCmp_projectAt (a b : Row) :
    rowCmp schema.sort (projectAt schema a) (projectAt schema b) = rowCmp schema.sort a b :=
  rowCmp_congr fun _ hc => ⟨cell_projectAt hc a, cell_projectAt hc b⟩

/-- Rows are found where they were. -/
theorem locate_blank (row : Row) :
    Receiver.locate schema.sort (list.map (blankNode schema)) (projectAt schema row) = Receiver.locate schema.sort list row := by
  simp only [Receiver.locate, binarySearchBy_map, blankNode_row, rowCmp_projectAt]

/-! ## One operation -/

open Receiver

theorem mapIdx_set {α β : Type} (f : Nat → α → β) (l : List α) (i : Nat) (x : α) :
    (l.set i x).mapIdx f = (l.mapIdx f).set i (f i x) := by
  refine List.ext_getElem? fun j => ?_
  simp only [List.getElem?_mapIdx, List.getElem?_set, List.length_mapIdx]
  by_cases hij : i = j
  · subst hij
    by_cases hl : i < l.length <;> simp [hl]
  · simp [hij]

@[simp] theorem projectNode_row (node : WireNode) : (projectNode schema node).row = projectAt schema node.row := by
  cases node
  rfl

theorem blank_replicate (n : Nat) : (List.replicate n ([] : List RecvNode)).mapIdx (blankSlot schema) = List.replicate n [] := by
  refine List.ext_getElem? fun j => ?_
  simp only [List.getElem?_mapIdx, List.getElem?_replicate]
  by_cases hj : j < n
  · simp only [hj, if_true, Option.map_some, blankSlot]
    cases schema.relChild j <;> rfl
  · simp [hj]

mutual

theorem buildNode_project (schema : Schema) : ∀ node : WireNode,
    buildNode schema (projectNode schema node) = blankNode schema (buildNode schema node)
  | ⟨row, rels⟩ => by
    have hrels := buildRels_project schema rels (List.replicate schema.relationships.length [])
    rw [blank_replicate] at hrels
    rw [blankNode_eq]
    simp only [projectNode, buildNode, hrels]

theorem buildRels_project (schema : Schema) : ∀ (rels : List (Nat × List WireNode)) (acc : List (List RecvNode)),
    buildRels schema (projectRels schema rels) (acc.mapIdx (blankSlot schema)) = (buildRels schema rels acc).mapIdx (blankSlot schema)
  | [], acc => rfl
  | (slot, children) :: rest, acc => by
    unfold projectRels buildRels
    cases hc : schema.relChild slot with
    | none => exact buildRels_project schema rest acc
    | some child =>
      have hslot : blankSlot schema slot (buildChildren child children []) =
          buildChildren child (projectNodes child children) [] := by
        unfold blankSlot
        rw [hc]
        exact (buildChildren_project child children []).symm
      simp only
      rw [← hslot, ← mapIdx_set]
      exact buildRels_project schema rest _

theorem buildChildren_project (schema : Schema) : ∀ (cs : List WireNode) (built : List RecvNode),
    buildChildren schema (projectNodes schema cs) (built.map (blankNode schema)) =
      (buildChildren schema cs built).map (blankNode schema)
  | [], built => rfl
  | c :: rest, built => by
    unfold projectNodes buildChildren
    rw [projectNode_row, locate_blank]
    cases locate schema.sort built c.row with
    | ok p =>
      simp only
      rw [← buildChildren_project schema rest, @View.map_modify_of _ _ _ _ fun n => { n with rc := n.rc + 1 }]
      intro n
      simp only [blankNode_eq]
    | error ins =>
      simp only
      rw [← buildChildren_project schema rest, List.map_insertIdx, buildNode_project schema c]

end

theorem applyAdd_project (node : WireNode) :
    applyAdd schema (list.map (blankNode schema)) (projectNode schema node) = (applyAdd schema list node).map (blankNode schema) := by
  unfold applyAdd
  rw [projectNode_row, locate_blank]
  cases locate schema.sort list node.row with
  | ok p =>
    refine (View.map_modify_of (fun n => ?_) list p).symm
    simp only [blankNode_eq]
  | error ins => rw [List.map_insertIdx, buildNode_project]

theorem applyRemove_project (row : Row) :
    applyRemove schema (list.map (blankNode schema)) (projectAt schema row) =
      (applyRemove schema list row).map (List.map (blankNode schema)) := by
  unfold applyRemove
  rw [locate_blank]
  cases locate schema.sort list row with
  | error ins => rfl
  | ok p =>
    simp only [List.getElem?_map]
    cases list[p]? with
    | none => rfl
    | some n =>
      simp only [Option.map_some, blankNode_rc]
      by_cases hrc : n.rc = 1
      · rw [if_pos hrc, if_pos hrc, List.eraseIdx_map]
      · rw [if_neg hrc, if_neg hrc]
        refine congrArg some (View.map_modify_of (fun m => ?_) list p).symm
        simp only [blankNode_eq]

theorem editRow_project (p : Nat) (new : Row) :
    (list.map (blankNode schema)).modify p (fun n => { n with row := projectAt schema new }) =
      (list.modify p fun n => { n with row := new }).map (blankNode schema) := by
  refine (View.map_modify_of (fun n => ?_) list p).symm
  simp only [blankNode_eq]

theorem moveRow_project (oldPos : Nat) (oldEntry : RecvNode) (raw : Except Nat Nat)
    (new : Row) : moveRow (list.map (blankNode schema)) oldPos (blankNode schema oldEntry) raw (projectAt schema new) =
      (moveRow list oldPos oldEntry raw new).map (List.map (blankNode schema)) := by
  unfold moveRow
  simp only [blankNode_rc]
  by_cases hfast : oldEntry.rc = 1 ∧ (searchPos raw = oldPos ∨ searchPos raw = oldPos + 1)
  · rw [if_pos hfast, if_pos hfast, editRow_project]
    rfl
  rw [if_neg hfast, if_neg hfast]
  -- the list without the row, or with its ghost
  have hrest : (if oldEntry.rc - 1 = 0 then (list.map (blankNode schema)).eraseIdx oldPos
      else (list.map (blankNode schema)).modify oldPos fun n => { n with rc := oldEntry.rc - 1 }) =
        (if oldEntry.rc - 1 = 0 then list.eraseIdx oldPos
          else list.modify oldPos fun n => { n with rc := oldEntry.rc - 1 }).map (blankNode schema) := by
    split
    · rw [List.eraseIdx_map]
    · refine (View.map_modify_of (fun n => ?_) list oldPos).symm
      simp only [blankNode_eq]
  rw [hrest]
  generalize (if oldEntry.rc - 1 = 0 then list.eraseIdx oldPos
    else list.modify oldPos fun n => { n with rc := oldEntry.rc - 1 }) = rest
  cases raw with
  | ok p =>
    simp only [List.getElem?_map]
    cases rest[if oldEntry.rc - 1 = 0 ∧ oldPos < searchPos (.ok p) then searchPos (.ok p) - 1 else searchPos (.ok p)]? with
    | none => rfl
    | some existing => simp only [Option.map_some, List.map_set, blankNode_eq]
  | error p => simp only [Option.map_some, List.map_insertIdx, blankNode_eq]

theorem applyEdit_project (old new : Row) :
    applyEdit schema (list.map (blankNode schema)) (projectAt schema old) (projectAt schema new) =
      (applyEdit schema list old new).map (List.map (blankNode schema)) := by
  unfold applyEdit
  rw [locate_blank, rowCmp_projectAt, locate_blank]
  cases locate schema.sort list old with
  | error ins => rfl
  | ok p =>
    simp only
    by_cases htie : rowCmp schema.sort old new = .eq
    · rw [if_pos htie, if_pos htie, editRow_project]
      rfl
    · rw [if_neg htie, if_neg htie, List.getElem?_map]
      cases list[p]? with
      | none => rfl
      | some n => exact moveRow_project schema list p n _ new

theorem applyOp_project (op : FlatOp) :
    applyOp schema (list.map (blankNode schema)) (projectOp schema op) = (applyOp schema list op).map (List.map (blankNode schema)) := by
  cases op with
  | add node => exact congrArg some (applyAdd_project schema list node)
  | remove row => exact applyRemove_project schema list row
  | edit old new => exact applyEdit_project schema list old new

/-! ## A change, and a stream -/

theorem applyAt_project (op : FlatOp) (path : List PathSeg) : ∀ (schema : Schema) (list : List RecvNode),
    applyAt schema (list.map (blankNode schema)) (projectOp (projectPath schema path).2 op) (projectPath schema path).1 =
      (applyAt schema list op path).map (List.map (blankNode schema)) := by
  induction path with
  | nil => exact fun schema list => applyOp_project schema list op
  | cons seg rest ih =>
    intro schema list
    unfold projectPath
    cases hc : schema.relChild seg.rel with
    | none =>
      -- a hop out of view drops the change on both sides
      simp only [applyAt, hc, Option.map_some]
    | some child =>
      simp only [applyAt, hc, locate_blank]
      cases locate schema.sort list seg.parentRow with
      | error ins => rfl
      | ok p =>
        simp only [List.getElem?_map]
        cases list[p]? with
        | none => rfl
        | some n =>
          simp only [Option.map_some, blankNode_rels, List.getElem?_mapIdx]
          cases hslot : n.rels[seg.rel]? with
          | none => rfl
          | some slot =>
            have hblank : blankSlot schema seg.rel slot = slot.map (blankNode child) := by
              unfold blankSlot
              rw [hc]
            simp only [Option.map_some]
            rw [hblank, ih child slot, Option.map_map, Option.map_map]
            refine Option.map_congr fun slot' _ => ?_
            have hslot' : blankSlot schema seg.rel slot' = slot'.map (blankNode child) := by
              unfold blankSlot
              rw [hc]
            simp only [Function.comp, List.map_set, blankNode_eq, mapIdx_set, hslot']

/-- The tree a receiver holds, blanked. -/
def blankReceiver (r : Receiver) : Receiver := { r with top := r.top.map (blankNode r.schema) }

theorem apply_project (r : Receiver) (change : FlatChange) :
    (blankReceiver r).apply (projectFlatChange r.schema change) = (r.apply change).map blankReceiver := by
  have h := applyAt_project change.op change.path r.schema r.top
  simp only [Receiver.apply, projectFlatChange, blankReceiver, h, Option.map_map]
  rfl

theorem apply_schema {r r' : Receiver} {change : FlatChange} (h : r.apply change = some r') : r'.schema = r.schema := by
  obtain ⟨top, -, rfl⟩ := Option.map_eq_some_iff.mp h
  rfl

theorem applyAll_schema {changes : List FlatChange} : ∀ {r r' : Receiver}, r.applyAll changes = some r' → r'.schema = r.schema := by
  induction changes with
  | nil =>
    intro r r' h
    rw [← Option.some.inj h]
  | cons change changes ih =>
    intro r r' h
    unfold Receiver.applyAll at h
    rw [List.foldlM_cons] at h
    obtain ⟨r1, h1, h2⟩ := Option.bind_eq_some_iff.mp h
    exact (ih h2).trans (apply_schema h1)

theorem applyAll_project : ∀ r : Receiver,
    (blankReceiver r).applyAll (projectFlatChanges changes r.schema) = (r.applyAll changes).map blankReceiver := by
  induction changes with
  | nil => exact fun r => rfl
  | cons change changes ih =>
    intro r
    unfold Receiver.applyAll projectFlatChanges
    rw [List.map_cons, List.foldlM_cons, List.foldlM_cons, apply_project]
    cases h : r.apply change with
    | none => rfl
    | some r' =>
      have hrest := ih r'
      rw [apply_schema h] at hrest
      exact hrest

theorem projectAt_masked {schema : Schema} {keep : List Bool} (hk : keepMask schema = some keep) {i : Nat}
    (hi : keep[i]? = some false) (row : Row) : (projectAt schema row).cell i = .absent := by
  unfold projectAt
  rw [hk]
  simp only [projectRow, Row.cell, List.getElem?_mapIdx, hi]
  cases row[i]? <;> rfl

mutual

theorem blankNode_masked : ∀ (n : RecvNode) (schema : Schema), Masked schema (blankNode schema n)
  | ⟨row, rc, rels⟩, schema => by
    unfold blankNode
    refine .mk (fun keep hk i hi => projectAt_masked hk hi row) ?_
    intro slot child list hc hl
    exact blankRels_masked rels schema 0 slot child list ((Nat.zero_add slot).symm ▸ hc) hl

theorem blankRels_masked : ∀ (rels : List (List RecvNode)) (schema : Schema) (k slot : Nat) (child : Schema) (list : List RecvNode),
    schema.relChild (k + slot) = some child → (blankRels schema k rels)[slot]? = some list → ∀ n ∈ list, Masked child n
  | [], _, _, _, _, _, _, hl => by simp [blankRels] at hl
  | first :: rest, schema, k, slot, child, list, hc, hl => by
    unfold blankRels at hl
    cases slot with
    | zero =>
      have hc : schema.relChild k = some child := hc
      rw [hc] at hl
      obtain rfl : blankNodes child first = list := Option.some.inj hl
      exact blankNodes_masked first child
    | succ slot =>
      refine blankRels_masked rest schema (k + 1) slot child list ?_ hl
      rw [Nat.add_right_comm]
      exact hc

theorem blankNodes_masked : ∀ (list : List RecvNode) (schema : Schema), ∀ n ∈ blankNodes schema list, Masked schema n
  | [], _, n, hn => by simp [blankNodes] at hn
  | m :: rest, schema, n, hn => by
    unfold blankNodes at hn
    rcases List.mem_cons.mp hn with rfl | hn
    · exact blankNode_masked m schema
    · exact blankNodes_masked rest schema n hn

end

/-- Folding the projected stream is folding the stream and blanking the tree, outside each level's
    mask: the projected stream is accepted whenever the stream is, and nothing outside a mask appears. -/
theorem project_commutes (schema : Schema) (changes : List FlatChange) :
    (Receiver.new schema).applyAll (projectFlatChanges changes schema) =
        ((Receiver.new schema).applyAll changes).map (fun r => { r with top := r.top.map (blankNode schema) }) ∧
      ∀ r, (Receiver.new schema).applyAll (projectFlatChanges changes schema) = some r → ∀ n ∈ r.top, Masked schema n := by
  have hfold := applyAll_project changes (Receiver.new schema)
  refine ⟨?_, ?_⟩
  · refine Eq.trans hfold (Option.map_congr fun r hr => ?_)
    simp only [blankReceiver, applyAll_schema hr]
    rfl
  · intro r hr n hn
    rw [show (Receiver.new schema).applyAll (projectFlatChanges changes schema) = _ from hfold] at hr
    obtain ⟨r', hr', rfl⟩ := Option.map_eq_some_iff.mp hr
    obtain ⟨m, -, rfl⟩ := List.mem_map.mp hn
    rw [applyAll_schema hr']
    exact blankNode_masked m schema

end Rindle.Wasm
