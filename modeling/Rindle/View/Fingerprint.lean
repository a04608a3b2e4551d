/-
  Rindle.View.Fingerprint — what the schema fingerprint hashes (`schema_fp` of
  `rust/src/wire_schema.rs`), and the wire form there and back.

  `levelBytes` is the stream that `hash_level` feeds to the hash, piece by piece
  (`hashLevel_eq`); `none` is its panic. No level has an end marker: that a stream can be read
  back follows from the counts before the lists, the lengths before the names and the flags,
  level by level (`level_delimits`). So two schemas a view can have write one stream exactly if
  they differ at most in the identities of their projections, and each of them is the wire form
  of what it is read as (`fingerprint_framing`).
-/

import Rindle.Lib.Framing
import Rindle.View.Schema

set_option linter.dupNamespace false

namespace Rindle

open Framing

/-! ## The stream -/

variable (ws : WireSchema) (columns : List String)

/-- A column's name, through its index. -/
def columnBytes (c : UInt32) : Option (List UInt8) := columns[c.toNat]?.map strBytes

def sortBytes (p : UInt32 × Bool) : Option (List UInt8) :=
  cat (columnBytes columns p.1) (some [p.2.toUInt8])

def projectBytes : Option WireProjection → Option (List UInt8)
  | some p => cat (some [1]) (columnBytes columns p.col)
  | none => some [0]

mutual

/-- `hash_level`. -/
def levelBytes : WireSchema → Option (List UInt8)
  | ⟨columns, primaryKey, sort, singular, relationships⟩ =>
    cat (some [83]) <|
    cat (counted (fun c => some (strBytes c)) columns) <|
    cat (counted (columnBytes columns) primaryKey) <|
    cat (counted (sortBytes columns) sort) <|
    cat (some [singular.toUInt8]) <|
    cat (some (u32Bytes relationships.length.toUInt32)) (relsBytes relationships)

@[grind] def relsBytes : List (WireRel WireSchema) → Option (List UInt8)
  | [] => some []
  | ⟨name, _, child, project⟩ :: rest => cat (cat (some (strBytes name)) (childBytes project child)) (relsBytes rest)

@[grind] def childBytes (project : Option WireProjection) : Option WireSchema → Option (List UInt8)
  | some child => cat (some [1]) (cat (levelBytes child) (projectBytes child.columns project))
  | none => some [0]

end

def relBytes (r : WireRel WireSchema) : Option (List UInt8) := cat (some (strBytes r.name)) (childBytes r.project r.child)

theorem relsBytes_eq (rels : List (WireRel WireSchema)) : relsBytes rels = concat relBytes rels := by
  induction rels with
  | nil => rfl
  | cons r rest ih => rw [relsBytes, ih, concat, relBytes]

theorem levelBytes_eq : levelBytes ws =
    cat (some [83]) (cat (counted (fun c => some (strBytes c)) ws.columns) (cat (counted (columnBytes ws.columns) ws.primaryKey)
      (cat (counted (sortBytes ws.columns) ws.sort) (cat (some [ws.singular.toUInt8]) (counted relBytes ws.relationships))))) := by
  obtain ⟨columns, primaryKey, sort, singular, relationships⟩ := ws
  rw [levelBytes, relsBytes_eq]
  rfl

/-- What holds of a schema if it holds of its children's. -/
theorem WireSchema.induct {motive : WireSchema → Prop}
    (level : ∀ ws, (∀ r ∈ ws.relationships, ∀ child ∈ r.child, motive child) → motive ws) : ∀ ws, motive ws := by
  intro ws
  refine level ws fun r hr child hchild => ?_
  have hlt : sizeOf child < sizeOf ws := by
    obtain ⟨columns, primaryKey, sort, singular, relationships⟩ := ws
    obtain ⟨name, slot, child', project⟩ := r
    obtain rfl : child' = some child := hchild
    have hmem := List.sizeOf_lt_of_mem hr
    simp only [WireSchema.mk.sizeOf_spec, WireRel.mk.sizeOf_spec, Option.some.sizeOf_spec] at hmem ⊢
    omega
  exact WireSchema.induct level child
termination_by ws => sizeOf ws

/-! ## The hash of the stream -/

/-- A hash after a stream. -/
def Fnv.feed (h : UInt64) (x : Option (List UInt8)) : Option UInt64 := x.map (Fnv.bytes h)

namespace Fnv

variable (columns : List String) (h : UInt64)

theorem feed_cat (x y : Option (List UInt8)) : feed h (cat x y) = (feed h x).bind fun h => feed h y := by
  cases x with
  | none => rfl
  | some a =>
    cases y with
    | none => rfl
    | some b => exact congrArg some List.foldl_append

theorem feed_u32 (v : UInt32) : feed h (some (u32Bytes v)) = some (u32 h v) := by
  simp only [feed, Option.map_some, u32, u32Bytes]

theorem feed_byte (b : UInt8) : feed h (some [b]) = some (byte h b) := rfl

theorem feed_str (s : String) : feed h (some (strBytes s)) = some (str h s) := by
  simp only [feed, Option.map_some, str, bytes, strBytes, List.foldl_append, u32, u32Bytes, utf8]

theorem feed_column (c : UInt32) : feed h (columnBytes columns c) = column columns h c := by
  rw [columnBytes, column]
  cases columns[c.toNat]? with
  | none => rfl
  | some s => exact feed_str h s

theorem feed_sort (p : UInt32 × Bool) :
    feed h (sortBytes columns p) = (column columns h p.1).map (byte · p.2.toUInt8) := by
  rw [sortBytes, feed_cat, feed_column]
  simp only [feed_byte, Option.map_eq_bind]
  rfl

theorem feed_counted {α : Type} {code : α → Option (List UInt8)} {put : UInt64 → α → Option UInt64}
    (hput : ∀ h a, put h a = feed h (code a)) (h : UInt64) (as : List α) :
    feed h (counted code as) = as.foldlM put (u32 h as.length.toUInt32) := by
  rw [counted, feed_cat, feed_u32, foldlM_concat hput]
  rfl

/-- The columns' names, which are all there. -/
theorem feed_columns (columns : List String) :
    feed h (counted (fun c => some (strBytes c)) columns) = some (columns.foldl str (u32 h columns.length.toUInt32)) := by
  rw [feed_counted fun h s => (feed_str h s).symm]
  exact List.foldlM_pure

end Fnv

theorem hashRels_eq (rels : List (WireRel WireSchema))
    (ih : ∀ r ∈ rels, ∀ child ∈ r.child, ∀ h, hashLevel h child = Fnv.feed h (levelBytes child)) :
    ∀ h, hashRels h rels = Fnv.feed h (relsBytes rels) := by
  induction rels with
  | nil => intro h; rfl
  | cons r rest ihrest =>
    intro h
    obtain ⟨name, slot, child, project⟩ := r
    have hrest := ihrest fun r hr => ih r (List.mem_cons_of_mem _ hr)
    have hchild : hashChild (Fnv.str h name) project child = Fnv.feed (Fnv.str h name) (childBytes project child) := by
      cases child with
      | none => rw [hashChild, childBytes, Fnv.feed_byte]
      | some child =>
        rw [hashChild, childBytes, Fnv.feed_cat, ih _ List.mem_cons_self child rfl]
        rw [Fnv.feed_byte, Option.bind_some, Fnv.feed_cat]
        congr 1
        funext h
        cases project with
        | none => exact (Fnv.feed_byte h 0).symm
        | some p => rw [projectBytes, Fnv.feed_cat, Fnv.feed_byte, Option.bind_some, Fnv.feed_column]
    rw [hashRels, relsBytes, Fnv.feed_cat, Fnv.feed_cat, Fnv.feed_str, Option.bind_some, ← hchild]
    congr 1
    funext h
    exact hrest h

/-- `hash_level` hashes the stream. -/
theorem hashLevel_eq : ∀ h, hashLevel h ws = Fnv.feed h (levelBytes ws) := by
  induction ws using WireSchema.induct with
  | level ws ih =>
    intro h
    obtain ⟨columns, primaryKey, sort, singular, relationships⟩ := ws
    have hkey := fun h => Fnv.feed_counted (fun h c => (Fnv.feed_column columns h c).symm) h primaryKey
    have hsort := fun h => Fnv.feed_counted (fun h p => (Fnv.feed_sort columns h p).symm) h sort
    simp only [hashLevel, levelBytes, Fnv.feed_cat, Fnv.feed_columns, hkey, hsort, hashRels_eq relationships ih, Option.bind_some,
      Option.bind_eq_bind, Fnv.feed_byte, Fnv.feed_u32]

/-! ## Well-formed schemas -/

namespace WireSchema

mutual

/-- The schema with its projections' identities forgotten. -/
def bare : WireSchema → WireSchema
  | ⟨columns, primaryKey, sort, singular, relationships⟩ =>
    ⟨columns, primaryKey, sort, singular, bareRels relationships⟩

def bareRels : List (WireRel WireSchema) → List (WireRel WireSchema)
  | [] => []
  | ⟨name, slot, child, project⟩ :: rest =>
    ⟨name, slot, bareChild child, project.map fun p => { p with identity := .null }⟩ :: bareRels rest

def bareChild : Option WireSchema → Option WireSchema
  | none => none
  | some child => some (bare child)

end

/-- What a level has of its own. -/
structure Level (ws : WireSchema) : Prop where
  distinct : ws.columns.Nodup
  width : ws.columns.length < 2 ^ 32
  names : ∀ c ∈ ws.columns, c.utf8ByteSize < 2 ^ 32
  keys : ws.primaryKey.length < 2 ^ 32
  key : ∀ c ∈ ws.primaryKey, c.toNat < ws.columns.length
  sorts : ws.sort.length < 2 ^ 32
  sort : ∀ p ∈ ws.sort, p.1.toNat < ws.columns.length
  rels : ws.relationships.length < 2 ^ 32
  relNames : ∀ r ∈ ws.relationships, r.name.utf8ByteSize < 2 ^ 32
  slots : ∀ (i : Nat) (r : WireRel WireSchema), ws.relationships[i]? = some r → r.slot.toNat = i
  inView : ∀ r ∈ ws.relationships, r.child = none → r.project = none
  projected : ∀ r ∈ ws.relationships, ∀ child ∈ r.child, ∀ p ∈ r.project, p.col.toNat < child.columns.length

inductive WellFormed : WireSchema → Prop
  | mk {ws : WireSchema} (level : ws.Level) (children : ∀ r ∈ ws.relationships, ∀ child ∈ r.child, WellFormed child) :
    WellFormed ws

end WireSchema

theorem WireSchema.WellFormed.level {ws : WireSchema} (h : ws.WellFormed) : ws.Level := by
  cases h
  assumption

/-! ## One stream, one schema -/

/-- A column of a list without repetitions, through its name. -/
theorem delimits_column {columns : List String} (hd : columns.Nodup) (hn : ∀ c ∈ columns, c.utf8ByteSize < 2 ^ 32) (c d : UInt32) :
    Delimits (columnBytes columns c) (columnBytes columns d) (c = d) := by
  intro x y r s hx hy he
  obtain ⟨m, hm, rfl⟩ := Option.map_eq_some_iff.mp hx
  obtain ⟨n, hn', rfl⟩ := Option.map_eq_some_iff.mp hy
  obtain ⟨rfl, hr⟩ := delimits_str (hn m (List.mem_of_getElem? hm)) (hn n (List.mem_of_getElem? hn')) rfl rfl he
  have hlt := (List.getElem?_eq_some_iff.mp hm).1
  exact ⟨UInt32.toNat_inj.mp ((List.getElem?_inj hlt hd).mp (hm.trans hn'.symm)), hr⟩

theorem toUInt8_inj {a b : Bool} (h : a.toUInt8 = b.toUInt8) : a = b := by
  revert a b
  decide

theorem delimits_sort {columns : List String} (hd : columns.Nodup) (hn : ∀ c ∈ columns, c.utf8ByteSize < 2 ^ 32)
    (p q : UInt32 × Bool) : Delimits (sortBytes columns p) (sortBytes columns q) (p = q) := by
  have hflag : Delimits (some [p.2.toUInt8]) (some [q.2.toUInt8]) (p.2 = q.2) := by
    exact .fixed rfl fun h => toUInt8_inj (List.cons.inj h).1
  exact ((delimits_column hd hn p.1 q.1).cat fun _ => hflag).mono fun h => Prod.ext h.1 h.2

theorem delimits_project {columns : List String} (hd : columns.Nodup) (hn : ∀ c ∈ columns, c.utf8ByteSize < 2 ^ 32)
    (p q : Option WireProjection) :
    Delimits (projectBytes columns p) (projectBytes columns q) (p.map (·.col) = q.map (·.col)) := by
  cases p with
  | none =>
    cases q with
    | none => exact (Delimits.same [0]).mono fun _ => rfl
    | some q => exact .differ (by decide) (head_single 0) (head_cat (head_single 1) _)
  | some p =>
    cases q with
    | none => exact .differ (by decide) (head_cat (head_single 1) _) (head_single 0)
    | some q => exact ((Delimits.same [1]).cat fun _ => delimits_column hd hn p.col q.col).mono fun h => congrArg some h.2

namespace WireSchema

def bareRel (r : WireRel WireSchema) : WireRel WireSchema :=
  ⟨r.name, r.slot, r.child.map bare, r.project.map fun p => { p with identity := .null }⟩

theorem bareRels_eq (rels : List (WireRel WireSchema)) : bareRels rels = rels.map bareRel := by
  induction rels with
  | nil => rfl
  | cons r rest ih =>
    obtain ⟨name, slot, child, project⟩ := r
    rw [bareRels, ih, List.map_cons, bareRel]
    cases child <;> rfl

theorem bare_eq (ws : WireSchema) :
    ws.bare = ⟨ws.columns, ws.primaryKey, ws.sort, ws.singular, ws.relationships.map bareRel⟩ := by
  obtain ⟨columns, primaryKey, sort, singular, relationships⟩ := ws
  rw [bare, bareRels_eq]

@[simp] theorem bare_columns (ws : WireSchema) : ws.bare.columns = ws.columns := by rw [bare_eq]

end WireSchema

open WireSchema

/-- One name and one child, and one column projected, whatever the slots and the identities. -/
def SameRel (r r' : WireRel WireSchema) : Prop :=
  r.name = r'.name ∧ r.child.map bare = r'.child.map bare ∧ r.project.map (·.col) = r'.project.map (·.col)

theorem delimits_child {r r' : WireRel WireSchema} (hr : r.child = none → r.project = none)
    (hr' : r'.child = none → r'.project = none) (hlevel : ∀ c ∈ r.child, c.Level)
    (ih : ∀ c ∈ r.child, ∀ c' ∈ r'.child, Delimits (levelBytes c) (levelBytes c') (c.bare = c'.bare)) :
    Delimits (childBytes r.project r.child) (childBytes r'.project r'.child)
      (r.child.map bare = r'.child.map bare ∧ r.project.map (·.col) = r'.project.map (·.col)) := by
  cases hc : r.child with
  | none =>
    cases hc' : r'.child with
    | none =>
      rw [hr hc, hr' hc']
      exact (Delimits.same [0]).mono fun _ => ⟨rfl, rfl⟩
    | some c' => exact .differ (by decide) (head_single 0) (head_cat (head_single 1) _)
  | some c =>
    cases hc' : r'.child with
    | none => exact .differ (by decide) (head_cat (head_single 1) _) (head_single 0)
    | some c' =>
      have hl := hlevel c hc
      refine ((Delimits.same [1]).cat fun _ => (ih c hc c' hc').cat fun hbare => ?_).mono fun h =>
        ⟨congrArg some h.2.1, h.2.2⟩
      have hcols : c.columns = c'.columns := by rw [← bare_columns c, hbare, bare_columns]
      rw [← hcols]
      exact delimits_project hl.distinct hl.names r.project r'.project

/-- Relationships at their own positions. -/
theorem bareRels_of_same {v w : WireSchema} (hv : v.Level) (hw : w.Level)
    (h : List.Forall₂ SameRel v.relationships w.relationships) : v.relationships.map bareRel = w.relationships.map bareRel := by
  have hlen := h.length_eq
  refine List.ext_getElem (by simpa using hlen) fun i hi hi' => ?_
  rw [List.length_map] at hi hi'
  have hvi : v.relationships[i]? = some v.relationships[i] := List.getElem?_eq_getElem hi
  have hwi : w.relationships[i]? = some w.relationships[i] := List.getElem?_eq_getElem hi'
  obtain ⟨hname, hchild, hproject⟩ := List.forall₂_iff_get.mp h |>.2 i hi hi'
  simp only [List.get_eq_getElem] at hname hchild hproject
  have hslot : v.relationships[i].slot = w.relationships[i].slot :=
    UInt32.toNat_inj.mp ((hv.slots i _ hvi).trans (hw.slots i _ hwi).symm)
  rw [List.getElem_map, List.getElem_map, bareRel, bareRel, hname, hslot, hchild]
  congr 1
  -- the columns are one, and the identities are forgotten
  have hbare : ∀ p : Option WireProjection, (p.map fun p => { p with identity := .null }) =
      (p.map (·.col)).map fun col => (⟨col, .null⟩ : WireProjection) := by
    intro p
    cases p <;> rfl
  rw [hbare, hbare, hproject]

theorem level_delimits {v : WireSchema} (hv : v.WellFormed) :
    ∀ {w : WireSchema}, w.WellFormed → Delimits (levelBytes v) (levelBytes w) (v.bare = w.bare) := by
  induction hv with
  | @mk v hl hchildren ih =>
    intro w hw
    obtain ⟨hl', hchildren'⟩ := hw
    have hcolumns : Delimits (counted (fun c => some (strBytes c)) v.columns) (counted (fun c => some (strBytes c)) w.columns)
        (v.columns = w.columns) :=
      .countedEq hl.width hl'.width rfl fun a ha b hb => delimits_str (hl.names a ha) (hl'.names b hb)
    have hkey : v.columns = w.columns → Delimits (counted (columnBytes v.columns) v.primaryKey)
        (counted (columnBytes w.columns) w.primaryKey) (v.primaryKey = w.primaryKey) :=
      fun hc => .countedEq hl.keys hl'.keys (by rw [hc]) fun a _ b _ => delimits_column hl.distinct hl.names a b
    have hsort : v.columns = w.columns → Delimits (counted (sortBytes v.columns) v.sort) (counted (sortBytes w.columns) w.sort)
        (v.sort = w.sort) :=
      fun hc => .countedEq hl.sorts hl'.sorts (by rw [hc]) fun a _ b _ => delimits_sort hl.distinct hl.names a b
    have hsingular : Delimits (some [v.singular.toUInt8]) (some [w.singular.toUInt8]) (v.singular = w.singular) :=
      .fixed rfl fun h => toUInt8_inj (List.cons.inj h).1
    have hrels : Delimits (counted relBytes v.relationships) (counted relBytes w.relationships)
        (List.Forall₂ SameRel v.relationships w.relationships) := by
      refine Delimits.counted hl.rels hl'.rels fun _ r hr r' hr' => ?_
      refine (delimits_str (hl.relNames r hr) (hl'.relNames r' hr')).cat fun _ => ?_
      exact delimits_child (hl.inView r hr) (hl'.inView r' hr') (fun c hc => (hchildren r hr c hc).level)
        fun c hc c' hc' => ih r hr c hc (hchildren' r' hr' c' hc')
    rw [levelBytes_eq, levelBytes_eq]
    refine ((Delimits.same [83]).cat fun _ => hcolumns.cat fun hc => (hkey hc).cat fun _ => (hsort hc).cat fun _ =>
      hsingular.cat fun _ => hrels).mono ?_
    rintro ⟨-, hc, hk, hs, hg, hr⟩
    rw [bare_eq, bare_eq, hc, hk, hs, hg, bareRels_of_same hl hl' hr]

/-! ## One schema, one stream -/

theorem projectBytes_isSome {columns : List String} {project : Option WireProjection}
    (h : ∀ p ∈ project, p.col.toNat < columns.length) : (projectBytes columns project).isSome := by
  cases project with
  | none => rfl
  | some p =>
    refine cat_isSome rfl ?_
    rw [columnBytes, Option.isSome_map, List.getElem?_eq_getElem (h p rfl)]
    rfl

/-- The hash of a well-formed schema does not panic. -/
theorem levelBytes_isSome {ws : WireSchema} (hw : ws.WellFormed) : (levelBytes ws).isSome := by
  induction hw with
  | @mk ws hl _ ih =>
    have hcolumn : ∀ c : UInt32, c.toNat < ws.columns.length → (columnBytes ws.columns c).isSome := by
      intro c hc
      rw [columnBytes, Option.isSome_map, List.getElem?_eq_getElem hc]
      rfl
    have hrel : ∀ r ∈ ws.relationships, (relBytes r).isSome := by
      intro r hr
      refine cat_isSome rfl ?_
      cases hchild : r.child with
      | none => rfl
      | some child => exact cat_isSome rfl (cat_isSome (ih r hr child hchild) (projectBytes_isSome (hl.projected r hr child hchild)))
    rw [levelBytes_eq]
    exact cat_isSome rfl <| cat_isSome (cat_isSome rfl (concat_isSome fun _ _ => rfl)) <|
      cat_isSome (cat_isSome rfl (concat_isSome fun c hc => hcolumn c (hl.key c hc))) <|
      cat_isSome (cat_isSome rfl (concat_isSome fun p hp => cat_isSome (hcolumn p.1 (hl.sort p hp)) rfl)) <|
      cat_isSome rfl (cat_isSome rfl (concat_isSome hrel))

theorem projectBytes_bare (project : Option WireProjection) :
    projectBytes columns (project.map fun p => { p with identity := .null }) = projectBytes columns project := by
  cases project <;> rfl

/-- The identities are not hashed. -/
theorem levelBytes_bare : levelBytes ws.bare = levelBytes ws := by
  induction ws using WireSchema.induct with
  | level ws ih =>
    have hrel : ∀ r ∈ ws.relationships, relBytes (bareRel r) = relBytes r := by
      intro r hr
      rw [relBytes, relBytes, bareRel]
      cases hchild : r.child with
      | none => rfl
      | some child =>
        simp only [Option.map_some, childBytes, ih r hr child hchild, bare_columns, projectBytes_bare]
    rw [bare_eq, levelBytes_eq, levelBytes_eq]
    simp only [counted, List.length_map, concat_map, concat_congr hrel]

/-! ## The wire form, there and back -/

theorem toUInt32_toNat (c : UInt32) : c.toNat.toUInt32 = c := by rw [Nat.toUInt32_eq, UInt32.ofNat_toNat]

theorem toWireRels_toRelDefs : ∀ (rels : List (WireRel WireSchema)) (slot : Nat),
    (∀ (i : Nat) (r : WireRel WireSchema), rels[i]? = some r → r.slot.toNat = slot + i) →
    (∀ r ∈ rels, r.child = none → r.project = none) → (∀ r ∈ rels, ∀ child ∈ r.child, toWire (toSchema child) = child) →
    toWireRels slot (toRelDefs rels) = rels := by
  intro rels
  induction rels with
  | nil => intro slot _ _ _; rfl
  | cons r rest ih =>
    intro slot hslots hview hchildren
    have hrest := ih (slot + 1) (fun i r hr => by rw [hslots (i + 1) r hr]; omega)
      (fun r hr => hview r (List.mem_cons_of_mem _ hr)) fun r hr => hchildren r (List.mem_cons_of_mem _ hr)
    have hslot := hslots 0 r rfl
    obtain ⟨name, s, child, project⟩ := r
    obtain rfl : s.toNat = slot := hslot
    cases child with
    | none =>
      obtain rfl : project = none := hview _ List.mem_cons_self rfl
      simp only [toRelDefs, toRelDef, RelDef.new, toWireRels, toWireChild, Option.map_none, toUInt32_toNat, hrest]
    | some child =>
      have hchild : toWire (toSchema child) = child := hchildren _ List.mem_cons_self child rfl
      cases project with
      | none =>
        simp only [toRelDefs, toRelDef, RelDef.related, toWireRels, toWireChild, Option.map_none, toUInt32_toNat, hrest, hchild]
      | some p =>
        simp only [toRelDefs, toRelDef, RelDef.related, RelDef.projectScalar, toWireRels, toWireChild, Option.map_some,
          toUInt32_toNat, hrest, hchild]

theorem toWire_toSchema {ws : WireSchema} (hw : ws.WellFormed) : toWire (toSchema ws) = ws := by
  induction hw with
  | @mk ws hl _ ih =>
    obtain ⟨columns, primaryKey, sort, singular, relationships⟩ := ws
    have hrels := toWireRels_toRelDefs relationships 0 (fun i r hr => by rw [hl.slots i r hr, Nat.zero_add]) hl.inView ih
    have hkey : (primaryKey.map (·.toNat)).map (·.toUInt32) = primaryKey := by
      simp only [List.map_map, Function.comp_def, toUInt32_toNat, List.map_id_fun', id]
    have hsort : (sort.map fun p => (p.1.toNat, p.2)).map (fun p => (p.1.toUInt32, p.2)) = sort := by
      simp only [List.map_map, Function.comp_def, toUInt32_toNat, List.map_id_fun', id]
    simp only [toSchema, toWire, hkey, hsort, hrels]

/-- The streams of two well-formed schemas are one exactly if the schemas are, up to the identities
    of their projections; the fingerprint is the hash of the stream; and each is the wire form of
    what it is read as. -/
theorem fingerprint_framing {v w : WireSchema} (hv : v.WellFormed) (hw : w.WellFormed) :
    (∃ x y, levelBytes v = some x ∧ levelBytes w = some y ∧ (x = y ↔ v.bare = w.bare)) ∧
    (∀ h, hashLevel h v = (levelBytes v).map (Fnv.bytes h)) ∧ toWire (toSchema v) = v := by
  refine ⟨?_, hashLevel_eq v, toWire_toSchema hv⟩
  obtain ⟨x, hx⟩ := Option.isSome_iff_exists.mp (levelBytes_isSome hv)
  obtain ⟨y, hy⟩ := Option.isSome_iff_exists.mp (levelBytes_isSome hw)
  refine ⟨x, y, hx, hy, fun h => ?_, fun h => ?_⟩
  · exact (level_delimits hv hw hx hy (congrArg (· ++ []) h)).1
  · have hbytes : levelBytes v = levelBytes w := by rw [← levelBytes_bare v, h, levelBytes_bare w]
    exact Option.some.inj (hx.symm.trans (hbytes.trans hy))

/-- Two schemas with a gate and a projected aggregate, of other identities. -/
theorem fingerprint_framing_identities :
    let ws : Value → WireSchema := fun identity =>
      { columns := ["id", "name"], primaryKey := [0], sort := [(1, false), (0, true)], singular := false,
        relationships := [⟨"gate", 0, none, none⟩,
          ⟨"total", 1, some ⟨["id", "sum"], [0], [(0, true)], true, []⟩, some ⟨1, identity⟩⟩] }
    (∃ x y, levelBytes (ws .null) = some x ∧ levelBytes (ws (.bool false)) = some y ∧ x = y) ∧
      toWire (toSchema (ws .null)) = ws .null := by
  intro ws
  have hchild : WireSchema.WellFormed ⟨["id", "sum"], [0], [(0, true)], true, []⟩ :=
    ⟨⟨by decide, by decide, by decide, by decide, by simp, by decide, by simp, by decide, by simp, by simp, by simp, by simp⟩,
      by simp⟩
  have hws : ∀ identity, (ws identity).WellFormed := by
    intro identity
    refine ⟨⟨by simp [ws], by simp [ws], by simp only [ws]; decide, by simp [ws], by simp [ws], by simp [ws], by simp [ws],
      by simp [ws], ?_, ?_, ?_, ?_⟩, ?_⟩
    · simp only [ws, List.mem_cons, List.not_mem_nil, or_false, forall_eq_or_imp, forall_eq]
      decide
    · intro i r hr
      rcases i with _ | _ | i <;> cases hr <;> rfl
    · simp [ws]
    · simp [ws]
    · simp only [ws, List.mem_cons, List.not_mem_nil, or_false, forall_eq_or_imp, forall_eq]
      refine ⟨fun child hc => (by cases hc), fun child hc => ?_⟩
      cases hc
      exact hchild
  obtain ⟨⟨x, y, hx, hy, hiff⟩, -, hwire⟩ := fingerprint_framing (hws .null) (hws (.bool false))
  exact ⟨⟨x, y, hx, hy, hiff.mpr rfl⟩, hwire⟩

end Rindle
