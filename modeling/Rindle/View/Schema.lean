/-
  Rindle.View.Schema — the hierarchical view schema (`rust/src/value.rs`), its wire form and
  its fingerprint (`rust/src/wire_schema.rs`).

  A relationship is a slot, its position in `relationships`. A slot with a child schema is in
  the view; one without is join-only: a gate that an EXISTS leaves behind.

  The fingerprint is FNV-1a 64 over a length-prefixed byte stream. A key or a sort column
  outside `columns` makes it panic (`none`).
-/

import Rindle.Row

set_option linter.dupNamespace false

namespace Rindle

/-! ## Schemas -/

structure ScalarProjection where
  col : Nat
  identity : Value

structure RelDef (σ : Type) where
  name : String
  child : Option σ
  project : Option ScalarProjection

/-- `Schema`, less the column types: no function of the view or of the wire reads them. `projection` is the
    columns the view reports, all of them without one. -/
structure Schema where
  columns : List String
  primaryKey : List Nat
  sort : SortSpec
  relationships : List (RelDef Schema)
  singular : Bool
  projection : Option (List Nat) := none

namespace Schema

def new (columns : List String) (primaryKey : List Nat) (sort : SortSpec) : Schema :=
  { columns, primaryKey, sort, relationships := [], singular := false }

def withRelationships (s : Schema) (relationships : List (RelDef Schema)) : Schema :=
  { s with relationships := relationships }

/-- `rel_child`: the child level of a slot in the view. -/
def relChild (s : Schema) (slot : Nat) : Option Schema := s.relationships[slot]?.bind (·.child)

theorem relChild_lt {s c : Schema} {slot : Nat} (h : s.relChild slot = some c) : slot < s.relationships.length := by
  obtain ⟨rd, hrd, -⟩ := Option.bind_eq_some_iff.mp h
  exact (List.getElem?_eq_some_iff.mp hrd).1

end Schema

namespace RelDef

/-- `RelDef::new`: join-only. -/
def new (name : String) : RelDef Schema := { name, child := none, project := none }

def related (name : String) (child : Schema) : RelDef Schema := { name, child := some child, project := none }

def projectScalar (rd : RelDef Schema) (col : Nat) (identity : Value) : RelDef Schema :=
  { rd with project := some { col, identity } }

end RelDef

/-! ## The wire form -/

structure WireProjection where
  col : UInt32
  identity : Value

structure WireRel (σ : Type) where
  name : String
  slot : UInt32
  child : Option σ
  project : Option WireProjection

structure WireSchema where
  columns : List String
  primaryKey : List UInt32
  sort : List (UInt32 × Bool)
  singular : Bool
  relationships : List (WireRel WireSchema)

/-- `COMPARATOR_VERSION`. -/
def comparatorVersion : UInt32 := 2

mutual

def toWire : Schema → WireSchema
  | ⟨columns, primaryKey, sort, relationships, singular, _⟩ =>
    { columns
      primaryKey := primaryKey.map (·.toUInt32)
      sort := sort.map fun p => (p.1.toUInt32, p.2)
      singular
      relationships := toWireRels 0 relationships }

def toWireRels (slot : Nat) : List (RelDef Schema) → List (WireRel WireSchema)
  | [] => []
  | ⟨name, child, project⟩ :: rest =>
    { name
      slot := slot.toUInt32
      child := toWireChild child
      project := project.map fun p => { col := p.col.toUInt32, identity := p.identity } } ::
    toWireRels (slot + 1) rest

def toWireChild : Option Schema → Option WireSchema
  | none => none
  | some s => some (toWire s)

end

mutual

def toSchema : WireSchema → Schema
  | ⟨columns, primaryKey, sort, singular, relationships⟩ =>
    { columns
      primaryKey := primaryKey.map (·.toNat)
      sort := sort.map fun p => (p.1.toNat, p.2)
      relationships := toRelDefs relationships
      singular }

def toRelDefs : List (WireRel WireSchema) → List (RelDef Schema)
  | [] => []
  | ⟨name, _, child, project⟩ :: rest => toRelDef name project child :: toRelDefs rest

def toRelDef (name : String) (project : Option WireProjection) : Option WireSchema → RelDef Schema
  | none => .new name
  | some child =>
    match project with
    | some p => (RelDef.related name (toSchema child)).projectScalar p.col.toNat p.identity
    | none => .related name (toSchema child)

end

/-! ## The fingerprint -/

namespace Fnv

def offsetBasis : UInt64 := 0xcbf29ce484222325

def byte (h : UInt64) (b : UInt8) : UInt64 := (h ^^^ b.toUInt64) * 0x100000001b3

def bytes (h : UInt64) (bs : List UInt8) : UInt64 := bs.foldl byte h

/-- `to_le_bytes`. -/
def u32 (h : UInt64) (v : UInt32) : UInt64 :=
  bytes h [v.toUInt8, (v >>> 8).toUInt8, (v >>> 16).toUInt8, (v >>> 24).toUInt8]

/-- A string after its length. -/
def str (h : UInt64) (s : String) : UInt64 :=
  bytes (u32 h s.utf8ByteSize.toUInt32) s.toUTF8.data.toList

/-- A column's name, through its index. -/
def column (columns : List String) (h : UInt64) (c : UInt32) : Option UInt64 :=
  columns[c.toNat]?.map (str h)

end Fnv

mutual

def hashLevel (h : UInt64) : WireSchema → Option UInt64
  | ⟨columns, primaryKey, sort, singular, relationships⟩ => do
    let h := Fnv.byte h 83
    let h := columns.foldl Fnv.str (Fnv.u32 h columns.length.toUInt32)
    let h ← primaryKey.foldlM (Fnv.column columns) (Fnv.u32 h primaryKey.length.toUInt32)
    let h ← sort.foldlM (fun h p => (Fnv.column columns h p.1).map (Fnv.byte · p.2.toUInt8))
      (Fnv.u32 h sort.length.toUInt32)
    hashRels (Fnv.u32 (Fnv.byte h singular.toUInt8) relationships.length.toUInt32) relationships

def hashRels (h : UInt64) : List (WireRel WireSchema) → Option UInt64
  | [] => some h
  | ⟨name, _, child, project⟩ :: rest => (hashChild (Fnv.str h name) project child).bind fun h => hashRels h rest

/-- The gating marker, or the child level and its projected column. The identity is not hashed. -/
def hashChild (h : UInt64) (project : Option WireProjection) : Option WireSchema → Option UInt64
  | none => some (Fnv.byte h 0)
  | some child =>
    (hashLevel (Fnv.byte h 1) child).bind fun h =>
      match project with
      | some p => Fnv.column child.columns (Fnv.byte h 1) p.col
      | none => some (Fnv.byte h 0)

end

/-- `schema_fp`. -/
def schemaFp (ws : WireSchema) : Option UInt64 := hashLevel Fnv.offsetBasis ws

end Rindle
