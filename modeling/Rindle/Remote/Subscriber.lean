/-
  Rindle.Remote.Subscriber — one query's normalized frame stream
  (`packages/remote/src/normalized.ts`).

  A hello opens the stream: the comparator, the fingerprint of the advertised tables and, where
  the client's own tables are known, each advertised table against them. Then the batches must
  carry the hello's epoch and fingerprint and the sequence numbers 0, 1, 2, …; the one at 0 is
  the snapshot. What passes is handed up as events, and nothing else is.

  The ops of a batch are relayed as they come (`ω`). A column that an index does not reach is
  `undefined`, whose text is empty.

  - `NormalizedSubscriber.apply_ok`: a batch that is applied hands over the event of the place
    the stream is at, and no other answer hands over anything.
-/

import Mathlib.Data.List.Basic

namespace Rindle.Remote

/-! ## The wire -/

structure NormalizedTableSchema where
  name : String
  columns : List String
  primaryKey : List Nat
deriving DecidableEq

structure NormalizedHello where
  epoch : Nat
  comparatorVersion : Nat
  tables : List NormalizedTableSchema
  normalizedFp : String

structure NormalizedBatch (ω : Type) where
  epoch : Nat
  seq : Nat
  normalizedFp : String
  ops : List ω
  cv : Option Nat

inductive NormalizedEvent (ω : Type) where
  | hello (tables : List NormalizedTableSchema) (comparatorVersion : Nat) (normalizedFp : String)
  | snapshot (ops : List ω) (cv : Option Nat)
  | batch (ops : List ω) (cv : Option Nat)
deriving DecidableEq

inductive ProtocolErrorKind where
  | comparatorMismatch | schemaMismatch | epochMismatch | gap
deriving DecidableEq

structure ProtocolError where
  kind : ProtocolErrorKind
  message : String
deriving DecidableEq

/-! ## The fingerprint -/

/-- `Fnv`: FNV-1a over 64 bits. -/
structure Fnv where
  h : UInt64 := 0xcbf29ce484222325

namespace Fnv

def byte (f : Fnv) (b : UInt8) : Fnv :=
  ⟨(f.h ^^^ b.toUInt64) * 0x00000100000001b3⟩

/-- Little-endian. -/
def u32 (f : Fnv) (v : UInt32) : Fnv :=
  (((f.byte v.toUInt8).byte (v >>> 8).toUInt8).byte (v >>> 16).toUInt8).byte (v >>> 24).toUInt8

def s (f : Fnv) (str : String) : Fnv :=
  str.toUTF8.data.toList.foldl byte (f.u32 str.toUTF8.size.toUInt32)

/-- `f.h.toString(16).padStart(16, "0")`. -/
def hex (f : Fnv) : String :=
  let digits := Nat.toDigits 16 f.h.toNat
  String.ofList (List.replicate (16 - digits.length) '0' ++ digits)

end Fnv

def normalizedFp (tables : List NormalizedTableSchema) : String :=
  let table (f : Fnv) (t : NormalizedTableSchema) : Fnv :=
    let f := (f.s t.name).u32 t.columns.length.toUInt32
    let f := (t.columns.foldl Fnv.s f).u32 t.primaryKey.length.toUInt32
    t.primaryKey.foldl (fun f pk => f.s (t.columns[pk]?.getD "")) f
  (tables.foldl table (({} : Fnv).u32 tables.length.toUInt32)).hex

/-! ## The handshake -/

/-- The greedy walk of `isSubsequenceByName`: what is left of `sub` after `sup`. -/
def walkByName : List String → List String → List String
  | sub, [] => sub
  | [], _ :: _ => []
  | name :: sub, x :: sup => if name = x then walkByName sub sup else walkByName (name :: sub) sup

def isSubsequenceByName (sub sup : List String) : Bool :=
  (walkByName sub sup).isEmpty

def NormalizedTableSchema.keyNames (t : NormalizedTableSchema) : List (Option String) :=
  t.primaryKey.map fun i => t.columns[i]?

/-- An array in a template string. -/
def joined (names : List (Option String)) : String :=
  ",".intercalate (names.map (·.getD ""))

/-- One advertised table; the later of two client tables of one name is the one meant. -/
def validateTable (clientTables : List NormalizedTableSchema) (st : NormalizedTableSchema) : Except ProtocolError Unit :=
  match clientTables.reverse.find? (·.name = st.name) with
  | none => .error ⟨.schemaMismatch, "server advertises table \"" ++ st.name ++ "\" not in the client schema"⟩
  | some ct =>
    if isSubsequenceByName st.columns ct.columns = false ∧ isSubsequenceByName ct.columns st.columns = false then
      .error ⟨.schemaMismatch, "column drift on \"" ++ st.name ++ "\": server [" ++ joined (st.columns.map some) ++
        "] is neither a projection nor an expansion of client [" ++ joined (ct.columns.map some) ++ "] (column order skew)"⟩
    else if st.keyNames ≠ ct.keyNames then
      .error ⟨.schemaMismatch, "primary-key drift on \"" ++ st.name ++ "\": client [" ++ joined ct.keyNames ++ "] != server [" ++
        joined st.keyNames ++ "]"⟩
    else .ok ()

def validateAgainstClientSchema (serverTables clientTables : List NormalizedTableSchema) : Except ProtocolError Unit :=
  serverTables.forM (validateTable clientTables)

/-! ## The subscriber -/

def comparatorVersion : Nat := 2

inductive Phase where
  | snapshot | live

structure NormalizedSubscriber where
  epoch : Nat
  normalizedFp : String
  phase : Phase := .snapshot
  lastSeq : Nat := 0

variable {ω : Type}

def NormalizedHello.event (hello : NormalizedHello) : NormalizedEvent ω :=
  .hello hello.tables hello.comparatorVersion hello.normalizedFp

namespace NormalizedSubscriber

variable (clientTables : Option (List NormalizedTableSchema))

/-- The checks of the constructor. -/
def accepts (hello : NormalizedHello) : Except ProtocolError Unit := do
  if hello.comparatorVersion ≠ comparatorVersion then
    throw ⟨.comparatorMismatch, "comparator version " ++ toString hello.comparatorVersion ++ " != " ++ toString comparatorVersion⟩
  let computed := Remote.normalizedFp hello.tables
  if computed ≠ hello.normalizedFp then
    throw ⟨.schemaMismatch, "advertised fp " ++ hello.normalizedFp ++ " != computed " ++ computed⟩
  match clientTables with
  | some tables => validateAgainstClientSchema hello.tables tables
  | none => pure ()

/-- The constructor, with what it emits. -/
def create (hello : NormalizedHello) :
    Except ProtocolError (NormalizedSubscriber × List (NormalizedEvent ω)) := do
  accepts clientTables hello
  pure (⟨hello.epoch, hello.normalizedFp, .snapshot, 0⟩, [hello.event])

inductive Applied where
  | applied | duplicate

/-- `apply`, with what it emits. -/
def apply (s : NormalizedSubscriber) (batch : NormalizedBatch ω) :
    Except ProtocolError (Applied × NormalizedSubscriber × List (NormalizedEvent ω)) :=
  if batch.epoch ≠ s.epoch then
    .error ⟨.epochMismatch, "expected epoch " ++ toString s.epoch ++ ", got " ++ toString batch.epoch⟩
  else if batch.normalizedFp ≠ s.normalizedFp then
    .error ⟨.schemaMismatch, "expected fp " ++ s.normalizedFp ++ ", got " ++ batch.normalizedFp⟩
  else match s.phase with
  | .snapshot =>
    if batch.seq = 0 then .ok (.applied, { s with phase := .live, lastSeq := 0 }, [.snapshot batch.ops batch.cv])
    else .error ⟨.gap, "expected the seq-0 snapshot, got seq " ++ toString batch.seq⟩
  | .live =>
    let expected := s.lastSeq + 1
    if batch.seq < expected then .ok (.duplicate, s, [])
    else if expected < batch.seq then .error ⟨.gap, "expected seq " ++ toString expected ++ ", got " ++ toString batch.seq⟩
    else .ok (.applied, { s with lastSeq := batch.seq }, [.batch batch.ops batch.cv])

/-! ## What one batch hands over -/

/-- How many events of its stream the subscriber has handed over. -/
def count (s : NormalizedSubscriber) : Nat :=
  match s.phase with
  | .snapshot => 0
  | .live => s.lastSeq + 1

end NormalizedSubscriber

/-- A batch as an event: the one at 0 is the snapshot. -/
def NormalizedBatch.event (batch : NormalizedBatch ω) : NormalizedEvent ω :=
  if batch.seq = 0 then .snapshot batch.ops batch.cv else .batch batch.ops batch.cv

namespace NormalizedSubscriber

theorem create_ok {clientTables : Option (List NormalizedTableSchema)} {hello : NormalizedHello} {s : NormalizedSubscriber}
    {evs : List (NormalizedEvent ω)} (h : create clientTables hello = .ok (s, evs)) :
    s.epoch = hello.epoch ∧ s.normalizedFp = hello.normalizedFp ∧ s.count = 0 ∧ evs = [hello.event] := by
  unfold create at h
  cases hchecks : accepts clientTables hello with
  | error e =>
    rw [hchecks] at h
    cases h
  | ok u =>
    rw [hchecks] at h
    cases h
    exact ⟨rfl, rfl, rfl, rfl⟩

/-- A batch that is applied is the next one of the subscriber's epoch and fingerprint, and it is
    what is handed over; a duplicate hands over nothing and moves nothing. -/
theorem apply_ok {s s' : NormalizedSubscriber} {batch : NormalizedBatch ω} {a : Applied} {evs : List (NormalizedEvent ω)}
    (h : s.apply batch = .ok (a, s', evs)) :
    (a = .applied ∧ batch.epoch = s.epoch ∧ batch.normalizedFp = s.normalizedFp ∧ batch.seq = s.count ∧ evs = [batch.event] ∧
      s'.epoch = s.epoch ∧ s'.normalizedFp = s.normalizedFp ∧ s'.count = s.count + 1) ∨
      (a = .duplicate ∧ s' = s ∧ evs = []) := by
  unfold apply at h
  split at h
  · cases h
  rename_i hepoch
  split at h
  · cases h
  rename_i hfp
  have hepoch : batch.epoch = s.epoch := not_not.mp hepoch
  have hfp : batch.normalizedFp = s.normalizedFp := not_not.mp hfp
  cases hphase : s.phase with
  | snapshot =>
    simp only [hphase] at h
    split at h
    · rename_i hseq
      cases h
      exact .inl ⟨rfl, hepoch, hfp, by simp [count, hphase, hseq], by simp [NormalizedBatch.event, hseq], rfl, rfl,
        by simp [count, hphase]⟩
    · cases h
  | live =>
    simp only [hphase] at h
    split at h
    · cases h
      exact .inr ⟨rfl, rfl, rfl⟩
    · rename_i hge
      split at h
      · cases h
      · rename_i hle
        cases h
        have hseq : batch.seq = s.lastSeq + 1 := by omega
        exact .inl ⟨rfl, hepoch, hfp, by simp [count, hphase, hseq], by simp [NormalizedBatch.event, hseq], rfl, rfl,
          by simp [count, hphase, hseq]⟩

end NormalizedSubscriber

end Rindle.Remote
