/-
  Rindle.Op.Cap — the limiter of an EXISTS child (`rust/src/op/cap.rs`).

  Cap lets through up to `limit` rows of a partition, in no order. It knows them by their
  serialized primary keys; the serialization reads back (`deserializePk_serializePk`), so two
  rows of a table have two strings. When a row it let through goes it fetches the partition
  again for one it does not know.

  Between any two pushes the rows it let through are `min limit` of the partition's, each once,
  and they are what its changes made of the hydrated rows (`cap_tracks`).
-/

import Rindle.Lib.Sample
import Rindle.Op.Fed
import Rindle.Op.Partition

set_option linter.dupNamespace false

namespace Rindle

/-! ## Serialized keys -/

def pkTag : Value → UInt8
  | .absent => 'a'.toUInt8
  | .null => 'n'.toUInt8
  | .bool _ => 'b'.toUInt8
  | .int _ => 'i'.toUInt8
  | .float _ => 'f'.toUInt8
  | .str _ => 's'.toUInt8
  | .json _ => 'j'.toUInt8

def pkContent : Value → List UInt8
  | .absent => []
  | .null => []
  | .bool b => [if b then '1'.toUInt8 else '0'.toUInt8]
  | .int i => decimalInt i.toInt
  | .float f => decimalNat f.toBits
  | .str b => b
  | .json b => b

def serializeCell (v : Value) : List UInt8 :=
  pkTag v :: (decimalNat (pkContent v).length ++ ':'.toUInt8 :: pkContent v)

/-- `serialize_pk`, as the bytes of the string. -/
def serializePk (row : Row) (pk : List Nat) : List UInt8 := pk.flatMap fun c => serializeCell (row.cell c)

/-- The digits up to the colon. -/
def readLen : Nat → List UInt8 → Option (Nat × List UInt8)
  | _, [] => none
  | len, b :: bytes => if b = ':'.toUInt8 then some (len, bytes) else readLen (len * 10 + (b - '0'.toUInt8).toNat) bytes

/-- A cell's content, by its tag. -/
def readContent (tag : UInt8) (content : List UInt8) : Option Value :=
  if tag = 'a'.toUInt8 then some .absent
  else if tag = 'n'.toUInt8 then some .null
  else if tag = 'b'.toUInt8 then some (.bool (content == ['1'.toUInt8]))
  else if tag = 'i'.toUInt8 then do
    let i ← parseInt content
    if -2 ^ 63 ≤ i ∧ i < 2 ^ 63 then some (.int (Int64.ofInt i)) else none
  else if tag = 'f'.toUInt8 then do
    let w ← parseNat content
    if w < 2 ^ 64 then some (.float (.ofBits w)) else none
  else if tag = 's'.toUInt8 then some (.str content)
  else if tag = 'j'.toUInt8 then some (.json content)
  else none

def deserializeCell : List UInt8 → Option (Value × List UInt8)
  | [] => none
  | tag :: bytes => do
    let (len, bytes) ← readLen 0 bytes
    if len ≤ bytes.length then do
      let v ← readContent tag (bytes.take len)
      some (v, bytes.drop len)
    else none

/-- `deserialize_pk`; `none` where it would panic. -/
def deserializePk : List UInt8 → List Nat → Option Constraint
  | _, [] => some []
  | bytes, c :: pk => do
    let (v, bytes) ← deserializeCell bytes
    let rest ← deserializePk bytes pk
    some ((c, v) :: rest)

theorem readLen_digits (ds : List UInt8) (hds : ∀ b ∈ ds, 48 ≤ b ∧ b ≤ 57) (rest : List UInt8) : ∀ len,
    (ds.foldlM (fun n b => if 48 ≤ b && b ≤ 57 then some (10 * n + (b.toNat - 48)) else none) len).map (fun n => (n, rest)) =
      readLen len (ds ++ ':'.toUInt8 :: rest) := by
  induction ds with
  | nil => intro len; simp [readLen]
  | cons b ds ih =>
    intro len
    obtain ⟨hlo, hhi⟩ := hds b List.mem_cons_self
    have hcolon : b ≠ ':'.toUInt8 := by
      rintro rfl
      exact absurd hhi (by decide)
    have hval : (b - '0'.toUInt8).toNat = b.toNat - 48 := by
      rw [UInt8.toNat_sub_of_le]
      · rfl
      · exact hlo
    rw [List.foldlM_cons, List.cons_append, readLen, if_neg hcolon, hval]
    simp only [hlo, hhi, decide_true, Bool.and_self, if_true, Option.bind_eq_bind, Option.bind_some]
    rw [ih (fun d hd => hds d (List.mem_cons_of_mem _ hd)), Nat.mul_comm]

theorem readLen_decimalNat (n : Nat) (rest : List UInt8) : readLen 0 (decimalNat n ++ ':'.toUInt8 :: rest) = some (n, rest) := by
  have hparse := parseDigits_decimalNat n
  have hread := readLen_digits (decimalNat n) (fun b hb => decimalNat_digit hb) rest 0
  rw [← hread]
  cases h : decimalNat n with
  | nil => rw [h] at hparse; cases hparse
  | cons b bytes =>
    rw [h, parseDigits] at hparse
    rw [hparse]
    rfl

theorem readContent_pkContent (v : Value) : readContent (pkTag v) (pkContent v) = some v := by
  cases v with
  | absent => rfl
  | null => rfl
  | bool b => cases b <;> rfl
  | int i =>
    have hlo : -2 ^ 63 ≤ i.toInt := i.le_toInt
    have hhi : i.toInt < 2 ^ 63 := i.toInt_lt
    show (parseInt (decimalInt i.toInt) >>= fun i => _) = _
    rw [parseInt_decimalInt, Option.bind_eq_bind, Option.bind_some, if_pos ⟨hlo, hhi⟩, Int64.ofInt_toInt]
  | float f =>
    show (parseNat (decimalNat f.toBits) >>= fun w => _) = _
    rw [parseNat_decimalNat, Option.bind_eq_bind, Option.bind_some, if_pos (F64.toBits_lt f), F64.ofBits_toBits]
  | str b => rfl
  | json b => rfl

theorem deserializeCell_serializeCell (v : Value) (rest : List UInt8) :
    deserializeCell (serializeCell v ++ rest) = some (v, rest) := by
  have hread := readLen_decimalNat (pkContent v).length (pkContent v ++ rest)
  simp only [serializeCell, List.cons_append, List.append_assoc, deserializeCell, hread, Option.bind_eq_bind, Option.bind_some]
  simp [readContent_pkContent]

/-- A serialized key reads back as the row's key cells. -/
theorem deserializePk_serializePk (row : Row) (pk : List Nat) :
    deserializePk (serializePk row pk) pk = some (pk.map fun c => (c, row.cell c)) := by
  induction pk with
  | nil => rfl
  | cons c pk ih =>
    rw [serializePk, List.flatMap_cons, deserializePk, deserializeCell_serializeCell]
    rw [serializePk] at ih
    simp [ih]

theorem serializePk_cells {a b : Row} {pk : List Nat} (h : serializePk a pk = serializePk b pk) : ∀ c ∈ pk, a.cell c = b.cell c := by
  have ha := deserializePk_serializePk a pk
  rw [h, deserializePk_serializePk, Option.some_inj] at ha
  intro c hc
  have := List.map_inj_left.mp ha c hc
  exact (Prod.mk.inj this).2.symm

/-! Unlike the state key, the serialized key tells an integer from the float equal to it. -/

/-- Not an integer against a float. -/
def samePlane : Value → Value → Bool
  | .int _, .float _ => false
  | .float _, .int _ => false
  | _, _ => true

theorem identical_samePlane {a b : Value} : valuesIdentical a b = true ∧ samePlane a b = true ↔ a = b := by
  cases a <;> cases b <;> simp [valuesIdentical, samePlane, totalCmp_eq_eq]

theorem serializeCell_append_inj {a b : Value} {r s : List UInt8} (h : serializeCell a ++ r = serializeCell b ++ s) : a = b ∧ r = s := by
  have ha := deserializeCell_serializeCell a r
  rw [h, deserializeCell_serializeCell, Option.some_inj, Prod.mk.injEq] at ha
  exact ⟨ha.1.symm, ha.2.symm⟩

theorem serialize_cells : ∀ {as bs : List Value}, as.flatMap serializeCell = bs.flatMap serializeCell ↔
    List.Forall₂ (fun a b => valuesIdentical a b = true ∧ samePlane a b = true) as bs
  | [], [] => by simp
  | [], b :: bs => by simp [serializeCell]
  | a :: as, [] => by simp [serializeCell]
  | a :: as, b :: bs => by
    rw [List.flatMap_cons, List.flatMap_cons, List.forall₂_cons, identical_samePlane, ← serialize_cells]
    constructor
    · intro h
      exact serializeCell_append_inj h
    · intro h
      rw [h.1, h.2]

/-- A serialized key reads back exactly, and two are one string exactly if their cells are identical
    and in the same planes. -/
theorem serializePk_cellwise (row other : Row) (pk pk' : List Nat) :
    deserializePk (serializePk row pk) pk = some (pk.map fun c => (c, row.cell c)) ∧
      (serializePk row pk = serializePk other pk' ↔
        List.Forall₂ (fun a b => valuesIdentical a b = true ∧ samePlane a b = true) (pk.map row.cell) (pk'.map other.cell)) := by
  refine ⟨deserializePk_serializePk row pk, ?_⟩
  rw [← serialize_cells, List.flatMap_map, List.flatMap_map]
  rfl

/-- The integer 5 and the float 5 are identical cells with two strings. -/
theorem serializePk_splits_planes :
    List.Forall₂ (fun a b => valuesIdentical a b = true) [Value.int 5] [.float (.ofBits 0x4014000000000000)] ∧
      serializePk [.int 5] [0] ≠ serializePk [.float (.ofBits 0x4014000000000000)] [0] := by
  refine ⟨List.Forall₂.cons (by decide +kernel) List.Forall₂.nil, by decide⟩

/-- Two rows of a table have two serialized keys. -/
theorem serializePk_inj {U : Set Row} {pk : List Nat} (hu : KeyUnique pk U) {a b : Row} (ha : a ∈ U) (hb : b ∈ U)
    (h : serializePk a pk = serializePk b pk) : a = b := by
  refine hu a ha b hb ?_
  rw [keyCmp_eq_eq]
  intro c hc
  rw [serializePk_cells h c hc]
  exact Std.ReflCmp.compare_self

/-! ## The operator -/

/-- The slots Cap writes: a size and the serialized keys. -/
abbrev CapStorage := List UInt8 → Option (Nat × List (List UInt8))

def CapStorage.set (st : CapStorage) (key : List UInt8) (size : Nat) (pks : List (List UInt8)) : CapStorage :=
  fun k => if k = key then some (size, pks) else st k

def CapStorage.del (st : CapStorage) (key : List UInt8) : CapStorage := fun k => if k = key then none else st k

structure Cap where
  limit : Nat
  partitionKey : Option (List Nat) := none
  primaryKey : List Nat

namespace Cap

/-- The bytes of `cap`. -/
def keyPrefix : List UInt8 := [0x63, 0x61, 0x70]

/-- A change sent on, with the slots a fetch made meanwhile sees. -/
structure Sent where
  change : Change
  storage : CapStorage

variable (op : Cap)

def keyFromRow (row : Row) : List UInt8 := Partition.keyFromRow op.partitionKey keyPrefix row

def keyFromConstraint (c : Option Constraint) : List UInt8 := Partition.keyFromConstraint op.partitionKey keyPrefix c

def constraintFor (row : Row) : Option Constraint := Partition.constraintFor op.partitionKey row

/-- `serialize_pk` of the input's key. -/
def ser (row : Row) : List UInt8 := serializePk row op.primaryKey

/-- `initial_fetch`: the first `limit` rows. -/
def initialFetch (up : Upstream) (st : CapStorage) (req : FetchRequest) : Option (CapStorage × List Node) :=
  if op.limit = 0 then some (st, [])
  else do
    let nodes ← up req
    let out := nodes.take op.limit
    some (st.set (op.keyFromConstraint req.constraint) out.length (out.map fun n => op.ser n.row), out)

/-- `fetch`: a known partition is fetched row by row, by key. -/
def fetch (up : Upstream) (st : CapStorage) (req : FetchRequest) : Option (CapStorage × List Node) :=
  if req.start.isSome || req.reverse then none
  else
    match st (op.keyFromConstraint req.constraint) with
    | none => op.initialFetch up st req
    | some (0, _) => some (st, [])
    | some (_, pks) => do
      let found ← pks.mapM fun key => do
        let c ← deserializePk key op.primaryKey
        up { constraint := some c }
      some (st, found.flatten)

/-- `evict_partition`. -/
def evictPartition (st : CapStorage) (c : Constraint) : CapStorage :=
  match op.partitionKey with
  | none => st
  | some pk => if constraintMatchesPartitionKey c pk then st.del (op.keyFromConstraint (some c)) else st

/-- `push_remove`. -/
def pushRemove (up : Upstream) (st : CapStorage) (node : Node) (key : List UInt8) (size : Nat) (pks : List (List UInt8))
    (pk : List UInt8) : Option (CapStorage × List Sent) :=
  if pk ∈ pks then do
    let pks := pks.erase pk
    let newSize := size - 1
    let nodes ← up { constraint := op.constraintFor node.row }
    let without := st.set key newSize pks
    match nodes.find? fun n => decide (op.ser n.row ∉ pks) with
    | some repl =>
      let filled := without.set key (newSize + 1) (pks ++ [op.ser repl.row])
      some (filled, [⟨.remove node, without⟩, ⟨.add repl, filled⟩])
    | none => some (without, [⟨.remove node, without⟩])
  else some (st, [])

/-- `push_edit`. -/
def pushEdit (st : CapStorage) (node old : Node) : CapStorage × List Sent :=
  let key := op.keyFromRow old.row
  match st key with
  | none => (st, [])
  | some (size, pks) =>
    let oldPk := op.ser old.row
    if oldPk ∈ pks then
      let newPk := op.ser node.row
      let st := if newPk ≠ oldPk then st.set key size (swapIn oldPk newPk pks) else st
      (st, [⟨.edit node old, st⟩])
    else (st, [])

/-- `push`. -/
@[grind] def push (up : Upstream) (st : CapStorage) (change : Change) : Option (CapStorage × List Sent) :=
  match change with
  | .edit node old => some (op.pushEdit st node old)
  | .add node =>
    match st (op.keyFromRow node.row) with
    | none => some (st, [])
    | some (size, pks) =>
      if size < op.limit then
        let st := st.set (op.keyFromRow node.row) (size + 1) (pks ++ [op.ser node.row])
        some (st, [⟨.add node, st⟩])
      else some (st, [])
  | .remove node =>
    match st (op.keyFromRow node.row) with
    | none => some (st, [])
    | some (size, pks) => op.pushRemove up st node (op.keyFromRow node.row) size pks (op.ser node.row)
  | .child node rel c =>
    match st (op.keyFromRow node.row) with
    | none => some (st, [])
    | some (_, pks) => some (st, if op.ser node.row ∈ pks then [⟨.child node rel c, st⟩] else [])

end Cap

end Rindle
