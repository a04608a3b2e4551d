/-
  Rindle.Source.Connections — a source's connections (`ConnTable` of
  `rust/src/source_common.rs`) and the push index over them (`rust/src/push_index.rs`).

  A slot is recycled when its connection is destroyed: its generation goes up and the slot
  joins the free list. The push index keeps, for each guarded column and guard value, the
  slots guarded by it, the slots without a guard, and how many connections list each
  split-edit key. Its maps are association lists: their order is never observed, the
  candidates are sorted before use.
-/

import Rindle.Change
import Mathlib.Data.List.Destutter

set_option linter.dupNamespace false

namespace Rindle

/-! ## Maps as association lists -/

/-- The value under a key; `same` is the map's key equality. -/
def lookupKey {κ ν : Type} (same : κ → κ → Bool) (k : κ) (m : List (κ × ν)) : Option ν :=
  (m.find? fun p => same p.1 k).map (·.2)

/-- `entry`: rewrite the value under a key; `none` drops the entry. -/
@[grind] def alterKey {κ ν : Type} (same : κ → κ → Bool) (k : κ) (f : Option ν → Option ν) : List (κ × ν) → List (κ × ν)
  | [] => (f none).toList.map fun v => (k, v)
  | p :: m => if same p.1 k then ((f (some p.2)).toList.map fun v => (p.1, v)) ++ m else p :: alterKey same k f m

/-! ## The push index -/

/-- `predicate(row)` implies that `row[col]` is one of `values`. -/
structure PushGuard where
  col : Nat
  values : List Value

/-- `GuardKey` equality. -/
def guardKeyEq (a b : Value) : Bool := comparePredicateValues a b == .eq

structure PushIndex where
  eq : List (Nat × List (Value × List Nat)) := []
  scan : List Nat := []
  splitKeys : List (Nat × Nat) := []

namespace PushIndex

/-- `Some(map)` unless it is empty. -/
def nonEmpty {β : Type} (m : List β) : Option (List β) := if m.isEmpty then none else some m

/-- `insert`. -/
def insert (ix : PushIndex) (slot : Nat) (guard : Option PushGuard) (splitEditKeys : List Nat) : PushIndex :=
  let ix := match guard with
    | some g =>
      if g.values.isEmpty then ix
      else
        { ix with eq := alterKey (· == ·) g.col (fun colMap => some (g.values.foldl (fun colMap v =>
          alterKey guardKeyEq v (fun bucket => some (bucket.getD [] ++ [slot])) colMap) (colMap.getD []))) ix.eq }
    | none => { ix with scan := if ix.scan.contains slot then ix.scan else ix.scan ++ [slot] }
  { ix with splitKeys := splitEditKeys.foldl (fun m k => alterKey (· == ·) k (fun rc => some (rc.getD 0 + 1)) m) ix.splitKeys }

/-- `remove`: the inverse of `insert`; empty buckets and columns are dropped. -/
def remove (ix : PushIndex) (slot : Nat) (guard : Option PushGuard) (splitEditKeys : List Nat) : PushIndex :=
  let ix := match guard with
    | some g =>
      if g.values.isEmpty then ix
      else
        { ix with eq := alterKey (· == ·) g.col (fun colMap => colMap.bind fun colMap =>
          nonEmpty (g.values.foldl (fun colMap v =>
            alterKey guardKeyEq v (fun bucket => bucket.bind fun b => nonEmpty (b.erase slot)) colMap) colMap)) ix.eq }
    | none => { ix with scan := ix.scan.erase slot }
  { ix with splitKeys := splitEditKeys.foldl (fun m k =>
      alterKey (· == ·) k (fun rc => rc.bind fun n => if n - 1 = 0 then none else some (n - 1)) m) ix.splitKeys }

/-- `collect_bucket`. -/
def collectBucket (buckets : List (Value × List Nat)) (cell : Value) : List Nat :=
  (lookupKey guardKeyEq cell buckets).getD []

/-- `push_candidates`: the slots that may accept a row of the change, ascending, each once. -/
def pushCandidates (ix : PushIndex) (change : SourceChange Row) : List Nat :=
  let out := ix.scan ++ ix.eq.flatMap fun (col, buckets) =>
    match change with
    | .add r => collectBucket buckets (r.cell col)
    | .remove r => collectBucket buckets (r.cell col)
    | .edit old row => collectBucket buckets (row.cell col) ++ collectBucket buckets (old.cell col)
  (out.insertionSort (· ≤ ·)).destutter (· ≠ ·)

end PushIndex

/-! ## Connections -/

/-- `ConnectionFilters`, as far as the in-memory source reads them. -/
structure ConnectionFilters where
  predicate : Row → Bool
  pkConstraint : Option Constraint := none
  pushGuard : Option PushGuard := none

/-- `output` says whether a downstream edge is wired. -/
structure Connection where
  sort : SortSpec
  unordered : Bool := false
  splitEditKeys : List Nat := []
  filters : Option ConnectionFilters := none
  lastPushedEpoch : Nat := 0
  output : Bool := false

namespace Connection

/-- The rows a connection accepts; without filters, all. -/
def accepts (conn : Connection) (row : Row) : Bool := conn.filters.all fun f => f.predicate row

def pkConstraint (conn : Connection) : Option Constraint := conn.filters.bind fun f => f.pkConstraint

def pushGuard (conn : Connection) : Option PushGuard := conn.filters.bind fun f => f.pushGuard

end Connection

structure ConnId where
  idx : Nat
  gen : Nat
  deriving DecidableEq

structure ConnTable where
  conns : List Connection := []
  gens : List Nat := []
  free : List Nat := []
  index : PushIndex := {}

namespace ConnTable

/-- `connect`: a freed slot if there is one, the last freed first. -/
def connect (t : ConnTable) (conn : Connection) : ConnTable × ConnId :=
  match t.free with
  | idx :: free =>
    ({ t with free, index := t.index.insert idx conn.pushGuard conn.splitEditKeys, conns := t.conns.set idx conn },
      ⟨idx, t.gens[idx]?.getD 0⟩)
  | [] =>
    let idx := t.conns.length
    ({ t with index := t.index.insert idx conn.pushGuard conn.splitEditKeys, conns := t.conns ++ [conn], gens := t.gens ++ [0] },
      ⟨idx, 0⟩)

/-- `destroy`: a stale id is ignored. -/
def destroy (t : ConnTable) (conn : ConnId) : ConnTable :=
  if t.gens[conn.idx]? = some conn.gen then
    let t := match t.conns[conn.idx]? with
      | some c =>
        { t with index := t.index.remove conn.idx c.pushGuard c.splitEditKeys,
                 conns := t.conns.set conn.idx { c with output := false } }
      | none => t
    { t with gens := t.gens.set conn.idx ((conn.gen + 1) % 2 ^ 32), free := conn.idx :: t.free }
  else t

variable (t : ConnTable)

/-- `live_ix`: the slot of a live id; a stale one panics (`none`). -/
def liveIx (conn : ConnId) : Option Nat :=
  if t.gens[conn.idx]? = some conn.gen then some conn.idx else none

/-- `set_output`. -/
def setOutput (conn : ConnId) : Option ConnTable := do
  let i ← t.liveIx conn
  let c ← t.conns[i]?
  some { t with conns := t.conns.set i { c with output := true } }

/-- The connection of a live id. -/
def live (conn : ConnId) : Option Connection := (t.liveIx conn).bind fun i => t.conns[i]?

/-- `last_pushed_epoch.set` on one slot. -/
def stamp (slot epoch : Nat) : ConnTable :=
  { t with conns := t.conns.modify slot fun c => { c with lastPushedEpoch := epoch } }

/-- `split_edit_keys`. -/
def splitEditKeys : List Nat := t.index.splitKeys.map (·.1)

/-- `has_split_edit_keys`. -/
def hasSplitEditKeys : Bool := !t.index.splitKeys.isEmpty

/-- `should_split_edit`: some split-edit key changes value; two nulls do. -/
def shouldSplitEdit (row old : Row) : Bool :=
  t.hasSplitEditKeys && t.splitEditKeys.any fun k => !(row.cell k).joinEq (old.cell k)

end ConnTable

/-! ## Slots -/

theorem mem_alterKey {κ ν : Type} {same : κ → κ → Bool} {k : κ} {f : Option ν → Option ν} {m : List (κ × ν)} {p : κ × ν}
    (h : p ∈ alterKey same k f m) : p ∈ m ∨ f none = some p.2 ∨ ∃ q ∈ m, f (some q.2) = some p.2 := by
  induction m with
  | nil =>
    simp only [alterKey, List.mem_map, Option.mem_toList] at h
    obtain ⟨v, hv, rfl⟩ := h
    exact Or.inr (Or.inl hv)
  | cons q m ih =>
    rw [alterKey] at h
    split at h
    · rcases List.mem_append.mp h with h | h
      · simp only [List.mem_map, Option.mem_toList] at h
        obtain ⟨v, hv, rfl⟩ := h
        exact Or.inr (Or.inr ⟨q, List.mem_cons_self, hv⟩)
      · exact Or.inl (List.mem_cons_of_mem _ h)
    · rcases List.mem_cons.mp h with rfl | h
      · exact Or.inl List.mem_cons_self
      · rcases ih h with h | h | ⟨r, hr, h⟩
        · exact Or.inl (List.mem_cons_of_mem _ h)
        · exact Or.inr (Or.inl h)
        · exact Or.inr (Or.inr ⟨r, List.mem_cons_of_mem _ hr, h⟩)

theorem mem_of_lookupKey {κ ν : Type} {same : κ → κ → Bool} {k : κ} {m : List (κ × ν)} {v : ν}
    (h : lookupKey same k m = some v) : ∃ k', (k', v) ∈ m := by
  simp only [lookupKey, Option.map_eq_some_iff] at h
  obtain ⟨p, hp, rfl⟩ := h
  exact ⟨p.1, List.mem_of_find?_eq_some hp⟩

namespace PushIndex

/-- Every slot in some bucket of a column is below `n`. -/
def BucketsBelow (n : Nat) (buckets : List (Value × List Nat)) : Prop := ∀ p ∈ buckets, ∀ slot ∈ p.2, slot < n

/-- Every slot the index holds is below `n`. -/
def Below (n : Nat) (ix : PushIndex) : Prop :=
  (∀ slot ∈ ix.scan, slot < n) ∧ ∀ p ∈ ix.eq, BucketsBelow n p.2

theorem bucketsBelow_foldl {n : Nat} {f : List (Value × List Nat) → Value → List (Value × List Nat)}
    (hf : ∀ m v, BucketsBelow n m → BucketsBelow n (f m v)) :
    ∀ (values : List Value) {m : List (Value × List Nat)}, BucketsBelow n m → BucketsBelow n (values.foldl f m)
  | [], _, hm => hm
  | v :: values, _, hm => bucketsBelow_foldl hf values (hf _ v hm)

theorem bucketsBelow_alter {n : Nat} {v : Value} {f : Option (List Nat) → Option (List Nat)} {m : List (Value × List Nat)}
    (hm : BucketsBelow n m) (hnone : ∀ b, f none = some b → ∀ slot ∈ b, slot < n)
    (hsome : ∀ b b', (∀ slot ∈ b, slot < n) → f (some b) = some b' → ∀ slot ∈ b', slot < n) :
    BucketsBelow n (alterKey guardKeyEq v f m) := by
  intro p hp
  rcases mem_alterKey hp with h | h | ⟨q, hq, h⟩
  · exact hm p h
  · exact hnone _ h
  · exact hsome _ _ (hm q hq) h

theorem eqBelow_alter {n col : Nat} {f : Option (List (Value × List Nat)) → Option (List (Value × List Nat))}
    {m : List (Nat × List (Value × List Nat))} (hm : ∀ p ∈ m, BucketsBelow n p.2)
    (hf : ∀ o b, (∀ b', o = some b' → BucketsBelow n b') → f o = some b → BucketsBelow n b) :
    ∀ p ∈ alterKey (· == ·) col f m, BucketsBelow n p.2 := by
  intro p hp
  rcases mem_alterKey hp with h | h | ⟨q, hq, h⟩
  · exact hm p h
  · exact hf none _ (fun _ h => by cases h) h
  · exact hf _ _ (fun b' hb => Option.some.inj hb ▸ hm q hq) h

theorem insert_below {n slot : Nat} {ix : PushIndex} (hix : ix.Below n) (hslot : slot < n) (guard : Option PushGuard)
    (keys : List Nat) : (ix.insert slot guard keys).Below n := by
  obtain ⟨hscan, heq⟩ := hix
  cases guard with
  | none =>
    refine ⟨fun i hi => ?_, heq⟩
    simp only [insert] at hi
    split at hi
    · exact hscan i hi
    · rcases List.mem_append.mp hi with hi | hi
      · exact hscan i hi
      · rw [List.mem_singleton.mp hi]; exact hslot
  | some g =>
    by_cases hv : g.values.isEmpty = true
    · simp only [insert, hv, if_true]
      exact ⟨hscan, heq⟩
    simp only [insert, hv, Bool.false_eq_true, if_false]
    refine ⟨hscan, eqBelow_alter heq fun o b ho hb => ?_⟩
    rw [← Option.some.inj hb]
    refine bucketsBelow_foldl (fun m v hm => bucketsBelow_alter hm ?_ ?_) g.values ?_
    · intro b hb i hi
      simp only [Option.getD_none, List.nil_append, Option.some.injEq] at hb
      rw [← hb, List.mem_singleton] at hi
      omega
    · intro b b' hbelow hb i hi
      simp only [Option.getD_some, Option.some.injEq] at hb
      rw [← hb] at hi
      rcases List.mem_append.mp hi with hi | hi
      · exact hbelow i hi
      · rw [List.mem_singleton.mp hi]; exact hslot
    · cases o with
      | none => intro p hp; cases hp
      | some m => exact ho m rfl

theorem nonEmpty_some {β : Type} {m m' : List β} (h : nonEmpty m = some m') : m' = m := by
  unfold nonEmpty at h
  split at h
  · cases h
  · exact (Option.some.inj h).symm

theorem remove_below {n : Nat} {ix : PushIndex} (hix : ix.Below n) (slot : Nat) (guard : Option PushGuard)
    (keys : List Nat) : (ix.remove slot guard keys).Below n := by
  obtain ⟨hscan, heq⟩ := hix
  cases guard with
  | none => exact ⟨fun i hi => hscan i (List.mem_of_mem_erase hi), heq⟩
  | some g =>
    by_cases hv : g.values.isEmpty = true
    · simp only [remove, hv, if_true]
      exact ⟨hscan, heq⟩
    · simp only [remove, hv, Bool.false_eq_true, if_false]
      refine ⟨hscan, eqBelow_alter heq fun o b ho hb => ?_⟩
      obtain ⟨m, rfl, hm⟩ := Option.bind_eq_some_iff.mp hb
      rw [nonEmpty_some hm]
      refine bucketsBelow_foldl (fun m v hm => bucketsBelow_alter hm (fun b hb => by cases hb) ?_) g.values (ho m rfl)
      intro b b' hbelow hb i hi
      rw [Option.bind_some] at hb
      rw [nonEmpty_some hb] at hi
      exact hbelow i (List.mem_of_mem_erase hi)

theorem Below.mono {n m : Nat} {ix : PushIndex} (hix : ix.Below n) (hnm : n ≤ m) : ix.Below m :=
  ⟨fun i hi => Nat.lt_of_lt_of_le (hix.1 i hi) hnm, fun p hp q hq i hi => Nat.lt_of_lt_of_le (hix.2 p hp q hq i hi) hnm⟩

theorem collectBucket_below {n : Nat} {buckets : List (Value × List Nat)} (hb : BucketsBelow n buckets) (cell : Value) :
    ∀ slot ∈ collectBucket buckets cell, slot < n := by
  intro slot hs
  unfold collectBucket at hs
  cases hl : lookupKey guardKeyEq cell buckets with
  | none => rw [hl] at hs; cases hs
  | some b =>
    rw [hl] at hs
    obtain ⟨k, hk⟩ := mem_of_lookupKey hl
    exact hb _ hk slot hs

/-- A push visits only slots the table has. -/
theorem pushCandidates_below {n : Nat} {ix : PushIndex} (hix : ix.Below n) (change : SourceChange Row) :
    ∀ slot ∈ ix.pushCandidates change, slot < n := by
  intro slot hs
  have hs := (List.destutter_sublist (R := (· ≠ ·)) _).subset hs
  rw [List.mem_insertionSort, List.mem_append, List.mem_flatMap] at hs
  rcases hs with hs | ⟨p, hp, hs⟩
  · exact hix.1 slot hs
  · have hb := hix.2 p hp
    cases change with
    | add r => exact collectBucket_below hb _ slot hs
    | remove r => exact collectBucket_below hb _ slot hs
    | edit old row =>
      rcases List.mem_append.mp hs with hs | hs
      · exact collectBucket_below hb _ slot hs
      · exact collectBucket_below hb _ slot hs

end PushIndex

namespace ConnTable

/-- The table's slots: a generation for each, free ones in range, the index holds no others,
    and every connection is `good`. -/
structure Ok (good : Connection → Prop) (t : ConnTable) : Prop where
  gens : t.gens.length = t.conns.length
  free : ∀ i ∈ t.free, i < t.conns.length
  index : t.index.Below t.conns.length
  good : ∀ c ∈ t.conns, good c

variable {good : Connection → Prop} {t : ConnTable}

theorem ok_empty : ({} : ConnTable).Ok good :=
  ⟨rfl, fun i hi => (by cases hi), ⟨fun i hi => (by cases hi), fun p hp => (by cases hp)⟩, fun c hc => (by cases hc)⟩

theorem Ok.connect (ht : t.Ok good) {conn : Connection} (hc : good conn) : (t.connect conn).1.Ok good := by
  unfold ConnTable.connect
  cases hf : t.free with
  | cons idx free =>
    have hidx : idx < t.conns.length := ht.free idx (hf ▸ List.mem_cons_self)
    refine ⟨by simpa using ht.gens, fun i hi => ?_, ?_, fun c hcm => ?_⟩
    · simpa using ht.free i (hf ▸ List.mem_cons_of_mem _ hi)
    · simpa using PushIndex.insert_below ht.index hidx _ _
    · rcases List.mem_or_eq_of_mem_set hcm with hcm | rfl
      · exact ht.good c hcm
      · exact hc
  | nil =>
    refine ⟨by simp [ht.gens], fun i hi => ?_, ?_, fun c hcm => ?_⟩
    · cases hi
    · simp only [List.length_append, List.length_singleton]
      exact PushIndex.insert_below (ht.index.mono (Nat.le_succ _)) (Nat.lt_succ_self _) _ _
    · rcases List.mem_append.mp hcm with hcm | hcm
      · exact ht.good c hcm
      · rw [List.mem_singleton.mp hcm]; exact hc

theorem Ok.destroy (ht : t.Ok good) (hout : ∀ c, good c → good { c with output := false }) (id : ConnId) :
    (t.destroy id).Ok good := by
  unfold ConnTable.destroy
  split
  · rename_i hgen
    have hidx : id.idx < t.conns.length := ht.gens ▸ (List.getElem?_eq_some_iff.mp hgen).1
    rw [List.getElem?_eq_getElem hidx]
    refine ⟨by simpa using ht.gens, fun i hi => ?_, ?_, fun c hcm => ?_⟩
    · rcases List.mem_cons.mp hi with rfl | hi
      · simpa using hidx
      · simpa using ht.free i hi
    · simpa using PushIndex.remove_below ht.index _ _ _
    · rcases List.mem_or_eq_of_mem_set hcm with hcm | rfl
      · exact ht.good c hcm
      · exact hout _ (ht.good _ (List.getElem_mem hidx))
  · exact ht

theorem Ok.stamp (ht : t.Ok good) (hep : ∀ c e, good c → good { c with lastPushedEpoch := e }) (slot epoch : Nat) :
    (t.stamp slot epoch).Ok good := by
  refine ⟨by simpa [ConnTable.stamp] using ht.gens, fun i hi => by simpa [ConnTable.stamp] using ht.free i hi,
    by simpa [ConnTable.stamp] using ht.index, fun c hcm => ?_⟩
  obtain ⟨i, hi, rfl⟩ := List.getElem_of_mem hcm
  simp only [ConnTable.stamp, List.getElem_modify]
  split
  · exact hep _ _ (ht.good _ (List.getElem_mem _))
  · exact ht.good _ (List.getElem_mem _)

theorem Ok.live (ht : t.Ok good) {id : ConnId} (hid : (t.liveIx id).isSome = true) :
    ∃ c, t.live id = some c ∧ t.conns[id.idx]? = some c ∧ good c := by
  have hgen : t.gens[id.idx]? = some id.gen := by
    by_contra h
    simp [liveIx, h] at hid
  have hidx : id.idx < t.conns.length := ht.gens ▸ (List.getElem?_eq_some_iff.mp hgen).1
  have hc : t.conns[id.idx]? = some t.conns[id.idx] := List.getElem?_eq_getElem hidx
  exact ⟨_, by simp [ConnTable.live, liveIx, hgen, hc], hc, ht.good _ (List.getElem_mem hidx)⟩

theorem Ok.setOutput (ht : t.Ok good) (hout : ∀ c, good c → good { c with output := true }) {id : ConnId}
    (hid : (t.liveIx id).isSome = true) : ∃ t', t.setOutput id = some t' ∧ t'.Ok good := by
  obtain ⟨c, hlive, hget, hgood⟩ := ht.live hid
  have hix : t.liveIx id = some id.idx := by
    unfold liveIx at hid ⊢
    split
    · rfl
    · rename_i hgen
      rw [if_neg hgen] at hid
      cases hid
  refine ⟨{ t with conns := t.conns.set id.idx { c with output := true } },
    by simp [ConnTable.setOutput, hix, hget], ?_, fun i hi => ?_, ?_, fun d hd => ?_⟩
  · simpa using ht.gens
  · simpa using ht.free i hi
  · simpa using ht.index
  · rcases List.mem_or_eq_of_mem_set hd with hd | rfl
    · exact ht.good d hd
    · exact hout c hgood

end ConnTable

end Rindle
