/-
  Rindle.Op.CapRuns — Cap over the history of its source.

  Each partition with a slot has a sample of its rows let through (`Tracks`): every push keeps the
  sample full and sends what takes the old one to the new one, and a fetch by key of the strings
  in the slot finds the rows of the sample (`cap_tracks`). A drained partition keeps its slot, so
  rows that come to it later are let through.
-/

import Rindle.Op.Cap

set_option linter.dupNamespace false

namespace Rindle.Cap

/-- Between pushes a partition is fetched, or dropped as its parent leaves the view. -/
inductive Action where
  | fetch (p : Row)
  | evict (p : Row)

def operator (op : Cap) : Operator CapStorage Action where
  push up st change := (op.push up st change).map fun r => (r.1, r.2.map Sent.change)
  act up st
    | .fetch p => (op.fetch up st { constraint := op.constraintFor p }).map (·.1)
    | .evict p => some (op.evictPartition st ((op.constraintFor p).getD []))

/-! ## Samples of a partition -/

/-- The row is in the partition of `p`. -/
def inPart (op : Cap) (p r : Row) : Bool := Partition.inPart op.partitionKey p r

abbrev Typed (op : Cap) (kinds : Nat → Kind) (r : Row) : Prop := Partition.Typed op.partitionKey kinds r

abbrev Proper (op : Cap) (kinds : Nat → Kind) (p : Row) : Prop := Partition.Proper op.partitionKey kinds p

abbrev Keeping (op : Cap) (kinds : Nat → Kind) (δ : SourceChange Row) : Prop := Partition.Keeping op.partitionKey kinds δ

/-- The rows of `U` in the partition of `p`, each once. -/
structure Lists (op : Cap) (U : Set Row) (p : Row) (l : List Row) : Prop where
  nodup : l.Nodup
  mem : ∀ r, r ∈ l ↔ r ∈ U ∧ op.inPart p r = true

/-- The slot of `p` has the keys of `T`, a sample of the partition's rows. -/
structure Tracks (op : Cap) (U : Set Row) (p : Row) (T : List Row) (slot : Option (Nat × List (List UInt8))) : Prop where
  sample : ∃ l, Lists op U p l ∧ Sample op.limit l T
  slot : slot = some (T.length, T.map op.ser)

instance : LawfulBEq Row := inferInstance

/-- The rows downstream after a change, if it fits them. -/
def hold (rows : List Row) : Change → Option (List Row)
  | .add n => if n.row ∈ rows then none else some (rows ++ [n.row])
  | .remove n => if n.row ∈ rows then some (rows.erase n.row) else none
  | .edit n old => if old.row ∈ rows ∧ n.row ∉ rows.erase old.row then some (swapIn old.row n.row rows) else none
  | .child _ _ _ => some rows

/-- A push that takes the sample of `p` to `T'`, with what it sends, and touches no other slot. -/
structure Follows (op : Cap) (U' : Set Row) (p : Row) (T : List Row) (st : CapStorage) (r : CapStorage × List Sent) (T' : List Row) :
    Prop where
  tracks : Tracks op U' p T' (r.1 (op.keyFromRow p))
  frame : ∀ k, k ≠ op.keyFromRow p → r.1 k = st k
  holds : Fed.Holds hold (fun rows => rows.length ≤ op.limit) T (r.2.map Sent.change) T'
  rows : ∀ s ∈ r.2, op.inPart p s.change.primaryRow = true

variable {op : Cap} {kinds : Nat → Kind} {p q r : Row} {U U' : Set Row} {T : List Row} {st : CapStorage} {up : Upstream} {sort : SortSpec}

theorem Tracks.mem {slot : Option (Nat × List (List UInt8))} (h : Tracks op U p T slot) {t : Row} (ht : t ∈ T) :
    t ∈ U ∧ op.inPart p t = true := by
  obtain ⟨l, hl, hs⟩ := h.sample
  exact (hl.mem t).mp (hs.subset ht)

theorem Tracks.length_le {slot : Option (Nat × List (List UInt8))} (h : Tracks op U p T slot) : T.length ≤ op.limit := by
  obtain ⟨l, -, hs⟩ := h.sample
  have := hs.count
  omega

/-- Rows of a table are told apart by their strings. -/
theorem ser_inj (hu : KeyUnique op.primaryKey U) (hT : ∀ t ∈ T, t ∈ U) (hr : r ∈ U) : ∀ t ∈ T, op.ser t = op.ser r → t = r :=
  fun t ht h => serializePk_inj hu (hT t ht) hr h

theorem ser_mem (hu : KeyUnique op.primaryKey U) (hT : ∀ t ∈ T, t ∈ U) (hr : r ∈ U) : op.ser r ∈ T.map op.ser ↔ r ∈ T := by
  constructor
  · intro h
    obtain ⟨t, ht, hser⟩ := List.mem_map.mp h
    exact ser_inj hu hT hr t ht hser ▸ ht
  · exact fun h => List.mem_map_of_mem h

theorem set_frame {key k : List UInt8} (hk : k ≠ key) (size : Nat) (pks : List (List UInt8)) : st.set key size pks k = st k := by
  simp [CapStorage.set, hk]

theorem set_key (key : List UInt8) (size : Nat) (pks : List (List UInt8)) : st.set key size pks key = some (size, pks) := by
  simp [CapStorage.set]

/-- Nothing is sent and the slots stay. -/
theorem Follows.quiet (h : Tracks op U' p T (st (op.keyFromRow p))) : Follows op U' p T st (st, []) T :=
  ⟨h, fun _ _ => rfl, ⟨rfl, fun i => ⟨T, by simp, h.length_le⟩⟩, fun s hs => by cases hs⟩

/-- One change is sent. -/
theorem Follows.one {st' : CapStorage} {T' : List Row} {s : Sent} (hT : T.length ≤ op.limit) (h : Tracks op U' p T' (st' (op.keyFromRow p)))
    (hframe : ∀ k, k ≠ op.keyFromRow p → st' k = st k) (hhold : hold T s.change = some T') (hrow : op.inPart p s.change.primaryRow = true) :
    Follows op U' p T st (st', [s]) T' := by
  refine ⟨h, hframe, ⟨by simp [hhold], fun i => ?_⟩, fun s' hs' => List.mem_singleton.mp hs' ▸ hrow⟩
  cases i with
  | zero => exact ⟨T, rfl, hT⟩
  | succ i => exact ⟨T', by simp [hhold], h.length_le⟩

/-! ## One push -/

/-- A row comes to the partition: it is let through while there is room. -/
theorem push_add (hv : ∀ x ∈ U, keyCmp op.primaryKey x r ≠ .eq) (hr : op.inPart r r = true) (h : Tracks op U r T (st (op.keyFromRow r))) :
    ∃ res T', op.push up st (.add (.leaf r)) = some res ∧ Follows op (insert r U) r T st res T' := by
  have hlen := h.length_le
  have hslot := h.slot
  obtain ⟨l, hl, hs⟩ := h.sample
  have hnew : r ∉ l := fun hmem => hv r ((hl.mem r).mp hmem).1 Std.ReflCmp.compare_self
  have hl' : Lists op (insert r U) r (r :: l) := by
    refine ⟨List.nodup_cons.mpr ⟨hnew, hl.nodup⟩, fun x => ?_⟩
    rw [List.mem_cons, hl.mem, Set.mem_insert_iff]
    constructor
    · rintro (rfl | ⟨hx, hp⟩)
      · exact ⟨Or.inl rfl, hr⟩
      · exact ⟨Or.inr hx, hp⟩
    · rintro ⟨rfl | hx, hp⟩
      · exact Or.inl rfl
      · exact Or.inr ⟨hx, hp⟩
  simp only [push, Node.leaf_row, hslot]
  by_cases hroom : T.length < op.limit
  · rw [if_pos hroom]
    refine ⟨_, T ++ [r], rfl, Follows.one hlen ⟨⟨_, hl', hs.add_room hnew hroom⟩, ?_⟩ (fun k hk => set_frame hk _ _) ?_ hr⟩
    · rw [set_key]
      simp
    · exact if_neg fun hT => hnew (hs.subset hT)
  · rw [if_neg hroom]
    exact ⟨_, T, rfl, Follows.quiet ⟨⟨_, hl', hs.add_full hroom⟩, hslot⟩⟩

/-- A row goes: if it was let through, another of the partition comes for it. -/
theorem push_remove (hu : KeyUnique op.primaryKey U) (hv : r ∈ U) (hr : op.inPart r r = true) (h : Tracks op U r T (st (op.keyFromRow r)))
    (hshows : Shows sort up (U \ {r}) { constraint := op.constraintFor r }) :
    ∃ res T', op.push up st (.remove (.leaf r)) = some res ∧ Follows op (U \ {r}) r T st res T' := by
  have hlen := h.length_le
  have hslot := h.slot
  have hmem := fun t ht => (h.mem (t := t) ht).1
  obtain ⟨l, hl, hs⟩ := h.sample
  have hrl : r ∈ l := (hl.mem r).mpr ⟨hv, hr⟩
  have hl' : Lists op (U \ {r}) r (l.erase r) := by
    refine ⟨hl.nodup.erase r, fun x => ?_⟩
    rw [hl.nodup.mem_erase_iff, hl.mem, Set.mem_sdiff, Set.mem_singleton_iff]
    tauto
  have hpush : op.push up st (.remove (.leaf r)) =
      op.pushRemove up st (.leaf r) (op.keyFromRow r) T.length (T.map op.ser) (op.ser r) := by
    simp only [push, Node.leaf_row, hslot]
  rw [hpush, pushRemove]
  by_cases hin : r ∈ T
  · rw [if_pos ((ser_mem hu hmem hv).mpr hin)]
    have herase : (T.map op.ser).erase (op.ser r) = (T.erase r).map op.ser := map_erase_on (ser_inj hu hmem hv)
    have hu' : KeyUnique op.primaryKey (U \ {r}) := fun a ha b hb => hu a ha.1 b hb.1
    have hmem' : ∀ t ∈ T.erase r, t ∈ U \ {r} := fun t ht => ((hl'.mem t).mp (hs.erase_subset ht)).1
    have hpos := List.length_pos_of_mem hin
    have hless : (T.erase r).length = T.length - 1 := List.length_erase_of_mem hin
    obtain ⟨rows, hup, -, hrows⟩ := hshows
    have hrows : ∀ x, x ∈ rows ↔ x ∈ l.erase r := by
      intro x
      rw [hrows, hl'.mem]
      simp [asks, inPart, Partition.inPart, constraintFor]
    have hfind : (rows.map Node.leaf).find? (fun n => decide (op.ser n.row ∉ (T.erase r).map op.ser)) =
        (rows.find? fun x => decide (op.ser x ∉ (T.erase r).map op.ser)).map Node.leaf := by
      rw [List.find?_map]
      rfl
    have hremove : hold T (.remove (.leaf r)) = some (T.erase r) := if_pos hin
    simp only [herase, Node.leaf_row, hup, Option.bind_eq_bind, Option.bind_some, hfind]
    cases hx : rows.find? fun x => decide (op.ser x ∉ (T.erase r).map op.ser) with
    | some x =>
      have hxl : x ∈ l.erase r := (hrows x).mp (List.mem_of_find?_eq_some hx)
      have hxT : x ∉ T.erase r := by
        have hp := List.find?_some hx
        simp only [decide_eq_true_eq] at hp
        exact fun hmemx => hp (List.mem_map_of_mem hmemx)
      have hadd : hold (T.erase r) (.add (.leaf x)) = some (T.erase r ++ [x]) := if_neg hxT
      refine ⟨_, T.erase r ++ [x], rfl, ⟨⟨_, hl', hs.remove_refill hin hxl hxT⟩, ?_⟩, fun k hk => ?_, ⟨?_, fun i => ?_⟩, fun s hs' => ?_⟩
      · exact (set_key _ _ _).trans (by simp [hless])
      · exact (set_frame hk _ _).trans (set_frame hk _ _)
      · simp [hremove, hadd]
      · rcases i with _ | _ | i
        · exact ⟨T, rfl, hlen⟩
        · exact ⟨T.erase r, by simp [hremove], by omega⟩
        · exact ⟨T.erase r ++ [x], by simp [hremove, hadd], by simp; omega⟩
      · simp only [List.mem_cons, List.not_mem_nil, or_false] at hs'
        rcases hs' with rfl | rfl
        · exact hr
        · exact ((hl'.mem x).mp hxl).2
    | none =>
      have hall : ∀ x ∈ l.erase r, x ∈ T.erase r := by
        intro x hxl
        have hp := List.find?_eq_none.mp hx x ((hrows x).mpr hxl)
        simp only [decide_eq_true_eq, not_not] at hp
        exact (ser_mem hu' hmem' ((hl'.mem x).mp hxl).1).mp hp
      refine ⟨_, T.erase r, rfl, Follows.one hlen ⟨⟨_, hl', hs.remove_last hl.nodup hin hall⟩, ?_⟩ (fun k hk => set_frame hk _ _) hremove hr⟩
      rw [set_key, hless]
  · rw [if_neg fun hmem' => hin ((ser_mem hu hmem hv).mp hmem')]
    exact ⟨_, T, rfl, Follows.quiet ⟨⟨_, hl', hs.remove_out hrl hin⟩, hslot⟩⟩

/-- A row is rewritten, in the slot too if its key is written otherwise. -/
theorem push_edit {old row : Row} (hu : KeyUnique op.primaryKey U) (hold' : old ∈ U)
    (hnew : ∀ x ∈ U, x ≠ old → keyCmp op.primaryKey x row ≠ .eq) (ho : op.inPart old old = true) (hr : op.inPart old row = true)
    (h : Tracks op U old T (st (op.keyFromRow old))) :
    ∃ res T', op.push up st (.edit (.leaf row) (.leaf old)) = some res ∧ Follows op (insert row (U \ {old})) old T st res T' := by
  have hlen := h.length_le
  have hslot := h.slot
  have hmem := fun t ht => (h.mem (t := t) ht).1
  obtain ⟨l, hl, hs⟩ := h.sample
  have hol : old ∈ l := (hl.mem old).mpr ⟨hold', ho⟩
  have hfresh : row ∉ l.erase old := by
    intro hmem'
    obtain ⟨hne, hrow⟩ := hl.nodup.mem_erase_iff.mp hmem'
    exact hnew row ((hl.mem row).mp hrow).1 hne Std.ReflCmp.compare_self
  have hl' : Lists op (insert row (U \ {old})) old (swapIn old row l) := by
    refine ⟨Sample.swapIn_nodup hl.nodup hfresh, fun x => ?_⟩
    rw [Sample.mem_swapIn hl.nodup hol, hl.nodup.mem_erase_iff, hl.mem, Set.mem_insert_iff, Set.mem_sdiff, Set.mem_singleton_iff]
    constructor
    · rintro (rfl | ⟨hne, hx, hp⟩)
      · exact ⟨Or.inl rfl, hr⟩
      · exact ⟨Or.inr ⟨hx, hne⟩, hp⟩
    · rintro ⟨rfl | ⟨hx, hne⟩, hp⟩
      · exact Or.inl rfl
      · exact Or.inr ⟨hne, hx, hp⟩
  have hpush : op.push up st (.edit (.leaf row) (.leaf old)) = some (if op.ser old ∈ T.map op.ser then
      (let st' := if op.ser row ≠ op.ser old then st.set (op.keyFromRow old) T.length (swapIn (op.ser old) (op.ser row) (T.map op.ser)) else st
       (st', [⟨.edit (.leaf row) (.leaf old), st'⟩])) else (st, [])) := by
    unfold push pushEdit
    dsimp only
    rw [show st (op.keyFromRow (Node.leaf old).row) = some (T.length, T.map op.ser) from hslot]
    rfl
  rw [hpush]
  by_cases hin : old ∈ T
  · rw [if_pos ((ser_mem hu hmem hold').mpr hin)]
    have hswap : swapIn (op.ser old) (op.ser row) (T.map op.ser) = (swapIn old row T).map op.ser := map_swapIn_on (ser_inj hu hmem hold')
    have hlen' : (swapIn old row T).length = T.length := by simp [swapIn]
    have hhold : hold T (.edit (.leaf row) (.leaf old)) = some (swapIn old row T) :=
      if_pos ⟨hin, fun hmem' => hfresh (hs.erase_subset hmem')⟩
    refine ⟨_, swapIn old row T, rfl, Follows.one hlen ⟨⟨_, hl', hs.swap_in hl.nodup hin hfresh⟩, ?_⟩ (fun k hk => ?_) hhold hr⟩
    · by_cases hser : op.ser row = op.ser old
      · -- the same string: the slot already has it
        rw [if_neg (by simpa using hser), hslot, hlen', ← hswap, hser]
        simp [swapIn]
      · rw [if_pos hser, set_key, hswap, hlen']
    · by_cases hser : op.ser row = op.ser old
      · rw [if_neg (by simpa using hser)]
      · rw [if_pos hser, set_frame hk]
  · rw [if_neg fun hmem' => hin ((ser_mem hu hmem hold').mp hmem')]
    exact ⟨_, T, rfl, Follows.quiet ⟨⟨_, hl', hs.swap_out hl.nodup hol hin⟩, hslot⟩⟩

/-- A push for a partition with a slot. -/
theorem push_follows {δ : SourceChange Row} (hu : KeyUnique op.primaryKey U) (hv : ValidChange op.primaryKey U δ)
    (htyped : ∀ r ∈ U, op.Typed kinds r) (hkeep : op.Keeping kinds δ) (hq : op.Proper kinds δ.key)
    (h : Tracks op U δ.key T (st (op.keyFromRow δ.key)))
    (hshows : Shows sort up (applyChange U δ) { constraint := op.constraintFor δ.key }) :
    ∃ res T', op.push up st (.ofSource δ) = some res ∧ Follows op (applyChange U δ) δ.key T st res T' := by
  have hself : op.inPart δ.key δ.key = true := Partition.inPart_self hq
  cases δ with
  | add r => exact push_add hv hself h
  | remove r => exact push_remove hu hv hself h hshows
  | edit old row =>
    refine push_edit hu hv.1 hv.2 hself ?_ h
    have hkey : op.keyFromRow row = op.keyFromRow old := Partition.result_key hv htyped hkeep rfl
    exact (Partition.inPart_iff_key hq (hkeep.typed row rfl)).mpr hkey

/-! ## Every slot -/

/-- Every partition's slot, if it has one, tracks a sample of it; a null partition has none. -/
structure Inv (op : Cap) (kinds : Nat → Kind) (U : Set Row) (st : CapStorage) : Prop where
  typed : ∀ r ∈ U, op.Typed kinds r
  slots : ∀ p, op.Proper kinds p → st (op.keyFromRow p) = none ∨ ∃ T, Tracks op U p T (st (op.keyFromRow p))
  nulls : ∀ r, op.Typed kinds r → ¬ op.Proper kinds r → st (op.keyFromRow r) = none

theorem Tracks.congr {slot : Option (Nat × List (List UInt8))} (h : op.inPart q = op.inPart p) (ht : Tracks op U p T slot) :
    Tracks op U q T slot := by
  obtain ⟨l, hl, hs⟩ := ht.sample
  exact ⟨⟨l, ⟨hl.nodup, h ▸ hl.mem⟩, hs⟩, ht.slot⟩

/-- Partition values with one key are one partition. -/
theorem inPart_congr (hp : op.Proper kinds p) (hq : op.Proper kinds q) (h : op.keyFromRow q = op.keyFromRow p) : op.inPart q = op.inPart p :=
  Partition.inPart_congr hp hq h

theorem proper_of_key (hp : op.Proper kinds p) (hr : op.Typed kinds r) (h : op.keyFromRow r = op.keyFromRow p) : op.Proper kinds r :=
  Partition.Proper.of_key hp hr h

section
variable {δ : SourceChange Row} (hv : ValidChange op.primaryKey U δ) (htyped : ∀ r ∈ U, op.Typed kinds r) (hkeep : op.Keeping kinds δ)

include hv htyped hkeep in
/-- Another partition's sample stays one. -/
theorem Tracks.other {slot : Option (Nat × List (List UInt8))} (hp : op.Proper kinds p) (hne : op.keyFromRow δ.key ≠ op.keyFromRow p)
    (h : Tracks op U p T slot) : Tracks op (applyChange U δ) p T slot := by
  obtain ⟨l, hl, hs⟩ := h.sample
  refine ⟨⟨l, ⟨hl.nodup, fun r => ?_⟩, hs⟩, h.slot⟩
  rw [hl.mem]
  exact and_congr_left fun hr => (Partition.mem_applyChange_other hv htyped hkeep hp hne hr).symm

/-- What a push does: nothing for a partition without a slot; else the sample follows the change. -/
inductive Pushes (op : Cap) (kinds : Nat → Kind) (U : Set Row) (st : CapStorage) (δ : SourceChange Row) (res : CapStorage × List Sent) : Prop
  | dropped : st (op.keyFromRow δ.key) = none → res = (st, []) → Pushes op kinds U st δ res
  | followed (T T' : List Row) : op.Proper kinds δ.key → Tracks op U δ.key T (st (op.keyFromRow δ.key)) →
      Follows op (applyChange U δ) δ.key T st res T' → Pushes op kinds U st δ res

theorem push_dropped (h : st (op.keyFromRow δ.key) = none) : op.push up st (.ofSource δ) = some (st, []) := by
  cases δ with
  | add r =>
    simp only [SList.Delta.key] at h
    simp [push, Change.ofSource, h]
  | remove r =>
    simp only [SList.Delta.key] at h
    simp [push, Change.ofSource, h]
  | edit old row =>
    simp only [SList.Delta.key] at h
    simp [push, pushEdit, Change.ofSource, h]

include hv hkeep in
theorem push_step (hu : KeyUnique op.primaryKey U) (hinv : Inv op kinds U st)
    (hshows : ∀ req, Anchored U req → Shows sort up (applyChange U δ) req) :
    ∃ res, op.push up st (.ofSource δ) = some res ∧ Pushes op kinds U st δ res ∧ Inv op kinds (applyChange U δ) res.1 := by
  have htyped := hinv.typed
  have htyped' := Partition.typed_applyChange htyped hkeep
  have hq := Partition.typed_key hv htyped hkeep
  by_cases hslot : st (op.keyFromRow δ.key) = none
  · refine ⟨(st, []), push_dropped hslot, .dropped hslot rfl, htyped', fun p hp => ?_, hinv.nulls⟩
    by_cases hkey : op.keyFromRow δ.key = op.keyFromRow p
    · exact Or.inl (hkey ▸ hslot)
    · rcases hinv.slots p hp with h | ⟨T, h⟩
      · exact Or.inl h
      · exact Or.inr ⟨T, h.other hv htyped hkeep hp hkey⟩
  · have hq' : op.Proper kinds δ.key := by
      by_contra hnot
      exact hslot (hinv.nulls _ hq hnot)
    obtain ⟨T, hT⟩ := (hinv.slots _ hq').resolve_left hslot
    have hreq : Anchored U { constraint := op.constraintFor δ.key } := ⟨rfl, fun start hs => by cases hs⟩
    obtain ⟨res, T', hpush, hfollows⟩ := push_follows hu hv htyped hkeep hq' hT (hshows _ hreq)
    refine ⟨res, hpush, .followed T T' hq' hT hfollows, htyped', fun p hp => ?_, fun r hr hnull => ?_⟩
    · by_cases hkey : op.keyFromRow δ.key = op.keyFromRow p
      · rw [← hkey]
        exact Or.inr ⟨T', hfollows.tracks.congr (inPart_congr hq' hp hkey.symm)⟩
      · rw [hfollows.frame _ fun h => hkey h.symm]
        rcases hinv.slots p hp with h | ⟨S, h⟩
        · exact Or.inl h
        · exact Or.inr ⟨S, h.other hv htyped hkeep hp hkey⟩
    · rw [hfollows.frame _ fun h => hnull (proper_of_key hq' hr h)]
      exact hinv.nulls r hr hnull

end

/-! ## Fetches and evictions -/

/-- Only the slot of `p` may differ. -/
def Touches (op : Cap) (p : Row) (st st' : CapStorage) : Prop := ∀ k, k ≠ op.keyFromRow p → st' k = st k

theorem Inv.touch {st' : CapStorage} (hinv : Inv op kinds U st) (hp : op.Proper kinds p) (hframe : Touches op p st st')
    (hslot : st' (op.keyFromRow p) = none ∨ ∃ T, Tracks op U p T (st' (op.keyFromRow p))) : Inv op kinds U st' := by
  refine ⟨hinv.typed, fun q hq => ?_, fun r hr hnull => ?_⟩
  · by_cases hkey : op.keyFromRow q = op.keyFromRow p
    · rw [hkey]
      rcases hslot with h | ⟨T, h⟩
      · exact Or.inl h
      · exact Or.inr ⟨T, h.congr (inPart_congr hp hq hkey)⟩
    · rw [hframe _ hkey]
      exact hinv.slots q hq
  · rw [hframe _ fun h => hnull (proper_of_key hp hr h)]
    exact hinv.nulls r hr hnull

/-- No key cell of the row is null. -/
def Keyed (op : Cap) (r : Row) : Prop := ∀ c ∈ op.primaryKey, (r.cell c).tag = 2

/-- A fetch by the key of a row of the table finds that row, unless its key has a null. -/
theorem fetch_key (hu : KeyUnique op.primaryKey U) (hr : r ∈ U) (hshows : ∀ req, req.multiConstraints = [] → Shows sort up U req) :
    ∃ nodes, (do let c ← deserializePk (op.ser r) op.primaryKey; up { constraint := some c }) = some nodes ∧
      (op.Keyed r → nodes = [Node.leaf r]) := by
  rw [ser, deserializePk_serializePk]
  obtain ⟨rows, hup, hsorted, hrows⟩ := hshows { constraint := some (op.primaryKey.map fun c => (c, r.cell c)) } rfl
  refine ⟨rows.map Node.leaf, hup, fun hkeyed => ?_⟩
  have hmem : ∀ x, x ∈ rows ↔ x = r := by
    intro x
    rw [hrows]
    simp only [asks, Option.all_none, Bool.true_and, constraintHolds, Option.all_some, constraintMatches, List.all_map, List.all_eq_true,
      Function.comp_apply, Value.joinEq_iff]
    constructor
    · rintro ⟨hx, hcells⟩
      exact hu x hx r hr (keyCmp_eq_eq.mpr fun c hc => (hcells c hc).2.2)
    · rintro rfl
      exact ⟨hr, fun c hc => ⟨hkeyed c hc, hkeyed c hc, Std.ReflCmp.compare_self⟩⟩
  have hone : rows = [r] := List.perm_singleton.mp ((List.perm_ext_iff_of_nodup hsorted.nodup (List.nodup_singleton r)).mpr fun x => by
    rw [hmem, List.mem_singleton])
  rw [hone]
  rfl

theorem fetch_keys (hu : KeyUnique op.primaryKey U) (hT : ∀ t ∈ T, t ∈ U)
    (hshows : ∀ req, req.multiConstraints = [] → Shows sort up U req) :
    ∃ found, (T.map op.ser).mapM (fun key => do let c ← deserializePk key op.primaryKey; up { constraint := some c }) = some found ∧
      ((∀ t ∈ T, op.Keyed t) → found.flatten = T.map Node.leaf) := by
  induction T with
  | nil => exact ⟨[], rfl, fun _ => rfl⟩
  | cons t T ih =>
    obtain ⟨nodes, hnodes, hone⟩ := fetch_key hu (hT t List.mem_cons_self) hshows
    obtain ⟨found, hfound, hflat⟩ := ih fun x hx => hT x (List.mem_cons_of_mem _ hx)
    refine ⟨nodes :: found, ?_, fun hkeyed => ?_⟩
    · rw [List.map_cons, List.mapM_cons, hnodes, Option.bind_eq_bind, Option.bind_some, hfound]
      rfl
    · rw [List.flatten_cons, hone (hkeyed t List.mem_cons_self), hflat fun x hx => hkeyed x (List.mem_cons_of_mem _ hx)]
      rfl

/-- A fetch of a partition returns the sample its slot tracks; the first one takes the first `limit` rows. -/
theorem fetch_step (hn : 0 < op.limit) (hu : KeyUnique op.primaryKey U) (hinv : Inv op kinds U st) (hp : op.Proper kinds p)
    (hshows : ∀ req, req.multiConstraints = [] → Shows sort up U req) :
    ∃ st' nodes T, op.fetch up st { constraint := op.constraintFor p } = some (st', nodes) ∧ Touches op p st st' ∧
      Tracks op U p T (st' (op.keyFromRow p)) ∧ (st (op.keyFromRow p) ≠ none → st' = st) ∧
      (st (op.keyFromRow p) = none ∨ (∀ t ∈ T, op.Keyed t) → nodes = T.map Node.leaf) := by
  have hkey : op.keyFromConstraint (op.constraintFor p) = op.keyFromRow p := Partition.keyFromConstraint_eq p
  unfold fetch
  simp only [Option.isSome_none, Bool.or_self, Bool.false_eq_true, if_false, hkey]
  rcases hinv.slots p hp with hnone | ⟨T, hT⟩
  · -- not hydrated yet
    obtain ⟨rows, hup, hsorted, hrows⟩ := hshows { constraint := op.constraintFor p } rfl
    have hl : Lists op U p rows := by
      refine ⟨hsorted.nodup, fun r => ?_⟩
      rw [hrows]
      simp [asks, inPart, Partition.inPart, constraintFor]
    simp only [hnone, initialFetch, Nat.ne_of_gt hn, if_false, hup, hkey, Option.bind_eq_bind, Option.bind_some]
    refine ⟨_, _, rows.take op.limit, rfl, fun k hk => set_frame hk _ _, ⟨⟨rows, hl, Sample.take hl.nodup⟩, ?_⟩, fun h => absurd rfl h,
      fun _ => List.map_take.symm⟩
    rw [set_key, ← List.map_take, List.map_map, List.length_map]
    rfl
  · have hslot := hT.slot
    obtain ⟨found, hfound, hflat⟩ := fetch_keys hu (fun t ht => (hT.mem ht).1) hshows
    rcases T with _ | ⟨t, T⟩
    · simp only [hslot, List.length_nil]
      exact ⟨st, [], [], rfl, fun _ _ => rfl, hT, fun _ => rfl, fun _ => rfl⟩
    · simp only [hslot, List.length_cons]
      rw [hfound]
      refine ⟨st, _, t :: T, rfl, fun _ _ => rfl, hT, fun _ => rfl, fun h => hflat (h.resolve_left (by simp))⟩

theorem evict_step (hinv : Inv op kinds U st) (hp : op.Proper kinds p) :
    Inv op kinds U (op.evictPartition st ((op.constraintFor p).getD [])) ∧
      Touches op p st (op.evictPartition st ((op.constraintFor p).getD [])) := by
  have hkey : op.keyFromConstraint (op.constraintFor p) = op.keyFromRow p := Partition.keyFromConstraint_eq p
  unfold evictPartition
  unfold constraintFor Partition.constraintFor at hkey ⊢
  cases hpk : op.partitionKey with
  | none => exact ⟨hinv, fun _ _ => rfl⟩
  | some pk =>
    rw [hpk, Option.map_some] at hkey
    simp only [Option.map_some, Option.getD_some, Partition.matches_constraintFor, if_true, hkey]
    have hframe : Touches op p st (st.del (op.keyFromRow p)) := fun k hk => by simp [CapStorage.del, hk]
    exact ⟨hinv.touch hp hframe (Or.inl (by simp [CapStorage.del])), hframe⟩

/-! ## Histories -/

/-- Downstream's rows of one partition after a change. -/
def holdFor (op : Cap) (p : Row) (rows : List Row) (c : Change) : Option (List Row) := Partition.holdFor op.partitionKey hold p rows c

/-- Downstream holds the sample that the slot of `p` tracks. -/
structure Held (op : Cap) (kinds : Nat → Kind) (p : Row) (U : Set Row) (st : CapStorage) (held : List Row) : Prop where
  inv : Inv op kinds U st
  tracks : Tracks op U p held (st (op.keyFromRow p))

theorem Tracks.unique {T' : List Row} {slot : Option (Nat × List (List UInt8))} (hu : KeyUnique op.primaryKey U) (h : Tracks op U p T slot)
    (h' : Tracks op U p T' slot) : T = T' := by
  have hmap : T.map op.ser = T'.map op.ser := (Prod.mk.inj (Option.some.inj (h.slot.symm.trans h'.slot))).2
  exact map_inj_on (fun a ha b hb hser => serializePk_inj hu (h.mem ha).1 (h'.mem hb).1 hser) hmap

theorem push_held {held : List Row} {δ : SourceChange Row} (hu : KeyUnique op.primaryKey U) (hv : ValidChange op.primaryKey U δ)
    (hkeep : op.Keeping kinds δ) (hp : op.Proper kinds p) (hheld : Held op kinds p U st held)
    (hshows : ∀ req, Anchored U req → Shows sort up (applyChange U δ) req) :
    ∃ st' sent held', op.operator.push up st (.ofSource δ) = some (st', sent) ∧ sent.foldlM (op.holdFor p) held = some held' ∧
      Held op kinds p (applyChange U δ) st' held' ∧ ∀ i, ∃ h, (sent.take i).foldlM (op.holdFor p) held = some h ∧ h.length ≤ op.limit := by
  have htyped := hheld.inv.typed
  have hroom := hheld.tracks.length_le
  obtain ⟨res, hpush, hpushes, hinv'⟩ := push_step hv hkeep hu hheld.inv hshows
  have hpush : op.operator.push up st (.ofSource δ) = some (res.1, res.2.map Sent.change) := by simp [operator, hpush]
  refine ⟨res.1, res.2.map Sent.change, ?_⟩
  cases hpushes with
  | dropped hnone hres =>
    subst hres
    have hkey : op.keyFromRow δ.key ≠ op.keyFromRow p := fun hkey => by
      have hslot := hheld.tracks.slot
      rw [← hkey, hnone] at hslot
      cases hslot
    exact ⟨held, hpush, rfl, ⟨hinv', hheld.tracks.other hv htyped hkeep hp hkey⟩, fun i => ⟨held, by simp, hroom⟩⟩
  | followed T T' hq hT hfollows =>
    have hrows : ∀ c ∈ res.2.map Sent.change, op.inPart δ.key c.primaryRow = true := fun c hc => by
      obtain ⟨s, hs, rfl⟩ := List.mem_map.mp hc
      exact hfollows.rows s hs
    by_cases hkey : op.keyFromRow δ.key = op.keyFromRow p
    · have hpart := inPart_congr hq hp hkey.symm
      have htracks := (hheld.tracks.congr (inPart_congr hp hq hkey))
      rw [← hkey] at htracks
      obtain rfl := htracks.unique hu hT
      have hall : ∀ c ∈ res.2.map Sent.change, op.inPart p c.primaryRow = true := fun c hc => hpart ▸ hrows c hc
      refine ⟨T', hpush, (Partition.holdFor_all hall _).trans hfollows.holds.all, ⟨hinv', ?_⟩, fun i => ?_⟩
      · rw [← hkey]
        exact hfollows.tracks.congr hpart
      · obtain ⟨h, hh, hlen⟩ := hfollows.holds.between i
        exact ⟨h, (Partition.holdFor_all (fun c hc => hall c (List.mem_of_mem_take hc)) _).trans hh, hlen⟩
    · have hnone : ∀ c ∈ res.2.map Sent.change, op.inPart p c.primaryRow ≠ true := by
        intro c hc hin
        exact hkey (Partition.key_eq_of_inPart hp hq hin (hrows c hc))
      have hslot : res.1 (op.keyFromRow p) = st (op.keyFromRow p) := hfollows.frame _ fun h => hkey h.symm
      refine ⟨held, hpush, Partition.holdFor_none hnone _, ⟨hinv', ?_⟩,
        fun i => ⟨held, Partition.holdFor_none (fun c hc => hnone c (List.mem_of_mem_take hc)) _, hroom⟩⟩
      rw [hslot]
      exact hheld.tracks.other hv htyped hkeep hp hkey

/-- An action on a partition value. -/
def Action.Fits (op : Cap) (kinds : Nat → Kind) : Action → Prop
  | .fetch q => op.Proper kinds q
  | .evict q => op.Proper kinds q

/-- An action that does not take the slot of `p` away. -/
def Action.Spares (op : Cap) (p : Row) : Action → Prop
  | .fetch _ => True
  | .evict q => op.keyFromRow q ≠ op.keyFromRow p

/-- An action keeps every slot right; one that spares `p` leaves the slot of `p`, if it has one. -/
theorem act_step (hn : 0 < op.limit) (hu : KeyUnique op.primaryKey U) (hinv : Inv op kinds U st) {a : Action} (ha : a.Fits op kinds)
    (hshows : ∀ req, req.multiConstraints = [] → Shows sort up U req) :
    ∃ st', op.operator.act up st a = some st' ∧ Inv op kinds U st' ∧
      (a.Spares op p → st (op.keyFromRow p) ≠ none → st' (op.keyFromRow p) = st (op.keyFromRow p)) := by
  cases a with
  | fetch q =>
    obtain ⟨st', nodes, T, hfetch, hframe, htracks, hsame, -⟩ := fetch_step hn hu hinv ha hshows
    refine ⟨st', by simp [operator, hfetch], hinv.touch ha hframe (Or.inr ⟨T, htracks⟩), fun _ hslot => ?_⟩
    by_cases hkey : op.keyFromRow p = op.keyFromRow q
    · rw [hsame (hkey ▸ hslot)]
    · exact hframe _ hkey
  | evict q =>
    obtain ⟨hinv', hframe⟩ := evict_step hinv ha
    exact ⟨_, rfl, hinv', fun hspare _ => hframe _ fun h => hspare h.symm⟩

theorem keeps_inv (kinds : Nat → Kind) (sort : SortSpec) (hn : 0 < op.limit) :
    Fed.Keeps op.operator sort op.primaryKey (fun (_ : Unit) _ => some ()) (fun U st _ => Inv op kinds U st) (fun _ => True)
      (fun _ _ δ => op.Keeping kinds δ) (fun _ _ a => a.Fits op kinds) where
  push U st _ δ up hu hv hinv hkeep hshows := by
    obtain ⟨res, hres, -, hinv'⟩ := push_step hv hkeep hu hinv hshows
    have hall : ∀ changes : List Change, changes.foldlM (fun (_ : Unit) _ => some ()) () = some () := by
      intro changes
      induction changes with
      | nil => rfl
      | cons c changes ih => exact ih
    exact ⟨res.1, res.2.map Sent.change, (), by simp [operator, hres], hall _, hinv', fun i => ⟨(), hall _, trivial⟩⟩
  act U st _ a up hu hinv ha hshows := by
    obtain ⟨st', hact, hinv', -⟩ := act_step (p := []) hn hu hinv ha hshows
    exact ⟨st', hact, hinv'⟩

theorem keeps_sample (kinds : Nat → Kind) (sort : SortSpec) (hn : 0 < op.limit) (hp : op.Proper kinds p) :
    Fed.Keeps op.operator sort op.primaryKey (op.holdFor p) (Held op kinds p) (fun held => held.length ≤ op.limit)
      (fun _ _ δ => op.Keeping kinds δ) (fun _ _ a => a.Fits op kinds ∧ a.Spares op p) where
  push U st held δ up hu hv hheld hkeep hshows := push_held hu hv hkeep hp hheld hshows
  act U st held a up hu hheld ha hshows := by
    obtain ⟨st', hact, hinv', hslot⟩ := act_step hn hu hheld.inv ha.1 hshows
    refine ⟨st', hact, hinv', ?_⟩
    rw [hslot ha.2 (by rw [hheld.tracks.slot]; simp)]
    exact hheld.tracks

section
variable {s : MemorySource} {id : ConnId} {conn : Connection} {R : Set Row}

/-- Nothing is hydrated. -/
theorem Inv.empty (kinds : Nat → Kind) (htyped : ∀ r ∈ U, op.Typed kinds r) : Inv op kinds U fun _ => none :=
  ⟨htyped, fun _ _ => Or.inl rfl, fun _ _ _ => rfl⟩

/-- A partition fetched after any earlier history, and then any history in which its slot is not dropped: the slot has
    the keys of a sample of the partition's rows, `min limit` of them, each once; what was sent takes the hydrated rows
    to the sample, never with more than `limit` of them held; the sample is empty only if the partition is, and it is
    what a fetch returns, if its keys have no null. -/
theorem cap_tracks (hn : 0 < op.limit) (hpk : op.primaryKey = s.primaryKey) (h : Fed.AtRest s id conn R)
    (htyped : ∀ r ∈ MemorySource.connRows conn R, op.Typed kinds r) (before : List (Fed.Event Action))
    (hbefore : Fed.ValidRun op.operator id conn (fun _ _ δ => op.Keeping kinds δ) (fun _ _ a => a.Fits op kinds)
      ⟨s, fun _ => none⟩ R before) (hp : op.Proper kinds p) :
    ∃ f0 sent0 st nodes T0, Fed.run op.operator id ⟨s, fun _ => none⟩ before = some (f0, sent0) ∧
      op.fetch (f0.source.upstream id) f0.state { constraint := op.constraintFor p } = some (st, nodes) ∧
      Tracks op (MemorySource.connRows conn (before.foldl Fed.Event.apply R)) p T0 (st (op.keyFromRow p)) ∧
      (f0.state (op.keyFromRow p) = none ∨ (∀ t ∈ T0, op.Keyed t) → nodes = T0.map Node.leaf) ∧
      ∀ events, Fed.ValidRun op.operator id conn (fun _ _ δ => op.Keeping kinds δ) (fun _ _ a => a.Fits op kinds ∧ a.Spares op p)
          ⟨f0.source, st⟩ (before.foldl Fed.Event.apply R) events →
        ∃ f sent l T, Fed.run op.operator id ⟨f0.source, st⟩ events = some (f, sent) ∧
          Lists op (MemorySource.connRows conn (events.foldl Fed.Event.apply (before.foldl Fed.Event.apply R))) p l ∧
          f.state (op.keyFromRow p) = some (T.length, T.map op.ser) ∧ (T.map op.ser).Nodup ∧ T ⊆ l ∧ T.length = min op.limit l.length ∧
          sent.foldlM (op.holdFor p) T0 = some T ∧ (T = [] ↔ l = []) ∧
          (∀ i, ∃ held, (sent.take i).foldlM (op.holdFor p) T0 = some held ∧ held.length ≤ op.limit) ∧
          ∃ st' nodes', op.fetch (f.source.upstream id) f.state { constraint := op.constraintFor p } = some (st', nodes') ∧
            ((∀ t ∈ T, op.Keyed t) → nodes' = T.map Node.leaf) := by
  have hkeeps0 := keeps_inv kinds conn.sort hn
  rw [hpk] at hkeeps0
  obtain ⟨f0, sent0, -, hrun0, hrest0, hkey0, -, hinv0, -⟩ := Fed.run_keeps (f := ⟨s, fun _ => none⟩)
    (fun _ _ _ _ => trivial) before () hkeeps0 h (Inv.empty kinds htyped) hbefore
  have hkey0 : op.primaryKey = f0.source.primaryKey := hpk.trans hkey0.symm
  have hunique0 := hrest0.unique
  rw [← hkey0] at hunique0
  obtain ⟨st, nodes, T0, hfetch, hframe, htracks, -, hnodes⟩ := fetch_step hn hunique0 hinv0 hp fun req hreq => hrest0.shows hreq
  refine ⟨f0, sent0, st, nodes, T0, hrun0, hfetch, htracks, hnodes, fun events hvalid => ?_⟩
  have hkeeps := keeps_sample kinds conn.sort hn hp
  rw [hkey0] at hkeeps
  have hheld0 : Held op kinds p (MemorySource.connRows conn (before.foldl Fed.Event.apply R)) st T0 :=
    ⟨hinv0.touch hp hframe (Or.inr ⟨T0, htracks⟩), htracks⟩
  obtain ⟨f, sent, T, hrun, hrest, hkey, -, hheld, hholds⟩ :=
    Fed.run_keeps (f := ⟨f0.source, st⟩) (fun _ _ _ hk => hk.tracks.length_le) events _ hkeeps hrest0 hheld0 hvalid
  have hkey : op.primaryKey = f.source.primaryKey := hkey0.trans hkey.symm
  have hunique := hrest.unique
  rw [← hkey] at hunique
  obtain ⟨l, hl, hs⟩ := hheld.tracks.sample
  have hcount := hs.count
  have hser : (T.map op.ser).Nodup := hs.nodup.map_on fun a ha b hb =>
    serializePk_inj hunique (hheld.tracks.mem ha).1 (hheld.tracks.mem hb).1
  have hempty : T = [] ↔ l = [] := by
    rw [← List.length_eq_zero_iff, ← List.length_eq_zero_iff (l := l)]
    omega
  obtain ⟨st', nodes', T', hfetch', -, htracks', hsame, hnodes'⟩ := fetch_step hn hunique hheld.inv hp fun req hreq => hrest.shows hreq
  have hslot : f.state (op.keyFromRow p) ≠ none := by
    rw [hheld.tracks.slot]
    simp
  rw [hsame hslot] at htracks'
  obtain rfl := hheld.tracks.unique hunique htracks'
  exact ⟨f, sent, l, T, hrun, hl, hheld.tracks.slot, hser, hs.subset, hcount, hholds.all, hempty, hholds.between, st', nodes', hfetch',
    fun hkeyed => hnodes' (Or.inr hkeyed)⟩

/-- One row of each group. -/
def oneOf : Cap := { limit := 1, partitionKey := some [1], primaryKey := [0] }

/-- Group 1 has two rows; the one let through goes and the other comes for it. -/
theorem cap_tracks_refill : ∃ s0 s st nodes T0, MemorySource.tryNew 2 [0] [[.int 1, .int 1], [.int 2, .int 1]] = .ok s0 ∧
    [MemorySource.Op.connect (some [(0, true)]) none [], .setConnOutput ⟨0, 0⟩].foldlM MemorySource.Op.run s0 = some s ∧
    oneOf.fetch (s.upstream ⟨0, 0⟩) (fun _ => none) { constraint := oneOf.constraintFor [.null, .int 1] } = some (st, nodes) ∧
    nodes = T0.map Node.leaf ∧
    ∃ f sent l T, Fed.run oneOf.operator ⟨0, 0⟩ ⟨s, st⟩ [.push (.remove [.int 1, .int 1]) (fun _ _ => []) true] = some (f, sent) ∧
      Lists oneOf {r | r = [.int 2, .int 1]} [.null, .int 1] l ∧ T ⊆ l ∧ T.length = min 1 l.length ∧
      sent.foldlM (oneOf.holdFor [.null, .int 1]) T0 = some T := by
  obtain ⟨s0, hnew⟩ : ∃ s0, MemorySource.tryNew 2 [0] [[.int 1, .int 1], [.int 2, .int 1]] = .ok s0 := ⟨_, rfl⟩
  obtain ⟨s, hrun, hrest, hkey⟩ := Fed.atRest_new [(0, true)] hnew (by decide +kernel) (by decide)
  have htyped : ∀ r : Row, r.cell 1 = .int 1 → oneOf.Typed (fun _ => .number) r := fun r hr c hc => by
    rw [List.mem_singleton.mp hc, hr]
    rfl
  have hp : oneOf.Proper (fun _ => .number) [.null, .int 1] := fun c hc => by
    rw [List.mem_singleton.mp hc]
    rfl
  have hrows : ∀ r ∈ MemorySource.connRows { sort := [(0, true)], output := true } {r | r ∈ [[Value.int 1, .int 1], [.int 2, .int 1]]},
      oneOf.Typed (fun _ => .number) r := by
    rintro r ⟨hr, -⟩
    simp only [Set.mem_ofPred_eq, List.mem_cons, List.not_mem_nil, or_false] at hr
    rcases hr with rfl | rfl <;> exact htyped _ rfl
  obtain ⟨f0, sent0, st, nodes, T0, hrun0, hfetch, -, hnodes, hall⟩ :=
    cap_tracks (show 0 < oneOf.limit by decide) hkey.symm hrest hrows [] trivial hp
  obtain rfl : (⟨s, fun _ => none⟩ : Fed CapStorage) = f0 := (Prod.mk.inj (Option.some.inj hrun0)).1
  obtain ⟨f, sent, l, T, hrun', hl, -, -, hsub, hlen, hheld, -⟩ :=
    hall [.push (.remove [.int 1, .int 1]) (fun _ _ => []) true] (by
      refine ⟨⟨List.mem_cons_self, fun _ _ r hr => (by cases hr), fun δ hδ => ?_⟩, fun _ _ => trivial⟩
      obtain rfl := Option.some.inj hδ
      exact ⟨fun r hr => (by cases hr), fun _ _ h => (by cases h)⟩)
  refine ⟨s0, s, st, nodes, T0, hnew, hrun, hfetch, hnodes (Or.inl rfl), f, sent, l, T, hrun', ?_, hsub, hlen, hheld⟩
  have hleft : MemorySource.connRows { sort := [(0, true)], output := true }
      (applyChange {r | r ∈ [[Value.int 1, .int 1], [.int 2, .int 1]]} (.remove [.int 1, .int 1])) = {r | r = [.int 2, .int 1]} := by
    ext r
    simp only [MemorySource.connRows, Connection.accepts, applyChange, Set.mem_ofPred_eq, Set.mem_sdiff, Set.mem_singleton_iff,
      List.mem_cons, List.not_mem_nil, or_false, Option.all_none, and_true]
    constructor
    · rintro ⟨rfl | rfl, hne⟩
      · exact absurd rfl hne
      · rfl
    · rintro rfl
      exact ⟨Or.inr rfl, by decide⟩
  rw [← hleft]
  exact hl

end

end Rindle.Cap
