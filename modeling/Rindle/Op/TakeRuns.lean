/-
  Rindle.Op.TakeRuns — Take over the history of its source.

  Every partition with a slot has the window its slot says (`Inv`), whatever is pushed, fetched
  or evicted in between. Without a partition key the rows sent on are always the first `limit`
  (`unpartitioned_window`). With one this holds for a fetched partition as long as no row comes to
  it after its last one went: the slot goes with the last row and later rows are dropped
  (`partitioned_window`, `partition_refill_dropped`).
-/

import Rindle.Op.TakeWindow
import Rindle.Op.Fed
import Rindle.Op.Partition

set_option linter.dupNamespace false

namespace Rindle.Take

/-- Between pushes a partition is fetched, or dropped as its parent leaves the view. -/
inductive Action where
  | fetch (p : Row)
  | evict (p : Row)

def operator (op : Take) : Operator Storage Action where
  push up st change := (op.push up st change).map fun r => (r.1, r.2.map Sent.change)
  act up st
    | .fetch p => (op.fetch up st none { constraint := op.constraintFor p }).map (·.1)
    | .evict p => some (op.evictPartition st ((op.constraintFor p).getD []))

/-! ## Partitions -/

/-- The partition columns. -/
def cols (op : Take) : List Nat := op.partitionKey.getD []

/-- The row is in the partition of `p`. -/
def inPart (op : Take) (p r : Row) : Bool := constraintHolds (op.constraintFor p) r

/-- The partition cells have their column's type; they may be null. -/
def Typed (op : Take) (kinds : Nat → Kind) (r : Row) : Prop := ∀ c ∈ op.cols, (r.cell c).fits (kinds c) = true

/-- A partition value: no cell is null. -/
def Proper (op : Take) (kinds : Nat → Kind) (p : Row) : Prop := ∀ c ∈ op.cols, (p.cell c).kind = some (kinds c)

variable {op : Take} {kinds : Nat → Kind} {p q r : Row}

theorem Proper.typed (h : op.Proper kinds p) : op.Typed kinds p := fun c hc => Value.fits_of_kind (h c hc)

theorem inPart_iff : op.inPart p r = true ↔ ∀ c ∈ op.cols, (r.cell c).joinEq (p.cell c) = true := Partition.inPart_iff

theorem keyFromRow_eq (r : Row) : op.keyFromRow r = encodeStateKey keyPrefix (op.cols.map fun c => r.cell c) := Partition.keyFromRow_eq r

theorem key_ne_maxBound (r : Row) : op.keyFromRow r ≠ maxBoundKey := by
  rw [keyFromRow_eq]
  intro h
  have h := congrArg List.head? h
  simp [encodeStateKey, keyPrefix, maxBoundKey] at h

/-- Of typed rows the key is the partition's cells. -/
theorem key_eq_iff (hp : op.Typed kinds p) (hr : op.Typed kinds r) :
    op.keyFromRow r = op.keyFromRow p ↔ ∀ c ∈ op.cols, Value.cmp (r.cell c) (p.cell c) = .eq :=
  Partition.key_eq_iff hp hr

theorem inPart_iff_key (hp : op.Proper kinds p) (hr : op.Typed kinds r) : op.inPart p r = true ↔ op.keyFromRow r = op.keyFromRow p := Partition.inPart_iff_key hp hr

theorem inPart_self (hp : op.Proper kinds p) : op.inPart p p = true := (inPart_iff_key hp hp.typed).mpr rfl

/-- The rows of a partition value's key are partition values. -/
theorem Proper.of_key (hp : op.Proper kinds p) (hr : op.Typed kinds r) (h : op.keyFromRow r = op.keyFromRow p) : op.Proper kinds r := Partition.Proper.of_key hp hr h

/-- Partition values with one key are one partition. -/
theorem inPart_congr (hp : op.Proper kinds p) (hq : op.Proper kinds q) (h : op.keyFromRow q = op.keyFromRow p) : op.inPart q = op.inPart p := Partition.inPart_congr hp hq h

theorem keyFromConstraint_eq (p : Row) : op.keyFromConstraint (op.constraintFor p) = op.keyFromRow p := Partition.keyFromConstraint_eq p

theorem partitionMatch_constraintFor (p : Row) : op.partitionMatch { constraint := op.constraintFor p } = true := by
  unfold partitionMatch constraintFor
  cases op.partitionKey with
  | none => rfl
  | some pk => simp [Partition.matches_constraintFor]

/-! ## The rows of a partition -/

/-- The rows of `U` in the partition of `p`, sorted. -/
structure Lists (op : Take) (U : Set Row) (p : Row) (l : List Row) : Prop where
  sorted : SList.Sorted op.cmp l
  mem : ∀ r, r ∈ l ↔ r ∈ U ∧ op.inPart p r = true

variable {U : Set Row} {l l' : List Row} {δ : SourceChange Row} {pk : List Nat} {up : Upstream} {st : Storage}

theorem Lists.unique (h : Lists op U p l) (h' : Lists op U p l') : l = l' :=
  h.sorted.ext h'.sorted fun r => (h.mem r).trans (h'.mem r).symm

theorem Lists.congr (h : op.inPart q = op.inPart p) : Lists op U p l ↔ Lists op U q l :=
  ⟨fun hl => ⟨hl.sorted, h ▸ hl.mem⟩, fun hl => ⟨hl.sorted, h ▸ hl.mem⟩⟩

theorem Lists.of_shows (h : Shows op.sort up U { constraint := op.constraintFor p }) :
    ∃ l, up { constraint := op.constraintFor p } = some (l.map Node.leaf) ∧ Lists op U p l := by
  obtain ⟨rows, hup, hsorted, hmem⟩ := h
  refine ⟨rows, hup, hsorted, fun r => ?_⟩
  rw [hmem r]
  simp [asks, inPart]

/-- A change that keeps the partition columns, with typed rows. -/
structure Keeping (op : Take) (kinds : Nat → Kind) (δ : SourceChange Row) : Prop where
  typed : ∀ r, δ.result = some r → op.Typed kinds r
  part : ∀ old row, δ = .edit old row → op.partitionKey.all (partitionKeyUnchanged old row) = true

theorem unchanged_iff {old row : Row} :
    op.partitionKey.all (partitionKeyUnchanged old row) = true ↔ ∀ c ∈ op.cols, Value.cmp (old.cell c) (row.cell c) = .eq :=
  Partition.unchanged_iff

variable (hu : KeyUnique pk U) (hcov : SortSpec.Covers op.sort pk) (hv : ValidChange pk U δ) (htyped : ∀ r ∈ U, op.Typed kinds r)
  (hkeep : Keeping op kinds δ)

include hv htyped hkeep in
theorem typed_changedRow : op.Typed kinds (changedRow δ) := by
  cases δ with
  | add r => exact hkeep.typed r rfl
  | remove r => exact htyped r hv
  | edit old row => exact htyped old hv.1

include hv htyped hkeep in
/-- The new row of a change has the key of the row it is for. -/
theorem result_key (hr : δ.result = some r) : op.keyFromRow r = op.keyFromRow (changedRow δ) := by
  cases δ with
  | add a => rw [← Option.some.inj hr]; rfl
  | remove a => cases hr
  | edit old row =>
    obtain rfl := Option.some.inj hr
    have h := unchanged_iff.mp (hkeep.part old row rfl)
    exact (key_eq_iff (htyped old hv.1) (hkeep.typed row rfl)).mpr fun c hc => SList.eq_comm.mp (h c hc)

include hu hcov hv htyped hkeep in
theorem Lists.patched (hq : op.Proper kinds (changedRow δ)) (h : Lists op U (changedRow δ) l) :
    Lists op (applyChange U δ) (changedRow δ) (SList.patch op.cmp l δ) := by
  refine ⟨SList.sorted_patch h.sorted δ, fun r => ?_⟩
  have hleaves := ValidChange.leaves hu hv hcov (x := r)
  rw [SList.mem_patch h.sorted, ← hleaves, h.mem]
  have hres : δ.result = some r → op.inPart (changedRow δ) r = true := fun hr =>
    (inPart_iff_key hq (hkeep.typed r hr)).mpr (result_key hv htyped hkeep hr)
  constructor
  · rintro (hr | ⟨⟨hU, hpart⟩, hl⟩)
    · exact ⟨Or.inl hr, hres hr⟩
    · exact ⟨Or.inr ⟨hU, hl⟩, hpart⟩
  · rintro ⟨hr | ⟨hU, hl⟩, hpart⟩
    · exact Or.inl hr
    · exact Or.inr ⟨⟨hU, hpart⟩, hl⟩

include hv htyped hkeep in
/-- Another partition's rows stay. -/
theorem Lists.other (hp : op.Proper kinds p) (hne : op.keyFromRow (changedRow δ) ≠ op.keyFromRow p) (h : Lists op U p l) :
    Lists op (applyChange U δ) p l := by
  refine ⟨h.sorted, fun r => ?_⟩
  rw [h.mem, MemorySource.mem_applyChange]
  have hnew : (Overlays.ofChange δ).add = some r → op.inPart p r ≠ true := by
    intro hr hpart
    have hres : δ.result = some r := by cases δ <;> exact hr
    exact hne ((result_key hv htyped hkeep hres).symm.trans ((inPart_iff_key hp (hkeep.typed r hres)).mp hpart))
  have hold : (Overlays.ofChange δ).remove = some r → op.inPart p r ≠ true := by
    intro hr hpart
    have hrow : changedRow δ = r := by
      cases δ with
      | add a => cases hr
      | remove a => exact Option.some.inj hr
      | edit old row => exact Option.some.inj hr
    rw [hrow] at hne
    exact hne ((inPart_iff_key hp (htyped r (MemorySource.ValidChange.removed hv hr))).mp hpart)
  constructor
  · intro hr
    exact ⟨Or.inr ⟨hr.1, fun h => hold h hr.2⟩, hr.2⟩
  · rintro ⟨hr | hr, hpart⟩
    · exact absurd hpart (hnew hr)
    · exact ⟨hr.1, hpart⟩

/-! ## One push -/

/-- Every partition's slot, if it has one, says its window; a null partition has none. -/
structure Inv (op : Take) (kinds : Nat → Kind) (U : Set Row) (st : Storage) : Prop where
  typed : ∀ r ∈ U, op.Typed kinds r
  top : TopSlot st
  slots : ∀ p, op.Proper kinds p → ∃ l, Lists op U p l ∧
    (st (op.keyFromRow p) = none ∨ SlotOk op (fun r => op.inPart p r = true) l (st (op.keyFromRow p)))
  nulls : ∀ r, op.Typed kinds r → ¬ op.Proper kinds r → st (op.keyFromRow r) = none

theorem serves_of_shows (hshows : ∀ req, Anchored U req → Shows op.sort up (applyChange U δ) req)
    (hl' : Lists op (applyChange U δ) p l') {b x : Row} (hb : op.inPart p b = true) (hx : x ∈ U) (hxp : op.inPart p x = true) :
    Serves op up (op.constraintFor p) b l' := by
  intro basis reverse
  obtain ⟨rows, hup, hsorted, hmem⟩ := hshows { start := some ⟨b, basis⟩, constraint := op.constraintFor p, reverse }
    ⟨rfl, fun start hs => by rw [← Option.some.inj hs]; exact ⟨hb, x, hx, hxp⟩⟩
  refine ⟨_, hup, ?_⟩
  rw [List.map_map, show Node.row ∘ Node.leaf = id from rfl, List.map_id]
  have hdir : SList.Sorted (SList.dirCmp reverse op.cmp) (if reverse then l'.reverse else l') := SList.sorted_dirCmp.mpr hl'.sorted
  refine SList.Sorted.ext hsorted (hdir.sublist List.filter_sublist) fun r => ?_
  have hin : r ∈ (if reverse then l'.reverse else l') ↔ r ∈ l' := by cases reverse <;> simp
  rw [hmem, SList.scanFrom, List.mem_filter, hin, hl'.mem, asks, Bool.and_eq_true, and_assoc]
  refine and_congr_right fun _ => and_comm.trans (and_congr_right fun _ => ?_)
  cases basis <;> rfl

/-- What a push does: nothing for a partition without a slot, a repair for one with. -/
inductive Pushes (op : Take) (kinds : Nat → Kind) (U : Set Row) (st : Storage) (δ : SourceChange Row) (r : Storage × List Sent) : Prop
  | dropped : st (op.keyFromRow (changedRow δ)) = none → r = (st, []) → Pushes op kinds U st δ r
  | repaired (l : List Row) : op.Proper kinds (changedRow δ) → Lists op U (changedRow δ) l →
      SlotOk op (fun r => op.inPart (changedRow δ) r = true) l (st (op.keyFromRow (changedRow δ))) →
      Lists op (applyChange U δ) (changedRow δ) (SList.patch op.cmp l δ) →
      Repaired op st (op.keyFromRow (changedRow δ)) l (SList.patch op.cmp l δ) r →
      KeptOrDrained op (fun r => op.inPart (changedRow δ) r = true) (SList.patch op.cmp l δ) (r.1 (op.keyFromRow (changedRow δ))) →
      Pushes op kinds U st δ r

include hcov in
/-- A change that fits the rows fits the sorted rows of its partition. -/
theorem Lists.fits (hv : ValidChange pk U δ) (hkeep : Keeping op kinds δ) (hq : op.Proper kinds (changedRow δ))
    (h : Lists op U (changedRow δ) l) : FitsRows op l δ := by
  have hself : op.inPart (changedRow δ) (changedRow δ) = true := inPart_self hq
  cases δ with
  | add r => exact fun x hx htie => hv x ((h.mem x).mp hx).1 (hcov.key_tie htie)
  | remove r => exact (h.mem r).mpr ⟨hv, hself⟩
  | edit old row =>
    refine ⟨(h.mem old).mpr ⟨hv.1, hself⟩, fun x hx htie => ?_, hkeep.part old row rfl⟩
    obtain ⟨hxl, hne⟩ := (SList.mem_erase h.sorted).mp hx
    refine hv.2 x ((h.mem x).mp hxl).1 (fun hxo => hne ?_) (hcov.key_tie htie)
    rw [hxo]
    exact Std.ReflCmp.compare_self

include hu hcov in
theorem push_step (hn : 0 < op.limit) (hinv : Inv op kinds U st) (hv : ValidChange pk U δ) (hkeep : Keeping op kinds δ)
    (hshows : ∀ req, Anchored U req → Shows op.sort up (applyChange U δ) req) :
    ∃ r, op.push up st (.ofSource δ) = some r ∧ Pushes op kinds U st δ r ∧ Inv op kinds (applyChange U δ) r.1 := by
  have htyped := hinv.typed
  have hq := typed_changedRow hv htyped hkeep
  have htyped' : ∀ r ∈ applyChange U δ, op.Typed kinds r := by
    intro r hr
    rw [← ValidChange.leaves hu hv hcov] at hr
    rcases hr with hr | hr
    · exact hkeep.typed r hr
    · exact htyped r hr.1
  by_cases hslot : st (op.keyFromRow (changedRow δ)) = none
  · refine ⟨(st, []), push_dropped hslot hkeep.part, .dropped hslot rfl, htyped', hinv.top, fun p hp => ?_, hinv.nulls⟩
    obtain ⟨l, hl, hok⟩ := hinv.slots p hp
    by_cases hkey : op.keyFromRow (changedRow δ) = op.keyFromRow p
    · -- the partition itself: its rows change, but it has no slot
      have hq' : op.Proper kinds (changedRow δ) := hp.of_key hq hkey
      rw [Lists.congr (inPart_congr hp hq' hkey)] at hl
      have hpatched := hl.patched hu hcov hv htyped hkeep hq'
      exact ⟨_, (Lists.congr (inPart_congr hp hq' hkey)).mpr hpatched, Or.inl (hkey ▸ hslot)⟩
    · exact ⟨l, hl.other hv htyped hkeep hp hkey, hok⟩
  · have hq' : op.Proper kinds (changedRow δ) := by
      by_contra hnot
      exact hslot (hinv.nulls _ hq hnot)
    obtain ⟨l, hl, hok⟩ := hinv.slots _ hq'
    have hok := hok.resolve_left hslot
    have hl' := hl.patched hu hcov hv htyped hkeep hq'
    obtain ⟨r, hr, hrep, hkept, -⟩ := push_repairs hn (key_ne_maxBound _) hinv.top hok (hl.fits hcov hv hkeep hq')
      (fun x hx => ((hl'.mem x).mp hx).2)
      fun b x hb hx _ => serves_of_shows hshows hl' hb ((hl.mem x).mp hx).1 ((hl.mem x).mp hx).2
    refine ⟨r, hr, .repaired l hq' hl hok hl' hrep hkept, htyped', hrep.top, fun p hp => ?_, fun x hx hnull => ?_⟩
    · by_cases hkey : op.keyFromRow (changedRow δ) = op.keyFromRow p
      · have hpart := inPart_congr hp hq' hkey
        refine ⟨_, (Lists.congr hpart).mpr hl', ?_⟩
        rw [← hkey, ← hpart]
        rcases hkept with hkept | ⟨-, hnone, -⟩
        · exact Or.inr hkept
        · exact Or.inl hnone
      · obtain ⟨m, hm, hmok⟩ := hinv.slots p hp
        refine ⟨m, hm.other hv htyped hkeep hp hkey, ?_⟩
        rw [hrep.frame _ (fun h => hkey h.symm) (key_ne_maxBound p)]
        exact hmok
    · rw [hrep.frame _ (fun h => hnull (hq'.of_key hx h)) (key_ne_maxBound x)]
      exact hinv.nulls x hx hnull

/-! ## Fetches and evictions -/

/-- Only the slot of `p` and the largest bound may differ. -/
def Touches (op : Take) (p : Row) (st st' : Storage) : Prop := ∀ k, k ≠ op.keyFromRow p → k ≠ maxBoundKey → st' k = st k

theorem Inv.touch (hinv : Inv op kinds U st) (hp : op.Proper kinds p) {st' : Storage} (hframe : Touches op p st st') (htop : TopSlot st')
    (hl : Lists op U p l)
    (hslot : st' (op.keyFromRow p) = none ∨ SlotOk op (fun r => op.inPart p r = true) l (st' (op.keyFromRow p))) :
    Inv op kinds U st' := by
  refine ⟨hinv.typed, htop, fun q hq => ?_, fun r hr hnull => ?_⟩
  · by_cases hkey : op.keyFromRow q = op.keyFromRow p
    · have hpart := inPart_congr hp hq hkey
      refine ⟨l, (Lists.congr hpart).mp hl, ?_⟩
      rw [hkey, hpart]
      exact hslot
    · obtain ⟨m, hm, hok⟩ := hinv.slots q hq
      refine ⟨m, hm, ?_⟩
      rw [hframe _ hkey (key_ne_maxBound q)]
      exact hok
  · rw [hframe _ (fun h => hnull (hp.of_key hr h)) (key_ne_maxBound r)]
    exact hinv.nulls r hr hnull

theorem takeWhile_window {size : Nat} {b : Row} (hw : SList.Window op.cmp op.limit l size (some b)) :
    l.takeWhile (fun r => op.cmp b r != .lt) = l.take op.limit := by
  cases hw with
  | @cut A b' B bound hc hb =>
    have hA : ∀ x ∈ A ++ [b'], (op.cmp b x != .lt) = true := by
      intro x hx
      have hle := SList.le_last hc.window_sorted hx
      rw [bne_iff_ne, show op.cmp b x = op.cmp b' x from Std.TransCmp.congr_left hb]
      exact fun hlt => hle (SList.gt_iff_lt.mpr hlt)
    rw [hc.take, show A ++ b' :: B = (A ++ [b']) ++ B by simp, List.takeWhile_append_of_pos hA]
    cases B with
    | nil => simp
    | cons y B =>
      have hy : op.cmp b y = .lt := Std.TransCmp.lt_of_eq_of_lt hb (hc.past y List.mem_cons_self)
      simp [hy]

/-- A fetch of a partition returns its window, and leaves it a slot. -/
theorem fetch_step (hn : 0 < op.limit) (hinv : Inv op kinds U st) (hp : op.Proper kinds p)
    (hshows : ∀ req, req.multiConstraints = [] → Shows op.sort up U req) :
    ∃ st' nodes l, op.fetch up st none { constraint := op.constraintFor p } = some (st', nodes) ∧ Lists op U p l ∧
      nodes.map Node.row = l.take op.limit ∧ Touches op p st st' ∧ TopSlot st' ∧
      SlotOk op (fun r => op.inPart p r = true) l (st' (op.keyFromRow p)) := by
  obtain ⟨l, hup, hl⟩ := Lists.of_shows (hshows { constraint := op.constraintFor p } rfl)
  have hrows : ∀ m : List Row, (m.map Node.leaf).map Node.row = m := fun m => by simp [Function.comp_def]
  have hmatch : op.partitionMatch { constraint := op.constraintFor p } = true := partitionMatch_constraintFor p
  obtain ⟨m, hm, hslot⟩ := hinv.slots p hp
  obtain rfl := hm.unique hl
  obtain ⟨maxBound, hmax⟩ := getMaxBound_top hinv.top
  unfold fetch
  simp only [hmatch, if_true, keyFromConstraint_eq]
  rcases hslot with hnone | hok
  · -- not hydrated yet
    have hstate : getState st (op.keyFromRow p) = some none := by simp [getState, hnone]
    have hlast : ((m.map Node.leaf).take op.limit).getLast?.map Node.row = (m.take op.limit).getLast? := by
      rw [← List.map_take, List.getLast?_map, Option.map_map]
      exact Option.map_id_apply
    have hlen : ((m.map Node.leaf).take op.limit).length = (m.take op.limit).length := by rw [← List.map_take, List.length_map]
    simp only [hstate, initialFetch, Option.isSome_none, Bool.or_self, Bool.false_eq_true, if_false, Nat.ne_of_gt hn, hup, hmax,
      keyFromConstraint_eq, Option.bind_eq_bind, Option.bind_some, hlast, hlen]
    refine ⟨_, _, m, rfl, hl, ?_, fun k hk hk' => setState_frame _ _ hk hk', setState_top (key_ne_maxBound p) hinv.top _ _, ?_⟩
    · rw [← List.map_take, hrows]
    · rw [setState_key (key_ne_maxBound p)]
      have hw := SList.exists_window hl.sorted hn fun a => Std.ReflCmp.compare_self
      refine ⟨_, _, rfl, hw, fun b hb => ((hl.mem b).mp ?_).2⟩
      exact (List.take_sublist _ _).subset (List.mem_of_getLast? hb)
  · obtain ⟨size, bound, hsome, hw, hb⟩ := hok
    have hstate : getState st (op.keyFromRow p) = some (some (size, bound)) := by simp [getState, hsome]
    have hok' : SlotOk op (fun r => op.inPart p r = true) m (st (op.keyFromRow p)) := ⟨size, bound, hsome, hw, hb⟩
    simp only [hstate, Option.bind_eq_bind, Option.bind_some]
    cases bound with
    | none =>
      have hnil : m = [] := by
        cases hw
        rfl
      exact ⟨st, [], m, rfl, hl, by simp [hnil], fun _ _ _ => rfl, hinv.top, hok'⟩
    | some b =>
      simp only [hup, Option.bind_some]
      refine ⟨st, _, m, rfl, hl, ?_, fun _ _ _ => rfl, hinv.top, hok'⟩
      rw [List.filter_eq_self.mpr (by simp), List.takeWhile_map, hrows]
      exact takeWhile_window hw

theorem evict_step (hinv : Inv op kinds U st) (hp : op.Proper kinds p) :
    Inv op kinds U (op.evictPartition st ((op.constraintFor p).getD [])) ∧
      Touches op p st (op.evictPartition st ((op.constraintFor p).getD [])) := by
  have hkey : op.keyFromConstraint (op.constraintFor p) = op.keyFromRow p := keyFromConstraint_eq p
  unfold evictPartition
  unfold constraintFor at hkey ⊢
  cases hpk : op.partitionKey with
  | none => exact ⟨hinv, fun _ _ _ => rfl⟩
  | some pk =>
    rw [hpk, Option.map_some] at hkey
    simp only [Option.map_some, Option.getD_some, Partition.matches_constraintFor, if_true, hkey]
    have hframe : Touches op p st (st.del (op.keyFromRow p)) := fun k hk _ => by simp [Storage.del, hk]
    obtain ⟨l, hl, -⟩ := hinv.slots p hp
    refine ⟨hinv.touch hp hframe (fun size bound => ?_) hl (Or.inl (by simp [Storage.del])), hframe⟩
    simp only [Storage.del, if_neg (key_ne_maxBound p).symm]
    exact hinv.top size bound

/-! ## Histories -/

/-- Downstream's rows of one partition after a change. -/
def holdFor (op : Take) (p : Row) (rows : List Row) (c : Change) : Option (List Row) :=
  if op.inPart p c.primaryRow then hold op.cmp rows c else some rows

theorem holdFor_all {changes : List Change} (h : ∀ c ∈ changes, op.inPart p c.primaryRow = true) (rows : List Row) :
    changes.foldlM (op.holdFor p) rows = holdAll op.cmp rows changes :=
  Partition.holdFor_all h rows

theorem holdFor_none {changes : List Change} (h : ∀ c ∈ changes, op.inPart p c.primaryRow ≠ true) (rows : List Row) :
    changes.foldlM (op.holdFor p) rows = some rows :=
  Partition.holdFor_none h rows

/-- Downstream holds the window of `p`; only an empty partition may be without a slot. -/
structure Held (op : Take) (kinds : Nat → Kind) (p : Row) (U : Set Row) (st : Storage) (held : List Row) : Prop where
  inv : Inv op kinds U st
  window : ∃ l, Lists op U p l ∧ held = l.take op.limit ∧ (st (op.keyFromRow p) = none → l = [])

theorem Held.room {held : List Row} (h : Held op kinds p U st held) : held.length ≤ op.limit := by
  obtain ⟨l, -, rfl, -⟩ := h.window
  exact List.length_take_le _ _

/-- A row is added to `p` only while it has a slot. -/
def NoRefill (op : Take) (p : Row) (st : Storage) (δ : SourceChange Row) : Prop :=
  ∀ r, δ = .add r → op.inPart p r = true → st (op.keyFromRow p) ≠ none

include hu hcov in
theorem push_held (hn : 0 < op.limit) (hp : op.Proper kinds p) {held : List Row} (hheld : Held op kinds p U st held)
    (hv : ValidChange pk U δ) (hkeep : Keeping op kinds δ) (hadm : NoRefill op p st δ)
    (hshows : ∀ req, Anchored U req → Shows op.sort up (applyChange U δ) req) :
    ∃ st' sent held', op.operator.push up st (.ofSource δ) = some (st', sent) ∧ sent.foldlM (op.holdFor p) held = some held' ∧
      Held op kinds p (applyChange U δ) st' held' ∧
      (∀ i, ∃ h, (sent.take i).foldlM (op.holdFor p) held = some h ∧ h.length ≤ op.limit) ∧
      (op.partitionKey = none → st (op.keyFromRow p) ≠ none → st' (op.keyFromRow p) ≠ none) := by
  have htyped := hheld.inv.typed
  have hq := typed_changedRow hv htyped hkeep
  have hroom := hheld.room
  obtain ⟨m, hm, rfl, hempty⟩ := hheld.window
  obtain ⟨r, hr, hpushes, hinv'⟩ := push_step hu hcov hn hheld.inv hv hkeep hshows
  have hpush : op.operator.push up st (.ofSource δ) = some (r.1, r.2.map Sent.change) := by simp [operator, hr]
  refine ⟨r.1, r.2.map Sent.change, ?_⟩
  cases hpushes with
  | dropped hnone hr' =>
    subst hr'
    refine ⟨m.take op.limit, hpush, rfl, ⟨hinv', m, ?_, rfl, hempty⟩, fun i => ⟨m.take op.limit, by simp, hroom⟩, fun _ h => h⟩
    by_cases hkey : op.keyFromRow (changedRow δ) = op.keyFromRow p
    · -- the partition has no slot, so it is empty and nothing can change in it
      have hm0 : m = [] := hempty (hkey ▸ hnone)
      have hin : op.inPart p (changedRow δ) = true := (inPart_iff_key hp hq).mpr hkey
      have hnot : ∀ x ∈ U, op.inPart p x ≠ true := fun x hx hxp => by
        have hxm := (hm.mem x).mpr ⟨hx, hxp⟩
        rw [hm0] at hxm
        cases hxm
      cases δ with
      | add a => exact absurd (hkey ▸ hnone) (hadm a rfl hin)
      | remove a => exact absurd hin (hnot a hv)
      | edit old row => exact absurd hin (hnot old hv.1)
    · exact hm.other hv htyped hkeep hp hkey
  | repaired l hq' hl hok hl' hrep hkept =>
    have hrows : ∀ c ∈ r.2.map Sent.change, op.inPart (changedRow δ) c.primaryRow = true ∧ op.Typed kinds c.primaryRow := by
      intro c hc
      obtain ⟨s, hs, rfl⟩ := List.mem_map.mp hc
      rcases hrep.rows s hs with h | h
      · exact ⟨((hl.mem _).mp h).2, htyped _ ((hl.mem _).mp h).1⟩
      · exact ⟨((hl'.mem _).mp h).2, hinv'.typed _ ((hl'.mem _).mp h).1⟩
    by_cases hkey : op.keyFromRow (changedRow δ) = op.keyFromRow p
    · have hpart := inPart_congr hp hq' hkey
      obtain rfl := hm.unique ((Lists.congr hpart).mpr hl)
      have hall : ∀ c ∈ r.2.map Sent.change, op.inPart p c.primaryRow = true := fun c hc => hpart ▸ (hrows c hc).1
      refine ⟨_, hpush, (holdFor_all hall _).trans hrep.held, ⟨hinv', _, (Lists.congr hpart).mpr hl', rfl, fun hnone => ?_⟩,
        fun i => ?_, fun hglobal _ hnone => ?_⟩
      · rcases hkept with ⟨size, bound, hsome, -⟩ | ⟨hnil, -⟩
        · rw [hkey, hnone] at hsome
          cases hsome
        · exact hnil
      · obtain ⟨h, hh, hlen⟩ := hrep.room i
        exact ⟨h, (holdFor_all (fun c hc => hall c (List.mem_of_mem_take hc)) _).trans hh, hlen⟩
      · rcases hkept with ⟨size, bound, hsome, -⟩ | ⟨-, -, hsome⟩
        · rw [hkey, hnone] at hsome
          cases hsome
        · rw [hglobal] at hsome
          cases hsome
    · have hnone : ∀ c ∈ r.2.map Sent.change, op.inPart p c.primaryRow ≠ true := by
        intro c hc hin
        have h := (inPart_iff_key hq' (hrows c hc).2).mp (hrows c hc).1
        exact hkey (h.symm.trans ((inPart_iff_key hp (hrows c hc).2).mp hin))
      have hslot : r.1 (op.keyFromRow p) = st (op.keyFromRow p) := hrep.frame _ (fun h => hkey h.symm) (key_ne_maxBound p)
      refine ⟨_, hpush, holdFor_none hnone _, ⟨hinv', m, hm.other hv htyped hkeep hp hkey, rfl, fun h => hempty (hslot ▸ h)⟩,
        fun i => ⟨_, holdFor_none (fun c hc => hnone c (List.mem_of_mem_take hc)) _, hroom⟩, fun _ h => hslot ▸ h⟩

theorem Held.touched {held : List Row} (h : Held op kinds p U st held) {st' : Storage} (hinv' : Inv op kinds U st')
    (hframe : Touches op q st st') (hslot : op.keyFromRow q = op.keyFromRow p → st' (op.keyFromRow p) ≠ none) :
    Held op kinds p U st' held := by
  obtain ⟨l, hl, hheld, hempty⟩ := h.window
  refine ⟨hinv', l, hl, hheld, fun hnone => ?_⟩
  by_cases hkey : op.keyFromRow q = op.keyFromRow p
  · exact absurd hnone (hslot hkey)
  · rw [hframe _ (fun h => hkey h.symm) (key_ne_maxBound p)] at hnone
    exact hempty hnone

/-- An action on a partition value. -/
def Action.Fits (op : Take) (kinds : Nat → Kind) : Action → Prop
  | .fetch q => op.Proper kinds q
  | .evict q => op.Proper kinds q

/-- An action that does not take the slot of `p` away. -/
def Action.Spares (op : Take) (p : Row) : Action → Prop
  | .fetch _ => True
  | .evict q => op.keyFromRow q ≠ op.keyFromRow p

theorem act_step (hn : 0 < op.limit) (hinv : Inv op kinds U st) {a : Action} (ha : a.Fits op kinds)
    (hshows : ∀ req, req.multiConstraints = [] → Shows op.sort up U req) :
    ∃ st' q, op.operator.act up st a = some st' ∧ Inv op kinds U st' ∧ Touches op q st st' ∧
      (a.Spares op p → op.keyFromRow q = op.keyFromRow p → st' (op.keyFromRow p) ≠ none) := by
  cases a with
  | fetch q =>
    obtain ⟨st', nodes, l, hfetch, hl, -, hframe, htop, hok⟩ := fetch_step hn hinv ha hshows
    refine ⟨st', q, by simp [operator, hfetch], hinv.touch ha hframe htop hl (Or.inr hok), hframe, fun _ hkey hnone => ?_⟩
    obtain ⟨size, bound, hsome, -⟩ := hok
    rw [hkey, hnone] at hsome
    cases hsome
  | evict q =>
    obtain ⟨hinv', hframe⟩ := evict_step hinv ha
    exact ⟨_, q, rfl, hinv', hframe, fun hspare hkey => absurd hkey hspare⟩

/-- Without a word on any partition: every slot stays right. -/
theorem keeps_inv (kinds : Nat → Kind) (hn : 0 < op.limit) (hcov : SortSpec.Covers op.sort pk) :
    Fed.Keeps op.operator op.sort pk (fun (_ : Unit) _ => some ()) (fun U st _ => Inv op kinds U st) (fun _ => True)
      (fun _ _ δ => Keeping op kinds δ) (fun _ _ a => a.Fits op kinds) where
  push U st _ δ up hu hv hinv hkeep hshows := by
    obtain ⟨r, hr, -, hinv'⟩ := push_step hu hcov hn hinv hv hkeep hshows
    have hall : ∀ changes : List Change, changes.foldlM (fun (_ : Unit) _ => some ()) () = some () := by
      intro changes
      induction changes with
      | nil => rfl
      | cons c changes ih => exact ih
    exact ⟨r.1, r.2.map Sent.change, (), by simp [operator, hr], hall _, hinv', fun i => ⟨(), hall _, trivial⟩⟩
  act U st _ a up _ hinv ha hshows := by
    obtain ⟨st', -, hact, hinv', -⟩ := act_step (p := []) hn hinv ha hshows
    exact ⟨st', hact, hinv'⟩

theorem keeps_window (kinds : Nat → Kind) (hn : 0 < op.limit) (hcov : SortSpec.Covers op.sort pk) (hp : op.Proper kinds p) :
    Fed.Keeps op.operator op.sort pk (op.holdFor p) (Held op kinds p) (fun held => held.length ≤ op.limit)
      (fun _ st δ => Keeping op kinds δ ∧ NoRefill op p st δ) (fun _ _ a => a.Fits op kinds ∧ a.Spares op p) where
  push U st held δ up hu hv hheld hadm hshows := by
    obtain ⟨st', sent, held', hpush, hall, hheld', hroom, -⟩ := push_held hu hcov hn hp hheld hv hadm.1 hadm.2 hshows
    exact ⟨st', sent, held', hpush, hall, hheld', hroom⟩
  act U st held a up _ hheld ha hshows := by
    obtain ⟨st', q, hact, hinv', hframe, hslot⟩ := act_step hn hheld.inv ha.1 hshows
    exact ⟨st', hact, hheld.touched hinv' hframe (hslot ha.2)⟩

/-- Without a partition key nothing is asked of the changes: the slot stays. -/
theorem keeps_unpartitioned (kinds : Nat → Kind) (p : Row) (hn : 0 < op.limit) (hcov : SortSpec.Covers op.sort pk) (hglobal : op.partitionKey = none) :
    Fed.Keeps op.operator op.sort pk (op.holdFor p) (fun U st held => Held op kinds p U st held ∧ st (op.keyFromRow p) ≠ none)
      (fun held => held.length ≤ op.limit) (fun _ _ _ => True) (fun _ _ _ => True) where
  push U st held δ up hu hv hheld _ hshows := by
    have hcols : op.cols = [] := by simp [cols, hglobal]
    have hp : op.Proper kinds p := fun c hc => by rw [hcols] at hc; cases hc
    have hkeep : Keeping op kinds δ := ⟨fun r _ c hc => (by rw [hcols] at hc; cases hc), fun _ _ _ => by simp [hglobal]⟩
    obtain ⟨st', sent, held', hpush, hall, hheld', hroom, hslot⟩ :=
      push_held hu hcov hn hp hheld.1 hv hkeep (fun _ _ _ => hheld.2) hshows
    exact ⟨st', sent, held', hpush, hall, ⟨hheld', hslot hglobal hheld.2⟩, hroom⟩
  act U st held a up _ hheld _ hshows := by
    have hcols : op.cols = [] := by simp [cols, hglobal]
    have hp : ∀ q, op.Proper kinds q := fun q c hc => by rw [hcols] at hc; cases hc
    have hkey : ∀ q, op.keyFromRow q = op.keyFromRow p := fun q => by rw [keyFromRow_eq, keyFromRow_eq, hcols]; rfl
    cases a with
    | fetch q =>
      obtain ⟨st', q', hact, hinv', hframe, hslot⟩ := act_step (a := .fetch q) (p := p) hn hheld.1.inv (hp q) hshows
      exact ⟨st', hact, hheld.1.touched hinv' hframe (hslot trivial), hslot trivial (hkey q')⟩
    | evict q =>
      refine ⟨st, ?_, hheld⟩
      simp [operator, evictPartition, hglobal]

/-! ## The window over a history -/

section
variable {s : MemorySource} {id : ConnId} {conn : Connection} {R : Set Row}

/-- Nothing is hydrated. -/
theorem Inv.empty (kinds : Nat → Kind) (h : Fed.AtRest s id conn R) (hsort : op.sort = conn.sort)
    (htyped : ∀ r ∈ MemorySource.connRows conn R, op.Typed kinds r) :
    Inv op kinds (MemorySource.connRows conn R) fun _ => none := by
  refine ⟨htyped, fun _ _ h => (by cases h), fun p _ => ?_, fun _ _ _ => rfl⟩
  have hshows : Shows conn.sort (s.upstream id) (MemorySource.connRows conn R) { constraint := op.constraintFor p } := h.shows rfl
  rw [← hsort] at hshows
  obtain ⟨l, -, hl⟩ := Lists.of_shows hshows
  exact ⟨l, hl, Or.inl rfl⟩

/-- Without a partition key: after a hydration and any history no assertion fails, the slot has the size of
    the window and a row that ties its last one, and what was sent takes the hydrated rows to the first
    `limit` of the connection's rows, never with more than `limit` of them held. -/
theorem unpartitioned_window (hglobal : op.partitionKey = none) (hn : 0 < op.limit) (hsort : op.sort = conn.sort)
    (h : Fed.AtRest s id conn R) :
    ∃ st nodes l0, op.initialFetch (s.upstream id) (fun _ => none) {} = some (st, nodes) ∧
      SList.Sorted op.cmp l0 ∧ (∀ r, r ∈ l0 ↔ r ∈ MemorySource.connRows conn R) ∧ nodes.map Node.row = l0.take op.limit ∧
      ∀ events, Fed.ValidRun op.operator id conn (fun _ _ _ => True) (fun _ _ _ => True) ⟨s, st⟩ R events →
        ∃ f sent l size bound, Fed.run op.operator id ⟨s, st⟩ events = some (f, sent) ∧ SList.Sorted op.cmp l ∧
          (∀ r, r ∈ l ↔ r ∈ MemorySource.connRows conn (events.foldl Fed.Event.apply R)) ∧
          f.state (encodeStateKey keyPrefix []) = some (.take size bound) ∧ size = min op.limit l.length ∧ (bound = none ↔ size = 0) ∧
          (∀ b, bound = some b → ∃ x, (l.take op.limit).getLast? = some x ∧ op.cmp b x = .eq) ∧
          holdAll op.cmp (l0.take op.limit) sent = some (l.take op.limit) ∧
          ∀ i, ∃ held, holdAll op.cmp (l0.take op.limit) (sent.take i) = some held ∧ held.length ≤ op.limit := by
  have hcols : op.cols = [] := by simp [cols, hglobal]
  have hp : op.Proper (fun _ => Kind.bool) [] := fun c hc => by rw [hcols] at hc; cases hc
  have hpart : ∀ r, op.inPart [] r = true := fun r => inPart_iff.mpr fun c hc => by rw [hcols] at hc; cases hc
  have hkey : op.keyFromRow [] = encodeStateKey keyPrefix [] := by rw [keyFromRow_eq, hcols]; rfl
  have hreq : op.constraintFor [] = none := by simp [constraintFor, hglobal]
  have hlists : ∀ {U : Set Row} {l : List Row}, Lists op U [] l → ∀ r, r ∈ l ↔ r ∈ U := fun hl r => by rw [hl.mem, hpart]; simp
  have hinv := Inv.empty (fun _ => Kind.bool) h hsort fun r _ c hc => by rw [hcols] at hc; cases hc
  obtain ⟨st, nodes, l0, hfetch, hl0, hnodes, hframe, htop, hok⟩ := fetch_step hn hinv hp fun req hreq => hsort ▸ h.shows hreq
  have hinit : op.initialFetch (s.upstream id) (fun _ => none) {} = some (st, nodes) := by
    rw [← hfetch, hreq]
    simp [fetch, partitionMatch, hglobal, getState]
  have hheld : Held op (fun _ => Kind.bool) [] (MemorySource.connRows conn R) st (l0.take op.limit) ∧ st (op.keyFromRow []) ≠ none := by
    have hne : st (op.keyFromRow []) ≠ none := by
      obtain ⟨size, bound, hsome, -⟩ := hok
      rw [hsome]
      simp
    exact ⟨⟨hinv.touch hp hframe htop hl0 (Or.inr hok), l0, hl0, rfl, fun hnone => absurd hnone hne⟩, hne⟩
  refine ⟨st, nodes, l0, hinit, hl0.sorted, hlists hl0, hnodes, fun events hvalid => ?_⟩
  have hkeeps := keeps_unpartitioned (fun _ => Kind.bool) [] hn (hsort ▸ h.covers) hglobal
  rw [hsort] at hkeeps
  obtain ⟨f, sent, held', hrun, -, -, -, ⟨hheld', hslot⟩, hholds⟩ :=
    Fed.run_keeps (f := ⟨s, st⟩) (fun _ _ _ hk => hk.1.room) events _ hkeeps h hheld hvalid
  obtain ⟨l, hl, rfl, -⟩ := hheld'.window
  obtain ⟨m, hm, hmok⟩ := hheld'.inv.slots [] hp
  obtain rfl := hm.unique hl
  obtain ⟨size, bound, hsome, hw, -⟩ := hmok.resolve_left hslot
  rw [hkey] at hsome
  refine ⟨f, sent, m, size, bound, hrun, hl.sorted, hlists hl, hsome, hw.size_eq, hw.bound_eq.1, hw.bound_eq.2, ?_, fun i => ?_⟩
  · exact (holdFor_all (fun c _ => hpart c.primaryRow) _).symm.trans hholds.all
  · obtain ⟨held, hh, hlen⟩ := hholds.between i
    exact ⟨held, (holdFor_all (fun c _ => hpart c.primaryRow) _).symm.trans hh, hlen⟩

/-- The first row by `id`. -/
def firstRow : Take := { limit := 1, sort := [(0, true)] }

/-- An edit of the bound row's other column: the slot keeps the row as it was. -/
theorem bound_keeps_old_version : ∃ s0 s, MemorySource.tryNew 2 [0] [[.int 1, .int 10]] = .ok s0 ∧
    [MemorySource.Op.connect (some [(0, true)]) none [], .setConnOutput ⟨0, 0⟩].foldlM MemorySource.Op.run s0 = some s ∧
    (do let (st, _) ← firstRow.initialFetch (s.upstream ⟨0, 0⟩) (fun _ => none) {}
        let (f, _) ← Fed.run firstRow.operator ⟨0, 0⟩ ⟨s, st⟩ [.push (.edit [.int 1, .int 10] [.int 1, .int 20]) (fun _ _ => []) true]
        let rows ← f.source.upstream ⟨0, 0⟩ {}
        some (f.state (encodeStateKey keyPrefix []), rows.map Node.row)) =
      some (some (.take 1 (some [.int 1, .int 10])), [[.int 1, .int 20]]) := by
  obtain ⟨s0, hnew⟩ : ∃ s0, MemorySource.tryNew 2 [0] [[.int 1, .int 10]] = .ok s0 := ⟨_, rfl⟩
  obtain ⟨s, hrun, -⟩ := Fed.atRest_new [(0, true)] hnew (by decide) (by decide)
  refine ⟨s0, s, hnew, hrun, ?_⟩
  rw [← Except.ok.inj hnew] at hrun
  rw [← Option.some.inj hrun]
  decide +kernel

/-- A second row comes before the one that is out. -/
theorem unpartitioned_window_displaced : ∃ s0 s st nodes, MemorySource.tryNew 2 [0] [[.int 2, .int 10]] = .ok s0 ∧
    [MemorySource.Op.connect (some [(0, true)]) none [], .setConnOutput ⟨0, 0⟩].foldlM MemorySource.Op.run s0 = some s ∧
    firstRow.initialFetch (s.upstream ⟨0, 0⟩) (fun _ => none) {} = some (st, nodes) ∧
    ∃ f sent, Fed.run firstRow.operator ⟨0, 0⟩ ⟨s, st⟩ [.push (.add [.int 1, .int 20]) (fun _ _ => []) true] = some (f, sent) ∧
      ∃ l : List Row, (∀ r, r ∈ l ↔ r = [.int 1, .int 20] ∨ r = [.int 2, .int 10]) ∧
        holdAll firstRow.cmp (nodes.map Node.row) sent = some (l.take 1) := by
  obtain ⟨s0, hnew⟩ : ∃ s0, MemorySource.tryNew 2 [0] [[.int 2, .int 10]] = .ok s0 := ⟨_, rfl⟩
  obtain ⟨s, hrun, hrest, hkey⟩ := Fed.atRest_new [(0, true)] hnew (by decide) (by decide)
  obtain ⟨st, nodes, l0, hinit, -, -, hnodes, hall⟩ := unpartitioned_window (show firstRow.partitionKey = none from rfl) (by decide) rfl hrest
  obtain ⟨f, sent, l, -, -, hrun', -, hmem, -, -, -, -, hheld, -⟩ := hall [.push (.add [.int 1, .int 20]) (fun _ _ => []) true]
    ⟨⟨fun x hx => by rw [hkey, List.mem_singleton.mp hx]; decide +kernel, fun _ _ r hr => (by cases hr), fun _ _ => trivial⟩,
      fun _ _ => trivial⟩
  refine ⟨s0, s, st, nodes, hnew, hrun, hinit, f, sent, hrun', l, fun r => ?_, hnodes ▸ hheld⟩
  rw [hmem r]
  simp [MemorySource.connRows, Connection.accepts, Fed.Event.apply, applyChange]

/-- With a partition key: once fetched, after any earlier history, a partition's rows downstream are the first
    `limit` of it through every history in which no row is added to it while its slot is gone. -/
theorem partitioned_window (hn : 0 < op.limit) (hsort : op.sort = conn.sort) (h : Fed.AtRest s id conn R)
    (htyped : ∀ r ∈ MemorySource.connRows conn R, op.Typed kinds r) (before : List (Fed.Event Action))
    (hbefore : Fed.ValidRun op.operator id conn (fun _ _ δ => Keeping op kinds δ) (fun _ _ a => a.Fits op kinds)
      ⟨s, fun _ => none⟩ R before) (hp : op.Proper kinds p) :
    ∃ f0 sent0 st nodes l0, Fed.run op.operator id ⟨s, fun _ => none⟩ before = some (f0, sent0) ∧
      op.fetch (f0.source.upstream id) f0.state none { constraint := op.constraintFor p } = some (st, nodes) ∧
      Lists op (MemorySource.connRows conn (before.foldl Fed.Event.apply R)) p l0 ∧ nodes.map Node.row = l0.take op.limit ∧
      ∀ events, Fed.ValidRun op.operator id conn (fun _ st δ => Keeping op kinds δ ∧ NoRefill op p st δ)
          (fun _ _ a => a.Fits op kinds ∧ a.Spares op p) ⟨f0.source, st⟩ (before.foldl Fed.Event.apply R) events →
        ∃ f sent l, Fed.run op.operator id ⟨f0.source, st⟩ events = some (f, sent) ∧
          Lists op (MemorySource.connRows conn (events.foldl Fed.Event.apply (before.foldl Fed.Event.apply R))) p l ∧
          sent.foldlM (op.holdFor p) (l0.take op.limit) = some (l.take op.limit) := by
  have hkeeps0 := keeps_inv kinds hn (hsort ▸ h.covers)
  rw [hsort] at hkeeps0
  obtain ⟨f0, sent0, -, hrun0, hrest0, -, -, hinv0, -⟩ := Fed.run_keeps (f := ⟨s, fun _ => none⟩)
    (fun _ _ _ _ => trivial) before () hkeeps0 h (Inv.empty kinds h hsort htyped) hbefore
  obtain ⟨st, nodes, l0, hfetch, hl0, hnodes, hframe, htop, hok⟩ := fetch_step hn hinv0 hp fun req hreq => hsort ▸ hrest0.shows hreq
  refine ⟨f0, sent0, st, nodes, l0, hrun0, hfetch, hl0, hnodes, fun events hvalid => ?_⟩
  have hheld : Held op kinds p (MemorySource.connRows conn (before.foldl Fed.Event.apply R)) st (l0.take op.limit) := by
    refine ⟨hinv0.touch hp hframe htop hl0 (Or.inr hok), l0, hl0, rfl, fun hnone => ?_⟩
    obtain ⟨size, bound, hsome, -⟩ := hok
    rw [hnone] at hsome
    cases hsome
  have hkeeps := keeps_window kinds hn (hsort ▸ hrest0.covers) hp
  rw [hsort] at hkeeps
  obtain ⟨f, sent, held', hrun, -, -, -, hheld', hholds⟩ :=
    Fed.run_keeps (f := ⟨f0.source, st⟩) (fun _ _ _ hk => hk.room) events _ hkeeps hrest0 hheld hvalid
  obtain ⟨l, hl, rfl, -⟩ := hheld'.window
  exact ⟨f, sent, l, hrun, hl, hholds.all⟩

/-- The first two rows by `id` of each group. -/
def firstTwo : Take := { limit := 2, partitionKey := some [1], sort := [(0, true)] }

/-- Group 1 is fetched, its only row goes, another comes: nothing is sent for it. -/
theorem partition_refill_dropped : ∃ s0 s, MemorySource.tryNew 2 [0] [[.int 1, .int 1]] = .ok s0 ∧
    [MemorySource.Op.connect (some [(0, true)]) none [], .setConnOutput ⟨0, 0⟩].foldlM MemorySource.Op.run s0 = some s ∧
    (do let (st, nodes) ← firstTwo.fetch (s.upstream ⟨0, 0⟩) (fun _ => none) none { constraint := firstTwo.constraintFor [.null, .int 1] }
        let (f, sent) ← Fed.run firstTwo.operator ⟨0, 0⟩ ⟨s, st⟩
          [.push (.remove [.int 1, .int 1]) (fun _ _ => []) true, .push (.add [.int 2, .int 1]) (fun _ _ => []) true]
        let held ← sent.foldlM (firstTwo.holdFor [.null, .int 1]) (nodes.map Node.row)
        let rows ← f.source.upstream ⟨0, 0⟩ { constraint := firstTwo.constraintFor [.null, .int 1] }
        some (held, rows.map Node.row)) = some ([], [[.int 2, .int 1]]) := by
  obtain ⟨s0, hnew⟩ : ∃ s0, MemorySource.tryNew 2 [0] [[.int 1, .int 1]] = .ok s0 := ⟨_, rfl⟩
  obtain ⟨s, hrun, -⟩ := Fed.atRest_new [(0, true)] hnew (by decide) (by decide)
  refine ⟨s0, s, hnew, hrun, ?_⟩
  rw [← Except.ok.inj hnew] at hrun
  rw [← Option.some.inj hrun]
  decide +kernel

/-- A second row in group 1 while the first is there. -/
theorem partitioned_window_add : ∃ s0 s st nodes, MemorySource.tryNew 2 [0] [[.int 1, .int 1]] = .ok s0 ∧
    [MemorySource.Op.connect (some [(0, true)]) none [], .setConnOutput ⟨0, 0⟩].foldlM MemorySource.Op.run s0 = some s ∧
    firstTwo.fetch (s.upstream ⟨0, 0⟩) (fun _ => none) none { constraint := firstTwo.constraintFor [.null, .int 1] } = some (st, nodes) ∧
    ∃ f sent, Fed.run firstTwo.operator ⟨0, 0⟩ ⟨s, st⟩ [.push (.add [.int 2, .int 1]) (fun _ _ => []) true] = some (f, sent) ∧
      ∃ l, Lists firstTwo {r | r = [.int 2, .int 1] ∨ r = [.int 1, .int 1]} [.null, .int 1] l ∧
        sent.foldlM (firstTwo.holdFor [.null, .int 1]) (nodes.map Node.row) = some (l.take 2) := by
  obtain ⟨s0, hnew⟩ : ∃ s0, MemorySource.tryNew 2 [0] [[.int 1, .int 1]] = .ok s0 := ⟨_, rfl⟩
  obtain ⟨s, hrun, hrest, hkey⟩ := Fed.atRest_new [(0, true)] hnew (by decide) (by decide)
  have htyped : ∀ r : Row, r.cell 1 = .int 1 → firstTwo.Typed (fun _ => .number) r := fun r hr c hc => by
    rw [List.mem_singleton.mp hc, hr]
    rfl
  have hp : firstTwo.Proper (fun _ => .number) [.null, .int 1] := fun c hc => by
    rw [List.mem_singleton.mp hc]
    rfl
  obtain ⟨f0, sent0, st, nodes, l0, hrun0, hfetch, -, hnodes, hall⟩ := partitioned_window (show 0 < firstTwo.limit by decide) rfl hrest
    (fun r hr => htyped r (by rw [List.mem_singleton.mp hr.1]; rfl)) [] trivial hp
  obtain rfl : (⟨s, fun _ => none⟩ : Fed Storage) = f0 := (Prod.mk.inj (Option.some.inj hrun0)).1
  -- the fetch left a slot
  have hslot : st (firstTwo.keyFromRow [.null, .int 1]) ≠ none := by
    have hsome : (firstTwo.fetch (s.upstream ⟨0, 0⟩) (fun _ => none) none { constraint := firstTwo.constraintFor [.null, .int 1] }).map
        (fun r => (r.1 (firstTwo.keyFromRow [.null, .int 1])).isSome) = some true := by
      rw [← Except.ok.inj hnew] at hrun
      rw [← Option.some.inj hrun]
      decide +kernel
    rw [hfetch] at hsome
    intro hnone
    simp [hnone] at hsome
  have hvalid : ValidChange s.primaryKey {r | r ∈ [[Value.int 1, .int 1]]} (.add [.int 2, .int 1]) := fun x hx => by
    rw [hkey, List.mem_singleton.mp hx]
    decide +kernel
  obtain ⟨f, sent, l, hrun', hl, hheld⟩ := hall [.push (.add [.int 2, .int 1]) (fun _ _ => []) true] (by
    refine ⟨⟨hvalid, fun _ _ r hr => (by cases hr), fun δ hδ => ?_⟩, fun _ _ => trivial⟩
    obtain rfl := Option.some.inj hδ
    exact ⟨⟨fun r hr => htyped r (by rw [← Option.some.inj hr]; rfl), fun _ _ h => (by cases h)⟩, fun _ _ _ => hslot⟩)
  refine ⟨s0, s, st, nodes, hnew, hrun, hfetch, f, sent, hrun', l, ?_, hnodes ▸ hheld⟩
  have hrows : MemorySource.connRows { sort := [(0, true)], output := true }
      (applyChange {r | r ∈ [[Value.int 1, .int 1]]} (.add [.int 2, .int 1])) = {r | r = [.int 2, .int 1] ∨ r = [.int 1, .int 1]} := by
    ext r
    simp [MemorySource.connRows, Connection.accepts, applyChange]
  rw [← hrows]
  exact hl

end

end Rindle.Take
