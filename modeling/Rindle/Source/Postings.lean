/-
  Rindle.Source.Postings — the push index misses no connection.

  A connection is posted under its guard, or in the scan list. Registering another slot adds to
  a bucket, removing one takes its own slot out, so the posting stays for as long as the
  connection is there, also when slots are recycled (`Posts`). A row its filter accepts is in one
  of its buckets: every live connection that could take the change is a candidate, and a push
  sends what it would send if it visited every slot (`push_index_sound`).
-/

import Rindle.Source.Runs
import Rindle.Keys

set_option linter.dupNamespace false

namespace Rindle

/-! ## Guard keys -/

theorem comparePredicateValues_eq_eq {a b : Value} : comparePredicateValues a b = .eq ↔ valuesIdentical a b = true := by
  cases a <;> cases b <;> simp [comparePredicateValues, valuesIdentical, predicateTypeRank]

/-- The index's key equality is cell identity. -/
theorem guardKeyEq_iff {a b : Value} : guardKeyEq a b = true ↔ CanonVal.of a = CanonVal.of b := by
  rw [guardKeyEq, beq_iff_eq, comparePredicateValues_eq_eq, canonVal_inj]

theorem guardKeyEq_congr {a b : Value} (h : guardKeyEq a b = true) (k : Value) : guardKeyEq k a = guardKeyEq k b := by
  rw [Bool.eq_iff_iff, guardKeyEq_iff, guardKeyEq_iff, guardKeyEq_iff.mp h]

/-! ## Maps -/

section
variable {κ ν : Type} (same : κ → κ → Bool) (k : κ) (f : Option ν → Option ν) (P : ν → Prop)

/-- An entry stays, or is rewritten. -/
theorem exists_mem_alterKey (hf : ∀ v, P v → ∃ v', f (some v) = some v' ∧ P v') {m : List (κ × ν)} {p : κ × ν} (hp : p ∈ m) (hP : P p.2) :
    ∃ q ∈ alterKey same k f m, q.1 = p.1 ∧ P q.2 := by
  induction m with
  | nil => cases hp
  | cons x m ih =>
    rw [alterKey]
    rcases List.mem_cons.mp hp with rfl | hp
    · split
      · obtain ⟨v', hv', hP'⟩ := hf p.2 hP
        exact ⟨(p.1, v'), by simp [hv'], rfl, hP'⟩
      · exact ⟨p, List.mem_cons_self, rfl, hP⟩
    · split
      · exact ⟨p, List.mem_append_right _ hp, rfl, hP⟩
      · obtain ⟨q, hq, h⟩ := ih hp
        exact ⟨q, List.mem_cons_of_mem _ hq, h⟩

/-- The entry that is rewritten is there afterwards. -/
theorem exists_mem_alterKey_self (hf : ∀ o, ∃ v', f o = some v' ∧ P v') (m : List (κ × ν)) :
    ∃ q ∈ alterKey same k f m, (q.1 = k ∨ same q.1 k = true) ∧ P q.2 := by
  induction m with
  | nil =>
    obtain ⟨v', hv', hP⟩ := hf none
    exact ⟨(k, v'), by simp [alterKey, hv'], Or.inl rfl, hP⟩
  | cons x m ih =>
    rw [alterKey]
    split
    · rename_i hx
      obtain ⟨v', hv', hP⟩ := hf (some x.2)
      exact ⟨(x.1, v'), by simp [hv'], Or.inr hx, hP⟩
    · obtain ⟨q, hq, h⟩ := ih
      exact ⟨q, List.mem_cons_of_mem _ hq, h⟩

end

namespace PushIndex

variable {slot i : Nat} {v w : Value} {buckets : List (Value × List Nat)} {f : Option (List Nat) → Option (List Nat)}

theorem collectBucket_congr (h : guardKeyEq v w = true) : collectBucket buckets v = collectBucket buckets w := by
  unfold collectBucket lookupKey
  simp only [guardKeyEq_congr h]

/-- A posting stays while the buckets that have it keep it. -/
theorem mem_collectBucket_alter (hf : ∀ b, i ∈ b → ∃ b', f (some b) = some b' ∧ i ∈ b') (h : i ∈ collectBucket buckets v) :
    i ∈ collectBucket (alterKey guardKeyEq w f buckets) v := by
  induction buckets with
  | nil => cases h
  | cons p m ih =>
    have hcons : ∀ (q : Value × List Nat) (l : List (Value × List Nat)), collectBucket (q :: l) v =
        if guardKeyEq q.1 v then q.2 else collectBucket l v := by
      intro q l
      simp only [collectBucket, lookupKey, List.find?_cons]
      cases guardKeyEq q.1 v <;> rfl
    rw [hcons] at h
    rw [alterKey]
    by_cases hv : guardKeyEq p.1 v = true
    · rw [if_pos hv] at h
      obtain ⟨b', hb', hi⟩ := hf p.2 h
      split
      · rw [hb']
        show i ∈ collectBucket ((p.1, b') :: m) v
        rw [hcons, if_pos hv]
        exact hi
      · rw [hcons, if_pos hv]
        exact h
    · rw [if_neg hv] at h
      split
      · cases f (some p.2) with
        | none => exact h
        | some b' =>
          show i ∈ collectBucket ((p.1, b') :: m) v
          rw [hcons, if_neg hv]
          exact h
      · rw [hcons, if_neg hv]
        exact ih h

/-- Registering a value posts the slot under it. -/
theorem mem_collectBucket_post (slot : Nat) (v : Value) (m : List (Value × List Nat)) :
    slot ∈ collectBucket (alterKey guardKeyEq v (fun bucket => some (bucket.getD [] ++ [slot])) m) v := by
  have hself : guardKeyEq v v = true := guardKeyEq_iff.mpr rfl
  induction m with
  | nil => simp [alterKey, collectBucket, lookupKey, hself]
  | cons p m ih =>
    rw [alterKey]
    by_cases hp : guardKeyEq p.1 v = true
    · rw [if_pos hp]
      simp [collectBucket, lookupKey, hp]
    · rw [if_neg hp]
      simpa [collectBucket, lookupKey, hp] using ih

/-! ## Postings -/

variable (ix : PushIndex)

/-- The slot is posted under the guard, or in the scan list. -/
def Posted (slot : Nat) : Option PushGuard → Prop
  | none => slot ∈ ix.scan
  | some g => g.values ≠ [] → ∃ p ∈ ix.eq, p.1 = g.col ∧ ∀ v ∈ g.values, slot ∈ collectBucket p.2 v

/-- All values of a column posted for one slot. -/
def PostsAll (slot : Nat) (values : List Value) (buckets : List (Value × List Nat)) : Prop := ∀ v ∈ values, slot ∈ collectBucket buckets v

theorem PostsAll.foldl {i : Nat} {values : List Value} (step : Value → Option (List Nat) → Option (List Nat))
    (hstep : ∀ w b, i ∈ b → ∃ b', step w (some b) = some b' ∧ i ∈ b') (ws : List Value) :
    ∀ {m : List (Value × List Nat)}, PostsAll i values m → PostsAll i values (ws.foldl (fun m w => alterKey guardKeyEq w (step w) m) m) := by
  induction ws with
  | nil => exact fun h => h
  | cons w ws ih => exact fun h => ih fun v hv => mem_collectBucket_alter (hstep w) (h v hv)

/-- Registering all values of a guard posts the slot under each. -/
theorem postsAll_register (slot : Nat) (values : List Value) : ∀ m : List (Value × List Nat),
    PostsAll slot values (values.foldl (fun m v => alterKey guardKeyEq v (fun bucket => some (bucket.getD [] ++ [slot])) m) m) := by
  induction values with
  | nil => exact fun m v hv => by cases hv
  | cons w values ih =>
    intro m v hv
    rcases List.mem_cons.mp hv with rfl | hv
    · -- posted first, kept by the later ones
      have hfirst : PostsAll slot [v] (alterKey guardKeyEq v (fun bucket => some (bucket.getD [] ++ [slot])) m) :=
        fun u hu => List.mem_singleton.mp hu ▸ mem_collectBucket_post slot v m
      have hkeep := PostsAll.foldl (fun _ bucket => some (bucket.getD [] ++ [slot]))
        (fun _ b hb => ⟨b ++ [slot], rfl, List.mem_append_left _ hb⟩) values hfirst
      exact hkeep v List.mem_cons_self
    · exact ih _ v hv

theorem insert_posted (slot : Nat) (guard : Option PushGuard) (keys : List Nat) :
    (ix.insert slot guard keys).Posted slot guard := by
  cases guard with
  | none =>
    show slot ∈ (if ix.scan.contains slot then ix.scan else ix.scan ++ [slot])
    split
    · rename_i h
      simpa using h
    · simp
  | some g =>
    intro hne
    have hempty : g.values.isEmpty = false := by simpa using hne
    obtain ⟨q, hq, hcol, hposts⟩ := exists_mem_alterKey_self (· == ·) g.col (fun colMap => some (g.values.foldl (fun colMap v =>
        alterKey guardKeyEq v (fun bucket => some (bucket.getD [] ++ [slot])) colMap) (colMap.getD []))) (PostsAll slot g.values)
      (fun o => ⟨_, rfl, postsAll_register slot g.values _⟩) ix.eq
    refine ⟨q, ?_, by simpa using hcol, hposts⟩
    simpa [insert, hempty] using hq

/-- Registering keeps every posting. -/
theorem insert_keeps {ix : PushIndex} {guard : Option PushGuard} (h : ix.Posted i guard) (slot : Nat) (guard' : Option PushGuard)
    (keys : List Nat) : (ix.insert slot guard' keys).Posted i guard := by
  cases guard with
  | none =>
    have h : i ∈ ix.scan := h
    show i ∈ (ix.insert slot guard' keys).scan
    cases guard' with
    | none =>
      show i ∈ (if ix.scan.contains slot then ix.scan else ix.scan ++ [slot])
      split
      · exact h
      · exact List.mem_append_left _ h
    | some g' =>
      simp only [insert]
      split
      · exact h
      · exact h
  | some g =>
    intro hne
    obtain ⟨p, hp, hcol, hposts⟩ := h hne
    cases guard' with
    | none => exact ⟨p, hp, hcol, hposts⟩
    | some g' =>
      simp only [insert]
      split
      · exact ⟨p, hp, hcol, hposts⟩
      · rw [← hcol]
        refine exists_mem_alterKey (· == ·) g'.col _ (PostsAll i g.values) (fun b hb => ⟨_, rfl, ?_⟩) hp hposts
        exact PostsAll.foldl (fun _ bucket => some (bucket.getD [] ++ [slot]))
          (fun _ c hc => ⟨c ++ [slot], rfl, List.mem_append_left _ hc⟩) g'.values hb

theorem nonEmpty_of_mem {β : Type} {m : List β} {x : β} (h : x ∈ m) : nonEmpty m = some m := by
  unfold nonEmpty
  rw [if_neg]
  cases m with
  | nil => cases h
  | cons y m => simp

/-- Removing a slot keeps every other slot's posting. -/
theorem remove_keeps {ix : PushIndex} {guard : Option PushGuard} (h : ix.Posted i guard) (hne : i ≠ slot) (guard' : Option PushGuard)
    (keys : List Nat) : (ix.remove slot guard' keys).Posted i guard := by
  have herase : ∀ b : List Nat, i ∈ b → i ∈ b.erase slot := fun b hb => (List.mem_erase_of_ne hne).mpr hb
  cases guard with
  | none =>
    have h : i ∈ ix.scan := h
    show i ∈ (ix.remove slot guard' keys).scan
    cases guard' with
    | none => exact herase _ h
    | some g' =>
      simp only [remove]
      split
      · exact h
      · exact h
  | some g =>
    intro hvals
    obtain ⟨p, hp, hcol, hposts⟩ := h hvals
    cases guard' with
    | none => exact ⟨p, hp, hcol, hposts⟩
    | some g' =>
      simp only [remove]
      split
      · exact ⟨p, hp, hcol, hposts⟩
      rw [← hcol]
      refine exists_mem_alterKey (· == ·) g'.col _ (PostsAll i g.values) (fun b hb => ?_) hp hposts
      have hfold := PostsAll.foldl (fun _ bucket => bucket.bind fun b => nonEmpty (b.erase slot))
        (fun _ c hc => ⟨c.erase slot, nonEmpty_of_mem (herase c hc), herase c hc⟩) g'.values hb
      -- the column map still has a bucket, so it stays
      obtain ⟨v, hv⟩ := List.exists_mem_of_ne_nil _ hvals
      have hin := hfold v hv
      unfold collectBucket at hin
      cases hlook : lookupKey guardKeyEq v (g'.values.foldl (fun colMap v => alterKey guardKeyEq v (fun bucket =>
          bucket.bind fun b => nonEmpty (b.erase slot)) colMap) b) with
      | none => rw [hlook] at hin; cases hin
      | some c =>
        obtain ⟨k, hk⟩ := mem_of_lookupKey hlook
        exact ⟨_, nonEmpty_of_mem hk, hfold⟩

/-! ## Candidates -/

theorem mem_destutter' {a : Nat} (l : List Nat) : ∀ b, a ∈ l.destutter' (· ≠ ·) b ↔ a = b ∨ a ∈ l := by
  induction l with
  | nil => simp
  | cons x l ih =>
    intro b
    rw [List.destutter']
    split
    · rw [List.mem_cons, ih x, List.mem_cons]
    · rename_i h
      have hbx : b = x := by simpa using h
      rw [ih b, List.mem_cons, hbx]
      tauto

theorem destutter'_sorted (l : List Nat) : ∀ b, (b :: l).Pairwise (· ≤ ·) → (l.destutter' (· ≠ ·) b).Pairwise (· < ·) := by
  induction l with
  | nil => simp
  | cons x l ih =>
    intro b h
    obtain ⟨hb, hx⟩ := List.pairwise_cons.mp h
    rw [List.destutter']
    split
    · rename_i hne
      refine List.pairwise_cons.mpr ⟨fun y hy => ?_, ih x hx⟩
      have hbx : b < x := lt_of_le_of_ne (hb x List.mem_cons_self) hne
      rcases (mem_destutter' l x).mp hy with rfl | hy
      · exact hbx
      · exact lt_of_lt_of_le hbx ((List.pairwise_cons.mp hx).1 y hy)
    · exact ih b (List.pairwise_cons.mpr ⟨fun y hy => hb y (List.mem_cons_of_mem _ hy), (List.pairwise_cons.mp hx).2⟩)

/-- Where the change's rows are looked up. -/
def lookups (buckets : List (Value × List Nat)) (col : Nat) : SourceChange Row → List Nat
  | .add r => collectBucket buckets (r.cell col)
  | .remove r => collectBucket buckets (r.cell col)
  | .edit old row => collectBucket buckets (row.cell col) ++ collectBucket buckets (old.cell col)

theorem pushCandidates_eq (change : SourceChange Row) :
    ix.pushCandidates change =
      ((ix.scan ++ ix.eq.flatMap fun p => lookups p.2 p.1 change).insertionSort (· ≤ ·)).destutter (· ≠ ·) := by
  cases change <;> rfl

theorem mem_pushCandidates {ix : PushIndex} {change : SourceChange Row} :
    slot ∈ ix.pushCandidates change ↔ slot ∈ ix.scan ∨ ∃ p ∈ ix.eq, slot ∈ lookups p.2 p.1 change := by
  rw [pushCandidates_eq, ← List.mem_flatMap, ← List.mem_append]
  generalize ix.scan ++ _ = out
  have hsort : slot ∈ out.insertionSort (· ≤ ·) ↔ slot ∈ out := List.mem_insertionSort _
  rw [← hsort]
  cases out.insertionSort (· ≤ ·) with
  | nil => rfl
  | cons x m => rw [List.destutter_cons', mem_destutter', List.mem_cons]

/-- The candidates are ascending, each once. -/
theorem pushCandidates_sorted (change : SourceChange Row) : (ix.pushCandidates change).Pairwise (· < ·) := by
  rw [pushCandidates_eq]
  generalize ix.scan ++ _ = out
  have hsorted := List.pairwise_insertionSort (· ≤ ·) out
  cases hout : out.insertionSort (· ≤ ·) with
  | nil => exact List.Pairwise.nil
  | cons x m =>
    rw [hout] at hsorted
    exact destutter'_sorted m x hsorted

/-- A posted slot is a candidate for a row with a guarded cell. -/
theorem candidate_of_posted {ix : PushIndex} {g : PushGuard} (h : ix.Posted slot (some g)) {r : Row}
    (hv : ∃ v ∈ g.values, guardKeyEq v (r.cell g.col) = true) :
    ∃ p ∈ ix.eq, slot ∈ collectBucket p.2 (r.cell p.1) := by
  obtain ⟨v, hv, hkey⟩ := hv
  obtain ⟨p, hp, hcol, hposts⟩ := h (List.ne_nil_of_mem hv)
  refine ⟨p, hp, ?_⟩
  rw [hcol, ← collectBucket_congr hkey]
  exact hposts v hv

end PushIndex

/-! ## The table -/

/-- A filter that implies its guard. -/
def ConnectionFilters.Guarded (f : ConnectionFilters) : Prop :=
  ∀ g, f.pushGuard = some g → ∀ row, f.predicate row = true → ∃ v ∈ g.values, guardKeyEq v (row.cell g.col) = true

/-- A change the connection's filter lets something through of. -/
def Connection.takes (conn : Connection) : SourceChange Row → Bool
  | .add r => conn.accepts r
  | .remove r => conn.accepts r
  | .edit old row => conn.accepts old || conn.accepts row

theorem Connection.takes_iff (conn : Connection) (change : SourceChange Row) :
    conn.takes change = (filterPush change (conn.filters.map fun f => f.predicate)).isSome := by
  unfold Connection.takes Connection.accepts filterPush
  cases conn.filters with
  | none => cases change <;> rfl
  | some f =>
    cases change with
    | add r => simp only [Option.all_some, Option.map_some]; split <;> simp_all
    | remove r => simp only [Option.all_some, Option.map_some]; split <;> simp_all
    | edit old row =>
      simp only [Option.all_some, Option.map_some]
      cases f.predicate old <;> cases f.predicate row <;> rfl

/-- A posted connection is a candidate for every change it takes. -/
theorem PushIndex.Posted.candidate {ix : PushIndex} {slot : Nat} {conn : Connection} (h : ix.Posted slot conn.pushGuard)
    (hguard : ∀ f, conn.filters = some f → f.Guarded) {change : SourceChange Row} (htakes : conn.takes change = true) :
    slot ∈ ix.pushCandidates change := by
  rw [PushIndex.mem_pushCandidates]
  cases hg : conn.pushGuard with
  | none =>
    rw [hg] at h
    exact Or.inl h
  | some g =>
    rw [hg] at h
    obtain ⟨f, hf, hfg⟩ := Option.bind_eq_some_iff.mp hg
    have hrow : ∀ r, conn.accepts r = true → ∃ p ∈ ix.eq, slot ∈ PushIndex.collectBucket p.2 (r.cell p.1) := by
      intro r hr
      exact PushIndex.candidate_of_posted h (hguard f hf g hfg r (by simpa [Connection.accepts, hf] using hr))
    right
    cases change with
    | add r => exact hrow r htakes
    | remove r => exact hrow r htakes
    | edit old row =>
      simp only [Connection.takes, Bool.or_eq_true] at htakes
      rcases htakes with ht | ht
      · obtain ⟨p, hp, hs⟩ := hrow old ht
        exact ⟨p, hp, List.mem_append_right _ hs⟩
      · obtain ⟨p, hp, hs⟩ := hrow row ht
        exact ⟨p, hp, List.mem_append_left _ hs⟩

/-- The ids in use: each resolves, its connection is posted and guarded, and no other slot is wired. -/
structure ConnTable.Posts (t : ConnTable) (live : List ConnId) : Prop where
  gens : ∀ id ∈ live, t.gens[id.idx]? = some id.gen
  posted : ∀ id ∈ live, ∀ c, t.conns[id.idx]? = some c → t.index.Posted id.idx c.pushGuard ∧ ∀ f, c.filters = some f → f.Guarded
  wired : ∀ (i : Nat) (c : Connection), t.conns[i]? = some c → c.output = true → ∃ id ∈ live, id.idx = i

namespace ConnTable

/-- The ids in use once `id` has the slot. -/
def claim (live : List ConnId) (id : ConnId) : List ConnId := id :: live.filter fun other => other.idx != id.idx

/-- The ids in use once the slot of `id` is free; a stale id frees nothing. -/
def release (t : ConnTable) (live : List ConnId) (id : ConnId) : List ConnId :=
  if t.gens[id.idx]? = some id.gen then live.filter fun other => other.idx != id.idx else live

variable {t : ConnTable} {live : List ConnId} {good : Connection → Prop}

theorem mem_claim {id other : ConnId} : other ∈ claim live id ↔ other = id ∨ (other ∈ live ∧ other.idx ≠ id.idx) := by
  simp [claim]

theorem Posts.connect (h : t.Posts live) (hok : t.Ok good) {conn : Connection} (hout : conn.output = false)
    (hguard : ∀ f, conn.filters = some f → f.Guarded) : (t.connect conn).1.Posts (claim live (t.connect conn).2) := by
  unfold ConnTable.connect
  cases hf : t.free with
  | cons idx free =>
    have hidx : idx < t.conns.length := hok.free idx (hf ▸ List.mem_cons_self)
    have hgen : t.gens[idx]? = some (t.gens[idx]?.getD 0) := by
      rw [List.getElem?_eq_getElem (hok.gens ▸ hidx)]
      rfl
    refine ⟨fun id hid => ?_, fun id hid c hc => ?_, fun i c hc hw => ?_⟩
    · rcases mem_claim.mp hid with rfl | ⟨hid, -⟩
      · exact hgen
      · exact h.gens id hid
    · rcases mem_claim.mp hid with rfl | ⟨hid, hne⟩
      · have hc : (t.conns.set idx conn)[idx]? = some c := hc
        rw [List.getElem?_set_self hidx] at hc
        obtain rfl := Option.some.inj hc
        exact ⟨PushIndex.insert_posted _ _ _ _, hguard⟩
      · have hc : (t.conns.set idx conn)[id.idx]? = some c := hc
        rw [List.getElem?_set_ne (Ne.symm hne)] at hc
        obtain ⟨hp, hg⟩ := h.posted id hid c hc
        exact ⟨PushIndex.insert_keeps hp _ _ _, hg⟩
    · have hc : (t.conns.set idx conn)[i]? = some c := hc
      by_cases hi : idx = i
      · subst hi
        rw [List.getElem?_set_self hidx] at hc
        rw [← Option.some.inj hc, hout] at hw
        cases hw
      · rw [List.getElem?_set_ne hi] at hc
        obtain ⟨id, hid, rfl⟩ := h.wired i c hc hw
        exact ⟨id, mem_claim.mpr (Or.inr ⟨hid, Ne.symm hi⟩), rfl⟩
  | nil =>
    have hlt : ∀ id ∈ live, id.idx < t.conns.length := fun id hid => by
      rw [← hok.gens]
      exact (List.getElem?_eq_some_iff.mp (h.gens id hid)).1
    refine ⟨fun id hid => ?_, fun id hid c hc => ?_, fun i c hc hw => ?_⟩
    · rcases mem_claim.mp hid with rfl | ⟨hid, -⟩
      · show (t.gens ++ [0])[t.conns.length]? = some 0
        rw [← hok.gens]
        simp
      · show (t.gens ++ [0])[id.idx]? = some id.gen
        rw [List.getElem?_append_left (hok.gens ▸ hlt id hid)]
        exact h.gens id hid
    · rcases mem_claim.mp hid with rfl | ⟨hid, -⟩
      · have hc : (t.conns ++ [conn])[t.conns.length]? = some c := hc
        obtain rfl : conn = c := by simpa using hc
        exact ⟨PushIndex.insert_posted _ _ _ _, hguard⟩
      · have hc : (t.conns ++ [conn])[id.idx]? = some c := hc
        rw [List.getElem?_append_left (hlt id hid)] at hc
        obtain ⟨hp, hg⟩ := h.posted id hid c hc
        exact ⟨PushIndex.insert_keeps hp _ _ _, hg⟩
    · have hc : (t.conns ++ [conn])[i]? = some c := hc
      by_cases hi : i < t.conns.length
      · rw [List.getElem?_append_left hi] at hc
        obtain ⟨id, hid, rfl⟩ := h.wired i c hc hw
        exact ⟨id, mem_claim.mpr (Or.inr ⟨hid, Nat.ne_of_lt hi⟩), rfl⟩
      · rw [List.getElem?_append_right (Nat.le_of_not_lt hi)] at hc
        have hcm := List.mem_of_getElem? hc
        rw [List.mem_singleton.mp hcm, hout] at hw
        cases hw

theorem Posts.destroy (h : t.Posts live) (id : ConnId) : (t.destroy id).Posts (t.release live id) := by
  unfold ConnTable.destroy ConnTable.release
  split
  · rename_i hgen
    have hmem : ∀ {other : ConnId}, other ∈ live.filter (fun other => other.idx != id.idx) → other ∈ live ∧ other.idx ≠ id.idx := by
      intro other ho
      simpa using List.mem_filter.mp ho
    have hget : ∀ (other : Nat), other ≠ id.idx → ∀ g, (t.gens.set id.idx g)[other]? = t.gens[other]? := fun other ho g =>
      List.getElem?_set_ne (Ne.symm ho)
    cases hc0 : t.conns[id.idx]? with
    | none =>
      refine ⟨fun other ho => ?_, fun other ho c hc => ?_, fun i c hc hw => ?_⟩
      · obtain ⟨ho, hne⟩ := hmem ho
        exact (hget _ hne _).trans (h.gens other ho)
      · exact h.posted other (hmem ho).1 c hc
      · have hc : t.conns[i]? = some c := hc
        obtain ⟨other, ho, rfl⟩ := h.wired i c hc hw
        refine ⟨other, List.mem_filter.mpr ⟨ho, ?_⟩, rfl⟩
        rw [bne_iff_ne]
        intro heq
        rw [heq, hc0] at hc
        cases hc
    | some c0 =>
      refine ⟨fun other ho => ?_, fun other ho c hc => ?_, fun i c hc hw => ?_⟩
      · obtain ⟨ho, hne⟩ := hmem ho
        exact (hget _ hne _).trans (h.gens other ho)
      · obtain ⟨ho, hne⟩ := hmem ho
        have hc : (t.conns.set id.idx { c0 with output := false })[other.idx]? = some c := hc
        rw [List.getElem?_set_ne (Ne.symm hne)] at hc
        obtain ⟨hp, hg⟩ := h.posted other ho c hc
        exact ⟨PushIndex.remove_keeps hp hne _ _, hg⟩
      · have hc : (t.conns.set id.idx { c0 with output := false })[i]? = some c := hc
        by_cases hi : id.idx = i
        · have hc := List.getElem?_eq_some_iff.mp hc
          obtain ⟨hlt, hc⟩ := hc
          subst hi
          rw [List.getElem_set_self] at hc
          rw [← hc] at hw
          cases hw
        · rw [List.getElem?_set_ne hi] at hc
          obtain ⟨other, ho, rfl⟩ := h.wired i c hc hw
          exact ⟨other, List.mem_filter.mpr ⟨ho, by simpa using Ne.symm hi⟩, rfl⟩
  · exact h

theorem Posts.setOutput (h : t.Posts live) {id : ConnId} (hid : id ∈ live) {t' : ConnTable} (ht : t.setOutput id = some t') :
    t'.Posts live := by
  have hix : t.liveIx id = some id.idx := by simp [liveIx, h.gens id hid]
  unfold ConnTable.setOutput at ht
  simp only [hix, Option.bind_eq_bind, Option.bind_some] at ht
  obtain ⟨c0, hc0, ht⟩ := Option.bind_eq_some_iff.mp ht
  obtain rfl := Option.some.inj ht
  have hget : ∀ (i : Nat) (c : Connection), (t.conns.set id.idx { c0 with output := true })[i]? = some c →
      (i = id.idx ∧ c = { c0 with output := true }) ∨ (i ≠ id.idx ∧ t.conns[i]? = some c) := by
    intro i c hc
    by_cases hi : id.idx = i
    · subst hi
      rw [List.getElem?_set_self (List.getElem?_eq_some_iff.mp hc0).1] at hc
      exact Or.inl ⟨rfl, (Option.some.inj hc).symm⟩
    · rw [List.getElem?_set_ne hi] at hc
      exact Or.inr ⟨Ne.symm hi, hc⟩
  refine ⟨h.gens, fun other ho c hc => ?_, fun i c hc hw => ?_⟩
  · rcases hget _ _ hc with ⟨hi, rfl⟩ | ⟨-, hc⟩
    · rw [hi]
      exact h.posted id hid c0 hc0
    · exact h.posted other ho c hc
  · rcases hget _ _ hc with ⟨rfl, -⟩ | ⟨-, hc⟩
    · exact ⟨id, hid, rfl⟩
    · exact h.wired i c hc hw

end ConnTable

/-! ## Histories -/

namespace MemorySource

variable {s s' : MemorySource} {live : List ConnId} {R : Set Row} {change : SourceChange Row} {reads : Reads}

/-- Stamps touch no posting. -/
theorem Visited.posts {epoch : Nat} {slots : List Nat} (h : Visited change epoch slots s s') (hp : s.conns.Posts live) :
    s'.conns.Posts live := by
  have hget : ∀ (i : Nat) (c : Connection), s'.conns.conns[i]? = some c →
      ∃ d, s.conns.conns[i]? = some d ∧ c.filters = d.filters ∧ c.output = d.output := by
    intro i c hc
    rw [h.conns i] at hc
    obtain ⟨d, hd, rfl⟩ := Option.map_eq_some_iff.mp hc
    refine ⟨d, hd, ?_, stampIf_output slots epoch i d⟩
    unfold stampIf
    split <;> rfl
  refine ⟨h.gens ▸ hp.gens, fun id hid c hc => ?_, fun i c hc hw => ?_⟩
  · obtain ⟨d, hd, hf, -⟩ := hget _ _ hc
    obtain ⟨hposted, hguard⟩ := hp.posted id hid d hd
    rw [h.index, Connection.pushGuard, hf]
    exact ⟨hposted, hguard⟩
  · obtain ⟨d, hd, -, ho⟩ := hget _ _ hc
    exact hp.wired i d hd (ho ▸ hw)

theorem Posts.pushOnce (h : s.Ok (same R)) (hp : s.conns.Posts live) (hr : s.ReadsLive reads) (hv : ValidChange s.primaryKey R change)
    {strict : Bool} {p : Pushed} (hpush : s.pushOnce change reads strict = some p) : p.source.conns.Posts live := by
  obtain ⟨s1, sent, heq, -, hvis, -⟩ := h.pushOnce hr (ValidChange.accepted h.holds hv strict)
  rw [heq] at hpush
  obtain rfl := Option.some.inj hpush
  exact hvis.posts hp

theorem Posts.tryPush (h : s.Ok (same R)) (hp : s.conns.Posts live) (hr : s.ReadsLive reads) (hv : ValidChange s.primaryKey R change)
    {strict : Bool} {p : Pushed} (hpush : s.tryPush change reads strict = some p) : p.source.conns.Posts live := by
  cases h.comes hr hv strict with
  | whole push => exact Posts.pushOnce h hp hr hv (push.symm.trans hpush)
  | halves old row q1 q2 edit split remove removed ok key live add added push =>
    have hposts := Posts.pushOnce ok (Posts.pushOnce h hp hr remove removed) live add added
    rw [← Option.some.inj (push.symm.trans hpush)]
    exact hposts

/-- The ids in use after an operation. -/
def liveAfter (s : MemorySource) (live : List ConnId) : Op → List ConnId
  | .connect sort filters keys => ((s.connect sort filters keys).map fun r => ConnTable.claim live r.2).getD live
  | .destroy id => s.conns.release live id
  | _ => live

/-- Filters imply their guards, and only an id in use is wired. -/
def Op.Uses (live : List ConnId) : Op → Prop
  | .connect _ filters _ => ∀ f, filters = some f → f.Guarded
  | .setConnOutput id => id ∈ live
  | _ => True

theorem Posts.step (h : s.Ok (same R)) (hp : s.conns.Posts live) {op : Op} (hf : op.Fits s R) (hu : op.Uses live)
    (hs : op.run s = some s') : s'.conns.Posts (s.liveAfter live op) := by
  cases op with
  | push change reads strict =>
    obtain ⟨p, hpush, rfl⟩ := Option.map_eq_some_iff.mp hs
    exact Posts.tryPush h hp hf.2 hf.1 hpush
  | ensureIndex sort =>
    obtain ⟨s1, heq, -, hg, -⟩ := h.holds.ensureIndex (orderingIncludesPk_iff.mp hf)
    obtain rfl : s1 = s' := Option.some.inj (heq.symm.trans hs)
    obtain ⟨more, rfl⟩ := hg
    exact hp
  | connect sort filters keys =>
    obtain ⟨r, hr, rfl⟩ := Option.map_eq_some_iff.mp hs
    simp only [liveAfter, hr, Option.map_some, Option.getD_some]
    unfold MemorySource.connect at hr
    split at hr
    · rw [← Option.some.inj hr]
      exact hp.connect h.conns rfl hu
    · cases hr
  | setConnOutput id =>
    obtain ⟨t, ht, rfl⟩ := Option.map_eq_some_iff.mp hs
    exact hp.setOutput hu ht
  | fetch id req =>
    obtain ⟨-, rows, s1, -, -, heq, -, hg, -⟩ := h.fetch hf req
    have hs1 : some s1 = some s' := by rw [← hs]; simp [Op.run, heq]
    obtain rfl := Option.some.inj hs1
    obtain ⟨more, rfl⟩ := hg
    exact hp
  | destroy id =>
    rw [← Option.some.inj hs]
    exact hp.destroy id

/-- Along a history every operation uses ids that are in use. -/
def UsesLive : MemorySource → List ConnId → List Op → Prop
  | _, _, [] => True
  | s, live, op :: ops => op.Uses live ∧ ∀ s', op.run s = some s' → UsesLive s' (s.liveAfter live op) ops

/-- The ids in use after a history. -/
def liveAfterAll : MemorySource → List ConnId → List Op → List ConnId
  | _, live, [] => live
  | s, live, op :: ops => ((op.run s).map fun s' => liveAfterAll s' (s.liveAfter live op) ops).getD live

theorem run_posts (ops : List Op) : ∀ {s s' : MemorySource} {live : List ConnId} {R : Set Row}, s.Ok (same R) → s.conns.Posts live →
    ValidRun s R ops → UsesLive s live ops → ops.foldlM Op.run s = some s' → s'.conns.Posts (liveAfterAll s live ops) := by
  induction ops with
  | nil =>
    intro s s' live R _ hp _ _ hs
    rw [← Option.some.inj hs]
    exact hp
  | cons op ops ih =>
    intro s s' live R h hp hv hu hs
    obtain ⟨s1, heq1, hok1, -⟩ := Op.Fits.step h hv.1
    have hp1 := Posts.step h hp hv.1 hu.1 heq1
    rw [List.foldlM_cons, heq1] at hs
    rw [liveAfterAll, heq1]
    exact ih hok1 hp1 (hv.2 s1 heq1) (hu.2 s1 heq1) hs

/-- Ascending lists with the same members are one list. -/
theorem ascending_ext {l m : List Nat} (hl : l.Pairwise (· < ·)) (hm : m.Pairwise (· < ·)) (h : ∀ i, i ∈ l ↔ i ∈ m) : l = m := by
  have hnd : ∀ {k : List Nat}, k.Pairwise (· < ·) → k.Nodup := fun hk => hk.imp fun h => Nat.ne_of_lt h
  have hperm : l.Perm m := (List.perm_ext_iff_of_nodup (hnd hl) (hnd hm)).mpr h
  exact List.Perm.eq_of_pairwise (fun a b _ _ hab hba => absurd hba (Nat.lt_asymm hab)) hl hm hperm

/-- Slots that are not candidates are sent nothing. -/
theorem deliveries_candidates {C : SortSpec → Set Row} (h : s.Ok C) (hp : s.conns.Posts live) (change : SourceChange Row) :
    s.deliveries change (s.conns.index.pushCandidates change) = s.deliveries change (List.range s.conns.conns.length) := by
  have hsent : ∀ i, (s.sentTo change i).isSome = true → i ∈ s.conns.index.pushCandidates change := by
    intro i hi
    obtain ⟨sc, hsc⟩ := Option.isSome_iff_exists.mp hi
    obtain ⟨c, hc, hfp⟩ := Option.bind_eq_some_iff.mp hsc
    split at hfp
    · rename_i hout
      obtain ⟨id, hid, rfl⟩ := hp.wired i c hc hout
      obtain ⟨hposted, hguard⟩ := hp.posted id hid c hc
      exact hposted.candidate hguard (by rw [c.takes_iff, hfp]; rfl)
    · cases hfp
  have hbelow := PushIndex.pushCandidates_below h.conns.index change
  -- the slots that are sent something are the same, in the same order
  have hslots : (s.conns.index.pushCandidates change).filter (fun i => (s.sentTo change i).isSome) =
      (List.range s.conns.conns.length).filter fun i => (s.sentTo change i).isSome := by
    refine ascending_ext ((PushIndex.pushCandidates_sorted _ _).sublist List.filter_sublist)
      (List.pairwise_lt_range.sublist List.filter_sublist) fun i => ?_
    rw [List.mem_filter, List.mem_filter, List.mem_range]
    constructor
    · intro hi
      exact ⟨hbelow i hi.1, hi.2⟩
    · intro hi
      exact ⟨hsent i hi.2, hi.2⟩
  have honly : ∀ slots : List Nat, s.deliveries change slots = s.deliveries change (slots.filter fun i => (s.sentTo change i).isSome) := by
    intro slots
    rw [deliveries, deliveries, List.filterMap_filter]
    congr 1
    funext i
    cases s.sentTo change i <;> rfl
  rw [honly, hslots, ← honly]

theorem tryNew_posts {width : Nat} {pk : List Nat} {initial : List Row} {s : MemorySource} (hnew : tryNew width pk initial = .ok s) :
    s.conns.Posts [] := by
  unfold tryNew at hnew
  split at hnew
  · cases hnew
  · rw [← Except.ok.inj hnew]
    exact ⟨fun _ hid => (by cases hid), fun _ hid => (by cases hid), fun i c hc => (by cases hc)⟩

/-- Over every history of connections coming and going, of pushes and fetches: the candidates of a change
    are ascending, each once, and every connection in use whose filter accepts the old or the new row is
    one of them; visiting them sends what visiting every slot would. -/
theorem push_index_sound {width : Nat} {pk : List Nat} {initial : List Row} {s : MemorySource} (hnew : tryNew width pk initial = .ok s)
    (hkeys : initial.Pairwise fun a b => keyCmp pk a b ≠ .eq) {ops : List Op} (hv : ValidRun s {r | r ∈ initial} ops)
    (hu : UsesLive s [] ops) :
    ∃ s', ops.foldlM Op.run s = some s' ∧ ∀ change,
      (s'.conns.index.pushCandidates change).Pairwise (· < ·) ∧
      (∀ id ∈ liveAfterAll s [] ops, ∃ conn, s'.conns.live id = some conn ∧
        (conn.takes change = true → id.idx ∈ s'.conns.index.pushCandidates change)) ∧
      ∀ (reads : Reads) (epoch : Nat), s'.ReadsLive reads → ∃ some' all,
        fanOut change epoch reads (s'.conns.index.pushCandidates change) s' = some some' ∧
        fanOut change epoch reads (List.range s'.conns.conns.length) s' = some all ∧ some'.2 = all.2 := by
  obtain ⟨s', hrun, hok⟩ := run_ok ops (tryNew_ok hnew hkeys) hv
  have hposts := run_posts ops (tryNew_ok hnew hkeys) (tryNew_posts hnew) hv hu hrun
  refine ⟨s', hrun, fun change => ⟨PushIndex.pushCandidates_sorted _ _, fun id hid => ?_, fun reads epoch hr => ?_⟩⟩
  · have hix : s'.conns.liveIx id = some id.idx := by simp [ConnTable.liveIx, hposts.gens id hid]
    obtain ⟨conn, hlive, hget, -⟩ := hok.conns.live (by rw [hix]; rfl)
    obtain ⟨hposted, hguard⟩ := hposts.posted id hid conn hget
    exact ⟨conn, hlive, hposted.candidate hguard⟩
  · obtain ⟨s1, sent1, h1, -, -, -, hs1⟩ := Ok.fanOut change epoch _ hok hr (PushIndex.pushCandidates_below hok.conns.index change)
    obtain ⟨s2, sent2, h2, -, -, -, hs2⟩ := Ok.fanOut change epoch (List.range s'.conns.conns.length) hok hr
      fun i hi => List.mem_range.mp hi
    exact ⟨(s1, sent1), (s2, sent2), h1, h2, by rw [hs1, hs2, deliveries_candidates hok hposts change]⟩

/-- The filter `col = v`, with its guard. -/
def equals (col : Nat) (v : Value) : ConnectionFilters :=
  { predicate := fun r => valuesIdentical v (r.cell col), pushGuard := some ⟨col, [v]⟩ }

theorem equals_guarded (col : Nat) (v : Value) : (equals col v).Guarded := by
  intro g hg row hrow
  obtain rfl := Option.some.inj hg
  exact ⟨v, List.mem_cons_self, guardKeyEq_iff.mpr (canonVal_inj.mpr hrow)⟩

/-- A slot given up by a query for 5 and taken by one for 7: a row with a 7 reaches it. -/
theorem push_index_sound_recycled : ∃ s s', tryNew 2 [0] [[.int 1, .int 5]] = .ok s ∧
    [Op.connect none (some (equals 1 (.int 5))) [], .destroy ⟨0, 0⟩, .connect none (some (equals 1 (.int 7))) [],
      .setConnOutput ⟨0, 1⟩].foldlM Op.run s = some s' ∧ 0 ∈ s'.conns.index.pushCandidates (.add [.int 2, .int 7]) := by
  obtain ⟨s, hnew⟩ : ∃ s, tryNew 2 [0] [[.int 1, .int 5]] = .ok s := ⟨_, rfl⟩
  have hs := Except.ok.inj hnew
  have hv : ValidRun s {r | r ∈ [[Value.int 1, .int 5]]} [Op.connect none (some (equals 1 (.int 5))) [], .destroy ⟨0, 0⟩,
      .connect none (some (equals 1 (.int 7))) [], .setConnOutput ⟨0, 1⟩] := by
    rw [← hs]
    exact ⟨rfl, fun s1 h1 => ⟨trivial, fun s2 h2 => ⟨rfl, fun s3 h3 =>
      ⟨by rw [← Option.some.inj h3, ← Option.some.inj h2, ← Option.some.inj h1]; rfl, fun _ _ => trivial⟩⟩⟩⟩
  have hu : UsesLive s [] [Op.connect none (some (equals 1 (.int 5))) [], .destroy ⟨0, 0⟩,
      .connect none (some (equals 1 (.int 7))) [], .setConnOutput ⟨0, 1⟩] := by
    have hg : ∀ v f, some (equals 1 v) = some f → f.Guarded := fun v f hf => Option.some.inj hf ▸ equals_guarded 1 v
    rw [← hs]
    refine ⟨hg _, fun s1 h1 => ⟨trivial, fun s2 h2 => ⟨hg _, fun s3 h3 => ⟨?_, fun _ _ => trivial⟩⟩⟩⟩
    rw [← Option.some.inj h2, ← Option.some.inj h1]
    exact List.mem_cons_self
  obtain ⟨s', hrun, hall⟩ := push_index_sound hnew (by decide) hv hu
  obtain ⟨-, hlive, -⟩ := hall (.add [.int 2, .int 7])
  rw [← hs] at hrun hlive
  obtain ⟨conn, hconn, htakes⟩ := hlive ⟨0, 1⟩ (List.mem_singleton.mpr rfl)
  refine ⟨s, s', hnew, hs ▸ hrun, htakes ?_⟩
  rw [← Option.some.inj hrun] at hconn
  rw [← Option.some.inj hconn]
  decide

end MemorySource

end Rindle
