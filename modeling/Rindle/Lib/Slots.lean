/-
  Rindle.Lib.Slots — an arena of recycled slots with generations.

  An id names a slot and the generation it was handed out at. Retiring an id bumps its slot's
  generation, which wraps at `w`, and pushes the slot on a free list; a later allocation pops
  it. A read compares the generations, so that an id of an earlier tenant reads nothing.

  `Kept` ties an arena to its history, the ids handed out and those of them retired. It is
  kept by every operation as long as no slot is retired `w` times, and from it: a live id
  reads its own cell, a retired one nothing, and no id is handed out twice.
-/

import Mathlib.Data.List.Basic

namespace Rindle

structure SlotId where
  idx : Nat
  gen : Nat
  deriving DecidableEq

structure Arena (α : Type) where
  cells : List α := []
  gens : List Nat := []
  free : List Nat := []

namespace Arena

variable {α : Type} {w : Nat} {a : Arena α} {id other : SlotId} {handed retired : List SlotId} {x : α}

/-- The last slot freed, or a new one that holds `x`. -/
def alloc (a : Arena α) (x : α) : Arena α × SlotId :=
  match a.free with
  | i :: free => ({ a with free }, ⟨i, a.gens[i]?.getD 0⟩)
  | [] => ({ a with cells := a.cells ++ [x], gens := a.gens ++ [0] }, ⟨a.cells.length, 0⟩)

/-- The cell of an id of the current generation. -/
def get? (a : Arena α) (id : SlotId) : Option α := if a.gens[id.idx]? = some id.gen then a.cells[id.idx]? else none

def put (a : Arena α) (id : SlotId) (x : α) : Arena α := { a with cells := a.cells.set id.idx x }

/-- Allocate and write. -/
def add (a : Arena α) (x : α) : Arena α × SlotId :=
  let (b, id) := a.alloc x
  (b.put id x, id)

/-- Leave `x` in the cell and free the slot; a stale id is refused. -/
def retire (w : Nat) (a : Arena α) (id : SlotId) (x : α) : Option (Arena α) :=
  if a.gens[id.idx]? = some id.gen then
    some { cells := a.cells.set id.idx x, gens := a.gens.set id.idx ((id.gen + 1) % w), free := id.idx :: a.free }
  else none

/-! ## Histories -/

/-- How often a slot was retired. -/
def reuses (retired : List SlotId) (i : Nat) : Nat := retired.countP fun id => id.idx == i

/-- No slot was retired `w` times. -/
def Few (w : Nat) (retired : List SlotId) : Prop := ∀ i, reuses retired i < w

theorem reuses_cons (id : SlotId) (retired : List SlotId) (i : Nat) :
    reuses (id :: retired) i = reuses retired i + if id.idx = i then 1 else 0 := by
  simp [reuses, List.countP_cons]

theorem Few.of_append {before : List SlotId} (h : Few w (before ++ retired)) : Few w retired := by
  intro i
  have hi := h i
  rw [reuses, List.countP_append] at hi
  exact Nat.lt_of_le_of_lt (Nat.le_add_left _ _) hi

/-- An arena after it handed out `handed` and took back `retired`. -/
structure Kept (a : Arena α) (handed retired : List SlotId) : Prop where
  cells : a.cells.length = a.gens.length
  gens : ∀ i g, a.gens[i]? = some g → g = reuses retired i
  nodup : a.free.Nodup
  below : ∀ i ∈ a.free, i < a.gens.length
  slots : ∀ id ∈ handed, id.idx < a.gens.length
  live : ∀ id ∈ handed, id ∉ retired → a.gens[id.idx]? = some id.gen ∧ id.idx ∉ a.free
  stale : ∀ id ∈ retired, ∃ g, a.gens[id.idx]? = some g ∧ id.gen < g

theorem kept_empty : Kept ({} : Arena α) [] [] := by
  refine ⟨rfl, ?_, List.nodup_nil, ?_, ?_, ?_, ?_⟩
  · intro i g h
    cases h
  all_goals
    intro i hi
    cases hi

namespace Kept

theorem get?_retired (h : a.Kept handed retired) (hid : id ∈ retired) : a.get? id = none := by
  obtain ⟨g, hg, hlt⟩ := h.stale id hid
  have hne : ¬a.gens[id.idx]? = some id.gen := by
    rw [hg]
    intro heq
    exact absurd (Option.some.inj heq) (Nat.ne_of_gt hlt)
  rw [get?, if_neg hne]

theorem exists_get? (h : a.Kept handed retired) (hid : id ∈ handed) (hlive : id ∉ retired) : ∃ x, a.get? id = some x := by
  have hlt : id.idx < a.cells.length := h.cells ▸ h.slots id hid
  exact ⟨_, by rw [get?, if_pos (h.live id hid hlive).1, List.getElem?_eq_getElem hlt]⟩

theorem get?_eq (h : a.Kept handed retired) (hid : id ∈ handed) (hlive : id ∉ retired) : a.get? id = a.cells[id.idx]? := by
  rw [get?, if_pos (h.live id hid hlive).1]

/-- Live ids are of different slots. -/
theorem live_inj (h : a.Kept handed retired) (hid : id ∈ handed) (hlive : id ∉ retired) (ho : other ∈ handed)
    (holive : other ∉ retired) (hidx : id.idx = other.idx) : id = other := by
  have hgen := (h.live id hid hlive).1
  rw [hidx, (h.live other ho holive).1] at hgen
  cases id
  cases other
  simp_all

theorem refused (h : a.Kept handed retired) (hid : id ∈ retired) (x : α) : a.retire w id x = none := by
  obtain ⟨g, hg, hlt⟩ := h.stale id hid
  have hne : ¬a.gens[id.idx]? = some id.gen := by
    rw [hg]
    intro heq
    exact absurd (Option.some.inj heq) (Nat.ne_of_gt hlt)
  rw [retire, if_neg hne]

/-! ## Allocation -/

/-- The id of an allocation was never handed out. -/
theorem alloc_fresh (h : a.Kept handed retired) (x : α) : (a.alloc x).2 ∉ handed ∧ (a.alloc x).2 ∉ retired := by
  unfold alloc
  cases hf : a.free with
  | cons i free =>
    have hi : i ∈ a.free := hf ▸ List.mem_cons_self
    have hget := List.getElem?_eq_getElem (h.below i hi)
    have hstale : (⟨i, a.gens[i]?.getD 0⟩ : SlotId) ∉ retired := by
      intro hr
      obtain ⟨g, hg, hlt⟩ := h.stale _ hr
      have hg : a.gens[i]? = some g := hg
      rw [hg] at hlt
      exact absurd hlt (Nat.lt_irrefl g)
    refine ⟨?_, hstale⟩
    intro hh
    exact (h.live _ hh hstale).2 hi
  | nil =>
    refine ⟨?_, ?_⟩
    · intro hh
      have hlt := h.slots _ hh
      rw [← h.cells] at hlt
      exact absurd hlt (Nat.lt_irrefl _)
    · intro hr
      obtain ⟨g, hg, -⟩ := h.stale _ hr
      have hlt := (List.getElem?_eq_some_iff.mp hg).1
      rw [← h.cells] at hlt
      exact absurd hlt (Nat.lt_irrefl _)

theorem alloc (h : a.Kept handed retired) (x : α) : (a.alloc x).1.Kept ((a.alloc x).2 :: handed) retired := by
  unfold Arena.alloc
  cases hf : a.free with
  | cons i free =>
    have hnd := h.nodup
    rw [hf, List.nodup_cons] at hnd
    have hi : i < a.gens.length := h.below i (hf ▸ List.mem_cons_self)
    have hfree : ∀ j ∈ free, j ∈ a.free := fun j hj => hf ▸ List.mem_cons_of_mem _ hj
    refine ⟨h.cells, h.gens, hnd.2, fun j hj => h.below j (hfree j hj), ?_, ?_, h.stale⟩
    · intro id hid
      rcases List.mem_cons.mp hid with rfl | hid
      · exact hi
      · exact h.slots id hid
    · intro id hid hlive
      rcases List.mem_cons.mp hid with rfl | hid
      · refine ⟨?_, hnd.1⟩
        show a.gens[i]? = some (a.gens[i]?.getD 0)
        rw [List.getElem?_eq_getElem hi]
        rfl
      · obtain ⟨hg, hnf⟩ := h.live id hid hlive
        exact ⟨hg, fun hj => hnf (hfree _ hj)⟩
  | nil =>
    have hlen : ∀ {j g : Nat}, a.gens[j]? = some g → (a.gens ++ [0])[j]? = some g := by
      intro j g hg
      rw [List.getElem?_append_left (List.getElem?_eq_some_iff.mp hg).1]
      exact hg
    refine ⟨by simp [h.cells], ?_, List.nodup_nil, fun j hj => (by cases hj), ?_, ?_, ?_⟩
    · intro j g hg
      by_cases hj : j < a.gens.length
      · rw [List.getElem?_append_left hj] at hg
        exact h.gens j g hg
      · have hlt := (List.getElem?_eq_some_iff.mp hg).1
        have hj : j = a.gens.length := by
          rw [List.length_append, List.length_singleton] at hlt
          omega
        have hnone : reuses retired j = 0 := by
          rw [reuses, List.countP_eq_zero]
          intro id hid
          obtain ⟨g', hg', -⟩ := h.stale id hid
          have hid := (List.getElem?_eq_some_iff.mp hg').1
          simp only [beq_iff_eq]
          omega
        rw [hnone]
        rw [hj] at hg
        simpa using hg.symm
    · intro id hid
      rw [List.length_append, List.length_singleton]
      rcases List.mem_cons.mp hid with rfl | hid
      · show a.cells.length < _
        rw [h.cells]
        exact Nat.lt_succ_self _
      · exact Nat.lt_succ_of_lt (h.slots id hid)
    · intro id hid hlive
      rcases List.mem_cons.mp hid with rfl | hid
      · refine ⟨?_, List.not_mem_nil⟩
        show (a.gens ++ [0])[a.cells.length]? = some 0
        rw [h.cells]
        simp
      · exact ⟨hlen (h.live id hid hlive).1, List.not_mem_nil⟩
    · intro id hid
      obtain ⟨g, hg, hlt⟩ := h.stale id hid
      exact ⟨g, hlen hg, hlt⟩

/-- An allocation changes no cell an earlier id reads. -/
theorem get?_alloc (h : a.Kept handed retired) (hid : id ∈ handed) (x : α) : (a.alloc x).1.get? id = a.get? id := by
  have hlt := h.slots id hid
  unfold Arena.alloc
  cases hf : a.free with
  | cons i free => rfl
  | nil =>
    simp only [get?]
    rw [List.getElem?_append_left hlt, List.getElem?_append_left (h.cells ▸ hlt)]

/-! ## Writes -/

theorem put (h : a.Kept handed retired) (id : SlotId) (x : α) : (a.put id x).Kept handed retired :=
  ⟨by simpa [Arena.put] using h.cells, h.gens, h.nodup, h.below, h.slots, h.live, h.stale⟩

theorem get?_put_self (h : a.Kept handed retired) (hid : id ∈ handed) (hlive : id ∉ retired) (x : α) :
    (a.put id x).get? id = some x := by
  rw [(h.put id x).get?_eq hid hlive]
  exact List.getElem?_set_self (h.cells ▸ h.slots id hid)

/-- A write to a live id changes what no other id reads. -/
theorem get?_put_ne (h : a.Kept handed retired) (hid : id ∈ handed) (hlive : id ∉ retired) (ho : other ∈ handed)
    (hne : other ≠ id) (x : α) : (a.put id x).get? other = a.get? other := by
  by_cases hr : other ∈ retired
  · rw [(h.put id x).get?_retired hr, h.get?_retired hr]
  · rw [(h.put id x).get?_eq ho hr, h.get?_eq ho hr]
    refine List.getElem?_set_ne fun hidx => hne ?_
    exact (h.live_inj hid hlive ho hr hidx).symm

theorem add (h : a.Kept handed retired) (x : α) : (a.add x).1.Kept ((a.add x).2 :: handed) retired := (h.alloc x).put _ x

theorem add_fresh (h : a.Kept handed retired) (x : α) : (a.add x).2 ∉ handed ∧ (a.add x).2 ∉ retired := h.alloc_fresh x

theorem get?_add_self (h : a.Kept handed retired) (x : α) : (a.add x).1.get? (a.add x).2 = some x :=
  (h.alloc x).get?_put_self List.mem_cons_self (h.alloc_fresh x).2 x

theorem get?_add (h : a.Kept handed retired) (hid : id ∈ handed) (x : α) : (a.add x).1.get? id = a.get? id := by
  have hfresh := h.alloc_fresh x
  have hne : id ≠ (a.alloc x).2 := fun heq => hfresh.1 (heq ▸ hid)
  calc ((a.alloc x).1.put (a.alloc x).2 x).get? id = (a.alloc x).1.get? id :=
        (h.alloc x).get?_put_ne List.mem_cons_self hfresh.2 (List.mem_cons_of_mem _ hid) hne x
    _ = a.get? id := h.get?_alloc hid x

/-! ## Retirement -/

theorem retire_eq (h : a.Kept handed retired) (hid : id ∈ handed) (hlive : id ∉ retired) (x : α) :
    a.retire w id x =
      some { cells := a.cells.set id.idx x, gens := a.gens.set id.idx ((id.gen + 1) % w), free := id.idx :: a.free } := by
  rw [Arena.retire, if_pos (h.live id hid hlive).1]

theorem retire (h : a.Kept handed retired) (hid : id ∈ handed) (hlive : id ∉ retired) (hfew : Few w (id :: retired)) {b : Arena α}
    (hb : a.retire w id x = some b) : b.Kept handed (id :: retired) := by
  rw [h.retire_eq hid hlive] at hb
  obtain rfl := Option.some.inj hb
  obtain ⟨hgen, hnf⟩ := h.live id hid hlive
  have hlt := h.slots id hid
  -- the generation counts the retirements of the slot, so the bound keeps it from wrapping
  have hcount : reuses (id :: retired) id.idx = id.gen + 1 := by
    rw [reuses_cons, if_pos rfl, ← h.gens _ _ hgen]
  have hmod : (id.gen + 1) % w = id.gen + 1 := Nat.mod_eq_of_lt (hcount ▸ hfew id.idx)
  have hself : (a.gens.set id.idx ((id.gen + 1) % w))[id.idx]? = some (id.gen + 1) := by
    rw [List.getElem?_set_self hlt, hmod]
  have hother : ∀ i, i ≠ id.idx → (a.gens.set id.idx ((id.gen + 1) % w))[i]? = a.gens[i]? := fun i hi =>
    List.getElem?_set_ne (Ne.symm hi)
  refine ⟨by simpa using h.cells, ?_, List.nodup_cons.mpr ⟨hnf, h.nodup⟩, ?_, ?_, ?_, ?_⟩
  · intro i g hg
    by_cases hi : i = id.idx
    · subst hi
      rw [hself] at hg
      rw [hcount]
      exact (Option.some.inj hg).symm
    · rw [hother i hi] at hg
      rw [reuses_cons, if_neg (Ne.symm hi), Nat.add_zero]
      exact h.gens i g hg
  · intro i hi
    rw [List.length_set]
    rcases List.mem_cons.mp hi with rfl | hi
    · exact hlt
    · exact h.below i hi
  · intro other ho
    rw [List.length_set]
    exact h.slots other ho
  · intro other ho holive
    rw [List.mem_cons, not_or] at holive
    have hne : other.idx ≠ id.idx := fun hidx => holive.1 (h.live_inj ho holive.2 hid hlive hidx)
    obtain ⟨hg, hfree⟩ := h.live other ho holive.2
    refine ⟨(hother _ hne).trans hg, ?_⟩
    rw [List.mem_cons, not_or]
    exact ⟨hne, hfree⟩
  · intro other ho
    by_cases hidx : other.idx = id.idx
    · refine ⟨id.gen + 1, hidx ▸ hself, ?_⟩
      rcases List.mem_cons.mp ho with rfl | ho
      · exact Nat.lt_succ_self _
      · obtain ⟨g, hg, hlt⟩ := h.stale other ho
        rw [hidx, hgen] at hg
        have hgg := Option.some.inj hg
        omega
    · rcases List.mem_cons.mp ho with rfl | ho
      · exact absurd rfl hidx
      · obtain ⟨g, hg, hlt⟩ := h.stale other ho
        exact ⟨g, (hother _ hidx).trans hg, hlt⟩

/-- Retiring an id changes what no other id reads. -/
theorem get?_retire_ne (h : a.Kept handed retired) (hid : id ∈ handed) (hlive : id ∉ retired) (hfew : Few w (id :: retired))
    {b : Arena α} (hb : a.retire w id x = some b) (ho : other ∈ handed) (hne : other ≠ id) : b.get? other = a.get? other := by
  have hk := h.retire hid hlive hfew hb
  by_cases hr : other ∈ retired
  · rw [hk.get?_retired (List.mem_cons_of_mem _ hr), h.get?_retired hr]
  · have hnr : other ∉ id :: retired := by
      rw [List.mem_cons, not_or]
      exact ⟨hne, hr⟩
    rw [hk.get?_eq ho hnr, h.get?_eq ho hr]
    rw [h.retire_eq hid hlive] at hb
    obtain rfl := Option.some.inj hb
    exact List.getElem?_set_ne fun hidx => hne (h.live_inj ho hr hid hlive hidx.symm)

end Kept

/-! ## Retiring several -/

/-- Retire one id after the other. -/
def retireAll (w : Nat) (x : α) (a : Arena α) (ids : List SlotId) : Option (Arena α) := ids.foldlM (fun a id => a.retire w id x) a

/-- Retiring a list of ids: all were live, and the others read what they read. -/
theorem Kept.retireAll (ids : List SlotId) : ∀ {a b : Arena α} {retired : List SlotId}, a.Kept handed retired →
    (∀ id ∈ ids, id ∈ handed) → Few w (ids.reverse ++ retired) → a.retireAll w x ids = some b →
      b.Kept handed (ids.reverse ++ retired) ∧ (∀ id ∈ ids, id ∉ retired) ∧
        ∀ other ∈ handed, other ∉ ids → b.get? other = a.get? other := by
  induction ids with
  | nil =>
    intro a b retired h _ _ hb
    obtain rfl : a = b := by simpa [Arena.retireAll] using hb
    exact ⟨h, fun id hid => (by cases hid), fun other _ _ => rfl⟩
  | cons id ids ih =>
    intro a b retired h hids hfew hb
    obtain ⟨c, hc, hb⟩ := Option.bind_eq_some_iff.mp (by simpa [Arena.retireAll] using hb)
    have hid : id ∈ handed := hids id List.mem_cons_self
    have hlive : id ∉ retired := by
      intro hr
      rw [h.refused hr] at hc
      cases hc
    have happ : (id :: ids).reverse ++ retired = ids.reverse ++ id :: retired := by simp
    rw [happ] at hfew ⊢
    have hfew1 : Few w (id :: retired) := hfew.of_append
    have hk := h.retire hid hlive hfew1 hc
    obtain ⟨hkb, hall, hsame⟩ := ih hk (fun i hi => hids i (List.mem_cons_of_mem _ hi)) hfew hb
    refine ⟨hkb, ?_, ?_⟩
    · intro i hi
      rcases List.mem_cons.mp hi with rfl | hi
      · exact hlive
      · exact fun hr => hall i hi (List.mem_cons_of_mem _ hr)
    · intro other ho hno
      rw [List.mem_cons, not_or] at hno
      rw [hsame other ho hno.2]
      exact h.get?_retire_ne hid hlive hfew1 hc ho hno.1

/-- Live ids, each once, can be retired. -/
theorem Kept.exists_retireAll (ids : List SlotId) : ∀ {a : Arena α} {retired : List SlotId}, a.Kept handed retired →
    (∀ id ∈ ids, id ∈ handed ∧ id ∉ retired) → ids.Nodup → Few w (ids.reverse ++ retired) →
      ∃ b, a.retireAll w x ids = some b := by
  induction ids with
  | nil => exact fun {a} _ _ _ _ _ => ⟨a, rfl⟩
  | cons id ids ih =>
    intro a retired h hids hnd hfew
    obtain ⟨hid, hlive⟩ := hids id List.mem_cons_self
    rw [List.nodup_cons] at hnd
    have happ : (id :: ids).reverse ++ retired = ids.reverse ++ id :: retired := by simp
    rw [happ] at hfew
    have hretire := h.retire_eq (w := w) hid hlive x
    have hk := h.retire hid hlive hfew.of_append hretire
    have hrest : ∀ i ∈ ids, i ∈ handed ∧ i ∉ id :: retired := by
      intro i hi
      obtain ⟨hi', hr⟩ := hids i (List.mem_cons_of_mem _ hi)
      rw [List.mem_cons, not_or]
      exact ⟨hi', fun heq => hnd.1 (heq ▸ hi), hr⟩
    obtain ⟨b, hb⟩ := ih hk hrest hnd.2 hfew
    refine ⟨b, ?_⟩
    rw [Arena.retireAll, List.foldlM_cons, hretire]
    exact hb

end Arena

end Rindle
