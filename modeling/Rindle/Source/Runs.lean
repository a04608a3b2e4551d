/-
  Rindle.Source.Runs — whole histories of an in-memory source.

  An operation pushes a change, builds an index, connects, wires, fetches or destroys. A
  history is valid when each operation fits the state it meets: a push's change fits the
  rows, its downstream reads live connections, an order has the primary key. Over every valid
  history no operation panics and all indexes hold the fold of the pushed changes
  (`indexes_agree`).
-/

import Rindle.Source.Push

namespace Rindle

namespace MemorySource

inductive Op where
  | push (change : SourceChange Row) (reads : Reads) (strict : Bool)
  | ensureIndex (sort : SortSpec)
  | connect (sort : Option SortSpec) (filters : Option ConnectionFilters) (splitEditKeys : List Nat)
  | setConnOutput (id : ConnId)
  | fetch (id : ConnId) (req : FetchRequest)
  | destroy (id : ConnId)

namespace Op

@[grind] def run (s : MemorySource) : Op → Option MemorySource
  | .push change reads strict => (s.tryPush change reads strict).map (·.source)
  | .ensureIndex sort => s.ensureIndex sort
  | .connect sort filters splitEditKeys => (s.connect sort filters splitEditKeys).map (·.1)
  | .setConnOutput id => s.setConnOutput id
  | .fetch id req => (s.fetch id req).map (·.2)
  | .destroy id => some (s.destroy id)

/-- What the operation does to the rows. -/
def apply (R : Set Row) : Op → Set Row
  | .push change _ _ => applyChange R change
  | _ => R

/-- The operation fits the state it meets. -/
def Fits (s : MemorySource) (R : Set Row) : Op → Prop
  | .push change reads _ => ValidChange s.primaryKey R change ∧ s.ReadsLive reads
  | .ensureIndex sort => orderingIncludesPk sort s.primaryKey = true
  | .connect sort _ _ => sort.all (fun o => orderingIncludesPk o s.primaryKey) = true
  | .setConnOutput id => (s.conns.liveIx id).isSome = true
  | .fetch id _ => (s.conns.liveIx id).isSome = true
  | .destroy _ => True

end Op

/-- Every operation of the history fits the state it meets. -/
def ValidRun : MemorySource → Set Row → List Op → Prop
  | _, _, [] => True
  | s, R, op :: ops => op.Fits s R ∧ ∀ s', op.run s = some s' → ValidRun s' (op.apply R) ops

/-- The changes a history pushes. -/
def pushed (ops : List Op) : List (SourceChange Row) :=
  ops.filterMap fun
    | .push change _ _ => some change
    | _ => none

variable {s : MemorySource} {R : Set Row}

/-! ## One operation -/

/-- A valid change is accepted, sent out and written. -/
theorem Ok.pushValid (h : s.Ok (same R)) {reads : Reads} (hr : s.ReadsLive reads) {change : SourceChange Row}
    (hv : ValidChange s.primaryKey R change) (strict : Bool) :
    ∃ p, s.pushOnce change reads strict = some p ∧ p.result = .ok () ∧ p.source.Ok (same (applyChange R change)) ∧
      p.source.primaryKey = s.primaryKey ∧ p.source.conns.gens = s.conns.gens := by
  obtain ⟨s', sent, heq, hok, hvis, -⟩ := h.pushOnce hr (ValidChange.accepted h.holds hv strict)
  have hkey : s'.primaryKey = s.primaryKey := hvis.key
  exact ⟨_, heq, rfl, hok.written (hkey ▸ hv), hvis.key, hvis.gens⟩

/-- Once its old row is gone, the new row of a valid edit is a valid addition. -/
theorem ValidChange.addHalf {pk : List Nat} {old row : Row} (hv : ValidChange pk R (.edit old row)) :
    ValidChange pk (applyChange R (.remove old)) (.add row) := by
  intro x hx
  exact hv.2 x hx.1 fun hxo => hx.2 hxo

/-- A push comes whole, or as the two halves of an edit that is split. -/
inductive Comes (s : MemorySource) (R : Set Row) (reads : Reads) (strict : Bool) (change : SourceChange Row) : Prop
  | whole (push : s.tryPush change reads strict = s.pushOnce change reads strict)
  | halves (old row : Row) (p q : Pushed) (edit : change = .edit old row) (split : s.conns.shouldSplitEdit row old = true)
      (remove : ValidChange s.primaryKey R (.remove old)) (removed : s.pushOnce (.remove old) reads strict = some p)
      (ok : p.source.Ok (same (applyChange R (.remove old)))) (key : p.source.primaryKey = s.primaryKey)
      (live : p.source.ReadsLive reads) (add : ValidChange p.source.primaryKey (applyChange R (.remove old)) (.add row))
      (added : p.source.pushOnce (.add row) reads strict = some q)
      (push : s.tryPush change reads strict = some { q with sent := p.sent ++ q.sent })

theorem Ok.comes (h : s.Ok (same R)) {reads : Reads} (hr : s.ReadsLive reads) {change : SourceChange Row}
    (hv : ValidChange s.primaryKey R change) (strict : Bool) : Comes s R reads strict change := by
  cases change with
  | add r => exact .whole rfl
  | remove r => exact .whole rfl
  | edit old row =>
    by_cases hsplit : s.conns.shouldSplitEdit row old = true
    · have hremove : ValidChange s.primaryKey R (.remove old) := hv.1
      obtain ⟨p, heq, hres, hok, hkey, hgens⟩ := h.pushValid hr hremove strict
      have hadd : ValidChange p.source.primaryKey (applyChange R (.remove old)) (.add row) := hkey ▸ ValidChange.addHalf hv
      have hr' : p.source.ReadsLive reads := fun slot sc r hmem => by
        rw [liveIx_congr hgens]
        exact hr slot sc r hmem
      obtain ⟨q, heq', -⟩ := hok.pushValid hr' hadd strict
      refine .halves old row p q rfl hsplit hremove heq hok hkey hr' hadd heq' ?_
      simp only [MemorySource.tryPush, hsplit, if_true, heq, hres, heq', Option.bind_eq_bind, Option.bind_some]
    · exact .whole (by simp only [MemorySource.tryPush, hsplit, Bool.false_eq_true, if_false])

/-- An edit pushed in two halves changes the rows as the edit does. -/
theorem Ok.tryPush (h : s.Ok (same R)) {reads : Reads} (hr : s.ReadsLive reads) {change : SourceChange Row}
    (hv : ValidChange s.primaryKey R change) (strict : Bool) :
    ∃ p, s.tryPush change reads strict = some p ∧ p.result = .ok () ∧ p.source.Ok (same (applyChange R change)) ∧
      p.source.primaryKey = s.primaryKey := by
  cases h.comes hr hv strict with
  | whole push =>
    obtain ⟨p, heq, hres, hok, hkey, -⟩ := h.pushValid hr hv strict
    exact ⟨p, push.trans heq, hres, hok, hkey⟩
  | halves old row p q edit split remove removed ok key live add added push =>
    subst edit
    obtain ⟨q', heq, hres, hok, hkey, -⟩ := ok.pushValid live add strict
    obtain rfl := Option.some.inj (heq.symm.trans added)
    exact ⟨_, push, hres, hok, hkey.trans key⟩

theorem Ok.connect (h : s.Ok (same R)) {sort : Option SortSpec} (hs : sort.all (fun o => orderingIncludesPk o s.primaryKey) = true)
    (filters : Option ConnectionFilters) (keys : List Nat) :
    ∃ r, s.connect sort filters keys = some r ∧ r.1.Ok (same R) ∧ r.1.primaryKey = s.primaryKey := by
  have hcov : SortSpec.Covers (sort.getD s.primaryIndexSort) s.primaryKey := by
    cases sort with
    | none => exact primarySort_covers s.primaryKey
    | some o => exact orderingIncludesPk_iff.mp hs
  refine ⟨_, by rw [MemorySource.connect, if_pos hs], ⟨h.holds.of_indexes rfl rfl, ?_⟩, rfl⟩
  exact h.conns.connect hcov

theorem Ok.setConnOutput (h : s.Ok (same R)) {id : ConnId} (hid : (s.conns.liveIx id).isSome = true) :
    ∃ s', s.setConnOutput id = some s' ∧ s'.Ok (same R) ∧ s'.primaryKey = s.primaryKey := by
  obtain ⟨t, ht, hok⟩ := h.conns.setOutput (fun _ hc => hc) hid
  exact ⟨{ s with conns := t }, by simp [MemorySource.setConnOutput, ht], ⟨h.holds.of_indexes rfl rfl, hok⟩, rfl⟩

theorem Ok.destroy (h : s.Ok (same R)) (id : ConnId) : (s.destroy id).Ok (same R) :=
  ⟨h.holds.of_indexes rfl rfl, h.conns.destroy (fun _ hc => hc) id⟩

/-- An operation that fits does not panic, and the indexes follow the rows. -/
theorem Op.Fits.step {op : Op} (h : s.Ok (same R)) (hf : op.Fits s R) :
    ∃ s', op.run s = some s' ∧ s'.Ok (same (op.apply R)) ∧ s'.primaryKey = s.primaryKey := by
  cases op with
  | push change reads strict =>
    obtain ⟨p, heq, -, hok, hkey⟩ := h.tryPush hf.2 hf.1 strict
    exact ⟨p.source, by simp [Op.run, heq], hok, hkey⟩
  | ensureIndex sort =>
    obtain ⟨s', heq, hh, hg, -⟩ := h.holds.ensureIndex (orderingIncludesPk_iff.mp hf)
    exact ⟨s', heq, h.grown hg hh, hg.key⟩
  | connect sort filters keys =>
    obtain ⟨r, heq, hok, hkey⟩ := h.connect hf filters keys
    exact ⟨r.1, by simp [Op.run, heq], hok, hkey⟩
  | setConnOutput id => exact h.setConnOutput hf
  | fetch id req =>
    obtain ⟨-, rows, s', -, -, heq, hok, hg, -⟩ := h.fetch hf req
    exact ⟨s', by simp [Op.run, heq], hok, hg.key⟩
  | destroy id => exact ⟨_, rfl, h.destroy id, rfl⟩

/-! ## Histories -/

theorem run_ok (ops : List Op) : ∀ {s : MemorySource} {R : Set Row}, s.Ok (same R) → ValidRun s R ops →
    ∃ s', ops.foldlM Op.run s = some s' ∧ s'.Ok (same (ops.foldl Op.apply R)) := by
  induction ops with
  | nil => intro s R h _; exact ⟨s, rfl, h⟩
  | cons op ops ih =>
    intro s R h hv
    obtain ⟨s1, heq1, hok1, -⟩ := Op.Fits.step h hv.1
    obtain ⟨s2, heq2, hok2⟩ := ih hok1 (hv.2 s1 heq1)
    refine ⟨s2, ?_, hok2⟩
    rw [List.foldlM_cons, heq1]
    exact heq2

theorem apply_pushed (ops : List Op) : ∀ R : Set Row, ops.foldl Op.apply R = (pushed ops).foldl applyChange R := by
  induction ops with
  | nil => exact fun _ => rfl
  | cons op ops ih =>
    intro R
    cases op <;> exact ih _

theorem tryNew_ok {width : Nat} {pk : List Nat} {initial : List Row} {s : MemorySource}
    (hnew : tryNew width pk initial = .ok s) (hkeys : initial.Pairwise fun a b => keyCmp pk a b ≠ .eq) :
    s.Ok (same {r | r ∈ initial}) := by
  unfold tryNew at hnew
  split at hnew
  · cases hnew
  · rw [← Except.ok.inj hnew]
    obtain ⟨hvalid, hrows⟩ := BTree.fromSorted_spec (sortRows_sorted hkeys)
    refine ⟨⟨?_, fun i hi => ?_, fun i hi => ?_, fun i hi r => ?_, fun _ _ => rfl⟩, ConnTable.ok_empty⟩
    · exact ⟨_, List.mem_singleton.mpr rfl, rfl⟩
    · rw [List.mem_singleton.mp hi]; exact hvalid
    · rw [List.mem_singleton.mp hi]; exact primarySort_covers pk
    · rw [List.mem_singleton.mp hi]
      show r ∈ (BTree.fromSorted _).rows ↔ _
      rw [hrows, mem_sortRows]
      rfl

/-- One connection, wired, on a new source; edits are split on the columns `keys`. -/
theorem connect_new {width : Nat} {pk : List Nat} {initial : List Row} {s0 : MemorySource} (sort : SortSpec) (keys : List Nat)
    (hnew : tryNew width pk initial = .ok s0) (hkeys : initial.Pairwise fun a b => keyCmp pk a b ≠ .eq)
    (hsort : orderingIncludesPk sort pk = true) :
    ∃ s, [Op.connect (some sort) none keys, .setConnOutput ⟨0, 0⟩].foldlM Op.run s0 = some s ∧
      s.Ok (same {r | r ∈ initial}) ∧ s.primaryKey = pk ∧ s.overlay = none ∧ s.epoch = 0 ∧
      s.conns = { (ConnTable.connect {} { sort, splitEditKeys := keys }).1 with
        conns := [{ sort, splitEditKeys := keys, output := true }] } := by
  have hok0 := tryNew_ok hnew hkeys
  obtain ⟨hkey, hconns, hover, hepoch⟩ : s0.primaryKey = pk ∧ s0.conns = {} ∧ s0.overlay = none ∧ s0.epoch = 0 := by
    unfold tryNew at hnew
    split at hnew
    · cases hnew
    · rw [← Except.ok.inj hnew]
      exact ⟨rfl, rfl, rfl, rfl⟩
  have hcon : Op.run s0 (.connect (some sort) none keys) =
      some { s0 with conns := (ConnTable.connect {} { sort, splitEditKeys := keys }).1 } := by
    rw [Op.run, MemorySource.connect, if_pos (by rw [hkey]; exact hsort), hconns]
    rfl
  have hwire : Op.run { s0 with conns := (ConnTable.connect {} { sort, splitEditKeys := keys }).1 } (.setConnOutput ⟨0, 0⟩) =
      some { s0 with conns := { (ConnTable.connect {} { sort, splitEditKeys := keys }).1 with
        conns := [{ sort, splitEditKeys := keys, output := true }] } } := rfl
  have hv : ValidRun s0 {r | r ∈ initial} [Op.connect (some sort) none keys, .setConnOutput ⟨0, 0⟩] := by
    refine ⟨by rw [Op.Fits, hkey]; exact hsort, fun s1 h1 => ⟨?_, fun _ _ => trivial⟩⟩
    rw [← Option.some.inj (hcon.symm.trans h1)]
    rfl
  obtain ⟨s, hrun, hok⟩ := run_ok _ hok0 hv
  refine ⟨s, hrun, hok, ?_⟩
  rw [List.foldlM_cons, hcon, Option.bind_eq_bind, Option.bind_some, List.foldlM_cons, hwire] at hrun
  obtain rfl := Option.some.inj hrun
  exact ⟨hkey, hover, hepoch, rfl⟩

/-- Over every valid history all indexes hold the same rows, the fold of the pushed changes over
    the initial ones, each strictly sorted by its own sort. -/
theorem indexes_agree {width : Nat} {pk : List Nat} {initial : List Row} {s : MemorySource}
    (hnew : tryNew width pk initial = .ok s) (hkeys : initial.Pairwise fun a b => keyCmp pk a b ≠ .eq) {ops : List Op}
    (hv : ValidRun s {r | r ∈ initial} ops) :
    ∃ s', ops.foldlM Op.run s = some s' ∧
      ∀ i ∈ s'.indexes, SList.Sorted (rowCmp i.sort) i.data.rows ∧
        ∀ r, r ∈ i.data.rows ↔ r ∈ (pushed ops).foldl applyChange {r | r ∈ initial} := by
  obtain ⟨s', hrun, hok⟩ := run_ok ops (tryNew_ok hnew hkeys) hv
  refine ⟨s', hrun, fun i hi => ⟨(hok.holds.valid i hi).sorted, fun r => ?_⟩⟩
  rw [hok.holds.rows i hi r, apply_pushed]

/-- Two rows; an index on the second column, an edit that moves a row in it, a row added. -/
theorem indexes_agree_two_rows :
    ∃ s, tryNew 2 [0] [[.int 1, .int 5], [.int 2, .int 3]] = .ok s ∧
      ∃ s', [Op.ensureIndex [(1, true), (0, true)], .push (.edit [.int 1, .int 5] [.int 1, .int 2]) (fun _ _ => []) true,
          .push (.add [.int 3, .int 4]) (fun _ _ => []) true].foldlM Op.run s = some s' ∧
        ∀ i ∈ s'.indexes, SList.Sorted (rowCmp i.sort) i.data.rows ∧
          ∀ r, r ∈ i.data.rows ↔ r ∈ [SList.Delta.edit [Value.int 1, .int 5] [.int 1, .int 2], .add [.int 3, .int 4]].foldl
            applyChange {r | r ∈ [[Value.int 1, .int 5], [.int 2, .int 3]]} := by
  obtain ⟨s, hnew⟩ : ∃ s, tryNew 2 [0] [[.int 1, .int 5], [.int 2, .int 3]] = .ok s := ⟨_, rfl⟩
  have hkeys : [[Value.int 1, .int 5], [.int 2, .int 3]].Pairwise fun a b => keyCmp [0] a b ≠ .eq := by decide +kernel
  have hok := tryNew_ok hnew hkeys
  have hs : s.primaryKey = [0] := by
    rw [← Except.ok.inj hnew]
  have hfit : (Op.ensureIndex [(1, true), (0, true)]).Fits s {r | r ∈ [[Value.int 1, .int 5], [.int 2, .int 3]]} := by
    show orderingIncludesPk _ s.primaryKey = true
    rw [hs]
    rfl
  refine ⟨s, hnew, indexes_agree hnew hkeys ⟨hfit, fun s1 h1 => ?_⟩⟩
  obtain ⟨_, h1', hok1, hk1⟩ := Op.Fits.step hok hfit
  obtain rfl := Option.some.inj (h1.symm.trans h1')
  have hfit1 : (Op.push (.edit [.int 1, .int 5] [.int 1, .int 2]) (fun _ _ => []) true).Fits s1
      {r | r ∈ [[Value.int 1, .int 5], [.int 2, .int 3]]} := by
    refine ⟨⟨List.mem_cons_self, ?_⟩, fun _ _ r hr => by cases hr⟩
    rw [hk1, hs]
    show ∀ x ∈ [[Value.int 1, .int 5], [.int 2, .int 3]], _
    decide +kernel
  refine ⟨hfit1, fun s2 h2 => ⟨⟨fun x hx => ?_, fun _ _ r hr => by cases hr⟩, fun s3 _ => trivial⟩⟩
  obtain ⟨_, h2', -, hk2⟩ := Op.Fits.step hok1 hfit1
  obtain rfl := Option.some.inj (h2.symm.trans h2')
  rw [hk2, hk1, hs]
  rcases hx with rfl | ⟨hx, -⟩
  · decide +kernel
  · have hall : ∀ x ∈ [[Value.int 1, .int 5], [.int 2, .int 3]], keyCmp [0] x [Value.int 3, .int 4] ≠ .eq := by decide +kernel
    exact hall x hx

end MemorySource

end Rindle
