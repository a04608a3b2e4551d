/-
  Rindle.Source.Merge — the k-way merge of sorted streams (`MergeSorted` of
  `rust/src/source_common.rs`).

  The heap holds the head of every stream that has not run out, with the stream it came
  from. `next` sends the root out and refills it from its stream, or from the tail of the
  heap when that stream is exhausted. `mergeSortedStreams_perm` and
  `mergeSortedStreams_rising`: the output is every row of every stream, in order.
-/

import Rindle.Lib.Heap

namespace Rindle

variable {α : Type} (cmp : α → α → Ordering)

structure HeapEntry (α : Type) where
  row : α
  /-- The stream to refill from. -/
  idx : Nat

def entryCmp (a b : HeapEntry α) : Ordering := cmp a.row b.row

instance [Std.TransCmp cmp] : Std.TransCmp (entryCmp cmp) := SList.transCmp_comap cmp HeapEntry.row

structure MergeSorted (α : Type) where
  streams : List (List α)
  heap : List (HeapEntry α)

namespace MergeSorted

/-- `streams[i].next()`. -/
def pull (streams : List (List α)) (i : Nat) : Option (α × List (List α)) :=
  match streams[i]? with
  | some (row :: rest) => some (row, streams.set i rest)
  | _ => none

/-- One turn of `prime`. -/
def primeAt (m : MergeSorted α) (i : Nat) : MergeSorted α :=
  match pull m.streams i with
  | some (row, streams) => ⟨streams, Heap.siftUp (entryCmp cmp) (m.heap ++ [⟨row, i⟩]) m.heap.length⟩
  | none => m

/-- `prime`: the head of every stream goes into the heap. -/
def prime (m : MergeSorted α) : MergeSorted α := (List.range m.streams.length).foldl (primeAt cmp) m

/-- `next`. -/
def next (m : MergeSorted α) : Option (α × MergeSorted α) :=
  match m.heap with
  | [] => none
  | root :: heap =>
    match pull m.streams root.idx with
    | some (row, streams) =>
      some (root.row, ⟨streams, Heap.siftDown (entryCmp cmp) ((root :: heap).set 0 { root with row }) 0⟩)
    | none =>
      -- the tail of the heap becomes the root; a single entry was the root itself
      match heap.getLast? with
      | none => some (root.row, ⟨m.streams, []⟩)
      | some last => some (root.row, ⟨m.streams, Heap.siftDown (entryCmp cmp) ((root :: heap).dropLast.set 0 last) 0⟩)

def drain : Nat → MergeSorted α → List α
  | 0, _ => []
  | n + 1, m =>
    match next cmp m with
    | none => []
    | some (row, m) => row :: drain n m

end MergeSorted

/-- `merge_sorted_streams`. -/
def mergeSortedStreams (streams : List (List α)) : List α :=
  MergeSorted.drain cmp streams.flatten.length (MergeSorted.prime cmp ⟨streams, []⟩)

variable {cmp}

namespace MergeSorted

/-- The rows not sent out yet. -/
def rows (m : MergeSorted α) : List α := m.heap.map HeapEntry.row ++ m.streams.flatten

variable {streams streams' : List (List α)}

theorem pull_some {i : Nat} {row : α} (h : pull streams i = some (row, streams')) :
    ∃ rest, streams[i]? = some (row :: rest) ∧ streams' = streams.set i rest := by
  unfold pull at h
  split at h
  · rename_i row' rest hs
    simp only [Option.some.injEq, Prod.mk.injEq] at h
    obtain ⟨rfl, rfl⟩ := h
    exact ⟨rest, hs, rfl⟩
  · cases h

theorem pull_none {streams : List (List α)} {i : Nat} (h : pull streams i = none) {s : List α}
    (hs : streams[i]? = some s) : s = [] := by
  cases s with
  | nil => rfl
  | cons row rest => simp [pull, hs] at h

theorem pull_perm {i : Nat} {row : α} (h : pull streams i = some (row, streams')) :
    (row :: streams'.flatten).Perm streams.flatten := by
  obtain ⟨rest, hs, rfl⟩ := pull_some h
  obtain ⟨hi, hs⟩ := List.getElem?_eq_some_iff.mp hs
  have hcut : streams = streams.take i ++ (row :: rest) :: streams.drop (i + 1) := by
    rw [← hs, List.getElem_cons_drop, List.take_append_drop]
  rw [List.set_eq_take_append_cons_drop, if_pos hi]
  conv => rhs; rw [hcut]
  simp only [List.flatten_append, List.flatten_cons, List.cons_append]
  exact List.perm_middle.symm

theorem pull_getElem? {i : Nat} {row : α}
    (h : pull streams i = some (row, streams')) {j : Nat} {s : List α} (hs : streams'[j]? = some s) :
    if j = i then streams[j]? = some (row :: s) else streams[j]? = some s := by
  obtain ⟨rest, hi, rfl⟩ := pull_some h
  rw [List.getElem?_set] at hs
  by_cases hj : i = j
  · subst hj
    have hlen := (List.getElem?_eq_some_iff.mp hi).1
    rw [if_pos rfl, if_pos hlen, Option.some.injEq] at hs
    rw [if_pos rfl, ← hs, hi]
  · rw [if_neg hj] at hs
    rw [if_neg (Ne.symm hj), hs]

/-! ## The invariant -/

/-- The heap is in order, each entry is at or before what its stream still has, the streams are
    in order, and each of the first `n` that has not run out is in the heap. -/
structure Merging (cmp : α → α → Ordering) (n : Nat) (m : MergeSorted α) : Prop where
  ordered : Heap.Ordered (entryCmp cmp) m.heap
  ahead : ∀ e ∈ m.heap, ∀ s, m.streams[e.idx]? = some s → ∀ x ∈ s, cmp e.row x ≠ .gt
  rising : ∀ (i : Nat) (s : List α), m.streams[i]? = some s → SList.Rising cmp s
  present : ∀ (i : Nat) (s : List α), i < n → m.streams[i]? = some s → s ≠ [] → ∃ e ∈ m.heap, e.idx = i

/-- A refilled heap still precedes its streams: the new entry is the head of its stream. -/
theorem Merging.pulled {n : Nat} {m : MergeSorted α} (hm : Merging cmp n m) {i : Nat} {row : α}
    {streams : List (List α)} (h : pull m.streams i = some (row, streams)) :
    (∀ x s, streams[i]? = some s → x ∈ s → cmp row x ≠ .gt) ∧
      (∀ e ∈ m.heap, ∀ s, streams[e.idx]? = some s → ∀ x ∈ s, cmp e.row x ≠ .gt) ∧
      ∀ (j : Nat) (s : List α), streams[j]? = some s → SList.Rising cmp s := by
  refine ⟨fun x s hs hx => ?_, fun e he s hs x hx => ?_, fun j s hs => ?_⟩
  · have := pull_getElem? h hs
    rw [if_pos rfl] at this
    exact (SList.rising_cons.mp (hm.rising i _ this)).1 x hx
  · have := pull_getElem? h hs
    split at this
    · exact hm.ahead e he _ this x (List.mem_cons_of_mem _ hx)
    · exact hm.ahead e he _ this x hx
  · have := pull_getElem? h hs
    split at this
    · exact (SList.rising_cons.mp (hm.rising j _ this)).2
    · exact hm.rising j s this

section
variable [Std.TransCmp cmp]

/-! ## Filling the heap -/

variable {m : MergeSorted α}

theorem Merging.primeAt {n : Nat} (hm : Merging cmp n m) :
    Merging cmp (n + 1) (primeAt cmp m n) ∧ (primeAt cmp m n).rows.Perm m.rows := by
  unfold MergeSorted.primeAt
  cases hp : pull m.streams n with
  | none =>
    refine ⟨⟨hm.ordered, hm.ahead, hm.rising, fun i s hi hs hne => ?_⟩, List.Perm.refl _⟩
    by_cases h : i = n
    · subst h; exact absurd (pull_none hp hs) hne
    · exact hm.present i s (by omega) hs hne
  | some r =>
    obtain ⟨row, streams⟩ := r
    obtain ⟨hrow, hahead, hrising⟩ := hm.pulled hp
    have hperm := @Heap.siftUp_perm _ (entryCmp cmp) (m.heap ++ [⟨row, n⟩]) m.heap.length
    have hmem : ∀ e, e ∈ Heap.siftUp (entryCmp cmp) (m.heap ++ [⟨row, n⟩]) m.heap.length ↔ e ∈ m.heap ∨ e = ⟨row, n⟩ := by
      intro e
      rw [hperm.mem_iff, List.mem_append, List.mem_singleton]
    refine ⟨⟨Heap.siftUp_ordered hm.ordered _, fun e he => ?_, hrising, fun i s hi hs hne => ?_⟩, ?_⟩
    · rcases (hmem e).mp he with he | rfl
      · exact hahead e he
      · exact fun s hs x hx => hrow x s hs hx
    · by_cases h : i = n
      · exact ⟨⟨row, n⟩, (hmem _).mpr (Or.inr rfl), h.symm⟩
      · have := pull_getElem? hp hs
        rw [if_neg h] at this
        obtain ⟨e, he, hei⟩ := hm.present i s (by omega) this hne
        exact ⟨e, (hmem e).mpr (Or.inl he), hei⟩
    · show (List.map HeapEntry.row _ ++ streams.flatten).Perm _
      calc List.Perm _ (List.map HeapEntry.row (m.heap ++ [⟨row, n⟩]) ++ streams.flatten) := (hperm.map _).append_right _
        _ = m.heap.map HeapEntry.row ++ (row :: streams.flatten) := by simp
        List.Perm _ m.rows := (pull_perm hp).append_left _

theorem prime_merging {streams : List (List α)} (hs : ∀ s ∈ streams, SList.Rising cmp s) :
    Merging cmp streams.length (prime cmp ⟨streams, []⟩) ∧ (prime cmp ⟨streams, []⟩).rows.Perm streams.flatten := by
  have hstart : Merging cmp 0 (⟨streams, []⟩ : MergeSorted α) :=
    ⟨fun c _ a b ha => (by simp at ha), fun e he => (by cases he),
      fun i s hi => hs s (List.mem_of_getElem? hi), fun i s hi => absurd hi (Nat.not_lt_zero i)⟩
  have hfold : ∀ n, Merging cmp n ((List.range n).foldl (MergeSorted.primeAt cmp) ⟨streams, []⟩) ∧
      ((List.range n).foldl (MergeSorted.primeAt cmp) ⟨streams, []⟩).rows.Perm streams.flatten := by
    intro n
    induction n with
    | zero => exact ⟨hstart, by simp [rows]⟩
    | succ n ih =>
      rw [List.range_succ, List.foldl_append, List.foldl_cons, List.foldl_nil]
      exact ⟨ih.1.primeAt.1, ih.1.primeAt.2.trans ih.2⟩
  exact hfold streams.length

/-! ## Draining it -/

omit [Std.TransCmp cmp] in
theorem primeAt_length (m : MergeSorted α) (i : Nat) : (MergeSorted.primeAt cmp m i).streams.length = m.streams.length := by
  unfold MergeSorted.primeAt
  cases hp : pull m.streams i with
  | none => rfl
  | some r =>
    obtain ⟨rest, -, hr⟩ := pull_some (show pull m.streams i = some (r.1, r.2) from hp)
    show r.2.length = _
    rw [hr, List.length_set]

omit [Std.TransCmp cmp] in
theorem prime_length (m : MergeSorted α) : (MergeSorted.prime cmp m).streams.length = m.streams.length := by
  have hfold : ∀ (l : List Nat) (m : MergeSorted α), (l.foldl (MergeSorted.primeAt cmp) m).streams.length = m.streams.length := by
    intro l
    induction l with
    | nil => exact fun _ => rfl
    | cons i l ih => exact fun m => (ih _).trans (primeAt_length m i)
  exact hfold _ m

/-- Every stream that has not run out is in the heap, and the root is least of all. -/
theorem Merging.least (hm : Merging cmp m.streams.length m) {root : HeapEntry α}
    {heap : List (HeapEntry α)} (hh : m.heap = root :: heap) : ∀ y ∈ m.rows, cmp root.row y ≠ .gt := by
  have hroot : ∀ e ∈ m.heap, cmp root.row e.row ≠ .gt := by
    intro e he
    obtain ⟨i, hi⟩ := List.getElem?_of_mem he
    exact hm.ordered.root i root e (by rw [hh]; rfl) hi
  intro y hy
  rcases List.mem_append.mp hy with hy | hy
  · obtain ⟨e, he, rfl⟩ := List.mem_map.mp hy
    exact hroot e he
  · obtain ⟨s, hs, hys⟩ := List.mem_flatten.mp hy
    obtain ⟨i, hi⟩ := List.getElem?_of_mem hs
    have hlen := (List.getElem?_eq_some_iff.mp hi).1
    obtain ⟨e, he, rfl⟩ := hm.present i s hlen hi (List.ne_nil_of_mem hys)
    exact SList.not_gt_trans (hroot e he) (hm.ahead e he s hi y hys)

/-- One step sends out a least row and keeps the invariant. -/
theorem Merging.next (hm : Merging cmp m.streams.length m) :
    (next cmp m = none ∧ m.rows = []) ∨
      ∃ row m', next cmp m = some (row, m') ∧ Merging cmp m'.streams.length m' ∧ m.rows.Perm (row :: m'.rows) ∧
        ∀ y ∈ m.rows, cmp row y ≠ .gt := by
  cases hh : m.heap with
  | nil =>
    refine Or.inl ⟨by simp [MergeSorted.next, hh], ?_⟩
    simp only [rows, hh, List.map_nil, List.nil_append]
    rw [List.flatten_eq_nil_iff]
    intro s hs
    obtain ⟨i, hi⟩ := List.getElem?_of_mem hs
    have hlen := (List.getElem?_eq_some_iff.mp hi).1
    by_contra hne
    obtain ⟨e, he, -⟩ := hm.present i s hlen hi hne
    rw [hh] at he
    cases he
  | cons root heap =>
    right
    have hleast := hm.least hh
    have hord : Heap.Ordered (entryCmp cmp) (root :: heap) := hh ▸ hm.ordered
    cases hp : pull m.streams root.idx with
    | some r =>
      obtain ⟨row, streams⟩ := r
      refine ⟨root.row, ⟨streams, Heap.siftDown (entryCmp cmp) ((root :: heap).set 0 { root with row }) 0⟩,
        by simp only [MergeSorted.next, hh, hp], ?_, ?_, hleast⟩
      · obtain ⟨hrow, hahead, hrising⟩ := hm.pulled hp
        have hperm := @Heap.siftDown_perm _ (entryCmp cmp) ((root :: heap).set 0 { root with row }) 0
        obtain ⟨rest, -, hst⟩ := pull_some hp
        refine ⟨Heap.siftDown_ordered hord _ (by simp), fun e he => ?_, hrising, fun i s hi hs hne => ?_⟩
        · rcases List.mem_cons.mp (hperm.mem_iff.mp he) with rfl | he
          · exact fun s hs x hx => hrow x s hs hx
          · exact hahead e (hh ▸ List.mem_cons_of_mem _ he)
        · have hlen : i < m.streams.length := by
            have : streams.length = m.streams.length := by rw [hst, List.length_set]
            exact this ▸ hi
          by_cases hir : i = root.idx
          · exact ⟨{ root with row }, hperm.mem_iff.mpr List.mem_cons_self, hir.symm⟩
          · have := pull_getElem? hp hs
            rw [if_neg hir] at this
            obtain ⟨e, he, hei⟩ := hm.present i s hlen this hne
            rw [hh] at he
            rcases List.mem_cons.mp he with rfl | he
            · exact absurd hei.symm hir
            · exact ⟨e, hperm.mem_iff.mpr (List.mem_cons_of_mem _ he), hei⟩
      · have hperm := @Heap.siftDown_perm _ (entryCmp cmp) ((root :: heap).set 0 { root with row }) 0
        simp only [rows, hh, List.map_cons, List.cons_append]
        apply List.Perm.cons
        calc List.Perm (heap.map HeapEntry.row ++ m.streams.flatten) (heap.map HeapEntry.row ++ (row :: streams.flatten)) :=
              (pull_perm hp).symm.append_left _
          List.Perm _ (row :: (heap.map HeapEntry.row ++ streams.flatten)) := List.perm_middle
          _ = List.map HeapEntry.row ((root :: heap).set 0 { root with row }) ++ streams.flatten := rfl
          List.Perm _ _ := (hperm.map _).symm.append_right _
    | none =>
      have hkeep : ∀ i s, i < m.streams.length → m.streams[i]? = some s → s ≠ [] → ∃ e ∈ heap, e.idx = i := by
        intro i s hi hs hne
        obtain ⟨e, he, hei⟩ := hm.present i s hi hs hne
        rw [hh] at he
        rcases List.mem_cons.mp he with rfl | he
        · exact absurd (pull_none hp (hei ▸ hs)) hne
        · exact ⟨e, he, hei⟩
      cases hl : heap.getLast? with
      | none =>
        have hnil : heap = [] := List.getLast?_eq_none_iff.mp hl
        subst hnil
        refine ⟨root.row, ⟨m.streams, []⟩, by simp [MergeSorted.next, hh, hp], ?_, ?_, hleast⟩
        · refine ⟨fun c _ a b ha => (by simp at ha), fun e he => (by cases he), hm.rising, fun i s hi hs hne => ?_⟩
          obtain ⟨e, he, -⟩ := hkeep i s hi hs hne
          cases he
        · simp [rows, hh]
      | some last =>
        obtain ⟨init, rfl⟩ : ∃ init, heap = init ++ [last] := ⟨heap.dropLast, (List.dropLast_append_getLast? last hl).symm⟩
        have hdrop : (root :: (init ++ [last])).dropLast = root :: init := by
          rw [← List.cons_append, List.dropLast_concat]
        have hord' : Heap.Ordered (entryCmp cmp) (root :: init) := by
          intro c hc a b ha hb
          refine hord c hc a b ?_ ?_
          · rw [← List.cons_append, List.getElem?_append_left (List.getElem?_eq_some_iff.mp ha).1, ha]
          · rw [← List.cons_append, List.getElem?_append_left (List.getElem?_eq_some_iff.mp hb).1, hb]
        have hperm := @Heap.siftDown_perm _ (entryCmp cmp) ((root :: init).set 0 last) 0
        have hswap : (last :: init).Perm (init ++ [last]) := (List.perm_append_singleton last init).symm
        refine ⟨root.row, ⟨m.streams, Heap.siftDown (entryCmp cmp) ((root :: init).set 0 last) 0⟩,
          by simp only [MergeSorted.next, hh, hp, hl, hdrop], ?_, ?_, hleast⟩
        · refine ⟨Heap.siftDown_ordered hord' _ (by simp), fun e he => ?_, hm.rising, fun i s hi hs hne => ?_⟩
          · apply hm.ahead e
            rw [hh]
            exact List.mem_cons_of_mem _ (hswap.mem_iff.mp (hperm.mem_iff.mp he))
          · obtain ⟨e, he, hei⟩ := hkeep i s hi hs hne
            exact ⟨e, hperm.mem_iff.mpr (hswap.mem_iff.mpr he), hei⟩
        · simp only [rows, hh, List.map_cons, List.cons_append]
          apply List.Perm.cons
          exact ((hperm.trans hswap).map HeapEntry.row).symm.append_right _

theorem drain_spec (n : Nat) (hm : Merging cmp m.streams.length m) (hn : m.rows.length ≤ n) :
    (drain cmp n m).Perm m.rows ∧ SList.Rising cmp (drain cmp n m) := by
  induction n generalizing m with
  | zero =>
    have hnil : m.rows = [] := List.eq_nil_of_length_eq_zero (by omega)
    rw [hnil]
    exact ⟨List.Perm.refl _, List.Pairwise.nil⟩
  | succ n ih =>
    rcases hm.next with ⟨hnext, hnil⟩ | ⟨row, m', hnext, hm', hperm, hleast⟩
    · simp only [drain, hnext, hnil]
      exact ⟨List.Perm.refl _, List.Pairwise.nil⟩
    · have hlen := hperm.length_eq
      rw [List.length_cons] at hlen
      obtain ⟨hp, hr⟩ := ih hm' (by omega)
      simp only [drain, hnext]
      refine ⟨(hp.cons row).trans hperm.symm, SList.rising_cons.mpr ⟨fun b hb => ?_, hr⟩⟩
      apply hleast
      exact hperm.mem_iff.mpr (List.mem_cons_of_mem _ (hp.mem_iff.mp hb))

end

end MergeSorted

section
variable [Std.TransCmp cmp] {streams : List (List α)}

theorem mergeSortedStreams_spec (hs : ∀ s ∈ streams, SList.Rising cmp s) :
    (mergeSortedStreams cmp streams).Perm streams.flatten ∧ SList.Rising cmp (mergeSortedStreams cmp streams) := by
  obtain ⟨hm, hperm⟩ := MergeSorted.prime_merging hs
  have hlen : (MergeSorted.prime cmp ⟨streams, []⟩).streams.length = streams.length := MergeSorted.prime_length _
  obtain ⟨hp, hr⟩ := MergeSorted.drain_spec streams.flatten.length (hlen ▸ hm) (by rw [hperm.length_eq])
  exact ⟨hp.trans hperm, hr⟩

end

end Rindle
