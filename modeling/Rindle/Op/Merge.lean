/-
  Rindle.Op.Merge — the k-way merge of node streams (`MergeNodes` of `rust/src/op/merge.rs`).

  It is the row merge of `Rindle.Source.Merge` with two differences: of nodes that compare equal
  the one of the earlier stream comes first, and with a primary key given, a node with the key of
  the last one sent out is dropped. The heap is that of a row merge over nodes tagged with their
  stream (`popMin_merged`), so what is popped is every node in the order of its row, then of its
  stream. `mergeNodeStreams_spec`: of branches that read one table, each key comes out once, with
  the node of the first branch that has it.
-/

import Rindle.Op.Overlay

set_option linter.dupNamespace false

namespace Rindle

/-! ## The merge -/

/-- `MergeNodes`; a heap entry is a node and its stream. -/
structure MergeNodes where
  streams : List (List Node)
  heap : List (HeapEntry Node) := []
  sort : SortSpec
  reverse : Bool
  /-- With a key, a node that has the key of the last one sent out is dropped. -/
  dedupPk : Option (List Nat)
  lastPk : Option Row := none
  primed : Bool := false

namespace MergeNodes

variable (m : MergeNodes)

/-- `less`: rows first, then streams. -/
def order (a b : HeapEntry Node) : Ordering :=
  (compareRowsRev m.sort m.reverse a.row.row b.row.row).then (compare a.idx b.idx)

/-- One turn of `prime`. -/
def primeAt (i : Nat) : MergeNodes :=
  match MergeSorted.pull m.streams i with
  | some (node, streams) => { m with streams, heap := Heap.siftUp m.order (m.heap ++ [⟨node, i⟩]) m.heap.length }
  | none => m

/-- `prime`. -/
def prime : MergeNodes := (List.range m.streams.length).foldl primeAt m

/-- `pop_min`: the least node, its place refilled from its stream. -/
def popMin : Option (Node × MergeNodes) :=
  match m.heap with
  | [] => none
  | root :: heap =>
    match MergeSorted.pull m.streams root.idx with
    | some (node, streams) =>
      some (root.row, { m with streams, heap := Heap.siftDown m.order ((root :: heap).set 0 { root with row := node }) 0 })
    | none =>
      match heap.getLast? with
      | none => some (root.row, { m with heap := [] })
      | some last => some (root.row, { m with heap := Heap.siftDown m.order ((root :: heap).dropLast.set 0 last) 0 })

/-- The node has the key of the last one sent out. -/
def isDup (dedupPk : Option (List Nat)) (lastPk : Option Row) (node : Node) : Bool :=
  dedupPk.any fun pk => lastPk.any fun last => samePk node.row last pk

/-- The key to remember when a node is sent out. -/
def remember (dedupPk : Option (List Nat)) (lastPk : Option Row) (node : Node) : Option Row :=
  if dedupPk.isSome then some node.row else lastPk

/-- The loop of `next`, with its number of turns bounded. -/
def nextLoop : Nat → MergeNodes → Option (Node × MergeNodes)
  | 0, _ => none
  | n + 1, m =>
    match m.popMin with
    | none => none
    | some (node, m) =>
      if isDup m.dedupPk m.lastPk node then nextLoop n m
      else some (node, { m with lastPk := remember m.dedupPk m.lastPk node })

/-- The nodes not popped yet. -/
def size : Nat := m.heap.length + m.streams.flatten.length

/-- `next`: every turn of the loop pops a node. -/
def next (m : MergeNodes) : Option (Node × MergeNodes) :=
  let m := if m.primed then m else { m.prime with primed := true }
  nextLoop (m.size + 1) m

/-- `n` items of the iterator, or all there are. -/
def collect : Nat → MergeNodes → List Node
  | 0, _ => []
  | n + 1, m =>
    match m.next with
    | none => []
    | some (node, m) => node :: collect n m

end MergeNodes

/-- `merge_node_streams`, run to its end. -/
def mergeNodeStreams (streams : List (List Node)) (sort : SortSpec) (reverse : Bool) (dedupPk : Option (List Nat)) : List Node :=
  MergeNodes.collect streams.flatten.length { streams, sort, reverse, dedupPk }

namespace MergeNodes

/-! ## The merge of tagged nodes -/

section
variable {sort : SortSpec} {reverse : Bool}

/-- Rows first, then streams. -/
def taggedCmp (sort : SortSpec) (reverse : Bool) (a b : Node × Nat) : Ordering :=
  (compareRowsRev sort reverse a.1.row b.1.row).then (compare a.2 b.2)

instance (sort : SortSpec) (reverse : Bool) : Std.TransCmp (taggedCmp sort reverse) :=
  have _hrow : Std.TransCmp fun a b : Node × Nat => compareRowsRev sort reverse a.1.row b.1.row :=
    SList.transCmp_comap (compareRowsRev sort reverse) fun a : Node × Nat => a.1.row
  have _hidx : Std.TransCmp fun a b : Node × Nat => compare a.2 b.2 := SList.transCmp_comap compare Prod.snd
  inferInstanceAs (Std.TransCmp (compareLex (fun a b : Node × Nat => compareRowsRev sort reverse a.1.row b.1.row)
    fun a b => compare a.2 b.2))

variable (m : MergeNodes) (streams : List (List Node))

def tag : List (List (Node × Nat)) := streams.mapIdx fun i s => s.map fun n => (n, i)

def tagEntry (e : HeapEntry Node) : HeapEntry (Node × Nat) := ⟨(e.row, e.idx), e.idx⟩

def merged : MergeSorted (Node × Nat) := ⟨tag m.streams, m.heap.map tagEntry⟩

/-- The comparator of the row merge that `m` is. -/
abbrev cmp (m : MergeNodes) : Node × Nat → Node × Nat → Ordering := taggedCmp m.sort m.reverse

theorem order_eq : m.order = fun a b => entryCmp m.cmp (tagEntry a) (tagEntry b) := rfl

theorem getElem?_tag (i : Nat) : (tag streams)[i]? = streams[i]?.map fun s => s.map fun n => (n, i) := by
  rw [tag, List.getElem?_mapIdx]

theorem mem_tag {streams : List (List Node)} {n : Node} {i : Nat} :
    (n, i) ∈ (tag streams).flatten ↔ ∃ s, streams[i]? = some s ∧ n ∈ s := by
  rw [List.mem_flatten]
  constructor
  · rintro ⟨l, hl, hn⟩
    obtain ⟨j, hj⟩ := List.getElem?_of_mem hl
    rw [getElem?_tag] at hj
    obtain ⟨s, hs, rfl⟩ := Option.map_eq_some_iff.mp hj
    obtain ⟨n', hn', heq⟩ := List.mem_map.mp hn
    obtain ⟨rfl, rfl⟩ := Prod.mk.inj heq
    exact ⟨s, hs, hn'⟩
  · rintro ⟨s, hs, hn⟩
    refine ⟨s.map fun n => (n, i), List.mem_of_getElem? (i := i) ?_, List.mem_map_of_mem hn⟩
    rw [getElem?_tag, hs, Option.map_some]

theorem length_tag : (tag streams).flatten.length = streams.flatten.length := by
  have hlens : (tag streams).map List.length = streams.map List.length := by
    refine List.ext_getElem? fun i => ?_
    rw [List.getElem?_map, List.getElem?_map, getElem?_tag]
    cases streams[i]? <;> simp
  rw [List.length_flatten, List.length_flatten, hlens]

theorem pull_tag (i : Nat) :
    MergeSorted.pull (tag streams) i = (MergeSorted.pull streams i).map fun r => ((r.1, i), tag r.2) := by
  unfold MergeSorted.pull
  rw [getElem?_tag]
  cases hs : streams[i]? with
  | none => rfl
  | some s =>
    cases s with
    | nil => rfl
    | cons n rest =>
      simp only [Option.map_some, List.map_cons, Option.some.injEq, Prod.mk.injEq, true_and]
      refine List.ext_getElem? fun j => ?_
      rw [getElem?_tag, List.getElem?_set, List.getElem?_set, tag, List.length_mapIdx, ← tag, getElem?_tag]
      by_cases hij : i = j
      · subst hij
        by_cases hlen : i < streams.length <;> simp [hlen]
      · simp [hij]

theorem primeAt_merged (i : Nat) : (m.primeAt i).merged = MergeSorted.primeAt m.cmp m.merged i := by
  unfold primeAt MergeSorted.primeAt
  rw [show m.merged.streams = tag m.streams from rfl, pull_tag]
  cases MergeSorted.pull m.streams i with
  | none => rfl
  | some r =>
    simp only [Option.map_some, merged, order_eq, MergeSorted.mk.injEq, true_and]
    rw [← Heap.siftUp_map, List.map_append, List.length_map]
    rfl

theorem popMin_merged :
    m.popMin.map (fun r => (r.1, r.2.merged)) = (MergeSorted.next m.cmp m.merged).map fun r => (r.1.1, r.2) := by
  unfold popMin MergeSorted.next
  cases hh : m.heap with
  | nil => simp [merged, hh]
  | cons root heap =>
    simp only [merged, hh, List.map_cons]
    rw [show (tagEntry root).idx = root.idx from rfl, pull_tag]
    cases hp : MergeSorted.pull m.streams root.idx with
    | some r =>
      simp only [Option.map_some, Option.some.injEq, Prod.mk.injEq, MergeSorted.mk.injEq, order_eq, ← Heap.siftDown_map]
      exact ⟨rfl, trivial, rfl⟩
    | none =>
      simp only [Option.map_none, List.getLast?_map]
      cases heap.getLast? with
      | none => rfl
      | some last =>
        simp only [Option.map_some, Option.some.injEq, Prod.mk.injEq, MergeSorted.mk.injEq, order_eq, ← Heap.siftDown_map, true_and]
        refine ⟨rfl, ?_⟩
        rw [List.map_set, List.map_dropLast, List.map_cons]

end

/-! ## What is popped -/

/-- `m` pops these nodes, then no more. -/
inductive Pops : MergeNodes → List Node → Prop
  | done {m : MergeNodes} (h : m.popMin = none) : Pops m []
  | pop {m m' : MergeNodes} {x : Node} {L : List Node} (h : m.popMin = some (x, m')) (hL : Pops m' L) : Pops m (x :: L)

theorem popMin_keeps {m m' : MergeNodes} {x : Node} (h : m.popMin = some (x, m')) :
    m'.sort = m.sort ∧ m'.reverse = m.reverse ∧ m'.dedupPk = m.dedupPk ∧ m'.lastPk = m.lastPk ∧ m'.primed = m.primed := by
  unfold popMin at h
  split at h
  · cases h
  · split at h
    · obtain ⟨rfl, rfl⟩ := Prod.mk.inj (Option.some.inj h)
      exact ⟨rfl, rfl, rfl, rfl, rfl⟩
    · split at h
      all_goals
        obtain ⟨rfl, rfl⟩ := Prod.mk.inj (Option.some.inj h)
        exact ⟨rfl, rfl, rfl, rfl, rfl⟩

theorem popMin_size {m m' : MergeNodes} {x : Node} (h : m.popMin = some (x, m')) : m'.size + 1 = m.size := by
  unfold popMin at h
  unfold size
  split at h
  · cases h
  rename_i root heap hh
  rw [hh]
  split at h
  · rename_i node streams hp
    obtain ⟨rfl, rfl⟩ := Prod.mk.inj (Option.some.inj h)
    have hperm := (@Heap.siftDown_perm _ m.order ((root :: heap).set 0 { root with row := node }) 0).length_eq
    have hflat := (MergeSorted.pull_perm hp).length_eq
    simp only [List.length_set, List.length_cons] at hperm hflat ⊢
    omega
  · split at h
    · rename_i hl
      obtain ⟨rfl, rfl⟩ := Prod.mk.inj (Option.some.inj h)
      rw [List.getLast?_eq_none_iff.mp hl]
      simp only [List.length_cons, List.length_nil]
      omega
    · rename_i last hl
      obtain ⟨rfl, rfl⟩ := Prod.mk.inj (Option.some.inj h)
      have hperm := (@Heap.siftDown_perm _ m.order ((root :: heap).dropLast.set 0 last) 0).length_eq
      simp only [List.length_set, List.length_dropLast, List.length_cons] at hperm ⊢
      omega

/-- What is popped does not depend on the last key sent out. -/
theorem popMin_flags (m : MergeNodes) (last : Option Row) (primed : Bool) :
    ({ m with lastPk := last, primed } : MergeNodes).popMin = m.popMin.map fun r => (r.1, { r.2 with lastPk := last, primed }) := by
  unfold popMin
  cases m.heap with
  | nil => rfl
  | cons root heap =>
    simp only
    cases MergeSorted.pull m.streams root.idx with
    | some r => rfl
    | none => cases heap.getLast? <;> rfl

theorem Pops.flags {m : MergeNodes} {L : List Node} (h : Pops m L) (last : Option Row) (primed : Bool) :
    Pops { m with lastPk := last, primed } L := by
  induction h with
  | done h => exact .done (by rw [popMin_flags, h, Option.map_none])
  | pop h _ ih => exact .pop (by rw [popMin_flags, h, Option.map_some]) ih

theorem Pops.length_le {m : MergeNodes} {L : List Node} (h : Pops m L) : L.length ≤ m.size := by
  induction h with
  | done h => exact Nat.zero_le _
  | pop h _ ih =>
    have hsize := popMin_size h
    rw [List.length_cons]
    omega

/-- A merge in order pops its nodes in the order of their rows, then of their streams. -/
theorem pops_of_drain (n : Nat) : ∀ {m : MergeNodes}, MergeSorted.Merging m.cmp m.merged.streams.length m.merged →
    m.merged.rows.length ≤ n → Pops m ((MergeSorted.drain m.cmp n m.merged).map Prod.fst) := by
  induction n with
  | zero =>
    intro m hm hn
    have hpop := popMin_merged m
    rcases hm.next with ⟨hnext, -⟩ | ⟨row, m', -, -, hperm, -⟩
    · rw [hnext, Option.map_none, Option.map_eq_none_iff] at hpop
      exact .done hpop
    · have hlen := hperm.length_eq
      rw [List.length_cons] at hlen
      omega
  | succ n ih =>
    intro m hm hn
    have hpop := popMin_merged m
    rcases hm.next with ⟨hnext, -⟩ | ⟨row, mm, hnext, hmm, hperm, -⟩
    · rw [hnext, Option.map_none, Option.map_eq_none_iff] at hpop
      simp only [MergeSorted.drain, hnext, List.map_nil]
      exact .done hpop
    rw [hnext, Option.map_some] at hpop
    obtain ⟨r, hr, hreq⟩ := Option.map_eq_some_iff.mp hpop
    obtain ⟨x, m'⟩ := r
    have hx : x = row.1 := congrArg Prod.fst hreq
    have hm' : m'.merged = mm := congrArg Prod.snd hreq
    subst hx hm'
    obtain ⟨hsort, hrev, -⟩ := popMin_keeps hr
    have hcmp : m'.cmp = m.cmp := by rw [cmp, cmp, hsort, hrev]
    have hlen := hperm.length_eq
    rw [List.length_cons] at hlen
    have hrest := ih (hcmp ▸ hmm) (by omega)
    rw [hcmp] at hrest
    simp only [MergeSorted.drain, hnext, List.map_cons]
    exact .pop hr hrest

/-! ## What is sent out -/

/-- The nodes the loop lets through, of those that are popped. -/
def letThrough (pk : Option (List Nat)) : Option Row → List Node → List Node
  | _, [] => []
  | last, x :: L => if isDup pk last x then letThrough pk last L else x :: letThrough pk (remember pk last x) L

theorem nextLoop_spec {m : MergeNodes} {L : List Node} (h : Pops m L) : ∀ n, L.length < n →
    (nextLoop n m = none ∧ letThrough m.dedupPk m.lastPk L = []) ∨
      ∃ x m' L', nextLoop n m = some (x, m') ∧ Pops m' L' ∧ L'.length < L.length ∧ m'.dedupPk = m.dedupPk ∧ m'.primed = m.primed ∧
        letThrough m.dedupPk m.lastPk L = x :: letThrough m.dedupPk m'.lastPk L' := by
  induction h with
  | done h =>
    intro n hn
    obtain ⟨n, rfl⟩ := Nat.exists_eq_add_of_lt hn
    exact Or.inl ⟨by simp only [nextLoop, h], rfl⟩
  | @pop m m' x L h hL ih =>
    intro n hn
    obtain ⟨n, rfl⟩ : ∃ k, n = k + 1 := ⟨n - 1, by omega⟩
    rw [List.length_cons] at hn
    obtain ⟨-, -, hpk, hlast, hprimed⟩ := popMin_keeps h
    by_cases hd : isDup m.dedupPk m.lastPk x = true
    · -- dropped: the loop goes on
      have hnext : nextLoop (n + 1) m = nextLoop n m' := by simp only [nextLoop, h, hpk, hlast, hd, if_true]
      have hskip : letThrough m.dedupPk m.lastPk (x :: L) = letThrough m.dedupPk m.lastPk L := by simp only [letThrough, hd, if_true]
      rw [hnext, hskip]
      rcases ih n (by omega) with ⟨hnone, hlet⟩ | ⟨y, m'', L', hsome, hpops, hlen, hpk', hprimed', hlet⟩
      · exact Or.inl ⟨hnone, by rw [← hpk, ← hlast]; exact hlet⟩
      · rw [hpk, hlast] at hlet
        exact Or.inr ⟨y, m'', L', hsome, hpops, by rw [List.length_cons]; omega, hpk'.trans hpk, hprimed'.trans hprimed, hlet⟩
    · refine Or.inr ⟨x, { m' with lastPk := remember m.dedupPk m.lastPk x }, L, ?_, hL.flags _ m'.primed, by simp, hpk, hprimed, ?_⟩
      · simp only [nextLoop, h, hpk, hlast, hd, Bool.false_eq_true, if_false]
      · simp only [letThrough, hd, Bool.false_eq_true, if_false]

theorem collect_spec (n : Nat) : ∀ {m : MergeNodes} {L : List Node}, m.primed = true → Pops m L → L.length ≤ n →
    collect n m = letThrough m.dedupPk m.lastPk L := by
  induction n with
  | zero =>
    intro m L _ _ hn
    rw [List.eq_nil_of_length_eq_zero (Nat.le_zero.mp hn)]
    rfl
  | succ n ih =>
    intro m L hprimed h hn
    have hnext : m.next = nextLoop (m.size + 1) m := by simp only [next, hprimed, if_true]
    rcases nextLoop_spec h (m.size + 1) (Nat.lt_succ_of_le h.length_le) with ⟨hnone, hlet⟩ | ⟨x, m', L', hsome, hL', hlen, hpk, hp, hlet⟩
    · simp only [collect, hnext, hnone, hlet]
    · simp only [collect, hnext, hsome, hlet]
      rw [ih (hp.trans hprimed) hL' (by omega), hpk]

/-- The nodes of all streams, tagged and in order. -/
theorem popped_order {streams : List (List Node)} {sort : SortSpec} {reverse : Bool} (dedupPk : Option (List Nat))
    (hs : ∀ s ∈ streams, SList.Sorted (compareRowsRev sort reverse) (s.map Node.row)) :
    ∃ T : List (Node × Nat), SList.Sorted (taggedCmp sort reverse) T ∧ T.Perm (tag streams).flatten ∧
      mergeNodeStreams streams sort reverse dedupPk = letThrough dedupPk none (T.map Prod.fst) := by
  let m : MergeNodes := { streams, sort, reverse, dedupPk }
  have hsorted : ∀ s ∈ tag streams, SList.Sorted (taggedCmp sort reverse) s := by
    intro l hl
    obtain ⟨i, hi⟩ := List.getElem?_of_mem hl
    rw [getElem?_tag] at hi
    obtain ⟨s, hsi, rfl⟩ := Option.map_eq_some_iff.mp hi
    refine List.pairwise_map.mpr ((List.pairwise_map.mp (hs s (List.mem_of_getElem? hsi))).imp fun hlt => ?_)
    exact Ordering.then_eq_lt.mpr (Or.inl hlt)
  -- priming is that of the row merge
  have hprime : ∀ l : List Nat, (l.foldl primeAt m).merged = l.foldl (MergeSorted.primeAt m.cmp) m.merged ∧
      (l.foldl primeAt m).sort = sort ∧ (l.foldl primeAt m).reverse = reverse ∧ (l.foldl primeAt m).dedupPk = dedupPk ∧
      (l.foldl primeAt m).lastPk = none := by
    intro l
    induction l using List.reverseRecOn with
    | nil => exact ⟨rfl, rfl, rfl, rfl, rfl⟩
    | append_singleton l i ih =>
      obtain ⟨hm, h1, h2, h3, h4⟩ := ih
      simp only [List.foldl_append, List.foldl_cons, List.foldl_nil]
      have hcmp : (l.foldl primeAt m).cmp = m.cmp := by rw [cmp, cmp, h1, h2]
      refine ⟨by rw [primeAt_merged, hm, hcmp], ?_⟩
      unfold primeAt
      split
      · exact ⟨h1, h2, h3, h4⟩
      · exact ⟨h1, h2, h3, h4⟩
  obtain ⟨hmerged, h1, h2, h3, h4⟩ := hprime (List.range streams.length)
  have hrow : m.prime.merged = MergeSorted.prime m.cmp ⟨tag streams, []⟩ := by
    rw [MergeSorted.prime, tag, List.length_mapIdx]
    exact hmerged
  obtain ⟨hmerging, hrows⟩ := MergeSorted.prime_merging fun s hs' => (hsorted s hs').rising
  obtain ⟨hperm, hrise⟩ := mergeSortedStreams_spec fun s hs' => (hsorted s hs').rising
  have hcmp : m.prime.cmp = taggedCmp sort reverse := by rw [cmp, prime, h1, h2]
  have hmerging' : MergeSorted.Merging m.prime.cmp m.prime.merged.streams.length m.prime.merged := by
    rw [hcmp, hrow, MergeSorted.prime_length]
    exact hmerging
  refine ⟨mergeSortedStreams (taggedCmp sort reverse) (tag streams), hrise.sorted ?_, hperm, ?_⟩
  · -- nodes that tie are of one stream, and no stream has two that do
    have hnodup : (mergeSortedStreams (taggedCmp sort reverse) (tag streams)).Pairwise fun a b => taggedCmp sort reverse a b ≠ .eq := by
      refine (hperm.pairwise_iff fun {a b} hab hba => hab (SList.eq_comm.mp hba)).mpr (List.pairwise_flatten.mpr ⟨?_, ?_⟩)
      · intro l hl
        exact (hsorted l hl).imp fun hlt heq => by rw [hlt] at heq; cases heq
      · refine List.pairwise_iff_getElem.mpr fun i j hi hj hij a ha b hb htie => ?_
        have hidx : ∀ {k : Nat} (hk : k < (tag streams).length) {x : Node × Nat}, x ∈ (tag streams)[k] → x.2 = k := by
          intro k hk x hx
          simp only [tag, List.getElem_mapIdx] at hx
          obtain ⟨n, -, rfl⟩ := List.mem_map.mp hx
          rfl
        have hsame := compare_eq_iff_eq.mp (Ordering.then_eq_eq.mp htie).2
        rw [hidx hi ha, hidx hj hb] at hsame
        omega
    exact hnodup
  · have hpops := pops_of_drain streams.flatten.length hmerging' (by rw [hrow, hrows.length_eq, length_tag])
    rw [hcmp, hrow] at hpops
    rw [← length_tag, ← mergeSortedStreams] at hpops
    have hprimed : Pops { m.prime with primed := true } ((mergeSortedStreams (taggedCmp sort reverse) (tag streams)).map Prod.fst) :=
      hpops.flags m.prime.lastPk true
    have hlen : ((mergeSortedStreams (taggedCmp sort reverse) (tag streams)).map Prod.fst).length ≤ streams.flatten.length := by
      rw [List.length_map, hperm.length_eq, length_tag]
    have hcollect := collect_spec streams.flatten.length (m := { m.prime with primed := true }) rfl hprimed hlen
    have hfirst : ∀ n, collect n m = collect n { m.prime with primed := true } := fun n => by cases n <;> rfl
    rw [mergeNodeStreams, show ({ streams, sort, reverse, dedupPk } : MergeNodes) = m from rfl, hfirst, hcollect]
    show letThrough m.prime.dedupPk m.prime.lastPk _ = _
    rw [prime, h3, h4]

/-- Of the nodes popped in order, the first of each key is let through. -/
theorem letThrough_spec {pk : List Nat} {sort : SortSpec} {reverse : Bool} (L : List Node) : ∀ {last : Option Row},
    (∀ x ∈ L, ∀ y ∈ L, samePk x.row y.row pk = true ↔ compareRowsRev sort reverse x.row y.row = .eq) →
    (∀ l, last = some l → ∀ x ∈ L, (samePk x.row l pk = true ↔ compareRowsRev sort reverse x.row l = .eq) ∧
      compareRowsRev sort reverse l x.row ≠ .gt) →
    SList.Rising (compareRowsRev sort reverse) (L.map Node.row) →
    SList.Sorted (compareRowsRev sort reverse) ((letThrough (some pk) last L).map Node.row) ∧
      (∀ l, last = some l → ∀ x ∈ letThrough (some pk) last L, compareRowsRev sort reverse l x.row = .lt) ∧
      ∀ n, n ∈ letThrough (some pk) last L ↔
        (∀ l, last = some l → samePk n.row l pk = false) ∧
          ∃ A B, L = A ++ n :: B ∧ ∀ a ∈ A, samePk a.row n.row pk = false := by
  induction L with
  | nil =>
    intro last _ _ _
    refine ⟨SList.sorted_nil, fun l _ x hx => (by cases hx), fun n => ?_⟩
    constructor
    · intro h
      cases h
    · rintro ⟨-, A, B, h, -⟩
      cases A <;> cases h
  | cons x L ih =>
    intro last hkeys hlast hrise
    have hrise' := SList.rising_cons.mp hrise
    have hxL : ∀ y ∈ L, compareRowsRev sort reverse x.row y.row ≠ .gt := fun y hy => hrise'.1 y.row (List.mem_map_of_mem hy)
    have htail : ∀ y ∈ L, ∀ z ∈ L, samePk y.row z.row pk = true ↔ compareRowsRev sort reverse y.row z.row = .eq :=
      fun y hy z hz => hkeys y (List.mem_cons_of_mem _ hy) z (List.mem_cons_of_mem _ hz)
    by_cases hd : isDup (some pk) last x = true
    · -- dropped: it has the key of the last one, so a node after it has its key only with that one's
      obtain ⟨l, rfl, hdup⟩ : ∃ l, last = some l ∧ samePk x.row l pk = true := by
        simpa [isDup, Option.any_eq_true] using hd
      have hxl := ((hlast l rfl x List.mem_cons_self).1).mp hdup
      obtain ⟨hsorted, hafter, hmem⟩ := @ih (some l) htail
        (fun l' hl' y hy => hlast l' hl' y (List.mem_cons_of_mem _ hy)) hrise'.2
      rw [show letThrough (some pk) (some l) (x :: L) = letThrough (some pk) (some l) L by simp only [letThrough, hd, if_true]]
      refine ⟨hsorted, hafter, fun n => (hmem n).trans (and_congr_right fun hfree => ?_)⟩
      have hfree := hfree l rfl
      constructor
      · rintro ⟨A, B, rfl, hA⟩
        refine ⟨x :: A, B, rfl, fun a ha => ?_⟩
        rcases List.mem_cons.mp ha with rfl | ha
        · rw [Bool.eq_false_iff]
          intro hsame
          have hn : n ∈ A ++ n :: B := by simp
          have htie := (hkeys a List.mem_cons_self n (List.mem_cons_of_mem _ hn)).mp hsame
          have hnl : compareRowsRev sort reverse n.row l = .eq := (Std.TransCmp.congr_left (SList.eq_comm.mp htie)).trans hxl
          rw [((hlast l rfl n (List.mem_cons_of_mem _ hn)).1).mpr hnl] at hfree
          cases hfree
        · exact hA a ha
      · rintro ⟨A, B, heq, hA⟩
        cases A with
        | nil =>
          obtain ⟨rfl, rfl⟩ := List.cons.inj heq
          rw [hdup] at hfree
          cases hfree
        | cons a A =>
          obtain ⟨rfl, rfl⟩ := List.cons.inj heq
          exact ⟨A, B, rfl, fun b hb => hA b (List.mem_cons_of_mem _ hb)⟩
    · have hself : ∀ y ∈ L, samePk y.row x.row pk = true ↔ compareRowsRev sort reverse y.row x.row = .eq :=
        fun y hy => hkeys y (List.mem_cons_of_mem _ hy) x List.mem_cons_self
      have hflip : ∀ y ∈ L, samePk x.row y.row pk = false ↔ samePk y.row x.row pk = false := by
        intro y hy
        rw [← Bool.not_eq_true, ← Bool.not_eq_true, hkeys x List.mem_cons_self y (List.mem_cons_of_mem _ hy), hself y hy,
          SList.eq_comm]
      have hfree : ∀ l, last = some l → samePk x.row l pk = false := by
        rintro l rfl
        simpa [isDup] using hd
      have hlx : ∀ l, last = some l → compareRowsRev sort reverse l x.row = .lt := by
        intro l hl
        obtain ⟨hkey, hle⟩ := hlast l hl x List.mem_cons_self
        cases hc : compareRowsRev sort reverse l x.row with
        | lt => rfl
        | gt => exact absurd hc hle
        | eq =>
          have hdup := hkey.mpr (SList.eq_comm.mp hc)
          rw [hfree l hl] at hdup
          cases hdup
      obtain ⟨hsorted, hafter, hmem⟩ := @ih (some x.row) htail
        (fun l' hl' y hy => by rw [← Option.some.inj hl']; exact ⟨hself y hy, hxL y hy⟩) hrise'.2
      have hafter := hafter x.row rfl
      rw [show letThrough (some pk) last (x :: L) = x :: letThrough (some pk) (some x.row) L by
        simp only [letThrough, hd, Bool.false_eq_true, if_false]; rfl]
      refine ⟨SList.sorted_cons.mpr ⟨fun r hr => ?_, hsorted⟩, fun l hl y hy => ?_, fun n => ?_⟩
      · obtain ⟨y, hy, rfl⟩ := List.mem_map.mp hr
        exact hafter y hy
      · rcases List.mem_cons.mp hy with rfl | hy
        · exact hlx l hl
        · exact SList.lt_trans (hlx l hl) (hafter y hy)
      · rw [List.mem_cons, hmem n]
        constructor
        · rintro (rfl | ⟨hfreex, A, B, rfl, hA⟩)
          · exact ⟨hfree, [], L, rfl, fun a ha => by cases ha⟩
          · have hn : n ∈ A ++ n :: B := by simp
            refine ⟨fun l hl => ?_, x :: A, B, rfl, fun a ha => ?_⟩
            · rw [Bool.eq_false_iff, Ne, (hlast l hl n (List.mem_cons_of_mem _ hn)).1]
              intro htie
              have hln := SList.lt_trans (hlx l hl) (hafter n ((hmem n).mpr ⟨hfreex, A, B, rfl, hA⟩))
              rw [SList.eq_comm.mp htie] at hln
              cases hln
            · rcases List.mem_cons.mp ha with rfl | ha
              · exact (hflip n hn).mpr (hfreex a.row rfl)
              · exact hA a ha
        · rintro ⟨-, A, B, heq, hA⟩
          cases A with
          | nil => exact Or.inl (List.cons.inj heq).1.symm
          | cons a A =>
            obtain ⟨rfl, rfl⟩ := List.cons.inj heq
            refine Or.inr ⟨fun l hl => ?_, A, B, rfl, fun b hb => hA b (List.mem_cons_of_mem _ hb)⟩
            rw [← Option.some.inj hl]
            exact (hflip n (by simp)).mp (hA x List.mem_cons_self)

/-- Among the nodes in order, the first with its key is the one of the earliest stream. -/
theorem first_iff {pk : List Nat} {sort : SortSpec} {reverse : Bool} {T : List (Node × Nat)}
    (hT : SList.Sorted (taggedCmp sort reverse) T)
    (hsame : ∀ a ∈ T, ∀ b ∈ T, samePk a.1.row b.1.row pk = true ↔ compareRowsRev sort reverse a.1.row b.1.row = .eq) (n : Node) :
    (∃ A B, T.map Prod.fst = A ++ n :: B ∧ ∀ a ∈ A, samePk a.row n.row pk = false) ↔
      ∃ i, (n, i) ∈ T ∧ ∀ x j, (x, j) ∈ T → j < i → samePk x.row n.row pk = false := by
  constructor
  · rintro ⟨A, B, hAB, hA⟩
    obtain ⟨A', R', rfl, rfl, hR⟩ := List.map_eq_append_iff.mp hAB
    obtain ⟨⟨n', i⟩, B', rfl, rfl, rfl⟩ := List.map_eq_cons_iff.mp hR
    have hn : (n', i) ∈ A' ++ (n', i) :: B' := by simp
    refine ⟨i, hn, fun x j hx hj => ?_⟩
    rw [Bool.eq_false_iff]
    intro hdup
    -- of an earlier stream, it came earlier
    have hlt : taggedCmp sort reverse (x, j) (n', i) = .lt :=
      Ordering.then_eq_lt.mpr (Or.inr ⟨(hsame _ hx _ hn).mp hdup, Nat.compare_eq_lt.mpr hj⟩)
    rcases List.mem_append.mp hx with hin | hin
    · have hfalse := hA x (List.mem_map_of_mem hin)
      rw [hfalse] at hdup
      cases hdup
    · rcases List.mem_cons.mp hin with heq | hin
      · obtain ⟨-, rfl⟩ := Prod.mk.inj heq
        exact Nat.lt_irrefl _ hj
      · have hgt := (SList.sorted_cons.mp (SList.sorted_append.mp hT).2.1).1 _ hin
        exact SList.not_lt_of_lt hlt hgt
  · rintro ⟨i, hni, hnone⟩
    obtain ⟨A, B, rfl⟩ := List.append_of_mem hni
    refine ⟨A.map Prod.fst, B.map Prod.fst, by simp, fun a ha => ?_⟩
    obtain ⟨⟨x, j⟩, hxj, rfl⟩ := List.mem_map.mp ha
    have hx : (x, j) ∈ A ++ (n, i) :: B := List.mem_append_left _ hxj
    have hlt := (SList.sorted_append.mp hT).2.2 _ hxj (n, i) List.mem_cons_self
    rcases Ordering.then_eq_lt.mp hlt with hrow | ⟨-, hidx⟩
    · rw [Bool.eq_false_iff, Ne, hsame (x, j) hx (n, i) hni]
      intro htie
      have hrow' : compareRowsRev sort reverse x.row n.row = .lt := hrow
      rw [hrow'] at htie
      cases htie
    · exact hnone x j hx (Nat.compare_eq_lt.mp hidx)

end MergeNodes

open MergeNodes in
/-- Of streams in order that read one table, by a sort that has its primary key, the merge is in order
    and has each key of some stream once, with the node of the first stream that has it. -/
theorem mergeNodeStreams_spec {streams : List (List Node)} {sort : SortSpec} {reverse : Bool} {pk : List Nat}
    (hs : ∀ s ∈ streams, SList.Sorted (compareRowsRev sort reverse) (s.map Node.row)) (hcov : SortSpec.Covers sort pk)
    (hkeyed : ∀ s ∈ streams, ∀ n ∈ s, Keyed pk n.row)
    (htable : ∀ s ∈ streams, ∀ n ∈ s, ∀ t ∈ streams, ∀ x ∈ t, keyCmp pk n.row x.row = .eq → rowCmp sort n.row x.row = .eq) :
    SList.Sorted (compareRowsRev sort reverse) ((mergeNodeStreams streams sort reverse (some pk)).map Node.row) ∧
      (∀ n, n ∈ mergeNodeStreams streams sort reverse (some pk) ↔
        ∃ (i : Nat) (s : List Node), streams[i]? = some s ∧ n ∈ s ∧
          ∀ (j : Nat) (t : List Node), j < i → streams[j]? = some t → ∀ x ∈ t, samePk x.row n.row pk = false) ∧
      ∀ s ∈ streams, ∀ x ∈ s, ∃! n, n ∈ mergeNodeStreams streams sort reverse (some pk) ∧ samePk n.row x.row pk = true := by
  obtain ⟨T, hT, hperm, heq⟩ := popped_order (some pk) hs
  have hmemT : ∀ {n i}, (n, i) ∈ T ↔ ∃ s, streams[i]? = some s ∧ n ∈ s := fun {n i} => hperm.mem_iff.trans mem_tag
  have hsame : ∀ s ∈ streams, ∀ n ∈ s, ∀ t ∈ streams, ∀ x ∈ t,
      (samePk n.row x.row pk = true ↔ compareRowsRev sort reverse n.row x.row = .eq) := by
    intro s hs n hn t ht x hx
    rw [samePk_iff (hkeyed t ht x hx)]
    constructor
    · intro h
      exact SList.dirCmp_eq_eq.mpr (htable s hs n hn t ht x hx h)
    · intro h
      exact hcov.key_tie (SList.dirCmp_eq_eq.mp h)
  have hsameT : ∀ a ∈ T, ∀ b ∈ T, (samePk a.1.row b.1.row pk = true ↔ compareRowsRev sort reverse a.1.row b.1.row = .eq) := by
    intro a ha b hb
    obtain ⟨s, hs, has⟩ := hmemT.mp ha
    obtain ⟨t, ht, hbt⟩ := hmemT.mp hb
    exact hsame s (List.mem_of_getElem? hs) a.1 has t (List.mem_of_getElem? ht) b.1 hbt
  have hrise : SList.Rising (compareRowsRev sort reverse) ((T.map Prod.fst).map Node.row) := by
    rw [List.map_map]
    refine List.pairwise_map.mpr (hT.imp fun {a b} hlt hgt => ?_)
    rcases Ordering.then_eq_lt.mp hlt with h | h
    · rw [show compareRowsRev sort reverse a.1.row b.1.row = .gt from hgt] at h
      cases h
    · rw [show compareRowsRev sort reverse a.1.row b.1.row = .gt from hgt] at h
      cases h.1
  obtain ⟨hsorted, -, hmem⟩ := @letThrough_spec pk sort reverse (T.map Prod.fst) none
    (fun n hn x hx => by
      obtain ⟨a, ha, rfl⟩ := List.mem_map.mp hn
      obtain ⟨b, hb, rfl⟩ := List.mem_map.mp hx
      exact hsameT a ha b hb)
    (fun l hl => by cases hl) hrise
  rw [← heq] at hsorted hmem
  have hfirst : ∀ n, n ∈ mergeNodeStreams streams sort reverse (some pk) ↔
      ∃ (i : Nat) (s : List Node), streams[i]? = some s ∧ n ∈ s ∧
        ∀ (j : Nat) (t : List Node), j < i → streams[j]? = some t → ∀ x ∈ t, samePk x.row n.row pk = false := by
    intro n
    rw [hmem n]
    have hnone : ∀ l, (none : Option Row) = some l → samePk n.row l pk = false := fun l hl => by cases hl
    rw [and_iff_right hnone, first_iff hT hsameT]
    constructor
    · rintro ⟨i, hni, hearlier⟩
      obtain ⟨s, hsi, hns⟩ := hmemT.mp hni
      exact ⟨i, s, hsi, hns, fun j t hj ht x hx => hearlier x j (hmemT.mpr ⟨t, ht, hx⟩) hj⟩
    · rintro ⟨i, s, hsi, hns, hearlier⟩
      refine ⟨i, hmemT.mpr ⟨s, hsi, hns⟩, fun x j hxj hj => ?_⟩
      obtain ⟨t, ht, hx⟩ := hmemT.mp hxj
      exact hearlier j t hj ht x hx
  refine ⟨hsorted, hfirst, fun s hsm x hx => ?_⟩
  classical
  have hsome : ∃ i : Nat, ∃ t : List Node, streams[i]? = some t ∧ ∃ y ∈ t, samePk y.row x.row pk = true := by
    obtain ⟨k, hk⟩ := List.getElem?_of_mem hsm
    exact ⟨k, s, hk, x, hx, (hsame s hsm x hx s hsm x hx).mpr Std.ReflCmp.compare_self⟩
  obtain ⟨t, ht, y, hy, hyx⟩ := Nat.find_spec hsome
  have htm := List.mem_of_getElem? ht
  have htie := (hsame t htm y hy s hsm x hx).mp hyx
  -- the node of the first stream with the key
  have hyout : y ∈ mergeNodeStreams streams sort reverse (some pk) := by
    refine (hfirst y).mpr ⟨_, t, ht, hy, fun j u hj hu z hz => ?_⟩
    rw [Bool.eq_false_iff]
    intro hzy
    have hum := List.mem_of_getElem? hu
    have hzx := Std.TransCmp.eq_trans ((hsame u hum z hz t htm y hy).mp hzy) htie
    exact Nat.find_min hsome hj ⟨u, hu, z, hz, (hsame u hum z hz s hsm x hx).mpr hzx⟩
  refine ⟨y, ⟨hyout, hyx⟩, fun n ⟨hn, hnx⟩ => ?_⟩
  obtain ⟨i, u, hu, hnu, -⟩ := (hfirst n).mp hn
  have hny := Std.TransCmp.eq_trans ((hsame u (List.mem_of_getElem? hu) n hnu s hsm x hx).mp hnx) (SList.eq_comm.mp htie)
  have hout : SList.Sorted (fun a b : Node => compareRowsRev sort reverse a.row b.row)
      (mergeNodeStreams streams sort reverse (some pk)) := List.pairwise_map.mp hsorted
  have _htrans : Std.TransCmp fun a b : Node => compareRowsRev sort reverse a.row b.row :=
    SList.transCmp_comap (compareRowsRev sort reverse) Node.row
  exact hout.eq_of_cmp hn hyout hny

/-- Two branches have the row 1, with other relationships: the first branch's node comes out. -/
theorem mergeNodeStreams_two :
    (.mk [.int 1] [(0, [])]) ∈ mergeNodeStreams [[.mk [.int 1] [(0, [])]], [.leaf [.int 1], .leaf [.int 2]]] [(0, true)] false (some [0]) := by
  refine ((mergeNodeStreams_spec ?_ ?_ ?_ ?_).2.1 _).mpr ⟨0, _, rfl, List.mem_singleton.mpr rfl, fun j t hj => ?_⟩
  · intro s hs
    rcases List.mem_cons.mp hs with rfl | hs
    · exact List.pairwise_singleton _ _
    · obtain rfl := List.mem_singleton.mp hs
      exact List.pairwise_cons.mpr ⟨fun r hr => (by rw [List.mem_singleton.mp hr]; decide +kernel), List.pairwise_singleton _ _⟩
  · intro p hp
    exact ⟨true, by rw [List.mem_singleton.mp hp]; exact List.mem_singleton.mpr rfl⟩
  · intro s hs n hn c hc
    rw [List.mem_singleton.mp hc]
    rcases List.mem_cons.mp hs with rfl | hs
    · rw [List.mem_singleton.mp hn]
      rfl
    · obtain rfl := List.mem_singleton.mp hs
      rcases List.mem_cons.mp hn with rfl | hn
      · rfl
      · rw [List.mem_singleton.mp hn]
        rfl
  · intro s _ n _ t _ x _ htie
    exact htie
  · exact absurd hj (Nat.not_lt_zero j)

end Rindle
