/-
  Rindle.BTree.DiffWalk — the stops of a diff cursor.

  A cursor's walk over a tree is a fixed list of stops: each node before what lies below it,
  everything from right to left. A stop is a key and a rank, the height above the rows. In a
  well-formed tree the stops are strictly ordered by descending key and, on one key, by
  descending rank; `compare_cursors` is that order, whatever the heights of the two trees
  (`compareCursors_eq`). `At c ss` says that `ss` are the stops from the cursor on; a step
  goes to the next one (`step_row`), a step past a node skips the node's stops (`step_node`).
-/

import Rindle.BTree.Diff

namespace Rindle

open BNode DiffCursor

variable {α : Type}

/-- A place where a cursor rests: a row (rank 0) or a node of height `rank - 1`. -/
structure Stop (α : Type) where
  key : α
  rank : Nat

/-- The order in which stops are met. -/
def stopCmp (cmp : α → α → Ordering) : Stop α → Stop α → Ordering :=
  compareLex (fun a b => cmp b.key a.key) (fun a b => compare b.rank a.rank)

instance stopCmp_trans (cmp : α → α → Ordering) [Std.TransCmp cmp] : Std.TransCmp (stopCmp cmp) := by
  have h1 : Std.TransCmp fun a b : Stop α => cmp b.key a.key := SList.transCmp_comap (fun a b => cmp b a) Stop.key
  have h2 : Std.TransCmp fun a b : Stop α => compare b.rank a.rank :=
    SList.transCmp_comap (fun a b : Nat => compare b a) Stop.rank
  exact inferInstanceAs (Std.TransCmp (compareLex _ _))

mutual
/-- The stops at and below a node of height `h`. -/
def stops : Nat → BNode α → List (Stop α)
  | h, .leaf ks => ks.getLast?.toList.map (⟨·, h + 1⟩) ++ ks.reverse.map (⟨·, 0⟩)
  | h, .internal ks cs => ks.getLast?.toList.map (⟨·, h + 1⟩) ++ stopsAll (h - 1) cs

/-- The stops of sibling nodes of height `h`, from right to left. -/
def stopsAll : Nat → List (BNode α) → List (Stop α)
  | _, [] => []
  | h, c :: cs => stopsAll h cs ++ stops h c
end

/-- The rows among the stops. -/
def stopRows (ss : List (Stop α)) : List α := ss.filterMap fun s => if s.rank = 0 then some s.key else none

@[simp] theorem stopRows_nil : stopRows ([] : List (Stop α)) = [] := rfl

@[simp] theorem stopRows_append (ss tt : List (Stop α)) : stopRows (ss ++ tt) = stopRows ss ++ stopRows tt :=
  List.filterMap_append

theorem stopRows_cons_row (k : α) (ss : List (Stop α)) : stopRows (⟨k, 0⟩ :: ss) = k :: stopRows ss := rfl

theorem stopRows_cons_node {s : Stop α} (h : s.rank ≠ 0) (ss : List (Stop α)) : stopRows (s :: ss) = stopRows ss := by
  simp [stopRows, h]

theorem stopRows_map (ks : List α) : stopRows (ks.map (⟨·, 0⟩)) = ks := by
  induction ks with
  | nil => rfl
  | cons k ks ih => rw [List.map_cons, stopRows_cons_row, ih]

@[simp] theorem stopsAll_nil (h : Nat) : stopsAll h ([] : List (BNode α)) = [] := by simp [stopsAll]

theorem stopsAll_append (h : Nat) (cs ds : List (BNode α)) : stopsAll h (cs ++ ds) = stopsAll h ds ++ stopsAll h cs := by
  induction cs with
  | nil => simp
  | cons c cs ih => simp [stopsAll, ih]

@[simp] theorem stopsAll_singleton (h : Nat) (c : BNode α) : stopsAll h [c] = stops h c := by simp [stopsAll]

theorem stopsAll_take_succ {h i : Nat} {cs : List (BNode α)} {c : BNode α} (hc : cs[i]? = some c) :
    stopsAll h (cs.take (i + 1)) = stops h c ++ stopsAll h (cs.take i) := by
  rw [List.take_add_one, hc, stopsAll_append]
  simp

theorem stops_leaf {h : Nat} {ks : List α} {m : α} (hm : (BNode.leaf ks).maxKey? = some m) :
    stops h (.leaf ks) = ⟨m, h + 1⟩ :: ks.reverse.map (⟨·, 0⟩) := by
  have hm' : ks.getLast? = some m := hm
  simp [stops, hm']

theorem stops_internal {h : Nat} {ks : List α} {cs : List (BNode α)} {m : α}
    (hm : (BNode.internal ks cs).maxKey? = some m) :
    stops (h + 1) (.internal ks cs) = ⟨m, h + 2⟩ :: stopsAll h cs := by
  have hm' : ks.getLast? = some m := hm
  simp [stops, hm']

/-! ## The stops of a well-formed node -/

section
variable {cmp : α → α → Ordering} [Std.TransCmp cmp]

/-- The stops of a node: below its rank, at its rows' keys, strictly ordered, and with its rows. -/
structure StopsOk (cmp : α → α → Ordering) (h : Nat) (rows : List α) (ss : List (Stop α)) : Prop where
  key_mem : ∀ s ∈ ss, s.key ∈ rows
  rank_le : ∀ s ∈ ss, s.rank ≤ h
  sorted : ss.Pairwise fun a b => stopCmp cmp a b = .lt
  rows_eq : stopRows ss = rows.reverse

omit [Std.TransCmp cmp] in
theorem stopCmp_of_key {a b : Stop α} (h : cmp b.key a.key = .lt) : stopCmp cmp a b = .lt := by
  simp [stopCmp, compareLex, h]

theorem stopCmp_of_rank {a b : Stop α} (hk : b.key = a.key) (h : b.rank < a.rank) : stopCmp cmp a b = .lt := by
  simp only [stopCmp, compareLex, hk, Std.ReflCmp.compare_self, Ordering.eq_then]
  exact Nat.compare_eq_lt.mpr h

/-- A node's own stop comes before those below it. -/
theorem StopsOk.node {h : Nat} {rows : List α} {ss : List (Stop α)} (hs : StopsOk cmp h rows ss)
    (hrows : SList.Sorted cmp rows) {m : α} (hm : rows.getLast? = some m) :
    StopsOk cmp (h + 1) rows (⟨m, h + 1⟩ :: ss) := by
  have hmem : m ∈ rows := List.mem_of_getLast? hm
  refine ⟨?_, ?_, ?_, ?_⟩
  · intro s hs'
    rcases List.mem_cons.mp hs' with rfl | hs'
    · exact hmem
    · exact hs.key_mem s hs'
  · intro s hs'
    rcases List.mem_cons.mp hs' with rfl | hs'
    · exact Nat.le_refl _
    · exact Nat.le_succ_of_le (hs.rank_le s hs')
  · refine List.pairwise_cons.mpr ⟨fun s hs' => ?_, hs.sorted⟩
    rcases hrows.last hm s.key (hs.key_mem s hs') with heq | hlt
    · exact stopCmp_of_rank heq (Nat.lt_succ_of_le (hs.rank_le s hs'))
    · exact stopCmp_of_key hlt
  · rw [stopRows_cons_node (by simp), hs.rows_eq]

omit [Std.TransCmp cmp] in
theorem StopsOk.append {h : Nat} {rows rows' : List α} {ss tt : List (Stop α)} (hs : StopsOk cmp h rows ss)
    (ht : StopsOk cmp h rows' tt) (hlt : ∀ a ∈ rows', ∀ b ∈ rows, cmp a b = .lt) :
    StopsOk cmp h (rows' ++ rows) (ss ++ tt) := by
  refine ⟨?_, ?_, ?_, ?_⟩
  · intro s hs'
    rcases List.mem_append.mp hs' with h' | h'
    · exact List.mem_append_right _ (hs.key_mem s h')
    · exact List.mem_append_left _ (ht.key_mem s h')
  · intro s hs'
    rcases List.mem_append.mp hs' with h' | h'
    · exact hs.rank_le s h'
    · exact ht.rank_le s h'
  · refine List.pairwise_append.mpr ⟨hs.sorted, ht.sorted, fun a ha b hb => ?_⟩
    exact stopCmp_of_key (hlt _ (ht.key_mem b hb) _ (hs.key_mem a ha))
  · rw [stopRows_append, hs.rows_eq, ht.rows_eq, List.reverse_append]

omit [Std.TransCmp cmp] in
theorem stopsOk_rows {ks : List α} (hks : SList.Sorted cmp ks) : StopsOk cmp 0 ks (ks.reverse.map (⟨·, 0⟩)) := by
  refine ⟨?_, ?_, ?_, stopRows_map _⟩
  · intro s hs
    obtain ⟨k, hk, rfl⟩ := List.mem_map.mp hs
    simpa using hk
  · intro s hs
    obtain ⟨k, -, rfl⟩ := List.mem_map.mp hs
    exact Nat.le_refl _
  · rw [List.pairwise_map]
    have hdesc : ks.reverse.Pairwise fun a b => cmp b a = .lt := SList.desc_reverse.mpr hks
    exact hdesc.imp fun h => stopCmp_of_key h

theorem stops_ok {h : Nat} : ∀ {n : BNode α}, NodeOk h false n → SList.Sorted cmp n.rows →
    StopsOk cmp (h + 1) n.rows (stops h n) := by
  induction h with
  | zero =>
    intro n hn hs
    cases n with
    | internal ks cs => exact hn.elim
    | leaf ks =>
      obtain ⟨m, hm, -, hlast⟩ := hn.exists_max
      rw [rows_leaf] at hs hlast ⊢
      rw [stops_leaf hm]
      exact (stopsOk_rows hs).node hs hlast
  | succ h ih =>
    intro n hn hs
    cases n with
    | leaf ks => exact hn.elim
    | internal ks cs =>
      obtain ⟨m, hm, -, hlast⟩ := hn.exists_max
      obtain ⟨-, -, -, hcs⟩ := hn
      rw [rows_internal] at hs hlast ⊢
      rw [stops_internal hm]
      refine StopsOk.node ?_ hs hlast
      clear hm hlast
      induction cs with
      | nil => exact ⟨by simp, by simp, by simp, by simp⟩
      | cons c cs ihc =>
        rw [rowsAll_cons] at hs ⊢
        obtain ⟨hs1, hs2, hs3⟩ := SList.sorted_append.mp hs
        rw [stopsAll]
        exact (ihc hs2 fun d hd => hcs d (List.mem_cons_of_mem _ hd)).append (ih (hcs c List.mem_cons_self) hs1) hs3

end

/-! ## The stops ahead of a cursor -/

/-- The stops still to come at the first `n` levels: those of the left siblings, deepest first. -/
def pending (h : Nat) (sp : List (List (BNode α))) (is : List Nat) : Nat → List (Stop α)
  | 0 => []
  | k + 1 => stopsAll (h - k) ((sp[k]?.getD []).take (is[k]?.getD 0)) ++ pending h sp is k

/-- The first `n` levels of a cursor hold nodes of the right heights, one of them selected. -/
def LevelsOk (h : Nat) (sp : List (List (BNode α))) (is : List Nat) (n : Nat) : Prop :=
  ∀ k < n, k ≤ h ∧ ∃ sibs i, sp[k]? = some sibs ∧ is[k]? = some i ∧ i < sibs.length ∧ ∀ c ∈ sibs, NodeOk (h - k) false c

theorem pending_congr {h n : Nat} {sp sp' : List (List (BNode α))} {is is' : List Nat}
    (hsp : ∀ k < n, sp'[k]? = sp[k]?) (his : ∀ k < n, is'[k]? = is[k]?) : pending h sp' is' n = pending h sp is n := by
  induction n with
  | zero => rfl
  | succ n ih =>
    rw [pending, pending, hsp n (Nat.lt_succ_self n), his n (Nat.lt_succ_self n),
      ih (fun k hk => hsp k (Nat.lt_succ_of_lt hk)) fun k hk => his k (Nat.lt_succ_of_lt hk)]

theorem LevelsOk.congr {h n : Nat} {sp sp' : List (List (BNode α))} {is is' : List Nat} (hl : LevelsOk h sp is n)
    (hsp : ∀ k < n, sp'[k]? = sp[k]?) (his : ∀ k < n, is'[k]? = is[k]?) : LevelsOk h sp' is' n := by
  intro k hk
  rw [hsp k hk, his k hk]
  exact hl k hk

/-- The selected node of a cursor that rests on a node. -/
def OnNode (c : DiffCursor α) (n : BNode α) : Prop :=
  c.leaf = none ∧ c.indices.length = c.spine.length ∧ c.spine ≠ [] ∧ c.currentNode = some n ∧
    n.maxKey? = some c.currentKey ∧ NodeOk (c.height - (c.spine.length - 1)) false n

/-- The row of a cursor that rests in a leaf. -/
def OnRow (c : DiffCursor α) (ks : List α) (i : Nat) : Prop :=
  c.leaf = some (.leaf ks) ∧ c.spine.length = c.height + 1 ∧ c.indices.length = c.spine.length + 1 ∧
    c.indices[c.spine.length]? = some i ∧ ks[i]? = some c.currentKey

/-- The cursor is well-placed and `ss` are the stops from it on. -/
def At (c : DiffCursor α) (ss : List (Stop α)) : Prop :=
  LevelsOk c.height c.spine c.indices c.spine.length ∧
    ((∃ n, OnNode c n ∧ ss = stops (c.height - (c.spine.length - 1)) n ++
        pending c.height c.spine c.indices c.spine.length) ∨
      (∃ ks i, OnRow c ks i ∧ ss = (ks.take (i + 1)).reverse.map (⟨·, 0⟩) ++
        pending c.height c.spine c.indices c.spine.length))

/-- The stop a cursor rests on. -/
def stopOf (c : DiffCursor α) : Stop α := ⟨c.currentKey, c.height + 2 - c.indices.length⟩

theorem stops_head {h : Nat} {n : BNode α} (hn : NodeOk h false n) {m : α} (hm : n.maxKey? = some m) :
    ∃ ss, stops h n = ⟨m, h + 1⟩ :: ss := by
  cases h with
  | zero =>
    cases n with
    | internal ks cs => exact hn.elim
    | leaf ks => exact ⟨_, stops_leaf hm⟩
  | succ h =>
    cases n with
    | leaf ks => exact hn.elim
    | internal ks cs => exact ⟨_, stops_internal hm⟩

variable {c : DiffCursor α} {ss : List (Stop α)}

/-- The first stop ahead is the one the cursor rests on. -/
theorem At.head (h : At c ss) :
    (∃ tt, ss = stopOf c :: tt) ∧ c.indices.length ≤ c.height + 2 ∧ (c.leaf.isSome = true ↔ (stopOf c).rank = 0) := by
  obtain ⟨hl, ⟨n, ⟨hleaf, hlen, hne, -, hmax, hok⟩, rfl⟩ | ⟨ks, i, ⟨hleaf, hsp, hlen, -, hkey⟩, rfl⟩⟩ := h
  · have hpos : 0 < c.spine.length := List.length_pos_iff.mpr hne
    have hk := (hl (c.spine.length - 1) (by omega)).1
    obtain ⟨tt, htt⟩ := stops_head hok hmax
    have hrank : c.height - (c.spine.length - 1) + 1 = c.height + 2 - c.indices.length := by omega
    refine ⟨⟨tt ++ pending c.height c.spine c.indices c.spine.length, ?_⟩, by omega, ?_⟩
    · rw [htt, hrank]; rfl
    · rw [hleaf]
      simp only [Option.isSome_none, Bool.false_eq_true, stopOf, false_iff]
      omega
  · have hi : i < ks.length := (List.getElem?_eq_some_iff.mp hkey).1
    refine ⟨⟨((ks.take i).reverse.map (⟨·, 0⟩)) ++ pending c.height c.spine c.indices c.spine.length, ?_⟩, by omega, ?_⟩
    · rw [List.take_add_one, hkey]
      have h0 : c.height + 2 - c.indices.length = 0 := by omega
      simp [stopOf, h0]
    · rw [hleaf]
      simp only [Option.isSome_some, stopOf, true_iff]
      omega

/-- `compare_cursors` is the order of the stops, whatever the heights. -/
theorem compareCursors_eq {cmp : α → α → Ordering} {a b : DiffCursor α} (ha : a.indices.length ≤ a.height + 2)
    (hb : b.indices.length ≤ b.height + 2) : compareCursors cmp a b = stopCmp cmp (stopOf a) (stopOf b) := by
  have hda : ∀ x y : Nat, x ≤ a.height + 2 → y ≤ b.height + 2 →
      compare ((x : Int) - ((a.height - min a.height b.height : Nat) : Int))
        ((y : Int) - ((b.height - min a.height b.height : Nat) : Int)) =
      compare (b.height + 2 - y) (a.height + 2 - x) := by
    intro x y hx hy
    rcases Nat.lt_trichotomy (b.height + 2 - y) (a.height + 2 - x) with h | h | h
    · rw [Nat.compare_eq_lt.mpr h]
      exact Int.compare_eq_lt.mpr (by omega)
    · rw [Nat.compare_eq_eq.mpr h]
      exact Int.compare_eq_eq.mpr (by omega)
    · rw [Nat.compare_eq_gt.mpr h]
      exact Int.compare_eq_gt.mpr (by omega)
  unfold compareCursors stopCmp compareLex stopOf
  simp only
  cases h : cmp b.currentKey a.currentKey with
  | lt => rfl
  | gt => rfl
  | eq => exact hda _ _ ha hb

/-! ## Steps -/

/-- Climbing to the deepest level with a left sibling. -/
theorem lastPositive_spec {h : Nat} {sp : List (List (BNode α))} {is : List Nat} {n : Nat} (hl : LevelsOk h sp is n) :
    (lastPositive is n = none ∧ pending h sp is n = []) ∨
      ∃ k sibs i c, lastPositive is n = some k ∧ k < n ∧ sp[k]? = some sibs ∧ is[k]? = some (i + 1) ∧ sibs[i]? = some c ∧
        pending h sp is n = stops (h - k) c ++ (stopsAll (h - k) (sibs.take i) ++ pending h sp is k) := by
  induction n with
  | zero => exact Or.inl ⟨rfl, rfl⟩
  | succ n ih =>
    obtain ⟨-, sibs, i, hsp, his, hi, -⟩ := hl n (Nat.lt_succ_self n)
    have hl' : LevelsOk h sp is n := fun k hk => hl k (Nat.lt_succ_of_lt hk)
    rw [lastPositive, pending, hsp, his]
    simp only [Option.getD_some]
    cases i with
    | zero =>
      rw [if_neg (by simp), List.take_zero, stopsAll_nil, List.nil_append]
      rcases ih hl' with ih | ⟨k, sibs', i', c, h1, h2, h3⟩
      · exact Or.inl ih
      · exact Or.inr ⟨k, sibs', i', c, h1, Nat.lt_succ_of_lt h2, h3⟩
    | succ i =>
      have hc : sibs[i]? = some (sibs[i]) := List.getElem?_eq_getElem (by omega)
      rw [if_pos (by simp)]
      refine Or.inr ⟨n, sibs, i, sibs[i], rfl, Nat.lt_succ_self n, hsp, his, hc, ?_⟩
      rw [stopsAll_take_succ hc, List.append_assoc]

/-- Leaving the current subtree: the next stop is the first pending one. -/
theorem stepNode_spec (hl : LevelsOk c.height c.spine c.indices c.spine.length)
    (hlen : c.spine.length ≤ c.indices.length) :
    ∃ c' ok, c.stepNode = some (c', ok) ∧
      (ok = true → At c' (pending c.height c.spine c.indices c.spine.length) ∧ c'.leaf = none) ∧
      (ok = false → c' = c ∧ pending c.height c.spine c.indices c.spine.length = []) := by
  unfold stepNode
  rcases lastPositive_spec hl with ⟨h1, h2⟩ | ⟨k, sibs, i, n, h1, hk, hsp, his, hn, hpend⟩
  · rw [h1]
    exact ⟨c, false, rfl, by simp, fun _ => ⟨rfl, h2⟩⟩
  obtain ⟨hkh, sibs', i', hsp', his', hi', hok⟩ := hl k hk
  rw [hsp, Option.some_inj] at hsp'
  subst hsp'
  have hnok := hok n (List.mem_of_getElem? hn)
  obtain ⟨m, hm, -, -⟩ := hnok.exists_max
  have hki : k < c.indices.length := by omega
  rw [h1]
  simp only [his, hsp, Option.bind_eq_bind, Option.bind_some, Nat.add_sub_cancel, hn, hm]
  refine ⟨_, true, rfl, fun _ => ?_, by simp⟩
  have hsplen : (c.spine.take (k + 1)).length = k + 1 := by rw [List.length_take]; omega
  have hislen : ((c.indices.take (k + 1)).set k i).length = k + 1 := by rw [List.length_set, List.length_take]; omega
  have hspk : (c.spine.take (k + 1))[k]? = some sibs := by rw [List.getElem?_take_of_lt (by omega)]; exact hsp
  have hisk : ((c.indices.take (k + 1)).set k i)[k]? = some i := by
    rw [List.getElem?_set_self (by rw [List.length_take]; omega)]
  have hspj : ∀ j < k, (c.spine.take (k + 1))[j]? = c.spine[j]? := fun j hj => List.getElem?_take_of_lt (by omega)
  have hisj : ∀ j < k, ((c.indices.take (k + 1)).set k i)[j]? = c.indices[j]? := fun j hj => by
    rw [List.getElem?_set_ne (by omega), List.getElem?_take_of_lt (by omega)]
  refine ⟨⟨?_, Or.inl ⟨n, ⟨rfl, ?_, ?_, ?_, hm, ?_⟩, ?_⟩⟩, rfl⟩
  · intro j hj
    simp only [hsplen] at hj
    rcases Nat.lt_succ_iff_lt_or_eq.mp hj with hj | rfl
    · simp only [hspj j hj, hisj j hj]
      exact hl j (by omega)
    · exact ⟨hkh, sibs, i, hspk, hisk, (List.getElem?_eq_some_iff.mp hn).1, hok⟩
  · rw [hislen, hsplen]
  · exact List.ne_nil_of_length_pos (by rw [hsplen]; omega)
  · simp only [currentNode, hsplen, Nat.add_sub_cancel, hspk, hisk, Option.bind_eq_bind, Option.bind_some, hn]
  · simpa only [hsplen, Nat.add_sub_cancel] using hnok
  · simp only [hsplen, Nat.add_sub_cancel]
    rw [hpend, pending, hspk, hisk, pending_congr hspj hisj]
    rfl

/-- A step goes to the next stop, or stays put at the end, on the last row. -/
theorem step_next {s : Stop α} (h : At c (s :: ss)) :
    ∃ c' ok, c.step false = some (c', ok) ∧ (ok = true → At c' ss) ∧
      (ok = false → c' = c ∧ ss = [] ∧ c.leaf.isSome = true) := by
  obtain ⟨hl, ⟨n, ⟨hleaf, hlen, hne, hnode, hmax, hok⟩, hss⟩ | ⟨ks, i, ⟨hleaf, hsp, hlen, hidx, hkey⟩, hss⟩⟩ := h
  · -- on a node: descend
    have hpos : 0 < c.spine.length := List.length_pos_iff.mpr hne
    have hkh := (hl (c.spine.length - 1) (by omega)).1
    simp only [step, hleaf, hnode, Option.bind_some]
    generalize hh : c.height - (c.spine.length - 1) = h at hok hss
    cases h with
    | zero =>
      cases n with
      | internal ks cs => exact hok.elim
      | leaf ks =>
        have hlast : ks[ks.length - 1]? = some c.currentKey := by rw [← List.getLast?_eq_getElem?]; exact hmax
        have hks : ks.length - 1 < ks.length := (List.getElem?_eq_some_iff.mp hlast).1
        simp only [stepDown, hlast, Option.bind_eq_bind, Option.bind_some]
        refine ⟨_, true, rfl, fun _ => ⟨?_, Or.inr ⟨ks, ks.length - 1, ⟨rfl, ?_, ?_, ?_, hlast⟩, ?_⟩⟩, by simp⟩
        · refine LevelsOk.congr hl (fun k _ => rfl) fun k hk => ?_
          exact List.getElem?_append_left (by rw [hlen]; exact hk)
        · show c.spine.length = c.height + 1
          omega
        · show (c.indices ++ [ks.length - 1]).length = c.spine.length + 1
          rw [List.length_append, hlen]; rfl
        · show (c.indices ++ [ks.length - 1])[c.spine.length]? = some (ks.length - 1)
          rw [← hlen]; simp
        · rw [stops_leaf hmax, List.cons_append, List.cons.injEq] at hss
          rw [hss.2, List.take_of_length_le (by omega)]
          congr 1
          refine (pending_congr (fun k _ => rfl) fun k hk => ?_).symm
          exact List.getElem?_append_left (by rw [hlen]; exact hk)
    | succ h =>
      cases n with
      | leaf ks => exact hok.elim
      | internal ks cs =>
        obtain ⟨hcne, -, -, hcs⟩ := hok
        obtain ⟨d, hd⟩ : ∃ d, cs[cs.length - 1]? = some d := by
          have : 0 < cs.length := List.length_pos_iff.mpr (hcne rfl)
          exact ⟨_, List.getElem?_eq_getElem (by omega)⟩
        have hcl : cs.length - 1 < cs.length := (List.getElem?_eq_some_iff.mp hd).1
        have hdok := hcs d (List.mem_of_getElem? hd)
        obtain ⟨m, hm, -, -⟩ := hdok.exists_max
        simp only [stepDown, hd, Option.bind_eq_bind, Option.bind_some, hm]
        have hsp1 : (c.spine ++ [cs]).length = c.spine.length + 1 := by simp
        have hspk : (c.spine ++ [cs])[c.spine.length]? = some cs := by simp
        have hisk : (c.indices ++ [cs.length - 1])[c.spine.length]? = some (cs.length - 1) := by rw [← hlen]; simp
        have hspj : ∀ k < c.spine.length, (c.spine ++ [cs])[k]? = c.spine[k]? := fun k hk => List.getElem?_append_left hk
        have hisj : ∀ k < c.spine.length, (c.indices ++ [cs.length - 1])[k]? = c.indices[k]? := fun k hk =>
          List.getElem?_append_left (by rw [hlen]; exact hk)
        have hhn : c.height - c.spine.length = h := by omega
        refine ⟨_, true, rfl, fun _ => ⟨?_, Or.inl ⟨d, ⟨hleaf, ?_, ?_, ?_, hm, ?_⟩, ?_⟩⟩, by simp⟩
        · intro k hk
          simp only [hsp1] at hk
          rcases Nat.lt_succ_iff_lt_or_eq.mp hk with hk | rfl
          · simp only [hspj k hk, hisj k hk]
            exact hl k hk
          · exact ⟨by simp only; omega, cs, cs.length - 1, hspk, hisk, hcl, by simpa only [hhn] using hcs⟩
        · simp [hlen]
        · simp
        · simp only [currentNode, hsp1, Nat.add_sub_cancel, hspk, hisk, Option.bind_eq_bind, Option.bind_some, hd]
        · simpa only [hsp1, Nat.add_sub_cancel, hhn] using hdok
        · rw [stops_internal hmax, List.cons_append, List.cons.injEq] at hss
          simp only [hsp1, Nat.add_sub_cancel]
          rw [hss.2, pending, hspk, hisk, hhn, pending_congr hspj hisj, ← List.append_assoc]
          congr 1
          simp only [Option.getD_some]
          rw [← stopsAll_take_succ hd, List.take_of_length_le (by omega)]
  · -- in a leaf: the previous row, or out of the leaf
    have hlast : c.indices.length - 1 = c.spine.length := by omega
    simp only [step, hleaf, hlast, hidx, Option.some_inj]
    cases i with
    | zero =>
      have hss' : ss = pending c.height c.spine c.indices c.spine.length := by
        rw [List.take_add_one, hkey] at hss
        simp only [List.take_zero, Option.toList_some, List.nil_append, List.reverse_singleton, List.map_cons,
          List.map_nil, List.singleton_append, List.cons.injEq] at hss
        exact hss.2
      rw [if_pos rfl, hss']
      obtain ⟨c', ok, h1, h2, h3⟩ := stepNode_spec hl (by omega)
      exact ⟨c', ok, h1, fun h => (h2 h).1, fun h => ⟨(h3 h).1, (h3 h).2, rfl⟩⟩
    | succ i =>
      have hi : i + 1 < ks.length := (List.getElem?_eq_some_iff.mp hkey).1
      obtain ⟨key, hk⟩ : ∃ key, ks[i]? = some key := ⟨_, List.getElem?_eq_getElem (by omega)⟩
      rw [if_neg (by simp)]
      simp only [stepRow, hlast, hidx, Option.bind_eq_bind, Option.bind_some, keys, Nat.add_sub_cancel, hk]
      have hisj : ∀ k < c.spine.length, (c.indices.set c.spine.length i)[k]? = c.indices[k]? := fun k hk =>
        List.getElem?_set_ne (by omega)
      refine ⟨_, true, rfl, fun _ => ⟨?_, Or.inr ⟨ks, i, ⟨hleaf, hsp, ?_, ?_, hk⟩, ?_⟩⟩, by simp⟩
      · exact LevelsOk.congr hl (fun k _ => rfl) hisj
      · simpa using hlen
      · exact List.getElem?_set_self (by omega)
      · rw [List.take_add_one, hkey] at hss
        simp only [Option.toList_some, List.reverse_append, List.reverse_singleton, List.map_cons, List.cons_append,
          List.cons.injEq] at hss
        rw [hss.2]
        congr 1
        exact (pending_congr (fun k _ => rfl) hisj).symm

/-- A step past the node a cursor rests on skips that node's stops. -/
theorem step_past (h : At c ss) (hleaf : c.leaf = none) :
    ∃ n hn rest, c.currentNode = some n ∧ NodeOk hn false n ∧ (stopOf c).rank = hn + 1 ∧ ss = stops hn n ++ rest ∧
      ∃ c' ok, c.step true = some (c', ok) ∧ (ok = true → At c' rest ∧ c'.leaf = none) ∧
        (ok = false → c' = c ∧ rest = []) := by
  obtain ⟨hl, ⟨n, ⟨-, hlen, hne, hnode, hmax, hok⟩, hss⟩ | ⟨ks, i, ⟨hleaf', -⟩, -⟩⟩ := h
  · have hpos : 0 < c.spine.length := List.length_pos_iff.mpr hne
    have hkh := (hl (c.spine.length - 1) (by omega)).1
    refine ⟨n, c.height - (c.spine.length - 1), _, hnode, hok, ?_, hss, ?_⟩
    · show c.height + 2 - c.indices.length = _
      omega
    · simp only [step]
      exact stepNode_spec hl (by omega)
  · rw [hleaf] at hleaf'
    cases hleaf'

/-- A new cursor rests on the root, with the whole tree ahead. -/
theorem new_at {t : BTree α} {h : Nat} (hn : NodeOk h false t.root) :
    ∃ c, DiffCursor.new t = some c ∧ At c (stops h t.root) ∧ c.leaf = none := by
  obtain ⟨m, hm, -, -⟩ := hn.exists_max
  have hh := hn.height
  refine ⟨⟨t.root.height, [[t.root]], [0], none, m⟩, by simp [DiffCursor.new, hm], ⟨?_, Or.inl ⟨t.root, ?_, ?_⟩⟩, rfl⟩
  · intro k hk
    obtain rfl : k = 0 := by simpa using hk
    exact ⟨Nat.zero_le _, [t.root], 0, rfl, rfl, by simp, by simpa [hh] using hn⟩
  · exact ⟨rfl, rfl, by simp, rfl, hm, by simpa [hh] using hn⟩
  · simp [hh, pending]

end Rindle
