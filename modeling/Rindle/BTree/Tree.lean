/-
  Rindle.BTree.Tree — the tree as a finite map.

  `BTree.Valid` is the representation invariant. The empty tree and `from_sorted` establish
  it, `add` and `delete` keep it, and each operation is the operation of the same name on
  the sorted list of rows (`add_spec`, `delete_spec`, `get_eq`). The source's own checker
  accepts every valid tree (`Valid.checkInvariants`).
-/

import Rindle.BTree.Delete

namespace Rindle

open BNode

variable {α : Type} {cmp : α → α → Ordering}

namespace BTree

/-- The representation invariant. Only a leaf may be empty at the root. -/
structure Valid (cmp : α → α → Ordering) (t : BTree α) : Prop where
  shape : ∃ h, NodeOk h (h == 0) t.root
  sorted : SList.Sorted cmp t.rows
  size_eq : t.size = t.rows.length

theorem NodeOk.root {h : Nat} {n : BNode α} (hn : NodeOk h false n) : NodeOk h (h == 0) n := by
  cases h with
  | zero => exact hn.mayEmpty
  | succ h => exact hn

theorem valid_empty : Valid cmp (empty : BTree α) :=
  ⟨⟨0, by simp [empty, emptyLeaf, NodeOk]⟩, by simp [empty, emptyLeaf, rows, SList.Sorted], by simp [empty, emptyLeaf, rows]⟩

section
variable [Std.TransCmp cmp]

theorem get_eq {t : BTree α} (ht : t.Valid cmp) (k : α) : t.get cmp k = SList.find cmp k t.rows := by
  obtain ⟨h, hn⟩ := ht.shape
  exact nodeFind_eq k hn ht.sorted

theorem has_eq {t : BTree α} (ht : t.Valid cmp) (k : α) : t.has cmp k = (SList.find cmp k t.rows).isSome := by
  rw [has, get_eq ht]

/-- `add` inserts, overwriting, and says whether the key is new. -/
theorem add_spec {t : BTree α} (ht : t.Valid cmp) (k : α) :
    (t.add cmp k).1.Valid cmp ∧ (t.add cmp k).1.rows = SList.insert cmp k t.rows ∧
      (t.add cmp k).2 = (SList.find cmp k t.rows).isNone := by
  obtain ⟨h, hn⟩ := ht.shape
  have hset := nodeSet_spec k hn (by cases h <;> simp) ht.sorted
  have hsorted : SList.Sorted cmp (SList.insert cmp k t.root.rows) := SList.sorted_insert ht.sorted
  have hlen := SList.length_insert (k := k) ht.sorted
  have hsize := ht.size_eq
  unfold BTree.add BTree.rows at *
  generalize nodeSet cmp k t.root = res at hset ⊢
  obtain ⟨n, r⟩ := res
  cases r with
  | existed =>
    obtain ⟨hok, hrows, hsome⟩ := hset
    simp only [hsome, if_true] at hlen
    refine ⟨⟨⟨h, NodeOk.root hok⟩, ?_, ?_⟩, hrows, by simpa using hsome⟩
    · rw [BTree.rows, hrows]; exact hsorted
    · rw [BTree.rows, hrows, hlen]; exact hsize
  | inserted =>
    obtain ⟨hok, hrows, hnone⟩ := hset
    simp only [hnone] at hlen
    refine ⟨⟨⟨h, NodeOk.root hok⟩, ?_, ?_⟩, hrows, by rw [hnone]; rfl⟩
    · rw [BTree.rows, hrows]; exact hsorted
    · rw [BTree.rows, hrows, hlen, hsize]; rfl
  | split right =>
    obtain ⟨hl, hr, hrows, hnone⟩ := hset
    obtain ⟨lm, hlm, -, -⟩ := NodeOk.exists_max hl
    obtain ⟨rm, hrm, -, -⟩ := NodeOk.exists_max hr
    simp only [hnone] at hlen
    simp only at hlm hrm hrows hl hr ⊢
    refine ⟨⟨⟨h + 1, ?_⟩, ?_, ?_⟩, ?_, by rw [hnone]; rfl⟩
    · simp only [hlm, hrm, Option.toList_some, List.singleton_append]
      refine ⟨by simp, by simp [maxNodeSize], seps_cons hlm (seps_cons hrm rfl), fun c hc => ?_⟩
      rcases List.mem_cons.mp hc with rfl | hc
      · exact hl
      · rw [List.mem_singleton] at hc; subst hc; exact hr
    · simpa [BTree.rows, hrows] using hsorted
    · simp only [BTree.rows, rows_internal, rowsAll_cons, rowsAll_nil, List.append_nil, hrows, hlen, hsize]; rfl
    · simpa using hrows

theorem collapseRoot_ok {h : Nat} : ∀ {n : BNode α}, NodeOk h true n →
    (∃ h', NodeOk h' (h' == 0) (collapseRoot n)) ∧ (collapseRoot n).rows = n.rows := by
  induction h with
  | zero =>
    intro n hn
    cases n with
    | internal ks cs => exact hn.elim
    | leaf ks => exact ⟨⟨0, hn⟩, rfl⟩
  | succ h ih =>
    intro n hn
    cases n with
    | leaf ks => exact hn.elim
    | internal ks cs =>
      obtain ⟨-, hlen, hk, hcs⟩ := hn
      match cs, hlen, hk, hcs with
      | [], _, _, _ => exact ⟨⟨0, by simp [collapseRoot, emptyLeaf, NodeOk]⟩, by simp [collapseRoot, emptyLeaf]⟩
      | [c], _, _, hcs =>
        rw [collapseRoot]
        obtain ⟨h1, h2⟩ := ih (hcs c (by simp)).mayEmpty
        exact ⟨h1, by rw [h2]; simp⟩
      | c :: d :: cs, hlen, hk, hcs => exact ⟨⟨h + 1, ⟨by simp, hlen, hk, hcs⟩⟩, rfl⟩

/-- `delete` erases the key and says whether it was there. -/
theorem delete_spec {t : BTree α} (ht : t.Valid cmp) (k : α) :
    (t.delete cmp k).1.Valid cmp ∧ (t.delete cmp k).1.rows = SList.erase cmp k t.rows ∧
      (t.delete cmp k).2 = (SList.find cmp k t.rows).isSome := by
  obtain ⟨h, hn⟩ := ht.shape
  have hdel := nodeDelete_spec k hn ht.sorted
  have hsorted : SList.Sorted cmp (SList.erase cmp k t.root.rows) := SList.sorted_erase ht.sorted
  have hlen : (SList.erase cmp k t.root.rows).length + (if (SList.find cmp k t.root.rows).isSome then 1 else 0) =
      t.root.rows.length := SList.length_erase _
  have hsize := ht.size_eq
  unfold BTree.delete BTree.rows at *
  generalize nodeDelete cmp k t.root = res at hdel ⊢
  obtain ⟨n, removed⟩ := res
  obtain ⟨hok, hrows, hrem⟩ := hdel
  simp only at hok hrows hrem
  cases removed with
  | true =>
    obtain ⟨hshape, hcol⟩ := collapseRoot_ok hok
    rw [← hrem, if_pos rfl] at hlen
    refine ⟨⟨hshape, ?_, ?_⟩, hcol.trans hrows, hrem⟩
    · rw [BTree.rows, hcol, hrows]; exact hsorted
    · rw [BTree.rows, hcol, hrows]
      show t.size - 1 = _
      omega
  | false =>
    -- nothing removed: the rows are as before, so the node is empty only if it was
    have hsame : SList.erase cmp k t.root.rows = t.root.rows :=
      SList.erase_of_not_mem (SList.find_eq_none.mp (by simpa using hrem.symm))
    refine ⟨⟨⟨h, ?_⟩, ?_, ?_⟩, hrows, hrem⟩
    · cases h with
      | zero => exact hok
      | succ h => exact NodeOk.nonempty hok (by rw [hrows, hsame]; exact (maxKey?_eq hn).1)
    · rw [BTree.rows, hrows]; exact hsorted
    · rw [BTree.rows, hrows, hsame]; exact hsize

end

/-! ## Bulk load -/

section
variable {β : Type}

theorem chunksGo_flatten {n : Nat} (hn : 0 < n) : ∀ (f : Nat) (l : List β), l.length ≤ f → (chunksGo n f l).flatten = l
  | 0, l, h => by
    have : l = [] := List.eq_nil_of_length_eq_zero (by omega)
    subst this; rfl
  | f + 1, [], _ => rfl
  | f + 1, x :: xs, h => by
    have hd : ((x :: xs).drop n).length ≤ f := by rw [List.length_drop]; simp at h ⊢; omega
    rw [chunksGo, List.flatten_cons, chunksGo_flatten hn f _ hd, List.take_append_drop]

theorem chunksGo_mem {n : Nat} (hn : 0 < n) : ∀ (f : Nat) (l : List β), ∀ c ∈ chunksGo n f l, c ≠ [] ∧ c.length ≤ n
  | 0, l, c, h => by simp [chunksGo] at h
  | f + 1, [], c, h => by simp [chunksGo] at h
  | f + 1, x :: xs, c, h => by
    rw [chunksGo] at h
    rcases List.mem_cons.mp h with rfl | h
    · refine ⟨fun h0 => ?_, by rw [List.length_take]; omega⟩
      have := congrArg List.length h0
      rw [List.length_take] at this
      simp at this
      omega
    · exact chunksGo_mem hn f _ c h

theorem chunksGo_length {n : Nat} (hn : 2 ≤ n) : ∀ (f : Nat) (l : List β), 2 * (chunksGo n f l).length ≤ l.length + 1
  | 0, l => by simp [chunksGo]
  | f + 1, [] => by simp [chunksGo]
  | f + 1, x :: xs => by
    have ih := chunksGo_length hn f ((x :: xs).drop n)
    rw [List.length_drop] at ih
    rw [chunksGo, List.length_cons]
    by_cases hlt : n ≤ (x :: xs).length
    · omega
    · have hnil : (x :: xs).drop n = [] := List.drop_eq_nil_of_le (by omega)
      rw [hnil]
      cases f <;> simp [chunksGo]

theorem chunks_flatten {n : Nat} (hn : 0 < n) (l : List β) : (chunks n l).flatten = l :=
  chunksGo_flatten hn _ l (Nat.le_refl _)

end

/-- A level of a bulk load: well-formed nodes of one height that hold the rows. -/
def Loads (h : Nat) (rows : List α) (level : List (BNode α)) : Prop :=
  (∀ c ∈ level, NodeOk h false c) ∧ rowsAll level = rows

theorem filterMap_maxKey {h : Nat} {cs : List (BNode α)} (hcs : ∀ c ∈ cs, NodeOk h false c) :
    Seps (cs.filterMap maxKey?) cs := by
  induction cs with
  | nil => rfl
  | cons c cs ih =>
    obtain ⟨m, hm, -, -⟩ := (hcs c List.mem_cons_self).exists_max
    rw [List.filterMap_cons_some hm]
    exact seps_cons hm (ih fun d hd => hcs d (List.mem_cons_of_mem _ hd))

theorem rowsAll_internal (cs : List (List (BNode α))) (f : List (BNode α) → List α) :
    rowsAll (cs.map fun c => .internal (f c) c) = rowsAll cs.flatten := by
  induction cs with
  | nil => rfl
  | cons c cs ih => simp [ih]

theorem rowsAll_leaf (ls : List (List α)) : rowsAll (ls.map BNode.leaf) = ls.flatten := by
  induction ls with
  | nil => rfl
  | cons l ls ih => simp [ih]

theorem nextLevel_loads {h : Nat} {rows : List α} {level : List (BNode α)} (hl : Loads h rows level) :
    Loads (h + 1) rows (nextLevel level) := by
  have hpos : 0 < maxNodeSize := by decide
  refine ⟨fun n hn => ?_, ?_⟩
  · obtain ⟨c, hc, rfl⟩ := List.mem_map.mp hn
    obtain ⟨hne, hlen⟩ := chunksGo_mem hpos _ _ c hc
    have hsub : ∀ d ∈ c, NodeOk h false d := fun d hd =>
      hl.1 d (by rw [← chunks_flatten hpos level]; exact List.mem_flatten_of_mem hc hd)
    exact ⟨fun _ => hne, hlen, filterMap_maxKey hsub, hsub⟩
  · rw [nextLevel, rowsAll_internal, chunks_flatten hpos, hl.2]

theorem buildLevels_loads (f : Nat) : ∀ {h : Nat} {rows : List α} {level : List (BNode α)}, Loads h rows level →
    level.length ≤ f + 1 → ∃ h', Loads h' rows (buildLevels f level) ∧ (buildLevels f level).length ≤ 1 := by
  induction f with
  | zero => intro h rows level hl hlen; exact ⟨h, hl, hlen⟩
  | succ f ih =>
    intro h rows level hl hlen
    rw [buildLevels]
    by_cases hgt : level.length > 1
    · rw [if_pos hgt]
      have hshrink : 2 * (nextLevel level).length ≤ level.length + 1 := by
        rw [nextLevel, List.length_map]
        exact chunksGo_length (by decide) _ _
      exact ih (nextLevel_loads hl) (by omega)
    · rw [if_neg hgt]
      exact ⟨h, hl, by omega⟩

/-- `from_sorted` of a strictly sorted list is a valid tree with its rows. -/
theorem fromSorted_spec {l : List α} (hl : SList.Sorted cmp l) : (fromSorted l).Valid cmp ∧ (fromSorted l).rows = l := by
  unfold fromSorted
  by_cases hne : l = []
  · subst hne
    exact ⟨valid_empty, by simp [empty, emptyLeaf, rows]⟩
  rw [if_neg (by simpa using hne)]
  have hpos : 0 < maxNodeSize := by decide
  have hload : Loads 0 l ((chunks maxNodeSize l).map BNode.leaf) := by
    refine ⟨fun n hn => ?_, ?_⟩
    · obtain ⟨c, hc, rfl⟩ := List.mem_map.mp hn
      obtain ⟨h1, h2⟩ := chunksGo_mem hpos _ _ c hc
      exact ⟨fun _ => h1, h2⟩
    · rw [rowsAll_leaf, chunks_flatten hpos]
  obtain ⟨h, hload', hone⟩ := buildLevels_loads ((chunks maxNodeSize l).map BNode.leaf).length hload (by omega)
  simp only
  generalize buildLevels _ _ = top at hload' hone ⊢
  match top, hload', hone with
  | [], hload', _ => exact absurd hload'.2.symm hne
  | [n], hload', _ =>
    have hrows : n.rows = l := by simpa using hload'.2
    exact ⟨⟨⟨h, NodeOk.root (hload'.1 n (by simp))⟩, by simpa [rows, hrows] using hl, by simp [rows, hrows]⟩, hrows⟩

/-! ## The checker accepts every valid tree -/

section
variable [DecidableEq α]

omit [DecidableEq α] in
theorem strictlySorted_of : ∀ {l : List α}, SList.Sorted cmp l → strictlySorted cmp l = true
  | [], _ => rfl
  | [_], _ => rfl
  | x :: y :: l, h => by
    obtain ⟨h1, h2⟩ := SList.sorted_cons.mp h
    rw [strictlySorted, h1 y (by simp), strictlySorted_of h2]
    rfl

omit [DecidableEq α] in
/-- The separators of sorted children are sorted. -/
theorem sorted_seps {h : Nat} : ∀ {ks : List α} {cs : List (BNode α)}, Seps ks cs → (∀ c ∈ cs, NodeOk h false c) →
    SList.Sorted cmp (rowsAll cs) → SList.Sorted cmp ks ∧ ∀ k ∈ ks, k ∈ rowsAll cs
  | ks, [], hk, _, _ => by
    have : ks = [] := List.eq_nil_of_length_eq_zero hk.length
    subst this
    exact ⟨SList.sorted_nil, by simp⟩
  | ks, c :: cs, hk, hcs, hs => by
    obtain ⟨m, ls, rfl, hm, hls⟩ := hk.cons
    rw [rowsAll_cons] at hs
    obtain ⟨-, hs2, hs3⟩ := SList.sorted_append.mp hs
    obtain ⟨ih1, ih2⟩ := sorted_seps hls (fun d hd => hcs d (List.mem_cons_of_mem _ hd)) hs2
    obtain ⟨m', hm', hmem, -⟩ := (hcs c List.mem_cons_self).exists_max
    rw [hm, Option.some_inj] at hm'
    subst hm'
    refine ⟨SList.sorted_cons.mpr ⟨fun b hb => hs3 m hmem b (ih2 b hb), ih1⟩, fun k hk => ?_⟩
    rw [rowsAll_cons, List.mem_append]
    rcases List.mem_cons.mp hk with rfl | hk
    · exact Or.inl hmem
    · exact Or.inr (ih2 k hk)

/-- The loop over the children, given that each child passes. -/
theorem walkAll_ok {h : Nat} (hwalk : ∀ c : BNode α, NodeOk h false c → SList.Sorted cmp c.rows →
    walk cmp false c = .ok (h, c.rows.length)) :
    ∀ {ks : List α} {cs : List (BNode α)}, Seps ks cs → (∀ c ∈ cs, NodeOk h false c) → SList.Sorted cmp (rowsAll cs) →
    ∀ (i total : Nat) (depth : Option Nat), depth = none ∨ depth = some h →
      walkAll cmp ks cs i depth total = .ok (if cs = [] then depth else some h, total + (rowsAll cs).length)
  | ks, [], _, _, _, i, total, depth, _ => by simp [walkAll]
  | ks, c :: cs, hk, hcs, hs, i, total, depth, hd => by
    obtain ⟨m, ls, rfl, hm, hls⟩ := hk.cons
    rw [rowsAll_cons] at hs
    obtain ⟨hs1, hs2, -⟩ := SList.sorted_append.mp hs
    have ih := walkAll_ok hwalk hls (fun d hd => hcs d (List.mem_cons_of_mem _ hd)) hs2 (i + 1) (total + c.rows.length)
      (some h) (Or.inr rfl)
    have hfin : (if cs = [] then some h else some h) = some h := by split <;> rfl
    rw [hfin] at ih
    rw [walkAll, if_neg (by simp [hm]), hwalk c (hcs c List.mem_cons_self) hs1]
    rcases hd with rfl | rfl
    · simp only [List.tail_cons, ih, rowsAll_cons, List.length_append, Nat.add_assoc]
      simp
    · simp only [List.tail_cons, ih, rowsAll_cons, List.length_append, Nat.add_assoc]
      simp

theorem walk_ok {h : Nat} : ∀ {e isRoot : Bool} {n : BNode α}, NodeOk h e n → (e = true → isRoot = true ∧ h = 0) →
    SList.Sorted cmp n.rows → walk cmp isRoot n = .ok (h, n.rows.length) := by
  induction h with
  | zero =>
    intro e isRoot n hn he hs
    cases n with
    | internal ks cs => exact hn.elim
    | leaf ks =>
      obtain ⟨hne, hlen⟩ := hn
      rw [rows_leaf] at hs ⊢
      have h1 : ¬ (!isRoot && ks.isEmpty) = true := by
        cases e with
        | true => simp [(he rfl).1]
        | false => simp [hne rfl]
      rw [walk, if_neg h1, if_neg (by omega), if_neg (by simp [strictlySorted_of hs])]
  | succ h ih =>
    intro e isRoot n hn he hs
    cases n with
    | leaf ks => exact hn.elim
    | internal ks cs =>
      obtain ⟨hne, hlen, hk, hcs⟩ := hn
      have hne' : cs ≠ [] := by
        cases e with
        | true => exact absurd (he rfl).2 (by simp)
        | false => exact hne rfl
      rw [rows_internal] at hs ⊢
      rw [walk, if_neg (by simpa using hne'), if_neg (by simpa using hk.length), if_neg (by omega),
        walkAll_ok (fun c hc hsc => ih hc (by simp) hsc) hk hcs hs 0 0 none (Or.inl rfl)]
      simp [hne', strictlySorted_of (sorted_seps hk hcs hs).1]

theorem Valid.checkInvariants {t : BTree α} (ht : t.Valid cmp) : t.checkInvariants cmp = .ok () := by
  obtain ⟨h, hn⟩ := ht.shape
  rw [BTree.checkInvariants, walk_ok hn (by cases h <;> simp) ht.sorted]
  have hsize := ht.size_eq
  rw [BTree.rows] at hsize
  simp [hsize]

end

end BTree

end Rindle
