/-
  Rindle.BTree.Delete — `node_delete` with its merge scan, on a well-formed node.

  Merging two siblings keeps a level of nodes well-formed and its rows as they are
  (`Level.Keeps`), and so does every turn of the scan that drops or merges a child. A
  deletion therefore changes the rows only in the leaf it reaches (`nodeDelete_spec`), also
  when the key is absent and siblings on its path are merged all the same.
-/

import Rindle.BTree.Insert

namespace Rindle

open BNode

variable {α : Type}

/-! ## Levels -/

/-- The separators and children of one node: children of height `h`, none empty. -/
def Level (h : Nat) (s : List α × List (BNode α)) : Prop := Seps s.1 s.2 ∧ ∀ c ∈ s.2, NodeOk h false c

/-- A step on a level that moves rows between children only. -/
def Level.Keeps (h : Nat) (s t : List α × List (BNode α)) : Prop :=
  Level h t ∧ rowsAll t.2 = rowsAll s.2 ∧ t.2.length ≤ s.2.length

theorem Level.Keeps.rfl {h : Nat} {s : List α × List (BNode α)} (hs : Level h s) : Level.Keeps h s s :=
  ⟨hs, Eq.refl _, Nat.le_refl _⟩

theorem Level.Keeps.trans {h : Nat} {s t u : List α × List (BNode α)} (h1 : Level.Keeps h s t)
    (h2 : Level.Keeps h t u) : Level.Keeps h s u :=
  ⟨h2.1, h2.2.1.trans h1.2.1, Nat.le_trans h2.2.2 h1.2.2⟩

/-- A node without rows is the one the merge scan drops. -/
theorem NodeOk.isEmptyNode_iff {h : Nat} {n : BNode α} (hn : NodeOk h true n) : n.isEmptyNode = true ↔ n.rows = [] := by
  cases h with
  | zero =>
    cases n with
    | leaf ks => simp [isEmptyNode]
    | internal ks cs => exact hn.elim
  | succ h =>
    cases n with
    | leaf ks => exact hn.elim
    | internal ks cs =>
      obtain ⟨-, -, -, hcs⟩ := hn
      cases cs with
      | nil => simp [isEmptyNode]
      | cons c cs =>
        have := (maxKey?_eq (hcs c List.mem_cons_self)).1
        simp [isEmptyNode, this]

theorem NodeOk.nonempty {h : Nat} {n : BNode α} (hn : NodeOk h true n) (hr : n.rows ≠ []) : NodeOk h false n := by
  have he : ¬ n.isEmptyNode = true := fun h' => hr ((NodeOk.isEmptyNode_iff hn).mp h')
  cases h <;> cases n <;> simp_all [NodeOk, isEmptyNode]

/-- A node with no rows has no keys either. -/
theorem NodeOk.keys_nil {h : Nat} {n : BNode α} (hn : NodeOk h true n) (hr : n.rows = []) : n.keys = [] := by
  have he := (NodeOk.isEmptyNode_iff hn).mpr hr
  cases h with
  | zero =>
    cases n with
    | leaf ks => simpa [isEmptyNode, keys] using he
    | internal ks cs => exact hn.elim
  | succ h =>
    cases n with
    | leaf ks => exact hn.elim
    | internal ks cs =>
      have hcs : cs = [] := by simpa [isEmptyNode] using he
      subst hcs
      exact List.eq_nil_of_length_eq_zero hn.2.2.1.length

/-! ## Merging siblings -/

/-- What merging two siblings of height `h` must give when they fit in one node. -/
def Merges (h : Nat) (merge : BNode α → BNode α → BNode α) : Prop :=
  ∀ l r : BNode α, NodeOk h false l → NodeOk h false r → l.keys.length + r.keys.length ≤ maxNodeSize →
    NodeOk h false (merge l r) ∧ (merge l r).rows = l.rows ++ r.rows

theorem tryMergeWith_keeps {h : Nat} {merge : BNode α → BNode α → BNode α} (hm : Merges h merge)
    {ks : List α} {cs : List (BNode α)} (hs : Level h (ks, cs)) (i : Nat) :
    Level.Keeps h (ks, cs) (tryMergeWith merge ks cs i) := by
  unfold tryMergeWith
  cases hl : cs[i]? with
  | none => exact Level.Keeps.rfl hs
  | some l =>
    cases hr : cs[i + 1]? with
    | none => exact Level.Keeps.rfl hs
    | some r =>
      simp only
      by_cases hfit : l.keys.length + r.keys.length ≤ maxNodeSize
      · obtain ⟨L, R, rfl, hi⟩ : ∃ L R, cs = L ++ l :: r :: R ∧ i = L.length := by
          obtain ⟨hi, hli⟩ := List.getElem?_eq_some_iff.mp hl
          obtain ⟨hi', hri⟩ := List.getElem?_eq_some_iff.mp hr
          refine ⟨cs.take i, cs.drop (i + 2), ?_, by rw [List.length_take]; omega⟩
          conv_lhs => rw [← List.take_append_drop i cs, List.drop_eq_getElem_cons hi, hli,
            List.drop_eq_getElem_cons hi', hri]
        subst hi
        obtain ⟨hk, hcs⟩ := hs
        simp only at hk hcs
        obtain ⟨KL, ml, K', rfl, hKl, hKL, hml, hK'⟩ := hk.around
        obtain ⟨mr, KR, rfl, hmr, hKR⟩ := hK'.cons
        obtain ⟨hn, hrows⟩ := hm l r (hcs l (by simp)) (hcs r (by simp)) hfit
        obtain ⟨m, hmax, -, -⟩ := hn.exists_max
        rw [if_pos hfit, eraseIdx_mid_succ, set_mid]
        have he : (KL ++ ml :: mr :: KR).eraseIdx (L.length + 1) = KL ++ ml :: KR := by
          rw [← hKl]; exact eraseIdx_mid_succ KL ml mr KR
        rw [he, refreshKey_around hKl hmax]
        refine ⟨⟨hKL.append (seps_cons hmax hKR), ?_⟩, ?_, by simp⟩
        · intro d hd
          rcases List.mem_append.mp hd with hd | hd
          · exact hcs d (by simp [hd])
          · rcases List.mem_cons.mp hd with rfl | hd
            · exact hn
            · exact hcs d (by simp [hd])
        · simp [hrows]
      · rw [if_neg hfit]
        exact Level.Keeps.rfl hs

theorem mergeInto_merges (h : Nat) : Merges (α := α) h (mergeInto h) := by
  induction h with
  | zero =>
    intro l r hl hr hfit
    cases l with
    | internal ks cs => exact hl.elim
    | leaf lk =>
      cases r with
      | internal ks cs => exact hr.elim
      | leaf rk =>
        refine ⟨⟨fun _ h0 => hl.1 rfl (List.append_eq_nil_iff.mp h0).1, by simpa [keys] using hfit⟩, by simp [mergeInto]⟩
  | succ h ih =>
    intro l r hl hr hfit
    cases l with
    | leaf ks => exact hl.elim
    | internal lk lc =>
      cases r with
      | leaf ks => exact hr.elim
      | internal rk rc =>
        obtain ⟨hlne, -, hlk, hlc⟩ := hl
        obtain ⟨-, -, hrk, hrc⟩ := hr
        have hlev : Level h (lk ++ rk, lc ++ rc) := by
          refine ⟨hlk.append hrk, fun c hc => ?_⟩
          rcases List.mem_append.mp hc with hc | hc
          · exact hlc c hc
          · exact hrc c hc
        obtain ⟨hlev', hrows, hlen⟩ := tryMergeWith_keeps ih hlev (lc.length - 1)
        rw [mergeInto]
        generalize tryMergeWith (mergeInto h) (lk ++ rk) (lc ++ rc) (lc.length - 1) = t at hlev' hrows hlen ⊢
        have hfit' : (lc ++ rc).length ≤ maxNodeSize := by
          rw [List.length_append, ← hlk.length, ← hrk.length]; exact hfit
        refine ⟨⟨fun _ h0 => ?_, Nat.le_trans hlen hfit', hlev'.1, hlev'.2⟩, ?_⟩
        · obtain ⟨c, lc', rfl⟩ := List.exists_cons_of_ne_nil (hlne rfl)
          have hne := (maxKey?_eq (hlc c List.mem_cons_self)).1
          rw [h0] at hrows
          simp [hne] at hrows
        · simpa using hrows

theorem tryMerge_keeps {h : Nat} {ks : List α} {cs : List (BNode α)} (hs : Level h (ks, cs)) (i : Nat) :
    Level.Keeps h (ks, cs) (tryMerge ks cs i) := by
  have heq : tryMerge ks cs i = tryMergeWith (mergeInto h) ks cs i := by
    unfold tryMerge tryMergeWith
    cases hl : cs[i]? with
    | none => rfl
    | some l =>
      have hh : l.height = h := (hs.2 l (List.mem_of_getElem? hl)).height
      cases cs[i + 1]? with
      | none => rfl
      | some r => simp only [hh]
  rw [heq]
  exact tryMergeWith_keeps (mergeInto_merges h) hs i

theorem mergeScan_keeps {h : Nat} {s : List α × List (BNode α)} (hs : Level h s) (j : Nat) :
    Level.Keeps h s (mergeScan s j) := by
  unfold mergeScan
  cases hc : s.2[j]? with
  | none => exact Level.Keeps.rfl hs
  | some c =>
    simp only
    have hok := hs.2 c (List.mem_of_getElem? hc)
    have hne : ¬ c.isEmptyNode = true := fun h' => (maxKey?_eq hok).1 ((NodeOk.isEmptyNode_iff hok.mayEmpty).mp h')
    by_cases hhalf : c.keys.length ≤ maxNodeSize / 2
    · rw [if_pos hhalf, if_neg hne]
      exact tryMerge_keeps hs j
    · rw [if_neg hhalf]
      exact Level.Keeps.rfl hs

/-- The scan on a level whose child at the index was just changed, and may be empty. -/
theorem mergeScans_keeps {h : Nat} {KL KR : List α} {m : α} {L R : List (BNode α)} {c : BNode α}
    (hL : Level h (KL, L)) (hR : Level h (KR, R)) (hc : NodeOk h true c) :
    let keys := if c.isEmptyNode then KL ++ m :: KR else refreshKey (KL ++ m :: KR) (L ++ c :: R) L.length
    let t := mergeScans keys (L ++ c :: R) L.length
    Level h t ∧ rowsAll t.2 = rowsAll (L ++ c :: R) ∧ t.2.length ≤ (L ++ c :: R).length := by
  have hKl : KL.length = L.length := hL.1.length
  by_cases hr : c.rows = []
  · have hdrop : mergeScan (KL ++ m :: KR, L ++ c :: R) L.length = (KL ++ KR, L ++ R) := by
      unfold mergeScan
      simp only [getElem?_mid, NodeOk.keys_nil hc hr, (NodeOk.isEmptyNode_iff hc).mpr hr, eraseIdx_mid,
        List.length_nil, Nat.zero_le, if_true]
      rw [← hKl, eraseIdx_mid]
    have hlev : Level h (KL ++ KR, L ++ R) := by
      refine ⟨hL.1.append hR.1, fun d hd => ?_⟩
      rcases List.mem_append.mp hd with hd | hd
      · exact hL.2 d hd
      · exact hR.2 d hd
    have hrows : rowsAll (L ++ R) = rowsAll (L ++ c :: R) := by simp [hr]
    simp only [(NodeOk.isEmptyNode_iff hc).mpr hr, if_true]
    unfold mergeScans
    by_cases h0 : L.length = 0
    · rw [if_pos h0]
      rw [h0] at hdrop
      rw [hdrop]
      exact ⟨hlev, hrows, by simp⟩
    · rw [if_neg h0, hdrop]
      obtain ⟨h1, h2, h3⟩ := mergeScan_keeps hlev (L.length - 1)
      refine ⟨h1, h2.trans hrows, Nat.le_trans h3 (by simp)⟩
  · have hok := NodeOk.nonempty hc hr
    obtain ⟨m', hm', -, -⟩ := hok.exists_max
    have hne : ¬ c.isEmptyNode = true := fun h' => hr ((NodeOk.isEmptyNode_iff hc).mp h')
    simp only [hne]
    have hlev : Level h (KL ++ m' :: KR, L ++ c :: R) := by
      refine ⟨hL.1.append (seps_cons hm' hR.1), fun d hd => ?_⟩
      rcases List.mem_append.mp hd with hd | hd
      · exact hL.2 d hd
      · rcases List.mem_cons.mp hd with rfl | hd
        · exact hok
        · exact hR.2 d hd
    rw [if_neg (by simp), refreshKey_around hKl hm']
    unfold mergeScans
    by_cases h0 : L.length = 0
    · rw [if_pos h0]
      exact mergeScan_keeps hlev 0
    · rw [if_neg h0]
      exact (mergeScan_keeps hlev L.length).trans (mergeScan_keeps (mergeScan_keeps hlev L.length).1 _)

/-! ## Deleting -/

section
variable {cmp : α → α → Ordering}

theorem deleteAt_eq (k : α) : ∀ (L : List (BNode α)) (c : BNode α) (R : List (BNode α)),
    deleteAt cmp k (L ++ c :: R) L.length = (L ++ (nodeDelete cmp k c).1 :: R, (nodeDelete cmp k c).2)
  | [], _, _ => by simp [deleteAt]
  | _ :: L, c, R => by simp [deleteAt, deleteAt_eq k L c R]

variable [Std.TransCmp cmp]

/-- What a deletion from a node must give. -/
def DeleteSpec (cmp : α → α → Ordering) (k : α) (h : Nat) (rows : List α) (res : BNode α × Bool) : Prop :=
  NodeOk h true res.1 ∧ res.1.rows = SList.erase cmp k rows ∧ res.2 = (SList.find cmp k rows).isSome

theorem leaf_delete (k : α) {e : Bool} {ks : List α} (hn : NodeOk 0 e (.leaf ks)) (hs : SList.Sorted cmp ks) :
    DeleteSpec cmp k 0 ks (nodeDelete cmp k (.leaf ks)) := by
  obtain ⟨-, hlen⟩ := hn
  obtain ⟨A, E, C, rfl, hA, hC, hE⟩ := SList.split3 k hs
  have hA' := fun a ha => ne_eq_of_lt (hA a ha)
  have hC' := fun c hc => ne_eq_of_gt (hC c hc)
  have hers := SList.erase_mid (B := E) hA' hC'
  have hf := SList.find_mid (B := E) hA' hC'
  rw [nodeDelete, search_eq hA hC hE]
  rcases hE with rfl | ⟨x, rfl, hx⟩
  · simp only [List.append_nil, if_true] at hers hf hlen ⊢
    refine ⟨⟨by simp, hlen⟩, ?_, ?_⟩
    · rw [rows_leaf, hers]; simp [SList.erase]
    · rw [hf]; rfl
  · simp only [List.cons_ne_self, if_false, List.append_assoc, List.singleton_append, eraseIdx_mid] at hers hf hlen ⊢
    refine ⟨⟨by simp, by simp at hlen ⊢; omega⟩, ?_, ?_⟩
    · rw [rows_leaf, hers]; simp [SList.erase, hx]
    · rw [hf]; simp [SList.find, hx]

theorem nodeDelete_spec (k : α) {h : Nat} : ∀ {e : Bool} {n : BNode α}, NodeOk h e n → SList.Sorted cmp n.rows →
    DeleteSpec cmp k h n.rows (nodeDelete cmp k n) := by
  induction h with
  | zero =>
    intro e n hn hs
    cases n with
    | internal ks cs => exact hn.elim
    | leaf ks => rw [rows_leaf] at hs ⊢; exact leaf_delete k hn hs
  | succ h ih =>
    intro e n hn hs
    cases n with
    | leaf ks => exact hn.elim
    | internal ks cs =>
      have hn' := hn.mayEmpty
      obtain ⟨-, hlen, hk, hcs⟩ := hn
      rw [rows_internal] at hs ⊢
      obtain ⟨L, R, rfl, hL, hlb, hR⟩ := child_split k hk hcs hs
      rw [nodeDelete, hlb]
      rcases hR with rfl | ⟨c, R', rfl, hR'⟩
      · -- the key lies past the last separator
        have hno : ∀ x ∈ rowsAll (L ++ []), cmp x k ≠ .eq := by
          intro x hx
          rw [List.append_nil] at hx
          exact ne_eq_of_lt (hL x hx)
        rw [if_pos (by simp)]
        refine ⟨hn', ?_, ?_⟩
        · rw [rows_internal, SList.erase_of_not_mem hno]
        · rw [SList.find_eq_none.mpr hno]; rfl
      · have hc := hcs c (by simp)
        obtain ⟨hok, hrows, hfound⟩ := ih hc (sorted_child hs)
        have hbelow := fun a ha => ne_eq_of_lt (hL a ha)
        have habove := fun a ha => ne_eq_of_gt (hR' a ha)
        have hers : SList.erase cmp k (rowsAll (L ++ c :: R')) =
            rowsAll L ++ SList.erase cmp k c.rows ++ rowsAll R' := by
          simp only [rowsAll_append, rowsAll_cons, ← List.append_assoc]
          exact SList.erase_mid hbelow habove
        have hfind : SList.find cmp k (rowsAll (L ++ c :: R')) = SList.find cmp k c.rows := by
          simp only [rowsAll_append, rowsAll_cons, ← List.append_assoc]
          exact SList.find_mid hbelow habove
        obtain ⟨KL, m, KR, rfl, hKl, hKL, -, hKR⟩ := hk.around
        rw [if_neg (by simp), deleteAt_eq]
        simp only [getElem?_mid, Option.any_some]
        obtain ⟨hlev, hrows', hlen'⟩ := mergeScans_keeps (m := m) (h := h) ⟨hKL, fun d hd => hcs d (by simp [hd])⟩
          ⟨hKR, fun d hd => hcs d (by simp [hd])⟩ hok
        refine ⟨⟨by simp, Nat.le_trans hlen' (by simpa using hlen), hlev.1, hlev.2⟩, ?_, ?_⟩
        · rw [rows_internal, hrows', hers, ← hrows]; simp
        · rw [hfound, hfind]

end

end Rindle
