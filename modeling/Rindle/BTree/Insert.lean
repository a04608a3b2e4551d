/-
  Rindle.BTree.Insert — `find` and `node_set` on a well-formed node.

  `nodeFind_eq`: a descent finds what the sorted list of rows holds. `nodeSet_spec`: an
  insertion is the sorted list's insertion, the result says whether the key was there, and
  the node, with the right half of a split, is well-formed at the same height.
-/

import Rindle.BTree.Invariant

namespace Rindle

open BNode

variable {α : Type} {cmp : α → α → Ordering} [Std.TransCmp cmp]

omit [Std.TransCmp cmp] in
theorem findAt_eq (k : α) : ∀ (L : List (BNode α)) (c : BNode α) (R : List (BNode α)),
    findAt cmp k (L ++ c :: R) L.length = nodeFind cmp k c
  | [], _, _ => by simp [findAt]
  | _ :: L, c, R => by simp [findAt, findAt_eq k L c R]

omit [Std.TransCmp cmp] in
theorem setAt_eq (k : α) : ∀ (L : List (BNode α)) (c : BNode α) (R : List (BNode α)),
    setAt cmp k (L ++ c :: R) L.length = (L ++ (nodeSet cmp k c).1 :: R, (nodeSet cmp k c).2)
  | [], _, _ => by simp [setAt]
  | _ :: L, c, R => by simp [setAt, setAt_eq k L c R]

/-! ## Finding -/

omit [Std.TransCmp cmp] in
theorem ne_eq_of_lt {a k : α} (h : cmp a k = .lt) : cmp a k ≠ .eq := by
  rw [h]; exact fun h => Ordering.noConfusion h

omit [Std.TransCmp cmp] in
theorem ne_eq_of_gt {a k : α} (h : cmp a k = .gt) : cmp a k ≠ .eq := by
  rw [h]; exact fun h => Ordering.noConfusion h

omit [Std.TransCmp cmp] in
theorem sorted_child {L R : List (BNode α)} {c : BNode α} (h : SList.Sorted cmp (rowsAll (L ++ c :: R))) : SList.Sorted cmp c.rows := by
  rw [rowsAll_append, rowsAll_cons] at h
  exact (SList.sorted_append.mp (SList.sorted_append.mp h).2.1).1

theorem nodeFind_eq (k : α) {h : Nat} : ∀ {e : Bool} {n : BNode α}, NodeOk h e n → SList.Sorted cmp n.rows →
    nodeFind cmp k n = SList.find cmp k n.rows := by
  induction h with
  | zero =>
    intro e n hn hs
    cases n with
    | internal ks cs => exact hn.elim
    | leaf ks =>
      rw [rows_leaf] at hs ⊢
      obtain ⟨A, E, C, rfl, hA, hC, hE⟩ := SList.split3 k hs
      have hf := SList.find_mid (B := E) (fun a ha => ne_eq_of_lt (hA a ha)) (fun c hc => ne_eq_of_gt (hC c hc))
      rw [nodeFind, search_eq hA hC hE, hf]
      rcases hE with rfl | ⟨x, rfl, hx⟩
      · rfl
      · simp [SList.find, hx]
  | succ h ih =>
    intro e n hn hs
    cases n with
    | leaf ks => exact hn.elim
    | internal ks cs =>
      obtain ⟨-, -, hk, hcs⟩ := hn
      rw [rows_internal] at hs ⊢
      rw [nodeFind]
      by_cases hne : cs = []
      · subst hne
        simp [SList.find]
      · rw [if_neg (by simpa using hne)]
        obtain ⟨L, c, R, rfl, hi, hL, hR⟩ := childIndex_split k hk hcs hs hne
        have hc := hcs c (by simp)
        rw [hi, findAt_eq, ih hc (sorted_child hs)]
        simp only [rowsAll_append, rowsAll_cons, ← List.append_assoc]
        exact (SList.find_mid (fun a ha => ne_eq_of_lt (hL a ha)) (fun c hc => ne_eq_of_gt (hR c hc))).symm

/-! ## Inserting -/

/-- What an insertion into a node must give. -/
def SetSpec (cmp : α → α → Ordering) (k : α) (h : Nat) (rows : List α) (res : BNode α × InsertResult α) : Prop :=
  match res.2 with
  | .existed => NodeOk h false res.1 ∧ res.1.rows = SList.insert cmp k rows ∧ (SList.find cmp k rows).isSome
  | .inserted => NodeOk h false res.1 ∧ res.1.rows = SList.insert cmp k rows ∧ SList.find cmp k rows = none
  | .split right =>
    NodeOk h false res.1 ∧ NodeOk h false right ∧ res.1.rows ++ right.rows = SList.insert cmp k rows ∧
      SList.find cmp k rows = none

/-- The halves of a node with one too many. -/
theorem halves {β : Type} {l : List β} (hover : l.length > maxNodeSize) (hlen : l.length ≤ maxNodeSize + 1) :
    (l.take (l.length / 2) ≠ [] ∧ (l.take (l.length / 2)).length ≤ maxNodeSize) ∧
      l.drop (l.length / 2) ≠ [] ∧ (l.drop (l.length / 2)).length ≤ maxNodeSize := by
  have h64 : maxNodeSize = 64 := rfl
  simp only [ne_eq, ← List.length_eq_zero_iff, List.length_take, List.length_drop]
  omega

theorem leaf_set (k : α) {e : Bool} {ks : List α} (hn : NodeOk 0 e (.leaf ks)) (hs : SList.Sorted cmp ks) :
    SetSpec cmp k 0 ks (nodeSet cmp k (.leaf ks)) := by
  obtain ⟨-, hlen⟩ := hn
  obtain ⟨A, E, C, rfl, hA, hC, hE⟩ := SList.split3 k hs
  have hins := SList.insert_mid (B := E) hA hC
  have hf := SList.find_mid (B := E) (fun a ha => ne_eq_of_lt (hA a ha)) (fun c hc => ne_eq_of_gt (hC c hc))
  rw [nodeSet, search_eq hA hC hE]
  rcases hE with rfl | ⟨x, rfl, hx⟩
  · simp only [List.append_nil, if_true] at hins hf hlen ⊢
    have hlen' : (A ++ k :: C).length ≤ maxNodeSize + 1 := by simp at hlen ⊢; omega
    rw [insertIdx_mid]
    by_cases hover : (A ++ k :: C).length > maxNodeSize
    · obtain ⟨hleft, hright⟩ := halves hover hlen'
      rw [if_pos hover]
      refine ⟨⟨fun _ => hleft.1, hleft.2⟩, ⟨fun _ => hright.1, hright.2⟩, ?_, hf⟩
      rw [rows_leaf, rows_leaf, List.take_append_drop, hins]; simp [SList.insert]
    · rw [if_neg hover]
      refine ⟨⟨fun _ => by simp, by omega⟩, ?_, hf⟩
      rw [rows_leaf, hins]; simp [SList.insert]
  · simp only [List.cons_ne_self, if_false, List.append_assoc, List.singleton_append, set_mid] at hins hf hlen ⊢
    refine ⟨⟨fun _ => by simp, by simpa using hlen⟩, ?_, ?_⟩
    · rw [rows_leaf, hins]; simp [SList.insert, hx]
    · rw [hf]; simp [SList.find, hx]

/-- Refreshing the separator of the child at an index. -/
theorem refreshKey_around {KL KR : List α} {m m' : α} {L R : List (BNode α)} {c : BNode α} (hl : KL.length = L.length)
    (hm : c.maxKey? = some m') : refreshKey (KL ++ m :: KR) (L ++ c :: R) L.length = KL ++ m' :: KR := by
  unfold refreshKey
  simp [hm, ← hl]

theorem nodeSet_spec (k : α) {h : Nat} : ∀ {e : Bool} {n : BNode α}, NodeOk h e n → (e = true → h = 0) →
    SList.Sorted cmp n.rows → SetSpec cmp k h n.rows (nodeSet cmp k n) := by
  induction h with
  | zero =>
    intro e n hn _ hs
    cases n with
    | internal ks cs => exact hn.elim
    | leaf ks => rw [rows_leaf] at hs ⊢; exact leaf_set k hn hs
  | succ h ih =>
    intro e n hn he hs
    cases n with
    | leaf ks => exact hn.elim
    | internal ks cs =>
      obtain ⟨hne, hlen, hk, hcs⟩ := hn
      have hne' : cs ≠ [] := hne (by cases e <;> simp_all)
      rw [rows_internal] at hs ⊢
      obtain ⟨L, c, R, rfl, hi, hL, hR⟩ := childIndex_split k hk hcs hs hne'
      obtain ⟨KL, m, KR, rfl, hKl, hKL, -, hKR⟩ := hk.around
      have hc := hcs c (by simp)
      have hcsL : ∀ d ∈ L, NodeOk h false d := fun d hd => hcs d (by simp [hd])
      have hcsR : ∀ d ∈ R, NodeOk h false d := fun d hd => hcs d (by simp [hd])
      have hins : SList.insert cmp k (rowsAll (L ++ c :: R)) =
          rowsAll L ++ SList.insert cmp k c.rows ++ rowsAll R := by
        simp only [rowsAll_append, rowsAll_cons, ← List.append_assoc]
        exact SList.insert_mid hL hR
      have hfind : SList.find cmp k (rowsAll (L ++ c :: R)) = SList.find cmp k c.rows := by
        simp only [rowsAll_append, rowsAll_cons, ← List.append_assoc]
        exact SList.find_mid (fun a ha => ne_eq_of_lt (hL a ha)) (fun c hc => ne_eq_of_gt (hR c hc))
      have hrec := ih hc (by simp) (sorted_child hs)
      rw [nodeSet, hi, setAt_eq]
      generalize hres : nodeSet cmp k c = res at hrec
      obtain ⟨c', r⟩ := res
      simp only
      have hc' : NodeOk h false c' := by
        cases r <;> simp only [SetSpec] at hrec <;> exact hrec.1
      obtain ⟨m', hm', -, -⟩ := hc'.exists_max
      rw [refreshKey_around hKl hm']
      have hkept : NodeOk (h + 1) false (.internal (KL ++ m' :: KR) (L ++ c' :: R)) :=
        ⟨fun _ => by simp, by simpa using hlen, hKL.append (seps_cons hm' hKR),
          List.forall_mem_append.mpr ⟨hcsL, List.forall_mem_cons.mpr ⟨hc', hcsR⟩⟩⟩
      cases r with
      | existed =>
        obtain ⟨-, hrows, hsome⟩ := hrec
        exact ⟨hkept, by rw [hins, ← hrows]; simp [graft], by rw [hfind]; exact hsome⟩
      | inserted =>
        obtain ⟨-, hrows, hnone⟩ := hrec
        exact ⟨hkept, by rw [hins, ← hrows]; simp [graft], by rw [hfind]; exact hnone⟩
      | split right =>
        obtain ⟨-, hr, hrows, hnone⟩ := hrec
        obtain ⟨rm, hrm, -, -⟩ := hr.exists_max
        have hall : ∀ d ∈ L ++ c' :: right :: R, NodeOk h false d :=
          List.forall_mem_append.mpr ⟨hcsL, List.forall_mem_cons.mpr ⟨hc', List.forall_mem_cons.mpr ⟨hr, hcsR⟩⟩⟩
        have hseps : Seps (KL ++ m' :: rm :: KR) (L ++ c' :: right :: R) :=
          hKL.append (seps_cons hm' (seps_cons hrm hKR))
        have hrows' : rowsAll (L ++ c' :: right :: R) = SList.insert cmp k (rowsAll (L ++ c :: R)) := by
          rw [hins, ← hrows]; simp
        have hlen' : (L ++ c' :: right :: R).length ≤ maxNodeSize + 1 := by simp at hlen ⊢; omega
        simp only [graft, refreshKey_around hKl hm', hrm, insertIdx_mid_succ]
        rw [← hKl, insertIdx_mid_succ]
        by_cases hover : (L ++ c' :: right :: R).length > maxNodeSize
        · obtain ⟨hleft, hright⟩ := halves hover hlen'
          rw [if_pos hover]
          refine ⟨⟨fun _ => hleft.1, hleft.2, hseps.take _, fun d hd => hall d (List.mem_of_mem_take hd)⟩,
            ⟨fun _ => hright.1, hright.2, hseps.drop _, fun d hd => hall d (List.mem_of_mem_drop hd)⟩, ?_, ?_⟩
          · rw [rows_internal, rows_internal, ← rowsAll_append, List.take_append_drop, hrows']
          · rw [hfind]; exact hnone
        · rw [if_neg hover]
          exact ⟨⟨fun _ => by simp, by omega, hseps, hall⟩, by rw [rows_internal, hrows'], by rw [hfind]; exact hnone⟩

end Rindle
