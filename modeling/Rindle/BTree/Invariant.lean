/-
  Rindle.BTree.Invariant — what a well-formed node is, and how a key finds its child.

  `NodeOk h e n`: every leaf lies `h` levels down, no node is overfull, no node below `n` is
  empty (`n` itself may be when `e`), and each separator is its child's maximum. Together
  with the rows being strictly sorted this is the invariant every operation keeps. The two
  parts are stated apart because an operation's effect on the rows is read off the sorted
  list (`SList.insert`, `SList.erase`), and only the shape needs an argument per level.
-/

import Rindle.BTree.Basic

namespace Rindle

open BNode

/-! ## Lists around an index -/

section
variable {β : Type}

variable (L : List β)

@[simp] theorem getElem?_mid (c : β) (R : List β) : (L ++ c :: R)[L.length]? = some c := by
  simp

@[simp] theorem set_mid (c d : β) (R : List β) : (L ++ c :: R).set L.length d = L ++ d :: R := by
  simp

theorem insertIdx_mid (d : β) (R : List β) : (L ++ R).insertIdx L.length d = L ++ d :: R := by
  induction L with
  | nil => simp
  | cons x L ih => simpa using ih

theorem insertIdx_mid_succ (c d : β) (R : List β) :
    (L ++ c :: R).insertIdx (L.length + 1) d = L ++ c :: d :: R := by
  have := insertIdx_mid (L ++ [c]) d R
  simpa using this

theorem drop_mid_succ (c : β) (R : List β) : (L ++ c :: R).drop (L.length + 1) = R := by
  induction L with
  | nil => simp
  | cons x L ih => simpa using ih

theorem eraseIdx_mid (c : β) (R : List β) : (L ++ c :: R).eraseIdx L.length = L ++ R := by
  induction L with
  | nil => simp
  | cons x L ih => simpa using ih

theorem eraseIdx_mid_succ (c d : β) (R : List β) :
    (L ++ c :: d :: R).eraseIdx (L.length + 1) = L ++ c :: R := by
  have := eraseIdx_mid (L ++ [c]) d R
  simpa using this

end

variable {α : Type}

namespace BNode

@[simp] theorem rows_leaf (ks : List α) : (BNode.leaf ks).rows = ks := by simp [rows]
@[simp] theorem rows_internal (ks : List α) (cs : List (BNode α)) : (BNode.internal ks cs).rows = rowsAll cs := by
  simp [rows]
@[simp] theorem rowsAll_nil : rowsAll ([] : List (BNode α)) = [] := by simp [rowsAll]
@[simp] theorem rowsAll_cons (c : BNode α) (cs : List (BNode α)) : rowsAll (c :: cs) = c.rows ++ rowsAll cs := by
  simp [rowsAll]
@[simp] theorem rowsAll_append (cs ds : List (BNode α)) : rowsAll (cs ++ ds) = rowsAll cs ++ rowsAll ds := by
  induction cs with
  | nil => simp
  | cons c cs ih => simp [ih]

variable {ks : List α} {cs : List (BNode α)}

theorem mem_rowsAll {x : α} : x ∈ rowsAll cs ↔ ∃ c ∈ cs, x ∈ c.rows := by
  induction cs with
  | nil => simp
  | cons c cs ih => simp [ih]

/-- Each separator is its child's maximum. -/
def Seps (ks : List α) (cs : List (BNode α)) : Prop := ks.map some = cs.map maxKey?

/-- A well-formed node of height `h`; `e` allows it to be empty. -/
def NodeOk : Nat → Bool → BNode α → Prop
  | 0, e, .leaf ks => (e = false → ks ≠ []) ∧ ks.length ≤ maxNodeSize
  | h + 1, e, .internal ks cs =>
    (e = false → cs ≠ []) ∧ cs.length ≤ maxNodeSize ∧ Seps ks cs ∧ ∀ c ∈ cs, NodeOk h false c
  | _, _, _ => False

theorem NodeOk.mayEmpty {h : Nat} {e : Bool} {n : BNode α} (hn : NodeOk h e n) : NodeOk h true n := by
  cases h <;> cases n <;> simp_all [NodeOk]

theorem NodeOk.height {h : Nat} : ∀ {n : BNode α}, NodeOk h false n → n.height = h := by
  induction h with
  | zero => intro n hn; cases n <;> simp_all [NodeOk, BNode.height]
  | succ h ih =>
    intro n hn
    cases n with
    | leaf ks => exact hn.elim
    | internal ks cs =>
      obtain ⟨hne, -, -, hcs⟩ := hn
      cases cs with
      | nil => exact absurd rfl (hne rfl)
      | cons c cs => simp only [BNode.height, ih (hcs c List.mem_cons_self)]

theorem Seps.length (h : Seps ks cs) : ks.length = cs.length := by
  have := congrArg List.length h
  simpa using this

theorem Seps.append {ks ls : List α} {cs ds : List (BNode α)} (h1 : Seps ks cs) (h2 : Seps ls ds) :
    Seps (ks ++ ls) (cs ++ ds) := by
  unfold Seps at *
  rw [List.map_append, List.map_append, h1, h2]

theorem Seps.take (h : Seps ks cs) (m : Nat) : Seps (ks.take m) (cs.take m) := by
  unfold Seps at *
  rw [List.map_take, List.map_take, h]

theorem Seps.drop (h : Seps ks cs) (m : Nat) : Seps (ks.drop m) (cs.drop m) := by
  unfold Seps at *
  rw [List.map_drop, List.map_drop, h]

/-- Separators split where the children do. -/
theorem Seps.split {L R : List (BNode α)} (h : Seps ks (L ++ R)) :
    ∃ KL KR, ks = KL ++ KR ∧ Seps KL L ∧ Seps KR R := by
  refine ⟨ks.take L.length, ks.drop L.length, (List.take_append_drop _ _).symm, ?_, ?_⟩
  · have := h.take L.length
    rwa [List.take_left] at this
  · have := h.drop L.length
    rwa [List.drop_left] at this

theorem Seps.cons {c : BNode α} (h : Seps ks (c :: cs)) :
    ∃ m ls, ks = m :: ls ∧ c.maxKey? = some m ∧ Seps ls cs := by
  cases ks with
  | nil => exact absurd h.length (by simp)
  | cons m ls =>
    simp only [Seps, List.map_cons, List.cons.injEq] at h
    exact ⟨m, ls, rfl, h.1.symm, h.2⟩

/-- The shape of a node's lists around the child at an index. -/
theorem Seps.around {L R : List (BNode α)} {c : BNode α} (h : Seps ks (L ++ c :: R)) :
    ∃ KL m KR, ks = KL ++ m :: KR ∧ KL.length = L.length ∧ Seps KL L ∧ c.maxKey? = some m ∧ Seps KR R := by
  obtain ⟨KL, K, rfl, hL, hK⟩ := h.split
  obtain ⟨m, KR, rfl, hm, hR⟩ := hK.cons
  exact ⟨KL, m, KR, rfl, hL.length, hL, hm, hR⟩

theorem seps_cons {m : α} {c : BNode α} (hm : c.maxKey? = some m)
    (h : Seps ks cs) : Seps (m :: ks) (c :: cs) := by
  unfold Seps at *
  rw [List.map_cons, List.map_cons, hm, h]

/-- A non-empty well-formed node has rows, and its maximum key is the last of them. -/
theorem maxKey?_eq {h : Nat} : ∀ {n : BNode α}, NodeOk h false n → n.rows ≠ [] ∧ n.maxKey? = n.rows.getLast? := by
  induction h with
  | zero =>
    intro n hn
    cases n with
    | leaf ks => exact ⟨by simpa using hn.1 rfl, by simp [maxKey?, keys]⟩
    | internal ks cs => exact hn.elim
  | succ h ih =>
    intro n hn
    cases n with
    | leaf ks => exact hn.elim
    | internal ks cs =>
      obtain ⟨hne, -, hs, hcs⟩ := hn
      obtain ⟨L, c, rfl⟩ := (List.eq_nil_or_concat cs).resolve_left (hne rfl)
      rw [List.concat_eq_append] at hs hcs ⊢
      obtain ⟨hr, hm⟩ := ih (hcs c (by simp))
      obtain ⟨KL, m, KR, rfl, -, -, hcm, hKR⟩ := Seps.around (R := []) hs
      have hnil : KR = [] := List.eq_nil_of_length_eq_zero (by simpa using hKR.length)
      subst hnil
      refine ⟨by simp [hr], ?_⟩
      simp only [rows_internal, rowsAll_append, rowsAll_cons, rowsAll_nil, List.append_nil]
      rw [List.getLast?_append_of_ne_nil _ hr, ← hm, hcm]
      simp [maxKey?, keys]

theorem NodeOk.exists_max {h : Nat} {n : BNode α} (hn : NodeOk h false n) :
    ∃ m, n.maxKey? = some m ∧ m ∈ n.rows ∧ n.rows.getLast? = some m := by
  obtain ⟨hr, hm⟩ := maxKey?_eq hn
  obtain ⟨m, hl⟩ : ∃ m, n.rows.getLast? = some m := by
    cases h' : n.rows.getLast? with
    | none => exact absurd (List.getLast?_eq_none_iff.mp h') hr
    | some m => exact ⟨m, rfl⟩
  exact ⟨m, hm.trans hl, List.mem_of_getLast? hl, hl⟩

end BNode

/-! ## The child a key belongs to -/

section
variable {cmp : α → α → Ordering}

theorem SList.Sorted.last {l : List α} (h : SList.Sorted cmp l) {m : α} (hm : l.getLast? = some m) :
    ∀ x ∈ l, x = m ∨ cmp x m = .lt := by
  intro x hx
  obtain ⟨l', rfl⟩ : ∃ l', l = l' ++ [m] := ⟨l.dropLast, by
    rw [List.getLast?_eq_some_iff] at hm
    obtain ⟨ys, rfl⟩ := hm
    simp⟩
  rcases List.mem_append.mp hx with hx | hx
  · exact Or.inr ((SList.sorted_append.mp h).2.2 x hx m (by simp))
  · exact Or.inl (by simpa using hx)

variable {cs : List (BNode α)}

/-- The children around a cut of the rows: `p` holds on an initial part of them, and the first
    separator at which it fails is that of the first child that is not wholly in that part. -/
theorem cut_split {p : α → Bool} (hp : ∀ a b, cmp a b = .lt → p b = true → p a = true) {h : Nat} {ks : List α}
    (hk : Seps ks cs) (hcs : ∀ c ∈ cs, NodeOk h false c) (hs : SList.Sorted cmp (rowsAll cs)) :
    ∃ L R, cs = L ++ R ∧ (∀ x ∈ rowsAll L, p x = true) ∧ bisect p ks = L.length ∧
      (R = [] ∨ ∃ c R' m, R = c :: R' ∧ c.rows.getLast? = some m ∧ p m = false ∧ ∀ x ∈ rowsAll R', cmp m x = .lt) := by
  have key : ∀ (cs : List (BNode α)), (∀ c ∈ cs, NodeOk h false c) → SList.Sorted cmp (rowsAll cs) →
      ∃ L R, cs = L ++ R ∧ (∀ x ∈ rowsAll L, p x = true) ∧
        (R = [] ∨ ∃ c R' m, R = c :: R' ∧ c.rows.getLast? = some m ∧ p m = false ∧ ∀ x ∈ rowsAll R', cmp m x = .lt) := by
    intro cs
    induction cs with
    | nil => intro _ _; exact ⟨[], [], rfl, by simp, Or.inl rfl⟩
    | cons c cs ih =>
      intro hcs hs
      obtain ⟨m, -, hmem, hlast⟩ := (hcs c List.mem_cons_self).exists_max
      rw [rowsAll_cons] at hs
      obtain ⟨hs1, hs2, hs3⟩ := SList.sorted_append.mp hs
      by_cases hm : p m = true
      · obtain ⟨L, R, rfl, hL, hR⟩ := ih (fun d hd => hcs d (List.mem_cons_of_mem _ hd)) hs2
        refine ⟨c :: L, R, rfl, fun x hx => ?_, hR⟩
        rw [rowsAll_cons, List.mem_append] at hx
        rcases hx with hx | hx
        · rcases hs1.last hlast x hx with rfl | hlt
          · exact hm
          · exact hp x m hlt hm
        · exact hL x hx
      · exact ⟨[], c :: cs, rfl, by simp, Or.inr ⟨c, cs, m, rfl, hlast, by simpa using hm, fun x hx => hs3 m hmem x hx⟩⟩
  obtain ⟨L, R, rfl, hL, hR⟩ := key cs hcs hs
  refine ⟨L, R, rfl, hL, ?_, hR⟩
  obtain ⟨KL, KR, rfl, hKL, hKR⟩ := hk.split
  have sepMem : ∀ {ks : List α} {cs : List (BNode α)}, Seps ks cs → ∀ x ∈ ks, ∃ c ∈ cs, c.maxKey? = some x := by
    intro ks cs hs x hx
    have : some x ∈ cs.map maxKey? := by rw [← hs]; exact List.mem_map_of_mem hx
    simpa using this
  rw [bisect_eq, hKL.length]
  · intro a ha
    obtain ⟨c, hc, hmax⟩ := sepMem hKL a ha
    obtain ⟨m, hm, hmem, -⟩ := (hcs c (List.mem_append_left _ hc)).exists_max
    rw [hmax, Option.some_inj] at hm
    subst hm
    exact hL a (mem_rowsAll.mpr ⟨c, hc, hmem⟩)
  · intro b hb
    obtain ⟨d, hd, hmax⟩ := sepMem hKR b hb
    obtain ⟨m, hm, hmem, hlast⟩ := (hcs d (List.mem_append_right _ hd)).exists_max
    rw [hmax, Option.some_inj] at hm
    subst hm
    rcases hR with rfl | ⟨c, R', m', rfl, hm', hn, hR'⟩
    · cases hd
    · rcases List.mem_cons.mp hd with rfl | hd
      · rw [hlast, Option.some_inj] at hm'
        subst hm'
        exact hn
      · cases hpb : p b with
        | false => rfl
        | true =>
          have := hp m' b (hR' b (mem_rowsAll.mpr ⟨d, hd, hmem⟩)) hpb
          rw [hn] at this
          cases this

variable [Std.TransCmp cmp]

/-- The children around a key: those to the left lie below it, those to the right of the first
    child that reaches it lie above it, and `lower_bound` is the boundary. -/
theorem child_split (k : α) {h : Nat} {ks : List α} (hk : Seps ks cs)
    (hcs : ∀ c ∈ cs, NodeOk h false c) (hs : SList.Sorted cmp (rowsAll cs)) :
    ∃ L R, cs = L ++ R ∧ (∀ x ∈ rowsAll L, cmp x k = .lt) ∧ lowerBound cmp ks k = L.length ∧
      (R = [] ∨ ∃ c R', R = c :: R' ∧ ∀ x ∈ rowsAll R', cmp x k = .gt) := by
  have hp : ∀ a b, cmp a b = .lt → (cmp b k == .lt) = true → (cmp a k == .lt) = true := by
    intro a b hab hb
    simp only [beq_iff_eq] at hb ⊢
    exact SList.lt_trans hab hb
  obtain ⟨L, R, rfl, hL, hlb, hR⟩ := cut_split hp hk hcs hs
  refine ⟨L, R, rfl, fun x hx => by simpa using hL x hx, hlb, ?_⟩
  rcases hR with rfl | ⟨c, R', m, rfl, -, hm, hR'⟩
  · exact Or.inl rfl
  · refine Or.inr ⟨c, R', rfl, fun x hx => SList.gt_iff_lt.mpr ?_⟩
    have hlt := hR' x hx
    cases hmk : cmp m k with
    | lt => rw [hmk] at hm; cases hm
    | eq => rw [← Std.TransCmp.congr_left hmk]; exact hlt
    | gt => exact SList.lt_trans (SList.gt_iff_lt.mp hmk) hlt

/-- Where an insertion descends: to the first child that reaches the key, or to the last. -/
theorem childIndex_split (k : α) {h : Nat} {ks : List α} (hk : Seps ks cs)
    (hcs : ∀ c ∈ cs, NodeOk h false c) (hs : SList.Sorted cmp (rowsAll cs)) (hne : cs ≠ []) :
    ∃ L c R, cs = L ++ c :: R ∧ childIndex cmp ks k = L.length ∧ (∀ x ∈ rowsAll L, cmp x k = .lt) ∧
      ∀ x ∈ rowsAll R, cmp x k = .gt := by
  obtain ⟨L, R, rfl, hL, hlb, hR⟩ := child_split k hk hcs hs
  unfold childIndex
  rw [hlb, hk.length]
  rcases hR with rfl | ⟨c, R', rfl, hR'⟩
  · obtain ⟨L', c, rfl⟩ := (List.eq_nil_or_concat L).resolve_left (by simpa using hne)
    rw [List.concat_eq_append] at *
    refine ⟨L', c, [], by simp, by simp, fun x hx => hL x (by simp [hx]), by simp⟩
  · refine ⟨L, c, R', rfl, ?_, hL, hR'⟩
    rw [if_neg (by simp)]

end

end Rindle
