/-
  Rindle.Normalized.Delivery — batches of several queries, delivered in any order.

  The server commits one version after the other; each commit gives each query one batch, with
  the images the rows have at that commit (`History`, `Streams`). The batches of one query
  arrive in order, those of different queries interleave at will.

  The shared row takes the cells of whichever batch came last (`Arrived`). A query that is
  behind writes its older image over a newer one; as long as it holds the row its next batches
  bring the row up to date, but when one of them lets the row go, what it wrote stays.

  - `delivered_iff`: once all is delivered, the rows are those of the last commit, whatever the
    order, exactly when each cell was last carried by a query that still holds the row, or has
    not changed since the commit it was carried from.
  - `stale_cell_stays`: two queries of one row, where this fails.
-/

import Mathlib.Data.Set.Insert
import Rindle.Normalized.Union

namespace Rindle.Normalized

variable {ν : Type}

/-! ## Histories -/

/-- The server's commits and what each gives to each query. -/
structure History (ν : Type) where
  commits : Nat
  /-- The rows of the base tables by key; 0 is before the first commit. -/
  image : Nat → Key ν → Option (WireRow ν)
  /-- The rows a query's result reads. -/
  member : QueryId → Nat → Set (Key ν)
  /-- The batch of the commit after `j`. -/
  batch : QueryId → Nat → List (NormalizedOp ν)

namespace History

open NormalizedSync

/-- The key an op brings a row under. -/
def written (s : NormalizedSync ν) (q : QueryId) : NormalizedOp ν → Option (Key ν)
  | .add table row => s.keyOf q table row
  | .remove _ _ => none
  | .edit table _ new => s.keyOf q table new

/-- A batch brings a row under the key. -/
def Writes (s : NormalizedSync ν) (q : QueryId) (ops : List (NormalizedOp ν)) (k : Key ν) : Prop := ∃ op ∈ ops, written s q op = some k

/-- The cell of a row at a commit. -/
def at? (H : History ν) (j : Nat) (k : Key ν) (i : Nat) : Option (WireValue ν) := (H.image j k).bind fun row => row[i]?

/-- A wire row of the query: its columns of the row under `k`, as of commit `j`. -/
structure Brings (H : History ν) (full : String → Nat) (s : NormalizedSync ν) (q : QueryId) (j : Nat) (table : String) (row : WireRow ν)
    (k : Key ν) : Prop where
  fits : s.RowFits full q table row
  key : s.keyOf q table row = some k
  cells : ∀ r, s.scatter q table row = .ok r → ∀ i v, cell r i = some v → H.at? j k i = some v

/-- An op takes the query from one set of rows to another, with the images of commit `j`. -/
inductive OpWalk (H : History ν) (full : String → Nat) (s : NormalizedSync ν) (q : QueryId) (j : Nat) :
    Set (Key ν) → NormalizedOp ν → Set (Key ν) → Prop
  | add {F : Set (Key ν)} {table : String} {row : WireRow ν} {k : Key ν} : H.Brings full s q j table row k → k ∉ F →
      OpWalk H full s q j F (.add table row) (insert k F)
  | remove {F : Set (Key ν)} {table : String} {row : WireRow ν} {k : Key ν} : s.RowFits full q table row → s.keyOf q table row = some k →
      k ∈ F → OpWalk H full s q j F (.remove table row) (F \ {k})
  | edit {F : Set (Key ν)} {table : String} {old new : WireRow ν} {k : Key ν} : H.Brings full s q j table new k → k ∈ F →
      OpWalk H full s q j F (.edit table old new) F

inductive Walk (H : History ν) (full : String → Nat) (s : NormalizedSync ν) (q : QueryId) (j : Nat) :
    Set (Key ν) → List (NormalizedOp ν) → Set (Key ν) → Prop
  | nil {F : Set (Key ν)} : Walk H full s q j F [] F
  | cons {F F' F'' : Set (Key ν)} {op : NormalizedOp ν} {ops : List (NormalizedOp ν)} : H.OpWalk full s q j F op F' →
      Walk H full s q j F' ops F'' → Walk H full s q j F (op :: ops) F''

/-- The queries' streams are projections of the history: each starts with no rows, each batch leads to the rows of its
    commit, and a row that stays and changes in the query's columns is brought again. -/
structure Streams (H : History ν) (full : String → Nat) (s : NormalizedSync ν) (qs : List QueryId) : Prop where
  start : ∀ q ∈ qs, H.member q 0 = ∅
  walk : ∀ q ∈ qs, ∀ j < H.commits, H.Walk full s q (j + 1) (H.member q j) (H.batch q j) (H.member q (j + 1))
  brought : ∀ q ∈ qs, ∀ j < H.commits, ∀ k ∈ H.member q j, k ∈ H.member q (j + 1) → ∀ i, s.Gives q k.1 i →
    H.at? j k i ≠ H.at? (j + 1) k i → Writes s q (H.batch q j) k

/-! ## Schedules -/

/-- Deliver the next batch of each query of the schedule in turn; `done` counts the batches delivered. -/
def deliver [DecidableEq ν] (H : History ν) : (QueryId → Nat) → NormalizedSync ν → List QueryId → Except String (NormalizedSync ν)
  | _, s, [] => .ok s
  | done, s, q :: rest => do
    let (s, _) ← s.applyBatch q (H.batch q (done q))
    H.deliver (Function.update done q (done q + 1)) s rest

/-- The last batch of a schedule that carries column `i` of the row under `k`: of query `q`, for the commit after `j`. -/
inductive Last (H : History ν) (s : NormalizedSync ν) (k : Key ν) (i : Nat) : List QueryId → QueryId → Nat → Prop
  | here {sched : List QueryId} {q : QueryId} : Writes s q (H.batch q (sched.count q)) k → s.Gives q k.1 i →
      Last H s k i (sched ++ [q]) q (sched.count q)
  | before {sched : List QueryId} {q q' : QueryId} {j : Nat} : Last H s k i sched q j →
      ¬(Writes s q' (H.batch q' (sched.count q')) k ∧ s.Gives q' k.1 i) → Last H s k i (sched ++ [q']) q j

/-- At the last commit some query that holds the row has the column. -/
def Shared (H : History ν) (s : NormalizedSync ν) (qs : List QueryId) (k : Key ν) (i : Nat) : Prop :=
  ∃ q ∈ qs, k ∈ H.member q H.commits ∧ s.Gives q k.1 i

open Classical in
/-- The rows of the last commit: those some query holds, with the columns of the queries that do. -/
noncomputable def final (H : History ν) (full : String → Nat) (s : NormalizedSync ν) (qs : List QueryId) : Contents ν := fun k =>
  if ∃ q ∈ qs, k ∈ H.member q H.commits then
    some ((List.range (full k.1)).map fun i => if H.Shared s qs k i then H.at? H.commits k i else none)
  else none

/-! ## One batch -/

variable {H : History ν} {full : String → Nat} {s0 s s' : NormalizedSync ν} {q : QueryId} {j i : Nat} {k : Key ν} {qs : List QueryId}
  {v : WireValue ν}

/-- The tables and projections of the start. -/
structure Same (s0 s : NormalizedSync ν) : Prop where
  pk : s.pkCols = s0.pkCols
  counts : s.colCounts = s0.colCounts
  cols : s.qcols = s0.qcols

theorem Same.step [DecidableEq ν] {muts : List (Mutation ν)} (h : Same s0 s) (hs : Step s s' muts) : Same s0 s' :=
  ⟨hs.pk.trans h.pk, hs.counts.trans h.counts, hs.cols.trans h.cols⟩

theorem Same.scatter (h : Same s0 s) (q : QueryId) (table : String) (row : WireRow ν) : s.scatter q table row = s0.scatter q table row := by
  rw [NormalizedSync.scatter, NormalizedSync.scatter, h.cols, h.counts]

theorem Same.keyOf (h : Same s0 s) (q : QueryId) (table : String) (row : WireRow ν) : s.keyOf q table row = s0.keyOf q table row := by
  have hkey : s.key table = s0.key table := by
    funext r
    rw [key, key, h.pk]
  rw [NormalizedSync.keyOf, NormalizedSync.keyOf, h.scatter, hkey]

theorem Same.rowFits (h : Same s0 s) {table : String} {row : WireRow ν} (hf : s0.RowFits full q table row) : s.RowFits full q table row := by
  obtain ⟨hk, hp, hc⟩ := hf
  exact ⟨h.pk ▸ hk, h.cols ▸ hp, h.cols ▸ hc⟩

variable [DecidableEq ν]

/-- Where each cell is from, within a batch of `q` for commit `j` whose ops so far brought the rows `W`. -/
def From (H : History ν) (s0 : NormalizedSync ν) (q : QueryId) (j : Nat) (old : Key ν → Nat → WireValue ν → Prop) (W : Set (Key ν))
    (s : NormalizedSync ν) : Prop :=
  ∀ k i v, s.value k i = some v → (k ∈ W ∧ s0.Gives q k.1 i ∧ H.at? j k i = some v) ∨ (¬(k ∈ W ∧ s0.Gives q k.1 i) ∧ old k i v)

omit [DecidableEq ν] in
theorem lt_of_value {p : QueryId} {dirty loose : List (Key ν)} (h : Inv full p dirty loose s) (hv : s.value k i = some v) : i < full k.1 := by
  obtain ⟨e, he, hcell⟩ := Option.bind_eq_some_iff.mp hv
  by_contra hge
  rw [cell_of_length_le (by rw [(h.entries k e he).length]; omega)] at hcell
  cases hcell

/-- A row is brought. -/
theorem From.wrote {old : Key ν → Nat → WireValue ν → Prop} {W : Set (Key ν)} {p : QueryId} {dirty loose : List (Key ν)} (hinv : Inv full p dirty loose s)
    (h : From H s0 q j old W s) (hsame : Same s0 s) {row : UnionRow ν} (hrow : s.Keyed full q k row)
    (hcells : ∀ i v, cell row i = some v → H.at? j k i = some v) (hw : Wrote s s' q k row) : From H s0 q j old (insert k W) s' := by
  intro k' i v hv
  rw [hw.value] at hv
  by_cases hk : k' = k
  · subst hk
    rw [if_pos rfl] at hv
    cases hc : cell row i with
    | some v' =>
      rw [hc] at hv
      obtain rfl := Option.some.inj hv
      have hlt : i < full k'.1 := by
        by_contra hge
        rw [cell_of_length_le (by rw [hrow.carries.length]; omega)] at hc
        cases hc
      have hg := (hrow.carries.cells i hlt).mp (by rw [hc]; rfl)
      exact Or.inl ⟨Set.mem_insert _ _, (gives_congr hsame.cols ..).mp hg, hcells i _ hc⟩
    | none =>
      rw [hc] at hv
      have hv : s.value k' i = some v := hv
      have hno : ¬s0.Gives q k'.1 i := by
        intro hg
        have hsome := (hrow.carries.cells i (lt_of_value hinv hv)).mpr ((gives_congr hsame.cols ..).mpr hg)
        rw [hc] at hsome
        cases hsome
      rcases h k' i v hv with ⟨-, hg, -⟩ | ⟨-, hold⟩
      · exact absurd hg hno
      · exact Or.inr ⟨fun hc => hno hc.2, hold⟩
  · rw [if_neg hk] at hv
    have hmem : k' ∈ insert k W ↔ k' ∈ W := by simp [hk]
    rw [hmem]
    exact h k' i v hv

omit [DecidableEq ν] in
theorem From.letGo {old : Key ν → Nat → WireValue ν → Prop} {W : Set (Key ν)} (h : From H s0 q j old W s) (hw : LetGo s s' q k) :
    From H s0 q j old W s' := by
  intro k' i v hv
  rcases hw.value k' i with heq | ⟨-, hnone⟩
  · exact h k' i v (heq ▸ hv)
  · rw [hnone] at hv
    cases hv

theorem op_spec {F F' : Set (Key ν)} {op : NormalizedOp ν} (hw : H.OpWalk full s0 q j F op F') {old : Key ν → Nat → WireValue ν → Prop}
    {W : Set (Key ν)} (hinv : Inv full q [] [] s) (hsame : Same s0 s) (hfoot : ∀ k, k ∈ s.foot q ↔ k ∈ F) (hfrom : From H s0 q j old W s) :
    ∃ s' muts, applyOp q s op = .ok (s', muts) ∧ Inv full q [] [] s' ∧ Same s0 s' ∧ (∀ k, k ∈ s'.foot q ↔ k ∈ F') ∧
      (∀ q' k, q' ≠ q → (k ∈ s'.foot q' ↔ k ∈ s.foot q')) ∧ From H s0 q j old (W ∪ {k | written s0 q op = some k}) s' := by
  have hmine : ∀ {table row k}, s0.keyOf q table row = some k → ∀ {k'}, s.keyOf q table row = some k' → k' = k := by
    intro table row k hk k' hk'
    rw [hsame.keyOf, hk] at hk'
    exact (Option.some.inj hk').symm
  cases hw with
  | @add table row k hb hout =>
    have hop : OpFits full q s (.add table row) :=
      ⟨hsame.rowFits hb.fits, fun k' hk' => by rw [hmine hb.key hk', hfoot]; exact hout⟩
    obtain ⟨s1, muts, hrun, hstep, h1, heff⟩ := applyOp_spec hinv hop
    cases heff with
    | @add _ _ r k' hr hk' _ hkeyed hwrote =>
      obtain rfl := hmine hb.key hk'
      have hset : W ∪ {k | written s0 q (.add table row) = some k} = insert k' W := by
        ext k
        simp [written, hb.key, eq_comm]
      refine ⟨s1, muts, hrun, h1, hsame.step hstep, ?_, ?_, ?_⟩
      · intro k
        rw [hwrote.foot, hfoot, Set.mem_insert_iff]
        simp [or_comm]
      · intro q' k hne
        rw [hwrote.foot]
        simp [hne]
      · rw [hset]
        exact hfrom.wrote hinv hsame hkeyed (hb.cells r ((hsame.scatter ..).symm.trans hr)) hwrote
  | @remove table row k hfits hkey hin =>
    have hop : OpFits full q s (.remove table row) :=
      ⟨hsame.rowFits hfits, fun k' hk' => by rw [hmine hkey hk', hfoot]; exact hin⟩
    obtain ⟨s1, muts, hrun, hstep, h1, heff⟩ := applyOp_spec hinv hop
    cases heff with
    | @remove _ _ k' hk' _ hgo =>
      obtain rfl := hmine hkey hk'
      have hset : W ∪ {k | written s0 q (.remove table row) = some k} = W := by
        ext k
        simp [written]
      refine ⟨s1, muts, hrun, h1, hsame.step hstep, ?_, ?_, ?_⟩
      · intro k
        rw [hgo.foot, hfoot, Set.mem_sdiff]
        simp
      · intro q' k hne
        rw [hgo.foot]
        simp [hne]
      · rw [hset]
        exact hfrom.letGo hgo
  | @edit table old new k hb hin =>
    have hop : OpFits full q s (.edit table old new) :=
      ⟨hsame.rowFits hb.fits, fun k' hk' => by rw [hmine hb.key hk', hfoot]; exact hin⟩
    obtain ⟨s1, muts, hrun, hstep, h1, heff⟩ := applyOp_spec hinv hop
    cases heff with
    | @edit _ _ _ r k' hr hk' _ hkeyed hwrote =>
      obtain rfl := hmine hb.key hk'
      have hset : W ∪ {k | written s0 q (.edit table old new) = some k} = insert k' W := by
        ext k
        simp [written, hb.key, eq_comm]
      refine ⟨s1, muts, hrun, h1, hsame.step hstep, ?_, ?_, ?_⟩
      · intro k
        rw [hwrote.foot, hfoot]
        constructor
        · rintro (hm | ⟨rfl, -⟩)
          · exact hm
          · exact hin
        · exact Or.inl
      · intro q' k hne
        rw [hwrote.foot]
        simp [hne]
      · rw [hset]
        exact hfrom.wrote hinv hsame hkeyed (hb.cells r ((hsame.scatter ..).symm.trans hr)) hwrote

/-- A whole batch. -/
theorem walk_spec {F F' : Set (Key ν)} {ops : List (NormalizedOp ν)} (hw : H.Walk full s0 q j F ops F')
    {old : Key ν → Nat → WireValue ν → Prop} : ∀ {s : NormalizedSync ν} {W : Set (Key ν)}, Inv full q [] [] s → Same s0 s →
      (∀ k, k ∈ s.foot q ↔ k ∈ F) → From H s0 q j old W s →
        ∃ s' muts, loop (applyOp q) s ops = .ok (s', muts) ∧ Inv full q [] [] s' ∧ Same s0 s' ∧ (∀ k, k ∈ s'.foot q ↔ k ∈ F') ∧
          (∀ q' k, q' ≠ q → (k ∈ s'.foot q' ↔ k ∈ s.foot q')) ∧ From H s0 q j old (W ∪ {k | Writes s0 q ops k}) s' := by
  induction hw with
  | nil =>
    intro s W hinv hsame hfoot hfrom
    have hnone : W ∪ {k | Writes s0 q ([] : List (NormalizedOp ν)) k} = W := by
      ext k
      simp [Writes]
    exact ⟨s, [], rfl, hinv, hsame, hfoot, fun _ _ _ => Iff.rfl, by rw [hnone]; exact hfrom⟩
  | @cons F F1 F' op ops hop _ ih =>
    intro s W hinv hsame hfoot hfrom
    obtain ⟨s1, muts, hrun, h1, hsame1, hfoot1, hothers1, hfrom1⟩ := op_spec hop hinv hsame hfoot hfrom
    obtain ⟨s2, more, hrest, h2, hsame2, hfoot2, hothers2, hfrom2⟩ := ih h1 hsame1 hfoot1 hfrom1
    have hset : W ∪ {k | Writes s0 q (op :: ops) k} = W ∪ {k | written s0 q op = some k} ∪ {k | Writes s0 q ops k} := by
      ext k
      simp [Writes, or_assoc]
    refine ⟨s2, muts ++ more, by simp [loop, hrun, bind, Except.bind, hrest], h2, hsame2, hfoot2, ?_, by rw [hset]; exact hfrom2⟩
    intro q' k hne
    rw [hothers2 q' k hne, hothers1 q' k hne]

/-! ## Whole schedules -/

/-- The state once the batches of a schedule have arrived: each query has the rows of its last commit, and each cell is
    from the last batch that carries it. -/
structure Arrived (H : History ν) (full : String → Nat) (s0 : NormalizedSync ν) (qs : List QueryId) (sched : List QueryId) (s : NormalizedSync ν) :
    Prop where
  inv : ∀ q, Inv full q [] [] s
  same : Same s0 s
  foot : ∀ q ∈ qs, ∀ k, k ∈ s.foot q ↔ k ∈ H.member q (sched.count q)
  others : ∀ q, q ∉ qs → ∀ k, k ∉ s.foot q
  value : ∀ k i v, s.value k i = some v → ∃ q j, H.Last s0 k i sched q j ∧ H.at? (j + 1) k i = some v

variable {sched rest : List QueryId}

theorem Arrived.next (h : H.Arrived full s0 qs sched s) (hs : H.Streams full s0 qs) (hq : q ∈ qs) (hlt : sched.count q < H.commits) :
    ∃ s' muts, s.applyBatch q (H.batch q (sched.count q)) = .ok (s', muts) ∧ H.Arrived full s0 qs (sched ++ [q]) s' := by
  obtain ⟨h0, -, hfoot0, hvalue0⟩ := setFoot_foot (h.inv q) q
  have hsame0 : Same s0 (s.setFoot q (s.foot q)) := ⟨h.same.pk, h.same.counts, h.same.cols⟩
  have hfrom : From H s0 q (sched.count q + 1) (fun k i v => ∃ q j, H.Last s0 k i sched q j ∧ H.at? (j + 1) k i = some v) ∅
      (s.setFoot q (s.foot q)) := by
    intro k i v hv
    rw [hvalue0] at hv
    exact Or.inr ⟨fun hc => hc.1, h.value k i v hv⟩
  have hfoot : ∀ k, k ∈ (s.setFoot q (s.foot q)).foot q ↔ k ∈ H.member q (sched.count q) := by
    intro k
    rw [hfoot0]
    exact h.foot q hq k
  obtain ⟨s', muts, hrun, h1, hsame1, hfoot1, hothers1, hfrom1⟩ := walk_spec (hs.walk q hq _ hlt) h0 hsame0 hfoot hfrom
  refine ⟨s', muts, hrun, fun q' => h1.settled q', hsame1, ?_, ?_, ?_⟩
  · intro q' hq' k
    by_cases hqq : q' = q
    · subst hqq
      rw [hfoot1, List.count_append, List.count_singleton_self]
    · rw [hothers1 q' k hqq, hfoot0, h.foot q' hq', List.count_append, List.count_singleton, if_neg (by simpa using Ne.symm hqq), Nat.add_zero]
  · intro q' hq' k
    have hqq : q' ≠ q := by
      rintro rfl
      exact hq' hq
    rw [hothers1 q' k hqq, hfoot0]
    exact h.others q' hq' k
  · intro k i v hv
    rcases hfrom1 k i v hv with ⟨hw, hg, hat⟩ | ⟨hno, q', j', hlast, hat⟩
    · have hw : Writes s0 q (H.batch q (sched.count q)) k := by simpa using hw
      exact ⟨q, sched.count q, .here hw hg, hat⟩
    · refine ⟨q', j', .before hlast ?_, hat⟩
      rintro ⟨hw, hg⟩
      exact hno ⟨by simpa using hw, hg⟩

theorem deliver_spec (hs : H.Streams full s0 qs) (rest : List QueryId) : ∀ {sched : List QueryId} {s : NormalizedSync ν},
    H.Arrived full s0 qs sched s → (∀ q ∈ rest, q ∈ qs) → (∀ q ∈ qs, (sched ++ rest).count q ≤ H.commits) →
      ∃ s', H.deliver (fun q => sched.count q) s rest = .ok s' ∧ H.Arrived full s0 qs (sched ++ rest) s' := by
  induction rest with
  | nil =>
    intro sched s h _ _
    exact ⟨s, rfl, by rw [List.append_nil]; exact h⟩
  | cons q rest ih =>
    intro sched s h hqs hle
    have hq := hqs q List.mem_cons_self
    have hlt : sched.count q < H.commits := by
      have := hle q hq
      rw [List.count_append, List.count_cons_self] at this
      omega
    obtain ⟨s1, muts, hrun, h1⟩ := h.next hs hq hlt
    have hsplit : sched ++ q :: rest = sched ++ [q] ++ rest := by simp
    rw [hsplit] at hle ⊢
    obtain ⟨s', hrest, h'⟩ := ih h1 (fun q' hq' => hqs q' (List.mem_cons_of_mem _ hq')) hle
    refine ⟨s', ?_, h'⟩
    have hdone : (fun q' => (sched ++ [q]).count q') = Function.update (fun q' => sched.count q') q (sched.count q + 1) := by
      funext q'
      by_cases hqq : q' = q
      · subst hqq
        simp
      · rw [Function.update_of_ne hqq, List.count_append, List.count_singleton, if_neg (by simpa using Ne.symm hqq), Nat.add_zero]
    rw [hdone] at hrest
    simp only [deliver, hrun, bind, Except.bind, hrest]

/-! ## The last batch that carries a cell -/

omit [DecidableEq ν] in
/-- After it, the query brings the row no more. -/
theorem Last.quiet (h : H.Last s0 k i sched q j) :
    s0.Gives q k.1 i ∧ j < sched.count q ∧ ∀ j', j < j' → j' < sched.count q → ¬Writes s0 q (H.batch q j') k := by
  induction h with
  | @here sched q hw hg =>
    rw [List.count_append, List.count_singleton_self]
    exact ⟨hg, by omega, fun j' h1 h2 => by omega⟩
  | @before sched q q' j _ hno ih =>
    obtain ⟨hg, hlt, hquiet⟩ := ih
    by_cases hqq : q' = q
    · subst hqq
      rw [List.count_append, List.count_singleton_self]
      refine ⟨hg, by omega, ?_⟩
      intro j' h1 h2 hw
      by_cases hlast : j' = sched.count q'
      · exact hno ⟨hlast ▸ hw, hg⟩
      · exact hquiet j' h1 (by omega) hw
    · rw [List.count_append, List.count_singleton, if_neg (by simpa using hqq), Nat.add_zero]
      exact ⟨hg, hlt, hquiet⟩

omit [DecidableEq ν] in
theorem Last.unique {q' : QueryId} {j' : Nat} (h : H.Last s0 k i sched q j) : H.Last s0 k i sched q' j' → q' = q ∧ j' = j := by
  induction h with
  | @here sched q hw hg =>
    intro h'
    generalize hl : sched ++ [q] = l at h'
    cases h' with
    | here =>
      obtain ⟨rfl, hq⟩ := List.append_inj' hl rfl
      obtain rfl := List.head_eq_of_cons_eq hq
      exact ⟨rfl, rfl⟩
    | before _ hno =>
      obtain ⟨rfl, hq⟩ := List.append_inj' hl rfl
      obtain rfl := List.head_eq_of_cons_eq hq
      exact absurd ⟨hw, hg⟩ hno
  | @before sched q q1 j hlast hno ih =>
    intro h'
    generalize hl : sched ++ [q1] = l at h'
    cases h' with
    | here hw hg =>
      obtain ⟨rfl, hq⟩ := List.append_inj' hl rfl
      obtain rfl := List.head_eq_of_cons_eq hq
      exact absurd ⟨hw, hg⟩ hno
    | before h1 =>
      obtain ⟨rfl, -⟩ := List.append_inj' hl rfl
      exact ih h1

omit [DecidableEq ν] in
/-- A row a batch does not bring was there before. -/
theorem Walk.mem {F F' : Set (Key ν)} {ops : List (NormalizedOp ν)} (hw : H.Walk full s0 q j F ops F') (hk : k ∈ F') (hno : ¬Writes s0 q ops k) :
    k ∈ F := by
  induction hw with
  | nil => exact hk
  | @cons F F1 F' op ops hop _ ih =>
    have hin : k ∈ F1 := by
      refine ih hk ?_
      rintro ⟨op', hop', hw⟩
      exact hno ⟨op', List.mem_cons_of_mem _ hop', hw⟩
    cases hop with
    | add hb _ =>
      rcases hin with rfl | hin
      · exact absurd ⟨_, List.mem_cons_self, hb.key⟩ hno
      · exact hin
    | remove _ _ _ => exact hin.1
    | edit _ _ => exact hin

omit [DecidableEq ν] in
/-- A row that a query holds at the last commit and has not brought since commit `j` is as it was then, in its columns. -/
theorem unchanged (hs : H.Streams full s0 qs) (hq : q ∈ qs) (hg : s0.Gives q k.1 i) {m n : Nat} (hle : m ≤ n) (hn : n ≤ H.commits)
    (hk : k ∈ H.member q n) (hquiet : ∀ j', m ≤ j' → j' < n → ¬Writes s0 q (H.batch q j') k) : H.at? m k i = H.at? n k i := by
  induction n with
  | zero => rw [Nat.le_zero.mp hle]
  | succ n ih =>
    by_cases hm : m = n + 1
    · rw [hm]
    · have hno := hquiet n (by omega) (by omega)
      have hin := (hs.walk q hq n (by omega)).mem hk hno
      rw [ih (by omega) (by omega) hin fun j' h1 h2 => hquiet j' h1 (by omega)]
      by_contra hne
      exact hno (hs.brought q hq n (by omega) k hin hk i hg hne)

/-! ## Once all is delivered -/

omit [DecidableEq ν] in
theorem row_eq_iff {row : UnionRow ν} {n : Nat} (hlen : row.length = n) (f : Nat → Option (WireValue ν)) :
    row = (List.range n).map f ↔ ∀ i < n, cell row i = f i := by
  constructor
  · rintro rfl i hi
    simp [cell, hi]
  · intro h
    refine List.ext_getElem (by simpa using hlen) ?_
    intro i h1 h2
    have hi := h i (by omega)
    rw [cell, List.getElem?_eq_getElem h1, Option.join_some] at hi
    simpa using hi

omit [DecidableEq ν] in
/-- What every query has arrived at. -/
theorem Arrived.held (h : H.Arrived full s0 qs sched s) (hall : ∀ q ∈ qs, sched.count q = H.commits) :
    k ∈ s.foot q ↔ q ∈ qs ∧ k ∈ H.member q H.commits := by
  by_cases hq : q ∈ qs
  · rw [h.foot q hq, hall q hq]
    exact ⟨fun hk => ⟨hq, hk⟩, fun hk => hk.2⟩
  · exact ⟨fun hk => absurd hk (h.others q hq k), fun hk => absurd hk.1 hq⟩

omit [DecidableEq ν] in
/-- A shared row has the columns of the queries that hold it at the last commit. -/
theorem Arrived.present (h : H.Arrived full s0 qs sched s) (hall : ∀ q ∈ qs, sched.count q = H.commits) (hi : i < full k.1) :
    (s.value k i).isSome = true ↔ H.Shared s0 qs k i := by
  have hinv := h.inv 0
  constructor
  · intro hsome
    obtain ⟨v, hv⟩ := Option.isSome_iff_exists.mp hsome
    obtain ⟨e, he, hcell⟩ := Option.bind_eq_some_iff.mp hv
    obtain ⟨q, hq, hg⟩ := (hinv.entries k e he).tight List.not_mem_nil i (by rw [hcell]; rfl)
    obtain ⟨hqs, hk⟩ := (h.held hall).mp ((hinv.refs k q).mpr ⟨e, he, hq⟩)
    exact ⟨q, hqs, hk, (gives_congr h.same.cols ..).mp hg⟩
  · rintro ⟨q, hqs, hk, hg⟩
    obtain ⟨e, he, hq⟩ := (hinv.refs k q).mp ((h.held hall).mpr ⟨hqs, hk⟩)
    have hsome := (hinv.entries k e he).lower q hq (fun hc => by cases hc) i hi ((gives_congr h.same.cols ..).mpr hg)
    rw [NormalizedSync.value, he, Option.bind_some]
    exact hsome

omit [DecidableEq ν] in
/-- The rows are those of the last commit when each cell is. -/
theorem Arrived.final_iff (h : H.Arrived full s0 qs sched s) (hall : ∀ q ∈ qs, sched.count q = H.commits) :
    s.contents = H.final full s0 qs ↔ ∀ k i, i < full k.1 → H.Shared s0 qs k i → s.value k i = H.at? H.commits k i := by
  have hinv := h.inv 0
  have hrow : ∀ k, s.contents k = H.final full s0 qs k ↔ ∀ i < full k.1, H.Shared s0 qs k i → s.value k i = H.at? H.commits k i := by
    intro k
    cases he : s.base k with
    | none =>
      have hnone : ¬∃ q ∈ qs, k ∈ H.member q H.commits := by
        rintro ⟨q, hq, hk⟩
        obtain ⟨e, he', -⟩ := (hinv.refs k q).mp ((h.held hall).mpr ⟨hq, hk⟩)
        rw [he] at he'
        cases he'
      rw [final, if_neg hnone, contents, he]
      refine iff_of_true rfl ?_
      rintro i _ ⟨q, hq, hk, -⟩
      exact absurd ⟨q, hq, hk⟩ hnone
    | some e =>
      have hok := hinv.entries k e he
      have hsome : ∃ q ∈ qs, k ∈ H.member q H.commits := by
        obtain ⟨q, hq⟩ := List.exists_mem_of_ne_nil _ hok.held
        obtain ⟨hqs, hk⟩ := (h.held hall).mp ((hinv.refs k q).mpr ⟨e, he, hq⟩)
        exact ⟨q, hqs, hk⟩
      have hvalue : ∀ i, s.value k i = cell e.row i := fun i => by rw [NormalizedSync.value, he, Option.bind_some]
      rw [final, if_pos hsome, contents, he, Option.map_some, Option.some.injEq, row_eq_iff hok.length]
      refine forall_congr' fun i => forall_congr' fun hi => ?_
      rw [hvalue]
      by_cases hsh : H.Shared s0 qs k i
      · rw [if_pos hsh]
        exact ⟨fun heq _ => heq, fun heq => heq hsh⟩
      · have hno : cell e.row i = none := by
          rw [← hvalue]
          exact Option.not_isSome_iff_eq_none.mp fun hc => hsh ((h.present hall hi).mp hc)
        rw [if_neg hsh]
        exact ⟨fun _ hc => absurd hc hsh, fun _ => hno⟩
  constructor
  · intro heq k
    exact (hrow k).mp (congrFun heq k)
  · intro hcells
    funext k
    exact (hrow k).mpr (hcells k)

theorem delivered_iff (hl : s0.Layout full) (hbase : ∀ k, s0.base k = none) (hfoot : ∀ q, s0.qfoot q = none) (hs : H.Streams full s0 qs)
    (hqs : ∀ q ∈ sched, q ∈ qs) (hall : ∀ q ∈ qs, sched.count q = H.commits) :
    ∃ s, H.deliver (fun _ => 0) s0 sched = .ok s ∧
      (s.contents = H.final full s0 qs ↔ ∀ k i q j, i < full k.1 → H.Shared s0 qs k i → H.Last s0 k i sched q j →
        k ∈ H.member q H.commits ∨ H.at? (j + 1) k i = H.at? H.commits k i) := by
  have h0 : H.Arrived full s0 qs [] s0 := by
    have hnone : ∀ q, s0.foot q = [] := fun q => by rw [foot, hfoot]; rfl
    refine ⟨fun q => ⟨hl, ?_, ?_⟩, ⟨rfl, rfl, rfl⟩, ?_, ?_, ?_⟩
    · intro k q
      simp [hnone, hbase]
    · intro k e he
      rw [hbase] at he
      cases he
    · intro q hq k
      rw [hnone, List.count_nil, hs.start q hq]
      simp
    · intro q _ k
      rw [hnone]
      exact List.not_mem_nil
    · intro k i v hv
      simp [NormalizedSync.value, hbase] at hv
  obtain ⟨s, hrun, h⟩ := deliver_spec hs sched h0 hqs fun q hq => (hall q hq).le
  rw [List.nil_append] at h
  refine ⟨s, hrun, (h.final_iff hall).trans ?_⟩
  constructor
  · intro hcells k i q j hi hsh hlast
    obtain ⟨v, hv⟩ := Option.isSome_iff_exists.mp ((h.present hall hi).mpr hsh)
    obtain ⟨q', j', hlast', hat⟩ := h.value k i v hv
    obtain ⟨rfl, rfl⟩ := hlast.unique hlast'
    right
    rw [hat, ← hv, hcells k i hi hsh]
  · intro hcond k i hi hsh
    obtain ⟨v, hv⟩ := Option.isSome_iff_exists.mp ((h.present hall hi).mpr hsh)
    obtain ⟨q, j, hlast, hat⟩ := h.value k i v hv
    rw [hv, ← hat]
    rcases hcond k i q j hi hsh hlast with hk | heq
    · obtain ⟨hg, hlt, hquiet⟩ := hlast.quiet
      have hq : q ∈ qs := by
        by_contra hno
        have : sched.count q = 0 := List.count_eq_zero.mpr fun hm => hno (hqs q hm)
        omega
      rw [hall q hq] at hlt hquiet
      exact unchanged hs hq hg hlt (Nat.le_refl _) hk fun j' h1 h2 => hquiet j' h1 h2
    · exact heq

/-- A row comes into two queries; then it is edited, and the second query lets it go. -/
def twoQueries : History Nat where
  commits := 2
  image j k := if k = ("t", [.num 7]) then (if j = 1 then some [.num 7, .str "a"] else if j = 2 then some [.num 7, .str "b"] else none) else none
  member q j := {k | k = ("t", [.num 7]) ∧ (j = 1 ∨ (q = 1 ∧ j = 2))}
  batch q j :=
    if j = 0 then [.add "t" [.num 7, .str "a"]]
    else if q = 1 then [.edit "t" [.num 7, .str "a"] [.num 7, .str "b"]]
    else [.remove "t" [.num 7, .str "a"]]

theorem brings_twoQueries {q j : Nat} {x : String} (hcell : twoQueries.image j ("t", [.num 7]) = some [.num 7, .str x]) :
    twoQueries.Brings (fun _ => 2) oneTable q j "t" [.num 7, .str x] ("t", [.num 7]) := by
  refine ⟨⟨rfl, fun _ => rfl, fun cols hc => by cases hc⟩, rfl, ?_⟩
  intro r hr i v hv
  obtain rfl : [some (.num 7), some (.str x)] = r := Except.ok.inj hr
  rw [at?, hcell, Option.bind_some]
  match i with
  | 0 => exact hv
  | 1 => exact hv
  | i + 2 => simp [cell] at hv

theorem streams_twoQueries : twoQueries.Streams (fun _ => 2) oneTable [1, 2] := by
  have hfirst : ∀ q, insert (("t", [.num 7]) : Key Nat) (twoQueries.member q 0) = twoQueries.member q 1 := by
    intro q
    ext k
    simp [twoQueries]
  refine ⟨?_, ?_, ?_⟩
  · intro q _
    ext k
    simp [twoQueries]
  · intro q hq j hj
    have hj : j = 0 ∨ j = 1 := by
      have : j < 2 := hj
      omega
    rcases hj with rfl | rfl
    · refine @Walk.cons _ _ _ _ _ _ _ (twoQueries.member q 1) _ _ _ ?_ .nil
      rw [← hfirst]
      exact .add (brings_twoQueries rfl) (by simp [twoQueries])
    have hq : q = 1 ∨ q = 2 := by simpa using hq
    rcases hq with rfl | rfl
    · have hstay : twoQueries.member 1 1 = twoQueries.member 1 2 := by
        ext k
        simp [twoQueries]
      refine @Walk.cons _ _ _ _ _ _ _ (twoQueries.member 1 2) _ _ _ ?_ .nil
      rw [← hstay]
      exact .edit (brings_twoQueries rfl) (by simp [twoQueries])
    · have hgone : twoQueries.member 2 1 \ {("t", [.num 7])} = twoQueries.member 2 2 := by
        ext k
        simp [twoQueries]
      refine @Walk.cons _ _ _ _ _ _ _ (twoQueries.member 2 2) _ _ _ ?_ .nil
      rw [← hgone]
      exact .remove ⟨rfl, fun _ => rfl, fun cols hc => by cases hc⟩ rfl (by simp [twoQueries])
  · intro q hq j hj k hk hk' i _ _
    obtain ⟨rfl, hj1⟩ := hk
    obtain ⟨-, hj2⟩ := hk'
    rcases hj2 with hj2 | ⟨rfl, hj2⟩
    · rcases hj1 with hj1 | ⟨-, hj1⟩
      · omega
      · omega
    · obtain rfl : j = 1 := by omega
      exact ⟨_, List.mem_singleton_self _, rfl⟩

/-- Delivered commit by commit, the row is as of the last. -/
theorem delivered_iff_in_order : ∃ s, twoQueries.deliver (fun _ => 0) oneTable [1, 2, 1, 2] = .ok s ∧
    s.contents = twoQueries.final (fun _ => 2) oneTable [1, 2] := by
  obtain ⟨s, hrun, hiff⟩ := @delivered_iff _ twoQueries _ _ [1, 2] _ [1, 2, 1, 2] (Reach.inv (oneTable_reach true) 0).layout (fun _ => rfl)
    (fun _ => rfl) streams_twoQueries (by decide) (by decide)
  refine ⟨s, hrun, hiff.mpr ?_⟩
  rintro k i q j hi ⟨q', -, ⟨rfl, -⟩, -⟩ hlast
  have hgives : ∀ q, oneTable.Gives q "t" i := fun q cols hc => by cases hc
  -- the second query's last batch carries nothing, the first's before it does
  have hfirst : twoQueries.Last oneTable ("t", [.num 7]) i [1, 2, 1, 2] 1 1 := by
    refine @Last.before _ _ _ _ _ [1, 2, 1] 1 2 1 ?_ ?_
    · exact @Last.here _ _ _ _ _ [1, 2] 1 ⟨_, List.mem_singleton_self _, rfl⟩ (hgives 1)
    · rintro ⟨⟨op, hop, hw⟩, -⟩
      obtain rfl := List.mem_singleton.mp (show op ∈ [NormalizedOp.remove "t" [.num 7, .str "a"]] from hop)
      cases hw
  obtain ⟨rfl, rfl⟩ := hfirst.unique hlast
  exact Or.inl ⟨rfl, Or.inr ⟨rfl, rfl⟩⟩

/-- The second query is behind: it writes its first image over the row's last, and lets the row go. -/
theorem stale_cell_stays : twoQueries.Streams (fun _ => 2) oneTable [1, 2] ∧ ∃ s s', twoQueries.deliver (fun _ => 0) oneTable [1, 2, 1, 2] = .ok s ∧
    twoQueries.deliver (fun _ => 0) oneTable [1, 1, 2, 2] = .ok s' ∧ twoQueries.at? 2 ("t", [.num 7]) 1 = some (.str "b") ∧
      s.value ("t", [.num 7]) 1 = some (.str "b") ∧ s'.value ("t", [.num 7]) 1 = some (.str "a") :=
  ⟨streams_twoQueries, _, _, rfl, rfl, rfl, rfl, rfl⟩

end History

end Rindle.Normalized
