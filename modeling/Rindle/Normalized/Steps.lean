/-
  Rindle.Normalized.Steps — what each operation on the shared rows does.

  `Inv` says who references which row and which columns it has. It is kept with two lists of
  exceptions, for the time between a query's new projection and its re-hydration: of the rows
  in `dirty` the query `p` need not have brought its columns yet, and the rows in `loose` may
  have columns nobody contributes. Each operation on a key settles that key, and what it pushed
  takes the local database from the old rows to the new (`Step`).
-/

import Rindle.Normalized.Sync

set_option linter.dupNamespace false

namespace Rindle.Normalized

variable {ν : Type}

/-! ## Cells -/

@[simp] theorem length_merged (row incoming : UnionRow ν) : (merged row incoming).length = row.length := by
  simp [merged]

@[simp] theorem length_narrowed (row : UnionRow ν) (present : List Int) : (narrowed row present).length = row.length := by
  simp [narrowed]

theorem cell_of_length_le {row : UnionRow ν} {i : Nat} (h : row.length ≤ i) : cell row i = none := by
  simp [cell, List.getElem?_eq_none h]

theorem cell_merged {row incoming : UnionRow ν} {i : Nat} (h : i < row.length) :
    cell (merged row incoming) i = (cell incoming i).or (cell row i) := by
  simp [cell, merged, List.getElem?_mapIdx, List.getElem?_eq_getElem h]

theorem cell_narrowed (row : UnionRow ν) (present : List Int) (i : Nat) :
    cell (narrowed row present) i = if (i : Int) ∈ present then cell row i else none := by
  simp only [cell, narrowed, List.getElem?_mapIdx]
  cases row[i]? with
  | none => simp
  | some c => simp

theorem length_place (cols : List Int) : ∀ (row : WireRow ν) (out : UnionRow ν), (place cols row out).length = out.length := by
  induction cols with
  | nil => exact fun _ _ => rfl
  | cons c cols ih =>
    intro row out
    rw [place, ih]
    split
    · exact List.length_set
    · rfl

/-- A cell is set by the loop of `scatter` exactly when its column is named. -/
theorem cell_place (cols : List Int) : ∀ {row : WireRow ν} {out : UnionRow ν} {i : Nat}, row.length = cols.length → i < out.length →
    ((cell (place cols row out) i).isSome = true ↔ (i : Int) ∈ cols ∨ (cell out i).isSome = true) := by
  induction cols with
  | nil =>
    intro row out i _ _
    simp [place]
  | cons c cols ih =>
    intro row out i hlen hi
    cases row with
    | nil => cases hlen
    | cons v row =>
      rw [place, List.tail_cons, List.head?_cons, ih (by simpa using hlen) (by split <;> simpa using hi), List.mem_cons]
      by_cases hc : 0 ≤ c
      · rw [if_pos hc]
        by_cases hci : c.toNat = i
        · have : (i : Int) = c := by omega
          simp [cell, hci, hi, this]
        · have : (i : Int) ≠ c := by omega
          simp [cell, hci, this]
      · have : (i : Int) ≠ c := by omega
        simp [hc, this]

/-- The primary-key cells of a merge are those of the incoming row, when it has them. -/
theorem keyCells_merged {pk : List Nat} {row incoming : UnionRow ν} (h : ∀ c ∈ pk, c < row.length ∧ (cell incoming c).isSome = true) :
    keyCells pk (merged row incoming) = keyCells pk incoming := by
  refine List.map_congr_left ?_
  intro c hc
  obtain ⟨hlt, hsome⟩ := h c hc
  obtain ⟨v, hv⟩ := Option.isSome_iff_exists.mp hsome
  rw [cell_merged hlt, hv]
  rfl

theorem keyCells_narrowed {pk : List Nat} {row : UnionRow ν} {present : List Int} (h : ∀ c ∈ pk, (c : Int) ∈ present) :
    keyCells pk (narrowed row present) = keyCells pk row := by
  refine List.map_congr_left ?_
  intro c hc
  rw [cell_narrowed, if_pos (h c hc)]

/-! ## Projections -/

namespace NormalizedSync

variable {s s' s'' : NormalizedSync ν} {full : String → Nat} {p q : QueryId} {table : String}

/-- A query's projection of a table has a column; without a projection it has them all. -/
def Gives (s : NormalizedSync ν) (q : QueryId) (table : String) (i : Nat) : Prop := ∀ cols, s.qcols q table = some cols → (i : Int) ∈ cols

/-- A column list for a table: base columns or negative, the primary key among them. -/
structure ColsFit (s : NormalizedSync ν) (full : String → Nat) (table : String) (cols : List Int) : Prop where
  width : s.colCounts table = some (full table)
  range : ∀ c ∈ cols, c < full table
  key : ∀ pk, s.pkCols table = some pk → ∀ c ∈ pk, (c : Int) ∈ cols

/-- The tables are `full` wide, and the projections are of them. -/
structure Layout (s : NormalizedSync ν) (full : String → Nat) : Prop where
  schema : ∀ t pk, s.pkCols t = some pk → ∀ c ∈ pk, c < full t
  projects : ∀ q t cols, s.qcols q t = some cols → s.ColsFit full t cols

/-- A wire row as the query's projection has it. -/
structure RowFits (s : NormalizedSync ν) (full : String → Nat) (q : QueryId) (table : String) (row : WireRow ν) : Prop where
  known : (s.pkCols table).isSome = true
  plain : s.qcols q table = none → row.length = full table
  projected : ∀ cols, s.qcols q table = some cols → row.length = cols.length

/-- A row in the table's layout with the columns of one query. -/
structure Carries (s : NormalizedSync ν) (full : String → Nat) (q : QueryId) (table : String) (row : UnionRow ν) : Prop where
  length : row.length = full table
  cells : ∀ i < full table, ((cell row i).isSome = true ↔ s.Gives q table i)

theorem scatter_spec (hl : s.Layout full) {row : WireRow ν} (h : s.RowFits full q table row) :
    ∃ r, s.scatter q table row = .ok r ∧ s.Carries full q table r := by
  cases hc : s.qcols q table with
  | none =>
    have hlen := h.plain hc
    refine ⟨row.map some, by simp [scatter, hc], by simpa using hlen, ?_⟩
    intro i hi
    have hi : i < row.length := by omega
    simp [cell, List.getElem?_eq_getElem hi, Gives, hc]
  | some cols =>
    have hw := (hl.projects q table cols hc).width
    refine ⟨place cols row (List.replicate (full table) none), by simp [scatter, hc, hw], by simp [length_place], ?_⟩
    intro i hi
    rw [cell_place cols (h.projected cols hc) (by simpa using hi)]
    simp [cell, hi, Gives, hc]

theorem key_spec {pk : List Nat} (h : s.pkCols table = some pk) (row : UnionRow ν) : s.key table row = .ok (table, keyCells pk row) := by
  simp [key, h]

/-- Every query has the primary key's columns. -/
theorem Layout.gives_key (hl : s.Layout full) {pk : List Nat} (h : s.pkCols table = some pk) {c : Nat} (hc : c ∈ pk) (q : QueryId) :
    s.Gives q table c := fun cols hcols => (hl.projects q table cols hcols).key pk h c hc

theorem presentCols_none {queries : List QueryId} (h : s.presentCols table queries = none) : ∃ q ∈ queries, s.qcols q table = none := by
  induction queries with
  | nil => cases h
  | cons q queries ih =>
    rw [presentCols] at h
    split at h
    · rename_i hq
      exact ⟨q, List.mem_cons_self, hq⟩
    · obtain ⟨q', hq', hnone⟩ := ih (Option.map_eq_none_iff.mp h)
      exact ⟨q', List.mem_cons_of_mem _ hq', hnone⟩

theorem mem_presentCols {queries : List QueryId} {i : Nat} : ∀ {present : List Int}, s.presentCols table queries = some present →
    ((i : Int) ∈ present ↔ ∃ q ∈ queries, s.Gives q table i) := by
  induction queries with
  | nil =>
    intro present h
    rw [← Option.some.inj h]
    simp
  | cons q queries ih =>
    intro present h
    rw [presentCols] at h
    split at h
    · cases h
    · rename_i cols hcols
      obtain ⟨out, hout, rfl⟩ := Option.map_eq_some_iff.mp h
      simp [ih hout, Gives, hcols]

/-! ## The invariant -/

/-- A shared row under its key. -/
structure EntryOk (s : NormalizedSync ν) (full : String → Nat) (p : QueryId) (dirty loose : Prop) (k : Key ν) (e : BaseEntry ν) : Prop where
  held : e.queries ≠ []
  table : e.table = k.1
  keyed : ∃ pk, s.pkCols k.1 = some pk ∧ keyCells pk e.row = k.2
  length : e.row.length = full k.1
  lower : ∀ q ∈ e.queries, (dirty → q ≠ p) → ∀ i < full k.1, s.Gives q k.1 i → (cell e.row i).isSome = true
  tight : ¬loose → ∀ i, (cell e.row i).isSome = true → ∃ q ∈ e.queries, s.Gives q k.1 i

/-- The state between two operations; `p` owes its columns to the rows in `dirty`, and those in `loose` may have more. -/
structure Inv (full : String → Nat) (p : QueryId) (dirty loose : List (Key ν)) (s : NormalizedSync ν) : Prop where
  layout : s.Layout full
  refs : ∀ k q, k ∈ s.foot q ↔ ∃ e, s.base k = some e ∧ q ∈ e.queries
  entries : ∀ k e, s.base k = some e → s.EntryOk full p (k ∈ dirty) (k ∈ loose) k e

variable {dirty loose : List (Key ν)} {k : Key ν} {e : BaseEntry ν}

theorem gives_congr (hcols : s'.qcols = s.qcols) (q : QueryId) (table : String) (i : Nat) : s'.Gives q table i ↔ s.Gives q table i := by
  rw [Gives, Gives, hcols]

theorem Layout.congr (h : s.Layout full) (hpk : s'.pkCols = s.pkCols) (hcounts : s'.colCounts = s.colCounts) (hcols : s'.qcols = s.qcols) :
    s'.Layout full := by
  refine ⟨?_, ?_⟩
  · rw [hpk]
    exact h.schema
  · intro q t cols hq
    rw [hcols] at hq
    have hfit := h.projects q t cols hq
    exact ⟨hcounts ▸ hfit.width, hfit.range, hpk ▸ hfit.key⟩

theorem EntryOk.congr {d l : Prop} (h : s.EntryOk full p d l k e) (hpk : s'.pkCols = s.pkCols) (hcols : s'.qcols = s.qcols) :
    s'.EntryOk full p d l k e := by
  refine ⟨h.held, h.table, hpk ▸ h.keyed, h.length, ?_, ?_⟩
  · intro q hq hp i hi hg
    exact h.lower q hq hp i hi ((gives_congr hcols ..).mp hg)
  · intro hno i hi
    obtain ⟨q, hq, hg⟩ := h.tight hno i hi
    exact ⟨q, hq, (gives_congr hcols ..).mpr hg⟩

theorem Inv.mono {dirty' loose' : List (Key ν)} (h : Inv full p dirty loose s) (hd : ∀ k ∈ dirty, k ∈ dirty') (hl : ∀ k ∈ loose, k ∈ loose') :
    Inv full p dirty' loose' s := by
  refine ⟨h.layout, h.refs, ?_⟩
  intro k e he
  have hk := h.entries k e he
  exact ⟨hk.held, hk.table, hk.keyed, hk.length, fun q hq hp => hk.lower q hq fun hm => hp (hd k hm), fun hno => hk.tight fun hm => hno (hl k hm)⟩

/-- With nothing owed, nobody owes it. -/
theorem Inv.settled (h : Inv full p [] loose s) (q : QueryId) : Inv full q [] loose s := by
  refine ⟨h.layout, h.refs, ?_⟩
  intro k e he
  have hk := h.entries k e he
  exact ⟨hk.held, hk.table, hk.keyed, hk.length, fun q hq _ => hk.lower q hq fun hm => (by cases hm), hk.tight⟩

/-- What the operations leave alone, and what they pushed. -/
structure Step [DecidableEq ν] (s s' : NormalizedSync ν) (muts : List (Mutation ν)) : Prop where
  pk : s'.pkCols = s.pkCols
  counts : s'.colCounts = s.colCounts
  cols : s'.qcols = s.qcols
  writes : muts.foldlM (Mutation.apply s.pkCols) s.contents = some s'.contents

variable [DecidableEq ν]

theorem Step.trans {muts more : List (Mutation ν)} (h : Step s s' muts) (h' : Step s' s'' more) : Step s s'' (muts ++ more) := by
  refine ⟨h'.pk.trans h.pk, h'.counts.trans h.counts, h'.cols.trans h.cols, ?_⟩
  rw [List.foldlM_append, h.writes]
  exact h.pk ▸ h'.writes

/-- A loop whose body keeps what is left to do in step. -/
theorem loop_spec {α : Type} {f : NormalizedSync ν → α → Except String (Emits ν)} {P : NormalizedSync ν → List α → Prop}
    (hf : ∀ s a l, P s (a :: l) → ∃ s' muts, f s a = .ok (s', muts) ∧ Step s s' muts ∧ P s' l) (l : List α) :
    ∀ {s : NormalizedSync ν}, P s l → ∃ s' muts, loop f s l = .ok (s', muts) ∧ Step s s' muts ∧ P s' [] := by
  induction l with
  | nil => exact fun {s} h => ⟨s, [], rfl, ⟨rfl, rfl, rfl, rfl⟩, h⟩
  | cons a l ih =>
    intro s h
    obtain ⟨s1, muts, hrun, hstep, h1⟩ := hf s a l h
    obtain ⟨s2, more, hrest, hsteps, h2⟩ := ih h1
    refine ⟨s2, muts ++ more, ?_, hstep.trans hsteps, h2⟩
    simp only [loop, hrun, bind, Except.bind, hrest]

/-! ## One key -/

@[simp] theorem contents_setBase (s : NormalizedSync ν) (k : Key ν) (e : Option (BaseEntry ν)) :
    (s.setBase k e).contents = Function.update s.contents k (e.map (·.row)) := by
  funext k'
  by_cases hk : k' = k
  · subst hk
    simp [contents, setBase]
  · simp [contents, setBase, hk]

/-- Replace the entry under `k` and the references to it; the rest of the state stays. -/
theorem Inv.put {dirty' loose' : List (Key ν)} (h : Inv full p dirty loose s) (hpk : s'.pkCols = s.pkCols) (hcounts : s'.colCounts = s.colCounts)
    (hcols : s'.qcols = s.qcols) (hbase : ∀ k', k' ≠ k → s'.base k' = s.base k')
    (hfoot : ∀ k' q', k' ≠ k → (k' ∈ s'.foot q' ↔ k' ∈ s.foot q'))
    (hrefs : ∀ q', k ∈ s'.foot q' ↔ ∃ e, s'.base k = some e ∧ q' ∈ e.queries)
    (hentry : ∀ e, s'.base k = some e → s.EntryOk full p (k ∈ dirty') (k ∈ loose') k e)
    (hdirty : ∀ k', k' ≠ k → k' ∈ dirty → k' ∈ dirty') (hloose : ∀ k', k' ≠ k → k' ∈ loose → k' ∈ loose') :
    Inv full p dirty' loose' s' := by
  refine ⟨h.layout.congr hpk hcounts hcols, ?_, ?_⟩
  · intro k' q'
    by_cases hk : k' = k
    · subst hk
      exact hrefs q'
    · rw [hfoot k' q' hk, hbase k' hk]
      exact h.refs k' q'
  · intro k' e he
    by_cases hk : k' = k
    · subst hk
      exact (hentry e he).congr hpk hcols
    · rw [hbase k' hk] at he
      have hok := (h.entries k' e he).congr hpk hcols
      exact ⟨hok.held, hok.table, hok.keyed, hok.length, fun q hq hp => hok.lower q hq fun hm => hp (hdirty k' hk hm),
        fun hno => hok.tight fun hm => hno (hloose k' hk hm)⟩

/-- The cell of a shared row; absent too when there is no row. -/
def value (s : NormalizedSync ν) (k : Key ν) (i : Nat) : Option (WireValue ν) := (s.base k).bind fun e => cell e.row i

/-- A query brings a row. -/
structure Wrote (s s' : NormalizedSync ν) (q : QueryId) (k : Key ν) (row : UnionRow ν) : Prop where
  foot : ∀ k' q', k' ∈ s'.foot q' ↔ k' ∈ s.foot q' ∨ (k' = k ∧ q' = q)
  value : ∀ k' i, s'.value k' i = if k' = k then (cell row i).or (s.value k i) else s.value k' i

/-- A query lets a row go. -/
structure LetGo (s s' : NormalizedSync ν) (q : QueryId) (k : Key ν) : Prop where
  foot : ∀ k' q', k' ∈ s'.foot q' ↔ k' ∈ s.foot q' ∧ ¬(k' = k ∧ q' = q)
  value : ∀ k' i, s'.value k' i = s.value k' i ∨ (k' = k ∧ s'.value k' i = none)

theorem mem_insertNew {α : Type} [DecidableEq α] {a b : α} {l : List α} : b ∈ insertNew a l ↔ b = a ∨ b ∈ l := by
  unfold insertNew
  split
  · rename_i ha
    constructor
    · exact Or.inr
    · rintro (rfl | hb)
      · exact ha
      · exact hb
  · simp [or_comm]

omit [DecidableEq ν] in
/-- A row of `q` merged into the entry under its key; `q` references it from then on. -/
theorem EntryOk.merge {d l : Prop} (hl : s.Layout full) (hk : s.EntryOk full q d l k e) {row : UnionRow ν} (hrow : s.Carries full q k.1 row)
    {pk : List Nat} (hpk : s.pkCols k.1 = some pk) (hkey : keyCells pk row = k.2) (d' : Prop) :
    s.EntryOk full q d' l k { e with queries := insertNew q e.queries, row := merged e.row row } := by
  have hcell : ∀ i < full k.1, cell (merged e.row row) i = (cell row i).or (cell e.row i) := by
    intro i hi
    exact cell_merged (by rw [hk.length]; exact hi)
  refine ⟨?_, hk.table, ⟨pk, hpk, ?_⟩, by rw [length_merged, hk.length], ?_, ?_⟩
  · intro hnil
    have hmem : q ∈ insertNew q e.queries := mem_insertNew.mpr (Or.inl rfl)
    rw [show insertNew q e.queries = [] from hnil] at hmem
    cases hmem
  · rw [keyCells_merged, hkey]
    intro c hc
    have hlt := hl.schema k.1 pk hpk c hc
    exact ⟨by rw [hk.length]; exact hlt, (hrow.cells c hlt).mpr (hl.gives_key hpk hc q)⟩
  · intro q' hq' _ i hi hg
    rw [hcell i hi, Option.isSome_or, Bool.or_eq_true]
    by_cases hqq : q' = q
    · subst hqq
      exact Or.inl ((hrow.cells i hi).mpr hg)
    · have hmem := (mem_insertNew.mp hq').resolve_left hqq
      exact Or.inr (hk.lower q' hmem (fun _ => hqq) i hi hg)
  · intro hno i hsome
    have hi : i < full k.1 := by
      by_contra hge
      rw [cell_of_length_le (by rw [length_merged, hk.length]; omega)] at hsome
      cases hsome
    rw [hcell i hi, Option.isSome_or, Bool.or_eq_true] at hsome
    rcases hsome with hsome | hsome
    · exact ⟨q, mem_insertNew.mpr (Or.inl rfl), (hrow.cells i hi).mp hsome⟩
    · obtain ⟨q', hq', hg⟩ := hk.tight hno i hsome
      exact ⟨q', mem_insertNew.mpr (Or.inr hq'), hg⟩

theorem mergeInto_base (s : NormalizedSync ν) (k : Key ν) (e : BaseEntry ν) (row : UnionRow ν) (table : String) :
    (s.mergeInto k e row table).1 = s.setBase k (some { e with row := merged e.row row }) := by
  unfold mergeInto
  split
  · rename_i heq
    rw [heq]
  · rfl

/-- `mergeInto` for a row of `q`, whose reference is entered. -/
theorem merge_spec {s1 : NormalizedSync ν} {dirty' : List (Key ν)} (h : Inv full q dirty loose s)
    (h1 : s1.pkCols = s.pkCols ∧ s1.colCounts = s.colCounts ∧ s1.qcols = s.qcols ∧ s1.base = s.base)
    (hfoot : ∀ k' q', k' ∈ s1.foot q' ↔ k' ∈ s.foot q' ∨ (k' = k ∧ q' = q)) (he : s.base k = some e) {row : UnionRow ν}
    (hrow : s.Carries full q k.1 row) {pk : List Nat} (hpk : s.pkCols k.1 = some pk) (hkey : keyCells pk row = k.2)
    (hd : ∀ k' ∈ dirty, k' ≠ k → k' ∈ dirty') :
    ∃ s' muts, s1.mergeInto k { e with queries := insertNew q e.queries } row k.1 = (s', muts) ∧ Step s s' muts ∧
      Inv full q dirty' loose s' ∧ Wrote s s' q k row := by
  obtain ⟨hpk1, hcounts1, hcols1, hbase1⟩ := h1
  have hk := h.entries k e he
  have hok := hk.merge h.layout hrow hpk hkey (k ∈ dirty')
  have hcontents : s1.contents = s.contents := by
    funext k'
    simp [contents, hbase1]
  refine ⟨s1.setBase k (some { e with queries := insertNew q e.queries, row := merged e.row row }), (s1.mergeInto k { e with queries := insertNew q e.queries } row k.1).2, Prod.ext (mergeInto_base ..) rfl,
    ⟨hpk1, hcounts1, hcols1, ?_⟩, ?_, ⟨hfoot, ?_⟩⟩
  · -- the edit names the row that is there, and keeps its key
    have hrow : s.contents k = some e.row := by simp [contents, he]
    obtain ⟨pk', hpk', hkey'⟩ := hk.keyed
    obtain rfl := Option.some.inj (hpk.symm.trans hpk')
    rw [contents_setBase, hcontents]
    unfold mergeInto
    split
    · rename_i heq
      have hsame : Function.update s.contents k (some (merged e.row row)) = s.contents := by
        rw [show merged e.row row = e.row from heq, ← hrow, Function.update_eq_self]
      exact congrArg some hsame.symm
    · obtain ⟨pk2, hpk2, hkey2⟩ := hok.keyed
      obtain rfl := Option.some.inj (hpk.symm.trans hpk2)
      have hold : (k.1, keyCells pk e.row) = k := by rw [hkey']
      simp only [List.foldlM_cons, List.foldlM_nil, Mutation.apply, hpk, Option.bind_eq_bind, Option.bind_some, hold, hrow]
      simp [hkey', show keyCells pk (merged e.row row) = k.2 from hkey2]
  · refine h.put hpk1 hcounts1 hcols1 ?_ ?_ ?_ ?_ (fun k' hne hm => hd k' hm hne) (fun _ _ hm => hm)
    · intro k' hne
      simp [setBase, hne, hbase1]
    · intro k' q' hne
      exact (hfoot k' q').trans (by simp [hne])
    · intro q'
      refine (hfoot k q').trans ?_
      simp only [setBase, Function.update_self, Option.some.injEq, exists_eq_left', mem_insertNew, h.refs k q', he]
      simp [or_comm]
    · intro e' he'
      simp only [setBase, Function.update_self, Option.some.injEq] at he'
      rw [← he']
      exact hok
  · intro k' i
    by_cases hkk : k' = k
    · subst hkk
      simp only [value, setBase, Function.update_self, Option.bind_some, if_pos, he]
      by_cases hi : i < full k'.1
      · exact cell_merged (by rw [hk.length]; exact hi)
      · rw [cell_of_length_le (by rw [length_merged, hk.length]; omega), cell_of_length_le (by rw [hrow.length]; omega),
          cell_of_length_le (by rw [hk.length]; omega)]
        rfl
    · simp [value, setBase, hkk, hbase1]

/-- A row of `q` under its key. -/
structure Keyed (s : NormalizedSync ν) (full : String → Nat) (q : QueryId) (k : Key ν) (row : UnionRow ν) : Prop where
  carries : s.Carries full q k.1 row
  key : s.key k.1 row = .ok k

omit [DecidableEq ν] in
theorem Keyed.pk {row : UnionRow ν} (h : s.Keyed full q k row) : ∃ pk, s.pkCols k.1 = some pk ∧ keyCells pk row = k.2 := by
  have hkey := h.key
  unfold NormalizedSync.key at hkey
  split at hkey
  · cases hkey
  · rename_i pk hpk
    exact ⟨pk, hpk, congrArg Prod.snd (Except.ok.inj hkey)⟩

theorem insertNew_of_mem {α : Type} [DecidableEq α] {a : α} {l : List α} (h : a ∈ l) : insertNew a l = l := if_pos h

/-- A row of a query that references it already. -/
theorem update_spec {dirty' : List (Key ν)} (h : Inv full q dirty loose s) {row : UnionRow ν} (hrow : s.Keyed full q k row)
    (hin : k ∈ s.foot q) (hd : ∀ k' ∈ dirty, k' ≠ k → k' ∈ dirty') :
    ∃ e s' muts, s.base k = some e ∧ s.mergeInto k e row k.1 = (s', muts) ∧ Step s s' muts ∧ Inv full q dirty' loose s' ∧ Wrote s s' q k row := by
  obtain ⟨e, he, hq⟩ := (h.refs k q).mp hin
  obtain ⟨pk, hpk, hkey⟩ := hrow.pk
  have hfoot : ∀ k' q', k' ∈ s.foot q' ↔ k' ∈ s.foot q' ∨ (k' = k ∧ q' = q) := by
    intro k' q'
    constructor
    · exact Or.inl
    · rintro (hm | ⟨rfl, rfl⟩)
      · exact hm
      · exact hin
  obtain ⟨s', muts, hrun, hstep, hinv, hw⟩ := merge_spec h ⟨rfl, rfl, rfl, rfl⟩ hfoot he hrow.carries hpk hkey hd
  rw [insertNew_of_mem hq] at hrun
  exact ⟨e, s', muts, he, hrun, hstep, hinv, hw⟩

omit [DecidableEq ν] in
theorem mem_foot_setFoot (s : NormalizedSync ν) (q : QueryId) (keys : List (Key ν)) (k : Key ν) (q' : QueryId) :
    k ∈ (s.setFoot q keys).foot q' ↔ if q' = q then k ∈ keys else k ∈ s.foot q' := by
  by_cases hq : q' = q
  · subst hq
    simp [foot, setFoot]
  · simp [foot, setFoot, hq]

theorem add_spec {dirty' : List (Key ν)} (h : Inv full q dirty loose s) {row : UnionRow ν} (hrow : s.Keyed full q k row)
    (hout : k ∉ s.foot q) (hd : ∀ k' ∈ dirty, k' ≠ k → k' ∈ dirty') :
    ∃ s' muts, s.add q k.1 row = .ok (s', muts) ∧ Step s s' muts ∧ Inv full q dirty' loose s' ∧ Wrote s s' q k row := by
  obtain ⟨pk, hpk, hkey⟩ := hrow.pk
  have hfoot : ∀ k' q', k' ∈ (s.setFoot q (s.foot q ++ [k])).foot q' ↔ k' ∈ s.foot q' ∨ (k' = k ∧ q' = q) := by
    intro k' q'
    rw [mem_foot_setFoot]
    split
    · rename_i hq
      simp [hq]
    · rename_i hq
      simp [hq]
  cases he : s.base k with
  | some e =>
    obtain ⟨s', muts, hrun, hspec⟩ := @merge_spec _ s full q _ _ k e _ (s.setFoot q (s.foot q ++ [k])) dirty' h ⟨rfl, rfl, rfl, rfl⟩ hfoot he _ hrow.carries pk hpk hkey hd
    refine ⟨s', muts, ?_, hspec⟩
    have he1 : (s.setFoot q (s.foot q ++ [k])).base k = some e := he
    simp [add, hrow.key, bind, Except.bind, hout, he1, hrun]
  | none =>
    refine ⟨(s.setFoot q (s.foot q ++ [k])).setBase k (some ⟨k.1, row, [q]⟩), [.add k.1 row], ?_, ⟨rfl, rfl, rfl, ?_⟩, ?_, ⟨hfoot, ?_⟩⟩
    · have he1 : (s.setFoot q (s.foot q ++ [k])).base k = none := he
      simp [add, hrow.key, bind, Except.bind, hout, he1]
    · have hfree : s.contents k = none := by simp [contents, he]
      have hk : (k.1, keyCells pk row) = k := by rw [hkey]
      have hcontents : (s.setFoot q (s.foot q ++ [k])).contents = s.contents := rfl
      simp [Mutation.apply, hpk, hk, hfree, hcontents]
    · refine h.put rfl rfl rfl ?_ ?_ ?_ ?_ (fun k' hne hm => hd k' hm hne) (fun _ _ hm => hm)
      · intro k' hne
        simp [setBase, setFoot, hne]
      · intro k' q' hne
        exact (hfoot k' q').trans (by simp [hne])
      · intro q'
        refine (hfoot k q').trans ?_
        simp [setBase, h.refs k q', he]
      · intro e' he'
        simp only [setBase, Function.update_self, Option.some.injEq] at he'
        subst he'
        refine ⟨by simp, rfl, ⟨pk, hpk, hkey⟩, hrow.carries.length, ?_, ?_⟩
        · intro q' hq' _ i hi hg
          rw [List.mem_singleton.mp hq'] at hg
          exact (hrow.carries.cells i hi).mpr hg
        · intro _ i hsome
          have hi : i < full k.1 := by
            by_contra hge
            rw [cell_of_length_le (by rw [hrow.carries.length]; omega)] at hsome
            cases hsome
          exact ⟨q, List.mem_singleton_self q, (hrow.carries.cells i hi).mp hsome⟩
    · intro k' i
      by_cases hkk : k' = k
      · subst hkk
        simp [value, setBase, he]
      · simp [value, setBase, setFoot, hkk]

/-- The queries left when `q` lets a row go. -/
def others (e : BaseEntry ν) (q : QueryId) : List QueryId := e.queries.filter fun q' => q' ≠ q

/-- The row with the columns of the queries left. -/
def keptRow (s : NormalizedSync ν) (e : BaseEntry ν) (q : QueryId) : UnionRow ν :=
  match s.presentCols e.table (others e q) with
  | none => e.row
  | some present => narrowed e.row present

omit [DecidableEq ν] in
theorem mem_others {q' : QueryId} : q' ∈ others e q ↔ q' ∈ e.queries ∧ q' ≠ q := by simp [others]

omit [DecidableEq ν] in
theorem cell_keptRow (s : NormalizedSync ν) (e : BaseEntry ν) (q : QueryId) (i : Nat) :
    cell (s.keptRow e q) i = cell e.row i ∨ cell (s.keptRow e q) i = none := by
  unfold keptRow
  split
  · exact Or.inl rfl
  · rw [cell_narrowed]
    split
    · exact Or.inl rfl
    · exact Or.inr rfl

omit [DecidableEq ν] in
/-- The entry once `q` has let the row go and others hold it. -/
theorem EntryOk.kept {d l : Prop} (hl : s.Layout full) (hk : s.EntryOk full q d l k e) (hq : others e q ≠ []) (d' l' : Prop) :
    s.EntryOk full q d' l' k { e with queries := others e q, row := s.keptRow e q } := by
  obtain ⟨pk, hpk, hkey⟩ := hk.keyed
  have hlower : ∀ q' ∈ others e q, ∀ i < full k.1, s.Gives q' k.1 i → (cell e.row i).isSome = true := by
    intro q' hq' i hi hg
    obtain ⟨hmem, hne⟩ := mem_others.mp hq'
    exact hk.lower q' hmem (fun _ => hne) i hi hg
  unfold keptRow
  rw [hk.table]
  split
  · -- a query without a projection still holds it: all columns are there, and all are contributed
    rename_i hnone
    obtain ⟨q', hmem, hall⟩ := presentCols_none hnone
    refine ⟨hq, rfl, ⟨pk, hpk, hkey⟩, hk.length, fun q' hq' _ => hlower q' hq', ?_⟩
    intro _ i _
    exact ⟨q', hmem, fun cols hcols => by rw [hall] at hcols; cases hcols⟩
  · rename_i present hsome
    have hpres : ∀ i : Nat, (i : Int) ∈ present ↔ ∃ q' ∈ others e q, s.Gives q' k.1 i := fun i => mem_presentCols hsome
    refine ⟨hq, rfl, ⟨pk, hpk, ?_⟩, by rw [length_narrowed, hk.length], ?_, ?_⟩
    · rw [keyCells_narrowed, hkey]
      intro c hc
      obtain ⟨q', hmem⟩ := List.exists_mem_of_ne_nil _ hq
      exact (hpres c).mpr ⟨q', hmem, hl.gives_key hpk hc q'⟩
    · intro q' hq' _ i hi hg
      rw [cell_narrowed, if_pos ((hpres i).mpr ⟨q', hq', hg⟩)]
      exact hlower q' hq' i hi hg
    · intro _ i hi
      rw [cell_narrowed] at hi
      by_cases hmem : (i : Int) ∈ present
      · exact (hpres i).mp hmem
      · rw [if_neg hmem] at hi
        cases hi

omit [DecidableEq ν] in
theorem presentCols_congr (h : s'.qcols = s.qcols) (queries : List QueryId) : s'.presentCols table queries = s.presentCols table queries := by
  induction queries with
  | nil => rfl
  | cons q queries ih => rw [presentCols, presentCols, ih, h]

/-- What is left under a key, and what is pushed, when `q` lets the row go. -/
def leftOf (s : NormalizedSync ν) (e : BaseEntry ν) (q : QueryId) : Option (BaseEntry ν) × List (Mutation ν) :=
  if others e q = [] then (none, [.remove e.table e.row])
  else (some { e with queries := others e q, row := s.keptRow e q }, if s.keptRow e q = e.row then [] else [.edit e.table e.row (s.keptRow e q)])

/-- The state without `q`'s reference to `k`. -/
def unlisted (s : NormalizedSync ν) (q : QueryId) (k : Key ν) : NormalizedSync ν := s.setFoot q ((s.foot q).filter fun k' => k' ≠ k)

theorem mem_foot_unlisted (s : NormalizedSync ν) (q q' : QueryId) (k k' : Key ν) :
    k' ∈ (s.unlisted q k).foot q' ↔ k' ∈ s.foot q' ∧ ¬(k' = k ∧ q' = q) := by
  rw [unlisted, mem_foot_setFoot]
  split
  · rename_i hq
    simp [hq]
  · rename_i hq
    simp [hq]

theorem removeKey_eq (hin : k ∈ s.foot q) (he : s.base k = some e) :
    s.removeKey q k = ((s.unlisted q k).setBase k (s.leftOf e q).1, (s.leftOf e q).2) := by
  have he1 : (s.setFoot q ((s.foot q).filter fun k' => k' ≠ k)).base k = some e := he
  have hpres : (s.setFoot q ((s.foot q).filter fun k' => k' ≠ k)).presentCols e.table (e.queries.filter fun q' => q' ≠ q) =
      s.presentCols e.table (others e q) := @presentCols_congr _ s (s.setFoot q _) _ rfl _
  unfold removeKey
  rw [if_pos hin]
  simp only [he1, hpres]
  by_cases hq : others e q = []
  · rw [leftOf, if_pos hq]
    exact if_pos hq
  · rw [leftOf, if_neg hq, keptRow]
    refine (if_neg hq).trans ?_
    cases s.presentCols e.table (others e q) with
    | none => simp [unlisted, others]
    | some present =>
      dsimp only
      by_cases heq : narrowed e.row present = e.row
      · rw [if_pos heq, if_pos heq, heq]
        rfl
      · rw [if_neg heq, if_neg heq]
        rfl

/-- `removeKey` for a row the query holds. -/
theorem removeKey_spec {loose' : List (Key ν)} (h : Inv full q dirty loose s) (hin : k ∈ s.foot q)
    (hl : ∀ k' ∈ loose, k' ≠ k → k' ∈ loose') :
    ∃ s' muts, s.removeKey q k = (s', muts) ∧ Step s s' muts ∧ Inv full q dirty loose' s' ∧ LetGo s s' q k := by
  obtain ⟨e, he, hq⟩ := (h.refs k q).mp hin
  have hk := h.entries k e he
  obtain ⟨pk, hpk, hkey⟩ := hk.keyed
  have hkk : (k.1, keyCells pk e.row) = k := by rw [hkey]
  have hrow : s.contents k = some e.row := by simp [contents, he]
  have hcontents : (s.unlisted q k).contents = s.contents := rfl
  have hkept : others e q ≠ [] → s.EntryOk full q (k ∈ dirty) (k ∈ loose') k { e with queries := others e q, row := s.keptRow e q } :=
    fun hne => hk.kept h.layout hne _ _
  refine ⟨_, _, removeKey_eq hin he, ⟨rfl, rfl, rfl, ?_⟩, ?_, fun k' q' => mem_foot_unlisted s q q' k k', ?_⟩
  · rw [contents_setBase, hcontents, leftOf]
    split
    · rw [hk.table]
      simp [Mutation.apply, hpk, hkk, hrow]
    · rename_i hne
      dsimp only
      split
      · rename_i heq
        exact congrArg some (by rw [Option.map_some, heq, ← hrow, Function.update_eq_self])
      · obtain ⟨pk2, hpk2, hkey2⟩ := (hkept hne).keyed
        obtain rfl := Option.some.inj (hpk.symm.trans hpk2)
        rw [hk.table]
        simp [Mutation.apply, hpk, hrow, hkey, show keyCells pk (s.keptRow e q) = k.2 from hkey2]
  · refine h.put rfl rfl rfl ?_ ?_ ?_ ?_ (fun _ _ hm => hm) (fun k' hne hm => hl k' hm hne)
    · intro k' hne
      simp [setBase, unlisted, setFoot, hne]
    · intro k' q' hne
      exact (mem_foot_unlisted s q q' k k').trans (by simp [hne])
    · intro q'
      have hiff : k ∈ s.foot q' ∧ ¬(k = k ∧ q' = q) ↔ q' ∈ others e q := by
        rw [mem_others]
        simp [h.refs k q', he]
      refine (mem_foot_unlisted s q q' k k).trans (hiff.trans ?_)
      rw [leftOf]
      split
      · rename_i hnil
        simp [setBase, hnil]
      · simp [setBase]
    · intro e' he'
      simp only [setBase, Function.update_self, leftOf] at he'
      split at he'
      · cases he'
      · rename_i hne
        rw [← Option.some.inj he']
        exact hkept hne
  · intro k' i
    by_cases hkk : k' = k
    · subst hkk
      simp only [value, setBase, Function.update_self, he, Option.bind_some, leftOf, true_and]
      split
      · exact Or.inr rfl
      · exact cell_keptRow s e q i
    · left
      simp [value, setBase, unlisted, setFoot, hkk]

end NormalizedSync

end Rindle.Normalized
