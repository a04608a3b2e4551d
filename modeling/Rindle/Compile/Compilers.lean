/-
  Rindle.Compile.Compilers — when the two SQL compilers agree.

  On a query of the wire grammar the walker throws exactly where its flaws say so, and so does
  the Rust compiler; where both succeed, the parameters that are placed fill the one text to the
  other. What is left are the flaws on which they differ.

  - `compilers_agree_iff`: the compilers agree on a query exactly when both refuse it for a
    reason of its own, or it looks up no inherited name and has no literal before an empty list
    (or each of them fails on an inherited name).
  - `literal_before_empty_list`: `5 IN ()` leaves a parameter without a placeholder.
-/

import Rindle.Compile.Agree

set_option linter.dupNamespace false

namespace Rindle.Compile

open Lexicon
open Walker (Param Cx sqliteLiteral)

variable {display : F64 → Sql} {catalog : Catalog}

/-! ## What comes before the walk -/

theorem rejectAggregateSubquery_ok (texts texts' : RejectTexts) (ast : Ast) :
    rejectAggregateSubquery texts ast = .ok () → rejectAggregateSubquery texts' ast = .ok () := by
  unfold rejectAggregateSubquery
  intro h
  cases hstart : ast.head.start.isSome with
  | true =>
    rw [hstart] at h
    cases h
  | false =>
    cases hlimit : ast.head.limit.isSome with
    | true =>
      rw [hstart, hlimit] at h
      cases h
    | false =>
      cases hrelated : ast.related.isEmpty with
      | false =>
        rw [hstart, hlimit, hrelated] at h
        cases h
      | true =>
        rw [hstart, hlimit, hrelated] at h
        exact h

mutual

/-- The two compilers reject the same queries, under their own texts. -/
theorem rejectUnsupported_ok (texts texts' : RejectTexts) : ∀ ast : Ast,
    rejectUnsupported texts ast = .ok () → rejectUnsupported texts' ast = .ok ()
  | .mk head where? related having, h => by
    rw [rejectUnsupported] at h ⊢
    obtain ⟨_, hrelated, hwhere⟩ := bind_ok.mp h
    exact bind_ok.mpr ⟨(), rejectRelated_ok texts texts' related hrelated, hwhere⟩

theorem rejectRelated_ok (texts texts' : RejectTexts) : ∀ related : List (CorrelatedSubquery Ast),
    rejectRelated texts related = .ok () → rejectRelated texts' related = .ok ()
  | [], h => h
  | ⟨correlation, subquery, system⟩ :: related, h => by
    rw [rejectRelated] at h ⊢
    cases hagg : subquery.head.aggregate.isSome with
    | true =>
      rw [hagg] at h
      obtain ⟨_, hsub, hrest⟩ := bind_ok.mp h
      exact bind_ok.mpr ⟨(), rejectAggregateSubquery_ok texts texts' subquery hsub, rejectRelated_ok texts texts' related hrest⟩
    | false =>
      rw [hagg] at h
      obtain ⟨_, hsub, hrest⟩ := bind_ok.mp h
      exact bind_ok.mpr ⟨(), rejectUnsupported_ok texts texts' subquery hsub, rejectRelated_ok texts texts' related hrest⟩

end

theorem pkOf_eq (catalog : Catalog) : Walker.pkOf catalog = catalog.pk := by
  funext table
  unfold Walker.pkOf Catalog.pk
  cases catalog.tables table with
  | some t => rfl
  | none =>
    rw [Walker.record_none]
    by_cases h : table ∈ Walker.objectPrototype
    · rw [if_pos h]
    · rw [if_neg h]

mutual

/-- Completing the orderings changes nothing that the grammar is about. -/
theorem wireAst_complete (getPk : String → List String) : ∀ ast : Ast, wireAst (completeOrdering getPk ast) = wireAst ast
  | .mk head (some w) related having => by
    simp only [completeOrdering, wireAst, AstHead.fits, wireCondition_complete getPk w, wireRelated_complete getPk related]
  | .mk head none related having => by
    simp only [completeOrdering, wireAst, AstHead.fits, wireRelated_complete getPk related]

theorem wireRelated_complete (getPk : String → List String) : ∀ related : List (CorrelatedSubquery Ast),
    wireRelated (completeRelated getPk related) = wireRelated related
  | [] => rfl
  | ⟨correlation, subquery, system⟩ :: related => by
    simp only [completeRelated, wireRelated, wireAst_complete getPk subquery, wireRelated_complete getPk related]

theorem wireCondition_complete (getPk : String → List String) : ∀ c : Condition,
    wireCondition (completeOrderingInCondition getPk c) = wireCondition c
  | .simple _ => rfl
  | .correlatedSubquery ⟨correlation, subquery, system⟩ flags => by
    simp only [completeOrderingInCondition, wireCondition, wireAst_complete getPk subquery]
  | .and conditions => by
    simp only [completeOrderingInCondition, wireCondition, wireConditions_complete getPk conditions]
  | .or conditions => by
    simp only [completeOrderingInCondition, wireCondition, wireConditions_complete getPk conditions]

theorem wireConditions_complete (getPk : String → List String) : ∀ conditions : List Condition,
    wireConditions (completeConditions getPk conditions) = wireConditions conditions
  | [] => rfl
  | c :: conditions => by
    simp only [completeConditions, wireConditions, wireCondition_complete getPk c, wireConditions_complete getPk conditions]

end

/-! ## The compilers -/

/-- Both refuse the query, or each placeholder has its parameter and the literals fill the one
    text to the other. -/
structure Agree (display : F64 → Sql) (catalog : Catalog) (ast : Ast) (singular : Bool) : Prop where
  refuse : (∃ e, Walker.compileWith catalog ast singular = .error e) ↔ ∃ e, D2s.compileWith display catalog ast singular = .error e
  fill : ∀ sql params, Walker.compileWith catalog ast singular = .ok (sql, params) →
    sqlLexicon.holes none sql = params.length ∧
      ∃ xs, literals display params = some xs ∧ D2s.compileWith display catalog ast singular = .ok (sqlLexicon.fill none sql xs)

theorem literals_cons (p : Param) (params : List Param) :
    literals display (p :: params) = (sqliteLiteral display p).bind fun x => (literals display params).map (x :: ·) := by
  simp only [literals, List.mapM_cons]
  cases sqliteLiteral display p with
  | none => rfl
  | some x =>
    cases params.mapM (sqliteLiteral display) with
    | none => rfl
    | some xs => rfl

theorem literals_length {params : List Param} {xs : List Sql} (h : literals display params = some xs) : xs.length = params.length := by
  induction params generalizing xs with
  | nil =>
    cases h
    rfl
  | cons p params ih =>
    rw [literals_cons] at h
    obtain ⟨x, -, h⟩ := Option.bind_eq_some_iff.mp h
    obtain ⟨ys, hys, rfl⟩ := Option.map_eq_some_iff.mp h
    simp [ih hys]

theorem literals_some_iff (params : List Param) :
    (∃ xs, literals display params = some xs) ↔ ∀ p ∈ params, (sqliteLiteral display p).isSome := by
  induction params with
  | nil =>
    constructor
    · intro _ p hp
      cases hp
    · intro _
      exact ⟨[], rfl⟩
  | cons p params ih =>
    rw [List.forall_mem_cons, ← ih, literals_cons]
    cases sqliteLiteral display p with
    | none => simp
    | some x => simp

/-- What is clean is placed as it is, and has its literals. -/
theorem placed_of_clean {pushed : List Pushed} (h : clean display pushed = true) :
    placed pushed = pushed.map Prod.fst ∧ ∃ xs, literals display (pushed.map Prod.fst) = some xs := by
  have hall : ∀ x ∈ pushed, x.2 = true ∧ (sqliteLiteral display x.1).isSome = true := by
    intro x hx
    exact Bool.and_eq_true_iff.mp (List.all_eq_true.mp h x hx)
  refine ⟨?_, (literals_some_iff _).mpr ?_⟩
  · rw [placed, List.filter_eq_self.mpr fun x hx => (hall x hx).1]
  · intro p hp
    obtain ⟨x, hx, rfl⟩ := List.mem_map.mp hp
    exact (hall x hx).2

/-- What is not clean has a value without a literal, or one without a place. -/
theorem not_placed_of_spoiled {pushed : List Pushed} (h : clean display pushed = false) {xs : List Sql}
    (hxs : literals display (pushed.map Prod.fst) = some xs) :
    (placed pushed).length < (pushed.map Prod.fst).length ∧ ∃ ys, literals display (placed pushed) = some ys := by
  have hlit : ∀ x ∈ pushed, (sqliteLiteral display x.1).isSome = true := by
    intro x hx
    exact (literals_some_iff _).mp ⟨xs, hxs⟩ x.1 (List.mem_map_of_mem hx)
  have hout : ∃ x ∈ pushed, x.2 = false := by
    by_contra hno
    have hin : clean display pushed = true := by
      refine List.all_eq_true.mpr ?_
      intro x hx
      have hplaced : x.2 = true := by
        by_contra hx2
        exact hno ⟨x, hx, by simpa using hx2⟩
      rw [hplaced, hlit x hx]
      rfl
    rw [hin] at h
    cases h
  obtain ⟨x, hx, hx2⟩ := hout
  constructor
  · rw [placed, List.length_map, List.length_map]
    refine List.length_filter_lt_length_iff_exists.mpr ⟨x, hx, by simp [hx2]⟩
  · refine (literals_some_iff _).mpr ?_
    intro p hp
    obtain ⟨y, hy, rfl⟩ := List.mem_map.mp hp
    exact hlit y (List.mem_of_mem_filter hy)

/-- The text around the walk. -/
theorem fills_result {t t' : Sql} {xs : List Sql} (h : sqlLexicon.Fills t xs t') :
    sqlLexicon.Fills (utf8 "SELECT " ++ t ++ utf8 " AS \"rindle_result\"") xs (utf8 "SELECT " ++ t' ++ utf8 " AS \"rindle_result\"") := by
  refine fills_before (fills_after (still_utf8 (by rfl)) h) ⟨?_, ?_, ?_⟩
  · rfl
  · rfl
  · rfl

/-- The flaws of the query as it is walked. -/
def flaws (catalog : Catalog) (ast : Ast) : Flaws := queryFlaws catalog (completeOrdering catalog.pk ast)

/-- Neither compiler lowers the query. -/
def Rejected (ast : Ast) : Prop := ∃ e, rejectUnsupported D2s.rejectTexts ast = .error e

theorem compileWith_rejected {ast : Ast} (h : Rejected ast) (singular : Bool) :
    (∃ e, Walker.compileWith catalog ast singular = .error e) ∧ ∃ e, D2s.compileWith display catalog ast singular = .error e := by
  obtain ⟨e, he⟩ := h
  have hwalker : ∃ e, rejectUnsupported Walker.rejectTexts ast = .error e := by
    cases hok : rejectUnsupported Walker.rejectTexts ast with
    | error e => exact ⟨e, rfl⟩
    | ok u =>
      rw [rejectUnsupported_ok Walker.rejectTexts D2s.rejectTexts ast hok] at he
      cases he
  obtain ⟨e', he'⟩ := hwalker
  exact ⟨⟨e', by rw [Walker.compileWith, he']; rfl⟩, ⟨e, by rw [D2s.compileWith, he]; rfl⟩⟩

/-- Past the rejections, each compiler is its walk. -/
theorem compileWith_walks {ast : Ast} (h : ¬Rejected ast) (singular : Bool) :
    (Walker.compileWith catalog ast singular = (Walker.collection catalog (completeOrdering catalog.pk ast) singular none {}).map
        fun p => (utf8 "SELECT " ++ p.1 ++ utf8 " AS \"rindle_result\"", p.2.params)) ∧
      D2s.compileWith display catalog ast singular = (D2s.collection display catalog (completeOrdering catalog.pk ast) singular none 0).map
        fun p => utf8 "SELECT " ++ p.1 ++ utf8 " AS \"rindle_result\"" := by
  have hd : rejectUnsupported D2s.rejectTexts ast = .ok () := by
    cases hok : rejectUnsupported D2s.rejectTexts ast with
    | ok u => rfl
    | error e => exact absurd ⟨e, hok⟩ h
  have hw := rejectUnsupported_ok D2s.rejectTexts Walker.rejectTexts ast hd
  constructor
  · rw [Walker.compileWith, hw, pkOf_eq]
    cases hrun : Walker.collection catalog (completeOrdering catalog.pk ast) singular none {} with
    | error e => rfl
    | ok p => rfl
  · rw [D2s.compileWith, hd]
    cases hrun : D2s.collection display catalog (completeOrdering catalog.pk ast) singular none 0 with
    | error e => rfl
    | ok p => rfl

theorem map_error_iff {ε α β : Type} (x : Except ε α) (f : α → β) : (∃ e, x.map f = .error e) ↔ ∃ e, x = .error e := by
  cases x with
  | error e => exact ⟨fun _ => ⟨e, rfl⟩, fun _ => ⟨e, rfl⟩⟩
  | ok a =>
    constructor
    · intro h
      obtain ⟨e, he⟩ := h
      cases he
    · intro h
      obtain ⟨e, he⟩ := h
      cases he

/-- When each of the compilers refuses what is not rejected. -/
theorem compileWith_errs {ast : Ast} (hwire : wireAst ast = true) (h : ¬Rejected ast) (singular : Bool) :
    ((∃ e, Walker.compileWith catalog ast singular = .error e) ↔ (flaws catalog ast).walker = true) ∧
      ((∃ e, D2s.compileWith display catalog ast singular = .error e) ↔ (flaws catalog ast).d2s = true) := by
  have hwire' : wireAst (completeOrdering catalog.pk ast) = true := by rw [wireAst_complete, hwire]
  obtain ⟨hw, hd⟩ := compileWith_walks h singular
  constructor
  · rw [hw, map_error_iff]
    exact Walker.collection_errs _ singular none hwire' (fun c hc => by cases hc) {}
  · rw [hd, map_error_iff]
    exact D2s.collection_errs _ singular none 0

/-- Where both compile: the parameters that are placed fill the text, and they are all of them
    unless something is spoiled. -/
theorem compileWith_fills {ast : Ast} (hwire : wireAst ast = true) (h : ¬Rejected ast) {singular : Bool} {sql sql' : Sql} {params : List Param}
    (hw : Walker.compileWith catalog ast singular = .ok (sql, params)) (hd : D2s.compileWith display catalog ast singular = .ok sql') :
    ∃ pushed : List Pushed, params = pushed.map Prod.fst ∧ (flaws catalog ast).spoiled = !clean display pushed ∧
      Frag display sql (placed pushed) sql' := by
  have hwire' : wireAst (completeOrdering catalog.pk ast) = true := by rw [wireAst_complete, hwire]
  obtain ⟨hw', hd'⟩ := compileWith_walks h singular
  rw [hw'] at hw
  rw [hd'] at hd
  cases hrun : Walker.collection catalog (completeOrdering catalog.pk ast) singular none {} with
  | error e =>
    rw [hrun] at hw
    cases hw
  | ok p =>
    cases hrun' : D2s.collection display catalog (completeOrdering catalog.pk ast) singular none 0 with
    | error e =>
      rw [hrun'] at hd
      cases hd
    | ok p' =>
      rw [hrun] at hw
      rw [hrun'] at hd
      cases hw
      cases hd
      obtain ⟨-, pushed, hparams, hspoiled, hfrag⟩ :=
        collection_both _ singular none hwire' (fun c hc => by cases hc) {} p.1 p.2 p'.1 p'.2 hrun hrun'
      refine ⟨pushed, by simpa using hparams, hspoiled, ?_⟩
      intro xs hxs
      exact fills_result (hfrag xs hxs)

/-- Where both compile, the literals fill the one text to the other unless something is spoiled. -/
theorem fill_iff {ast : Ast} (hwire : wireAst ast = true) (h : ¬Rejected ast) {singular : Bool} {sql sql' : Sql} {params : List Param}
    (hw : Walker.compileWith catalog ast singular = .ok (sql, params)) (hd : D2s.compileWith display catalog ast singular = .ok sql') :
    (sqlLexicon.holes none sql = params.length ∧ ∃ xs, literals display params = some xs ∧ sql' = sqlLexicon.fill none sql xs) ↔
      (flaws catalog ast).spoiled = false := by
  obtain ⟨pushed, rfl, hspoiled, hfrag⟩ := compileWith_fills hwire h hw hd
  rw [hspoiled, Bool.not_eq_false']
  constructor
  · intro hagree
    obtain ⟨hholes, xs, hxs, -⟩ := hagree
    by_contra hclean
    obtain ⟨hlt, ys, hys⟩ := not_placed_of_spoiled (by simpa using hclean) hxs
    have hplaced := (hfrag ys hys).holes
    rw [literals_length hys, hholes] at hplaced
    omega
  · intro hclean
    obtain ⟨hplaced, xs, hxs⟩ := placed_of_clean hclean
    rw [hplaced] at hfrag
    have hfills := hfrag xs hxs
    exact ⟨by rw [hfills.holes, literals_length hxs], xs, hxs, hfills.fill.symm⟩

/-- Past the rejections, the compilers agree when both fail, or both compile and nothing is spoiled. -/
theorem agree_iff_flaws {ast : Ast} (hwire : wireAst ast = true) (h : ¬Rejected ast) (singular : Bool) :
    Agree display catalog ast singular ↔ (flaws catalog ast).walker = (flaws catalog ast).d2s ∧
      ((flaws catalog ast).walker = true ∨ (flaws catalog ast).spoiled = false) := by
  obtain ⟨hwerr, hderr⟩ : _ ∧ ((∃ e, D2s.compileWith display catalog ast singular = .error e) ↔ _) := compileWith_errs hwire h singular
  cases hw : Walker.compileWith catalog ast singular with
  | error e =>
    have hwalker : (flaws catalog ast).walker = true := hwerr.mp ⟨e, hw⟩
    rw [hwalker]
    constructor
    · intro hagree
      exact ⟨(hderr.mp (hagree.refuse.mp ⟨e, hw⟩)).symm, .inl rfl⟩
    · intro hflaws
      refine ⟨⟨fun _ => hderr.mpr hflaws.1.symm, fun _ => ⟨e, hw⟩⟩, ?_⟩
      intro sql params hok
      rw [hw] at hok
      cases hok
  | ok r =>
    obtain ⟨sql, params⟩ := r
    have hwalker : (flaws catalog ast).walker = false := by
      by_contra htrue
      obtain ⟨e, he⟩ := hwerr.mpr (by simpa using htrue)
      rw [hw] at he
      cases he
    rw [hwalker]
    cases hd : D2s.compileWith display catalog ast singular with
    | error e =>
      have hd2s : (flaws catalog ast).d2s = true := hderr.mp ⟨e, hd⟩
      rw [hd2s]
      constructor
      · intro hagree
        obtain ⟨e', he'⟩ := hagree.refuse.mpr ⟨e, hd⟩
        rw [hw] at he'
        cases he'
      · intro hflaws
        exact absurd hflaws.1 (by decide)
    | ok sql' =>
      have hd2s : (flaws catalog ast).d2s = false := by
        by_contra htrue
        obtain ⟨e, he⟩ := hderr.mpr (by simpa using htrue)
        rw [hd] at he
        cases he
      rw [hd2s]
      constructor
      · intro hagree
        obtain ⟨hholes, xs, hxs, hsql⟩ := hagree.fill sql params hw
        rw [hd] at hsql
        exact ⟨rfl, .inr ((fill_iff hwire h hw hd).mp ⟨hholes, xs, hxs, Except.ok.inj hsql⟩)⟩
      · intro hflaws
        have hclean : (flaws catalog ast).spoiled = false := by simpa using hflaws.2
        obtain ⟨hholes, xs, hxs, hsql⟩ := (fill_iff hwire h hw hd).mpr hclean
        refine ⟨⟨?_, ?_⟩, ?_⟩
        · intro herr
          obtain ⟨e, he⟩ := herr
          rw [hw] at he
          cases he
        · intro herr
          obtain ⟨e, he⟩ := herr
          rw [hd] at he
          cases he
        · intro sql₁ params₁ hok
          rw [hw] at hok
          cases hok
          exact ⟨hholes, xs, hxs, by rw [hd, hsql]⟩

/-- The compilers agree on a query exactly when both refuse it for what it asks, or each fails on
    an inherited name, or neither is misled by one and no literal is left without its place. -/
theorem compilers_agree_iff (display : F64 → Sql) (catalog : Catalog) (ast : Ast) (singular : Bool) (hwire : wireAst ast = true) :
    Agree display catalog ast singular ↔
      Rejected ast ∨ (flaws catalog ast).refused = true ∨
        ((flaws catalog ast).undeclared = true ∧ (flaws catalog ast).inheritedTable = true) ∨
        ((flaws catalog ast).undeclared = false ∧ (flaws catalog ast).inheritedTable = false ∧
          (flaws catalog ast).inheritedColumn = false ∧ (flaws catalog ast).discarded = false) := by
  by_cases hrej : Rejected ast
  · obtain ⟨⟨e, he⟩, hd⟩ : _ ∧ ∃ e, D2s.compileWith display catalog ast singular = .error e := compileWith_rejected hrej singular
    refine ⟨fun _ => .inl hrej, fun _ => ⟨⟨fun _ => hd, fun _ => ⟨e, he⟩⟩, ?_⟩⟩
    intro sql params hok
    rw [he] at hok
    cases hok
  · rw [agree_iff_flaws hwire hrej]
    simp only [hrej, false_or, Flaws.walker, Flaws.d2s, Flaws.spoiled]
    cases (flaws catalog ast).refused <;> cases (flaws catalog ast).undeclared <;> cases (flaws catalog ast).inheritedTable <;> simp

/-- One table `t` with a column `a`, its key. -/
def oneTable : Catalog := ⟨fun table => if table = "t" then some ⟨["a"], ["a"], fun _ => none⟩ else none⟩

/-- The rows of `t` on which a comparison holds. -/
def rowsWhere (op : CondOp) (left right : ValuePosition) : Ast := .mk { table := "t" } (some (.simple ⟨op, left, right⟩)) [] none

theorem compilers_agree_iff_equal :
    wireAst (rowsWhere .eq (.column "a") (.literal (.int 5))) = true ∧
      Agree (fun _ => []) oneTable (rowsWhere .eq (.column "a") (.literal (.int 5))) false :=
  ⟨by decide, (compilers_agree_iff _ _ _ false (by decide)).mpr (.inr (.inr (.inr (by decide))))⟩

/-- `5 IN ()`: the walker has bound the 5 when it writes the constant in its place. -/
theorem literal_before_empty_list :
    wireAst (rowsWhere .isIn (.literal (.int 5)) (.literal (.array []))) = true ∧
      ¬Agree (fun _ => []) oneTable (rowsWhere .isIn (.literal (.int 5)) (.literal (.array []))) false := by
  refine ⟨by decide, ?_⟩
  intro hagree
  have hrun : (Walker.compileWith oneTable (rowsWhere .isIn (.literal (.int 5)) (.literal (.array []))) false).toOption.map
      (fun r => (sqlLexicon.holes none r.1, r.2.length)) = some (0, 1) := by decide +kernel
  obtain ⟨r, hr, hcounts⟩ := Option.map_eq_some_iff.mp hrun
  cases hw : Walker.compileWith oneTable (rowsWhere .isIn (.literal (.int 5)) (.literal (.array []))) false with
  | error e =>
    rw [hw] at hr
    cases hr
  | ok _ =>
    rw [hw] at hr
    cases hr
    have hholes := (hagree.fill r.1 r.2 hw).1
    rw [Prod.mk.injEq] at hcounts
    omega

end Rindle.Compile
