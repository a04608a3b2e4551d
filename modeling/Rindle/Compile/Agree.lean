/-
  Rindle.Compile.Agree — the two walks, side by side.

  Where both walks succeed, they have drawn the same aliases, and the parameters that the walker
  has pushed fill its text to the Rust text (`Both`). They come in the order in which their
  placeholders stand, since a walk makes each part when its place in the text is next. What is
  pushed may be spoiled: an inherited value has no literal, and a value before an empty list has
  no place.

  - `collection_both`: over every query of the wire grammar.
-/

import Rindle.Compile.Flaws

set_option linter.dupNamespace false

namespace Rindle.Compile

open Lexicon
open Walker (Param Cx sqliteLiteral)

variable {display : F64 → Sql}

/-! ## Parameters -/

/-- The literals of the parameters; none where one has no literal. -/
def literals (display : F64 → Sql) (params : List Param) : Option (List Sql) := params.mapM (sqliteLiteral display)

theorem literals_append (p q : List Param) :
    literals display (p ++ q) = (literals display p).bind fun xs => (literals display q).map (xs ++ ·) := by
  simp only [literals, List.mapM_append]
  cases p.mapM (sqliteLiteral display) with
  | none => rfl
  | some xs =>
    cases q.mapM (sqliteLiteral display) with
    | none => rfl
    | some ys => rfl

variable {p : List Param} {p q : List Param} {sc : SimpleCondition}

theorem literals_append_some {zs : List Sql} (h : literals display (p ++ q) = some zs) :
    ∃ xs ys, literals display p = some xs ∧ literals display q = some ys ∧ zs = xs ++ ys := by
  rw [literals_append] at h
  obtain ⟨xs, hxs, h⟩ := Option.bind_eq_some_iff.mp h
  obtain ⟨ys, hys, h⟩ := Option.map_eq_some_iff.mp h
  exact ⟨xs, ys, hxs, hys, h.symm⟩

/-! ## Fragments -/

/-- The parameters fill the walker's text to the Rust text. -/
def Frag (display : F64 → Sql) (t : Sql) (params : List Param) (t' : Sql) : Prop :=
  ∀ xs, literals display params = some xs → sqlLexicon.Fills t xs t'

def Frags (display : F64 → Sql) (ts : List Sql) (params : List Param) (ts' : List Sql) : Prop :=
  ∀ xs, literals display params = some xs → FillsAll sqlLexicon ts xs ts'

theorem Frag.still {t : Sql} (h : sqlLexicon.Still t) : Frag display t [] t := by
  intro xs hxs
  cases hxs
  exact h

theorem Frag.append {t u t' u' : Sql} (h : Frag display t p t') (hu : Frag display u q u') :
    Frag display (t ++ u) (p ++ q) (t' ++ u') := by
  intro zs hzs
  obtain ⟨xs, ys, hxs, hys, rfl⟩ := literals_append_some hzs
  exact (h xs hxs).append (hu ys hys)

theorem Frag.after {s t t' : Sql} (hs : sqlLexicon.Still s) (h : Frag display t p t') : Frag display (s ++ t) p (s ++ t') :=
  fun xs hxs => fills_after hs (h xs hxs)

theorem Frag.before {s t t' : Sql} (h : Frag display t p t') (hs : sqlLexicon.Still s) : Frag display (t ++ s) p (t' ++ s) :=
  fun xs hxs => fills_before (h xs hxs) hs

theorem Frags.nil : Frags display [] [] [] := by
  intro xs hxs
  cases hxs
  exact .nil

theorem Frags.cons {t t' : Sql} {ts ts' : List Sql} (h : Frag display t p t') (hs : Frags display ts q ts') :
    Frags display (t :: ts) (p ++ q) (t' :: ts') := by
  intro zs hzs
  obtain ⟨xs, ys, hxs, hys, rfl⟩ := literals_append_some hzs
  exact .cons (h xs hxs) (hs ys hys)

theorem Frags.one {t t' : Sql} (h : Frag display t p t') : Frags display [t] p [t'] := by
  have hcons := Frags.cons h Frags.nil
  rwa [List.append_nil] at hcons

theorem Frags.append {ts ts' us us' : List Sql} (h : Frags display ts p ts') (hu : Frags display us q us') :
    Frags display (ts ++ us) (p ++ q) (ts' ++ us') := by
  intro zs hzs
  obtain ⟨xs, ys, hxs, hys, rfl⟩ := literals_append_some hzs
  exact (h xs hxs).append (hu ys hys)

theorem Frags.still {ts : List Sql} (h : ∀ t ∈ ts, sqlLexicon.Still t) : Frags display ts [] ts := by
  intro xs hxs
  cases hxs
  exact stillAll h

/-- What a text is made of may be filled where the text is made. -/
theorem Frags.make {ts ts' : List Sql} {f : List Sql → Sql}
    (hf : ∀ {ts ts' xs}, FillsAll sqlLexicon ts xs ts' → sqlLexicon.Fills (f ts) xs (f ts')) (h : Frags display ts p ts') :
    Frag display (f ts) p (f ts') :=
  fun xs hxs => hf (h xs hxs)

/-! ## Two walks -/

/-- A parameter, and whether its placeholder stands in the text. -/
abbrev Pushed := Param × Bool

def placed (pushed : List Pushed) : List Param := (pushed.filter (·.2)).map Prod.fst

/-- Every parameter stands in the text and has a literal. -/
def clean (display : F64 → Sql) (pushed : List Pushed) : Bool := pushed.all fun x => x.2 && (sqliteLiteral display x.1).isSome

theorem placed_append (l m : List Pushed) : placed (l ++ m) = placed l ++ placed m := by
  simp [placed]

theorem clean_append (l m : List Pushed) : clean display (l ++ m) = (clean display l && clean display m) :=
  List.all_append

/-- The two walks start with the same count of aliases. What the walker pushes is clean unless
    it is said to be `spoiled`; `R` relates the results by the parameters that are placed. -/
def Both {α α' : Type} (display : F64 → Sql) (spoiled : Bool) (R : α → List Param → α' → Prop) (x : Walker.Walk α) (x' : D2s.Walk α') :
    Prop :=
  ∀ cx a cx' a' n', x cx = .ok (a, cx') → x' cx.n = .ok (a', n') →
    cx'.n = n' ∧ ∃ pushed, cx'.params = cx.params ++ pushed.map Prod.fst ∧ spoiled = !clean display pushed ∧ R a (placed pushed) a'

/-- The same result, and no parameters. -/
def Same {α : Type} (a : α) (params : List Param) (a' : α) : Prop := a = a' ∧ params = []

namespace Both

variable {α α' β β' : Type} {f g : Bool}

variable {x : Walker.Walk α} {R : α → List Param → α' → Prop} {S : β → List Param → β' → Prop}

theorem pure {a : α} {a' : α'} (h : R a [] a') :
    Both display false R (Pure.pure a : Walker.Walk α) (Pure.pure a' : D2s.Walk α') := by
  intro cx b cx' b' n' hx hx'
  cases hx
  cases hx'
  exact ⟨rfl, [], (List.append_nil _).symm, rfl, h⟩

theorem bind {x' : D2s.Walk α'}
    {k : α → Walker.Walk β} {k' : α' → D2s.Walk β'} (hx : Both display f R x x')
    (hk : ∀ a p a', R a p a' → Both display g (fun b q b' => S b (p ++ q) b') (k a) (k' a')) :
    Both display (f || g) S (x >>= k) (x' >>= k') := by
  intro cx b cx' b' n' hrun hrun'
  have hbind : (x >>= k) cx = (x cx).bind fun r => k r.1 r.2 := rfl
  have hbind' : (x' >>= k') cx.n = (x' cx.n).bind fun r => k' r.1 r.2 := rfl
  rw [hbind] at hrun
  rw [hbind'] at hrun'
  cases hxs : x cx with
  | error e =>
    rw [hxs] at hrun
    cases hrun
  | ok r =>
    cases hxs' : x' cx.n with
    | error e =>
      rw [hxs'] at hrun'
      cases hrun'
    | ok r' =>
      obtain ⟨a, cx₁⟩ := r
      obtain ⟨a', n₁⟩ := r'
      rw [hxs] at hrun
      rw [hxs'] at hrun'
      obtain ⟨hn, l, hl, hspoiled, hR⟩ := hx cx a cx₁ a' n₁ hxs hxs'
      have hrun' : k' a' cx₁.n = .ok (b', n') := by
        rw [hn]
        exact hrun'
      obtain ⟨hn', m, hm, hspoiled', hS⟩ := hk a (placed l) a' hR cx₁ b cx' b' n' hrun hrun'
      refine ⟨hn', l ++ m, by rw [hm, hl, List.map_append, List.append_assoc], ?_, ?_⟩
      · rw [hspoiled, hspoiled', clean_append, Bool.not_and]
      · rw [placed_append]
        exact hS

theorem map {x' : D2s.Walk α'} {h : α → β}
    {h' : α' → β'} (hx : Both display f R x x') (hRS : ∀ a p a', R a p a' → S (h a) p (h' a')) :
    Both display f S (x >>= fun a => Pure.pure (h a)) (x' >>= fun a => Pure.pure (h' a)) := by
  have hb : Both display (f || false) S (x >>= fun a => Pure.pure (h a)) (x' >>= fun a => Pure.pure (h' a)) := by
    refine hx.bind ?_
    intro a p a' hR
    exact .pure (by rw [List.append_nil]; exact hRS a p a' hR)
  rwa [Bool.or_false] at hb

/-- A walk of the walker where the Rust compiler only spells. -/
theorem left {a' : α'}
    {k : α → Walker.Walk β} {y' : D2s.Walk β'} (hx : Both display f R x (Pure.pure a'))
    (hk : ∀ a p, R a p a' → Both display g (fun b q b' => S b (p ++ q) b') (k a) y') : Both display (f || g) S (x >>= k) y' := by
  have hR : Both display f (fun a p b' => R a p b' ∧ b' = a') x (Pure.pure a') := by
    intro cx a cx' b' n' hrun hrun'
    obtain ⟨hn, l, hl, hspoiled, hR⟩ := hx cx a cx' b' n' hrun hrun'
    cases hrun'
    exact ⟨hn, l, hl, hspoiled, hR, rfl⟩
  have hb : Both display (f || g) S (x >>= k) ((Pure.pure a' : D2s.Walk α') >>= fun _ => y') := by
    refine hR.bind ?_
    intro a p b' hab
    obtain ⟨hab, rfl⟩ := hab
    exact hk a p hab
  rwa [pure_bind] at hb

theorem leftMap {a' : α'} {h : α → β} {b' : β'}
    (hx : Both display f R x (Pure.pure a')) (hRS : ∀ a p, R a p a' → S (h a) p b') :
    Both display f S (x >>= fun a => Pure.pure (h a)) (Pure.pure b') := by
  have hb : Both display (f || false) S (x >>= fun a => Pure.pure (h a)) (Pure.pure b') := by
    refine hx.left ?_
    intro a p hR
    exact .pure (by rw [List.append_nil]; exact hRS a p hR)
  rwa [Bool.or_false] at hb

theorem cast {R S : α → List Param → α' → Prop} {x' : D2s.Walk α'} (h : Both display f R x x') (hfg : f = g)
    (hRS : ∀ a p a', R a p a' → S a p a') : Both display g S x x' := by
  subst hfg
  intro cx a cx' a' n' hx hx'
  obtain ⟨hn, l, hl, hspoiled, hR⟩ := h cx a cx' a' n' hx hx'
  exact ⟨hn, l, hl, hspoiled, hRS a _ a' hR⟩

/-- One of the walks fails. -/
theorem of_throw (e : CompileError) (x' : D2s.Walk α') :
    Both display f R (MonadExcept.throw e : Walker.Walk α) x' := by
  intro cx a cx' a' n' hx
  cases hx

theorem of_throw' (x : Walker.Walk α) (e : CompileError) :
    Both display f R x (MonadExcept.throw e : D2s.Walk α') := by
  intro cx a cx' a' n' _ hx'
  cases hx'

end Both

/-! ## Leaves -/

variable (table : String)

theorem freshAlias_both : Both display false Same (Walker.freshAlias table) (D2s.freshAlias table) := by
  intro cx a cx' a' n' hx hx'
  cases hx
  cases hx'
  exact ⟨rfl, [], (List.append_nil _).symm, rfl, rfl, rfl⟩

/-- A scalar is bound where the Rust compiler spells it. -/
theorem bindValue_both {lit : Lit} (h : Lit.isScalar lit = true) :
    Both display false (Frag display) (Walker.bindValue (.scalar lit)) (pure (D2s.inlineLit display lit)) := by
  have hpush : ∃ native, (∀ cx, Walker.bindValue (.scalar lit) cx = .ok (utf8 "?", { cx with params := cx.params ++ [native] })) ∧
      sqliteLiteral display native = some (D2s.inlineLit display lit) := by
    cases lit with
    | null => exact ⟨.scalar .null, fun _ => rfl, rfl⟩
    | bool b =>
      cases b with
      | true => exact ⟨.scalar (.int 1), fun _ => rfl, congrArg some (show decimalInt (1 : Int64).toInt = utf8 "1" by rfl)⟩
      | false => exact ⟨.scalar (.int 0), fun _ => rfl, congrArg some (show decimalInt (0 : Int64).toInt = utf8 "0" by rfl)⟩
    | int i => exact ⟨.scalar (.int i), fun _ => rfl, rfl⟩
    | number n => exact ⟨.scalar (.number n), fun _ => rfl, rfl⟩
    | str s => exact ⟨.scalar (.str s), fun _ => rfl, rfl⟩
    | array items => cases h
  obtain ⟨native, hrun, hlit⟩ := hpush
  intro cx a cx' a' n' hx hx'
  rw [hrun cx] at hx
  cases hx
  cases hx'
  refine ⟨rfl, [(native, true)], rfl, by simp [clean, hlit], ?_⟩
  intro xs hxs
  have hxs : xs = [D2s.inlineLit display lit] := by
    simp only [placed, literals, List.filter_cons, List.filter_nil, if_true, List.map_cons, List.map_nil, List.mapM_cons, List.mapM_nil, hlit] at hxs
    exact (Option.some.inj hxs).symm
  rw [hxs]
  exact fills_hole _

/-- What is inherited is bound all the same. -/
theorem bindValue_inherited (name : String) :
    Both display true (fun _ p _ => literals display p = none) (Walker.bindValue (.inherited name)) (pure ()) := by
  intro cx a cx' a' n' hx hx'
  cases hx
  cases hx'
  exact ⟨rfl, [(.inherited name, true)], rfl, rfl, rfl⟩

theorem Frag.of_none (h : literals display p = none) (t t' : Sql) : Frag display t p t' := by
  intro xs hxs
  rw [h] at hxs
  cases hxs

/-- A value whose place in the text is given up. -/
theorem bindValue_dropped (value : Param) : Both display true (fun _ p _ => p = []) (Walker.bindValue value) (pure ()) := by
  intro cx a cx' a' n' hx hx'
  cases hx'
  cases hx
  exact ⟨rfl, [(_, false)], rfl, rfl, rfl⟩

variable {catalog : Catalog}

theorem columns_both : Both display false Same (Walker.columnsOf catalog table) (D2s.columns catalog table) := by
  unfold Walker.columnsOf D2s.columns
  cases catalog.tables table with
  | none => exact .of_throw' _ _
  | some t => exact .pure ⟨rfl, rfl⟩

theorem cardinality_both (table rel : String) :
    Both display false Same (Walker.cardinalityOf catalog table rel) (D2s.cardinality catalog table rel) := by
  unfold Walker.cardinalityOf D2s.cardinality
  cases catalog.tables table with
  | none => exact .of_throw' _ _
  | some t =>
    simp only [Option.bind_some]
    cases hrel : t.relationships rel with
    | none => exact .of_throw' _ _
    | some card =>
      rw [Walker.record_some]
      simp only [hrel, Walker.record_some]
      exact .pure ⟨rfl, rfl⟩

/-- A lookup that binds nothing. -/
theorem columnTypeOf_both : Both display false (fun _ p _ => p = []) (Walker.columnTypeOf catalog table) (pure ()) := by
  unfold Walker.columnTypeOf
  split
  · exact .pure rfl
  · exact .of_throw _ _
  · exact .pure rfl

theorem colTypeOf_both (vp : ValuePosition) :
    Both display false (fun _ p _ => p = []) (Walker.colTypeOf catalog table vp) (pure ()) := by
  cases vp with
  | column name => exact columnTypeOf_both table
  | literal value => exact .pure rfl

theorem orderTypes_both (order : List (String × Dir)) :
    Both display false (fun _ p _ => p = []) (Walker.orderTypes catalog table order) (pure ()) := by
  induction order with
  | nil => exact .pure rfl
  | cons op order ih =>
    refine (columnTypeOf_both table).left ?_
    intro _ p hp
    subst hp
    exact ih

/-! ## Comparisons -/

theorem valuePos_both {vp : ValuePosition} (h : ValuePosition.isScalar vp = true) (aliasName : String) :
    Both display false (Frag display) (Walker.valuePos vp aliasName) (pure (D2s.valuePos display vp aliasName)) := by
  cases vp with
  | column name => exact .pure (.still (still_columnRef aliasName name))
  | literal value => exact bindValue_both h

theorem isRhs_both {vp : ValuePosition} (h : ValuePosition.isScalar vp = true) (aliasName : String) :
    Both display false (Frag display) (Walker.isRhs vp aliasName) (pure (D2s.valuePos display vp aliasName)) := by
  unfold Walker.isRhs
  split
  · exact .pure (.still (still_utf8 (by rfl)))
  · exact .pure (.still (still_utf8 (by rfl)))
  · exact .pure (.still (still_utf8 (by rfl)))
  · exact valuePos_both h aliasName

theorem bindAll_both {items : List Lit} (h : ∀ item ∈ items, Lit.isScalar item = true) :
    Both display false (Frags display) (Walker.bindAll items) (pure (D2s.inlineLits display items)) := by
  induction items with
  | nil => exact .pure .nil
  | cons item items ih =>
    refine (bindValue_both (h item (List.mem_cons_self ..))).left ?_
    intro v p hv
    refine (ih fun i hi => h i (List.mem_cons_of_mem _ hi)).leftMap ?_
    intro vs q hvs
    exact .cons hv hvs

/-- An operator between two values. -/
theorem between_both {l l' mid : Sql} {r' : Sql} {r : Walker.Walk Sql} (hr : Both display false (Frag display) r (pure r'))
    (hmid : sqlLexicon.Still mid) (hl : Frag display l p l') :
    Both display false (fun t q t' => Frag display t (p ++ q) t') (r >>= fun v => pure (l ++ (mid ++ v))) (pure (l' ++ (mid ++ r'))) := by
  refine hr.leftMap ?_
  intro v q hv
  exact hl.append (hv.after hmid)

/-- The same with a text after it. -/
theorem within_both {l l' mid close : Sql} {r' : Sql} {r : Walker.Walk Sql}
    (hr : Both display false (Frag display) r (pure r')) (hmid : sqlLexicon.Still mid) (hclose : sqlLexicon.Still close) (hl : Frag display l p l') :
    Both display false (fun t q t' => Frag display t (p ++ q) t') (r >>= fun v => pure (l ++ (mid ++ v ++ close)))
      (pure (l' ++ (mid ++ r' ++ close))) := by
  refine hr.leftMap ?_
  intro v q hv
  exact hl.append ((hv.after hmid).before hclose)

/-- An empty list leaves nothing of the comparison, so then nothing may have been bound for it. -/
theorem inSql_both {lhs lhs' : Sql} {right : ValuePosition} (op : CondOp) (hop : op = .isIn ∨ op = .notIn)
    (hright : rightFits op right = true) (hplace : ofNothing op right = true → p = []) (hl : Frag display lhs p lhs') (aliasName : String)
    (negate : Bool) : Both display false (fun t q t' => Frag display t (p ++ q) t') (Walker.inSql lhs right aliasName negate)
      (pure (D2s.inSql display lhs' right aliasName negate)) := by
  have hscalar : ∀ {vp}, ValuePosition.isScalar vp = true →
      Both display false (fun t q t' => Frag display t (p ++ q) t')
        (Walker.valuePos vp aliasName >>= fun r => pure (if negate then lhs ++ (utf8 " != " ++ r) else lhs ++ (utf8 " = " ++ r)))
        (pure (if negate then lhs' ++ (utf8 " != " ++ D2s.valuePos display vp aliasName)
          else lhs' ++ (utf8 " = " ++ D2s.valuePos display vp aliasName))) := by
    intro vp hvp
    refine (valuePos_both hvp aliasName).leftMap ?_
    intro r q hr
    cases negate with
    | true => exact hl.append (hr.after (still_utf8 (by rfl)))
    | false => exact hl.append (hr.after (still_utf8 (by rfl)))
  cases right with
  | column name => exact hscalar rfl
  | literal value =>
    cases value with
    | array items =>
      have hitems : ∀ item ∈ items, Lit.isScalar item = true := by
        rcases hop with rfl | rfl
        · exact List.all_eq_true.mp hright
        · exact List.all_eq_true.mp hright
      cases items with
      | nil =>
        have hp : p = [] := by
          rcases hop with rfl | rfl
          · exact hplace rfl
          · exact hplace rfl
        subst hp
        cases negate with
        | true => exact .pure (.still (still_utf8 (by rfl)))
        | false => exact .pure (.still (still_utf8 (by rfl)))
      | cons item items =>
        refine (bindAll_both hitems).leftMap ?_
        intro vs q hvs
        refine hl.append (((hvs.make fills_commaJoin).after ?_).before (still_utf8 (by rfl)))
        cases negate with
        | true => exact Still.append (Still.append (still_utf8 (by rfl)) (still_utf8 (by rfl))) (still_utf8 (by rfl))
        | false => exact Still.append (Still.append (still_utf8 (by rfl)) (still_utf8 (by rfl))) (still_utf8 (by rfl))
    | null => exact hscalar (by rcases hop with rfl | rfl <;> exact hright)
    | bool b => exact hscalar (by rcases hop with rfl | rfl <;> exact hright)
    | int i => exact hscalar (by rcases hop with rfl | rfl <;> exact hright)
    | number n => exact hscalar (by rcases hop with rfl | rfl <;> exact hright)
    | str s => exact hscalar (by rcases hop with rfl | rfl <;> exact hright)

/-- A comparison that is not left out. -/
theorem comparisonSql_placed (hleft : ValuePosition.isScalar sc.left = true) (hright : rightFits sc.op sc.right = true)
    (hplace : (!ValuePosition.isColumn sc.left && ofNothing sc.op sc.right) = false) (aliasName : String) :
    Both display false (Frag display) (Walker.comparisonSql sc aliasName) (pure (D2s.simpleSql display sc aliasName)) := by
  obtain ⟨op, left, right⟩ := sc
  have hbound : Both display false (fun l p l' => Frag display l p l' ∧ (ofNothing op right = true → p = [])) (Walker.valuePos left aliasName)
      (pure (D2s.valuePos display left aliasName)) := by
    cases left with
    | column name => exact .pure ⟨.still (still_columnRef aliasName name), fun _ => rfl⟩
    | literal value =>
      refine (bindValue_both hleft).cast rfl ?_
      intro l p l' hl
      refine ⟨hl, fun hnothing => ?_⟩
      have hplace : (true && ofNothing op right) = false := hplace
      rw [hnothing] at hplace
      cases hplace
  refine hbound.left ?_
  intro l p hl
  obtain ⟨hl, hnothing⟩ := hl
  have hscalar : op ≠ .isIn → op ≠ .notIn → ValuePosition.isScalar right = true := by
    intro hin hnotIn
    cases op with
    | isIn => exact absurd rfl hin
    | notIn => exact absurd rfl hnotIn
    | _ => exact hright
  have hlower : Frag display (utf8 "lower(" ++ l) p (utf8 "lower(" ++ D2s.valuePos display left aliasName) :=
    hl.after (still_utf8 (by rfl))
  cases op with
  | isIn => exact inSql_both .isIn (.inl rfl) hright hnothing hl aliasName false
  | notIn => exact inSql_both .notIn (.inr rfl) hright hnothing hl aliasName true
  | is => exact between_both (isRhs_both (hscalar (by decide) (by decide)) aliasName) (still_utf8 (by rfl)) hl
  | isNot => exact between_both (isRhs_both (hscalar (by decide) (by decide)) aliasName) (still_utf8 (by rfl)) hl
  | like => exact within_both (valuePos_both (hscalar (by decide) (by decide)) aliasName) (still_utf8 (by rfl)) still_escape.1 hl
  | notLike => exact within_both (valuePos_both (hscalar (by decide) (by decide)) aliasName) (still_utf8 (by rfl)) still_escape.1 hl
  | iLike => exact within_both (valuePos_both (hscalar (by decide) (by decide)) aliasName) (still_utf8 (by rfl)) still_escape.2 hlower
  | notILike => exact within_both (valuePos_both (hscalar (by decide) (by decide)) aliasName) (still_utf8 (by rfl)) still_escape.2 hlower
  | _ => exact between_both (valuePos_both (hscalar (by decide) (by decide)) aliasName) (still_utf8 (by rfl)) hl

theorem ofNothing_eq {op : CondOp} {right : ValuePosition} (h : ofNothing op right = true) :
    (op = .isIn ∨ op = .notIn) ∧ right = .literal (.array []) := by
  unfold ofNothing at h
  split at h
  · rw [List.isEmpty_iff.mp h]
    exact ⟨.inl rfl, rfl⟩
  · rw [List.isEmpty_iff.mp h]
    exact ⟨.inr rfl, rfl⟩
  · cases h

/-- A literal before an empty list is bound, and its place is given up. -/
theorem comparisonSql_dropped (hplace : (!ValuePosition.isColumn sc.left && ofNothing sc.op sc.right) = true)
    (aliasName : String) : Both display true (Frag display) (Walker.comparisonSql sc aliasName) (pure (D2s.simpleSql display sc aliasName)) := by
  obtain ⟨op, left, right⟩ := sc
  obtain ⟨hleft, hnothing⟩ := Bool.and_eq_true_iff.mp hplace
  cases left with
  | column name => cases hleft
  | literal value =>
    obtain ⟨hop, rfl⟩ := ofNothing_eq hnothing
    refine (bindValue_dropped (.scalar value)).left (g := false) ?_
    intro _ p hp
    subst hp
    rcases hop with rfl | rfl
    · exact .pure (.still (still_utf8 (by rfl)))
    · exact .pure (.still (still_utf8 (by rfl)))

theorem simpleSql_both (hwire : wireCondition (.simple sc) = true) (table aliasName : String) :
    Both display (comparisonFlaws catalog sc table).spoiled (Frag display) (Walker.simpleSql catalog sc table aliasName)
      (pure (D2s.simpleSql display sc aliasName)) := by
  obtain ⟨hleft, hright⟩ := Bool.and_eq_true_iff.mp hwire
  have hspoiled : (comparisonFlaws catalog sc table).spoiled = (!ValuePosition.isColumn sc.left && ofNothing sc.op sc.right) := rfl
  refine Both.cast (f := false || (false || (!ValuePosition.isColumn sc.left && ofNothing sc.op sc.right))) ?_ (by rw [hspoiled]; rfl)
    (fun _ _ _ h => h)
  refine (colTypeOf_both table sc.left).left ?_
  intro _ p hp
  subst hp
  refine (colTypeOf_both table sc.right).left ?_
  intro _ q hq
  subst hq
  cases hplace : !ValuePosition.isColumn sc.left && ofNothing sc.op sc.right with
  | false => exact comparisonSql_placed hleft hright hplace aliasName
  | true => exact comparisonSql_dropped hplace aliasName

/-! ## The keyset predicate -/

/-- The column's value of a bound: the same in both, but for what is inherited. -/
theorem boundValue_cases {start : AstBound} (hwire : start.row.all (fun p => Lit.isScalar p.2) = true) (field : String) :
    (inherits (start.row.lookup field) field = false ∧ Walker.boundValue start field = none ∧ D2s.boundValue start field = none) ∨
    (∃ lit, inherits (start.row.lookup field) field = false ∧ Lit.isScalar lit = true ∧
      Walker.boundValue start field = some (.scalar lit) ∧ D2s.boundValue start field = some lit) ∨
    (inherits (start.row.lookup field) field = true ∧ Walker.boundValue start field = some (.inherited field)) := by
  unfold Walker.boundValue D2s.boundValue inherits
  cases hlookup : start.row.lookup field with
  | none =>
    rw [Walker.record_none]
    by_cases h : field ∈ Walker.objectPrototype
    · refine .inr (.inr ⟨by simp [h], ?_⟩)
      rw [if_pos h]
    · refine .inl ⟨by simp [h], ?_, rfl⟩
      rw [if_neg h]
  | some lit =>
    rw [Walker.record_some]
    have hscalar : Lit.isScalar lit = true := by
      obtain ⟨l₁, l₂, hsplit, -⟩ := List.lookup_eq_some_iff.mp hlookup
      exact List.all_eq_true.mp hwire (field, lit) (by rw [hsplit]; simp)
    cases lit with
    | null => exact .inl ⟨rfl, rfl, rfl⟩
    | array items => cases hscalar
    | bool b => exact .inr (.inl ⟨_, rfl, hscalar, rfl, rfl⟩)
    | int i => exact .inr (.inl ⟨_, rfl, hscalar, rfl, rfl⟩)
    | number n => exact .inr (.inl ⟨_, rfl, hscalar, rfl, rfl⟩)
    | str s => exact .inr (.inl ⟨_, rfl, hscalar, rfl, rfl⟩)

section
variable {start : AstBound} (hwire : start.row.all (fun p => Lit.isScalar p.2) = true) (aliasName : String)

include hwire

theorem beforeSql_both (field : String) (asc : Bool) :
    Both display (inherits (start.row.lookup field) field) (Frag display)
      (Walker.beforeSql (columnRef aliasName field) asc (Walker.boundValue start field))
      (pure (D2s.beforeSql display (columnRef aliasName field) asc (D2s.boundValue start field))) := by
  have hx := still_columnRef aliasName field
  rcases boundValue_cases hwire field with ⟨hi, hw, hd⟩ | ⟨lit, hi, hscalar, hw, hd⟩ | ⟨hi, hw⟩
  · rw [hi, hw, hd]
    cases asc with
    | true => exact .pure (.still (Still.append hx (still_utf8 (by rfl))))
    | false => exact .pure (.still (still_utf8 (by rfl)))
  · rw [hi, hw, hd]
    refine (bindValue_both hscalar).leftMap ?_
    intro v p hv
    cases asc with
    | true => exact hv.before (Still.append (still_utf8 (by rfl)) hx)
    | false =>
      refine (hv.after ?_).before (Still.append (Still.append (still_utf8 (by rfl)) hx) (still_utf8 (by rfl)))
      exact Still.append (Still.append (still_utf8 (by rfl)) hx) (still_utf8 (by rfl))
  · rw [hi, hw]
    refine (bindValue_inherited field).leftMap ?_
    intro v p hp
    exact .of_none hp _ _

theorem columnEq_both (op : String × Dir) :
    Both display (inherits (start.row.lookup op.1) op.1) (Frag display) (Walker.columnEq start aliasName op)
      (pure (D2s.eqSql display (columnRef aliasName op.1) (D2s.boundValue start op.1))) := by
  have hx := still_columnRef aliasName op.1
  unfold Walker.columnEq
  rcases boundValue_cases hwire op.1 with ⟨hi, hw, hd⟩ | ⟨lit, hi, hscalar, hw, hd⟩ | ⟨hi, hw⟩
  · rw [hi, hw, hd]
    exact .pure (.still (Still.append hx (still_utf8 (by rfl))))
  · rw [hi, hw, hd]
    refine (bindValue_both hscalar).leftMap ?_
    intro v p hv
    exact hv.after (Still.append hx (still_utf8 (by rfl)))
  · rw [hi, hw]
    refine (bindValue_inherited op.1).leftMap ?_
    intro v p hp
    exact .of_none hp _ _

/-- The equalities of some columns, as the Rust compiler spells them. -/
def eqTexts (display : F64 → Sql) (start : AstBound) (aliasName : String) (order : List (String × Dir)) : List Sql :=
  order.map fun op => D2s.eqSql display (columnRef aliasName op.1) (D2s.boundValue start op.1)

theorem eqSqls_both (order : List (String × Dir)) :
    Both display (order.any fun op => inherits (start.row.lookup op.1) op.1) (Frags display) (Walker.eqSqls start aliasName order)
      (pure (eqTexts display start aliasName order)) := by
  induction order with
  | nil => exact .pure .nil
  | cons op order ih =>
    rw [List.any_cons]
    refine (columnEq_both hwire aliasName op).left ?_
    intro e p he
    refine ih.leftMap ?_
    intro es q hes
    exact .cons he hes

omit hwire in
/-- The Rust loop carries the equalities of the columns it has passed. -/
theorem startTerms_allEq (done order : List (String × Dir)) :
    (D2s.startTerms display start aliasName (eqTexts display start aliasName done) order).2 = eqTexts display start aliasName (done ++ order) := by
  induction order generalizing done with
  | nil => rw [List.append_nil]; rfl
  | cons op order ih =>
    have hnext := ih (done ++ [op])
    rw [show eqTexts display start aliasName (done ++ [op]) = eqTexts display start aliasName done ++
      [D2s.eqSql display (columnRef aliasName op.1) (D2s.boundValue start op.1)] by simp [eqTexts]] at hnext
    rw [List.append_assoc] at hnext
    exact hnext

theorem startTerms_both (done order : List (String × Dir)) :
    Both display (!order.isEmpty && (done ++ order).any fun op => inherits (start.row.lookup op.1) op.1) (Frags display)
      (Walker.startTerms start aliasName done order)
      (pure (D2s.startTerms display start aliasName (eqTexts display start aliasName done) order).1) := by
  induction order generalizing done with
  | nil => exact .pure .nil
  | cons op order ih =>
    have hnext := ih (done ++ [op])
    rw [show eqTexts display start aliasName (done ++ [op]) = eqTexts display start aliasName done ++
      [D2s.eqSql display (columnRef aliasName op.1) (D2s.boundValue start op.1)] by simp [eqTexts]] at hnext
    have hloop : Both display ((done.any fun op => inherits (start.row.lookup op.1) op.1) || (inherits (start.row.lookup op.1) op.1 ||
        (!order.isEmpty && (done ++ [op] ++ order).any fun op => inherits (start.row.lookup op.1) op.1))) (Frags display)
        (Walker.startTerms start aliasName done (op :: order))
        (pure (D2s.startTerms display start aliasName (eqTexts display start aliasName done) (op :: order)).1) := by
      refine (eqSqls_both hwire aliasName done).left ?_
      intro conj p hconj
      refine (beforeSql_both hwire aliasName op.1 (op.2 = .asc)).left ?_
      intro before q hbefore
      refine hnext.leftMap ?_
      intro orTerms r hterms
      rw [← List.append_assoc]
      refine .cons ?_ hterms
      exact (((hconj.append (.one hbefore)).make fills_andJoin).after (still_utf8 (by rfl))).before (still_utf8 (by rfl))
    refine hloop.cast ?_ (fun _ _ _ h => h)
    simp only [List.any_append, List.any_cons, List.any_nil, Bool.or_false, List.isEmpty_cons, Bool.not_false, Bool.true_and]
    cases order with
    | nil => simp
    | cons op' order =>
      simp only [List.isEmpty_cons, Bool.not_false, Bool.true_and]
      cases done.any fun op => inherits (start.row.lookup op.1) op.1 <;> cases inherits (start.row.lookup op.1) op.1 <;> simp

theorem startSql_both (order : List (String × Dir)) :
    Both display (order.any fun op => inherits (start.row.lookup op.1) op.1) (Frag display) (Walker.startSql start order aliasName)
      (pure (D2s.startSql display start order aliasName)) := by
  cases order with
  | nil => exact .pure (.still (still_utf8 (by rfl)))
  | cons op order =>
    have hterms : Both display ((op :: order).any fun op => inherits (start.row.lookup op.1) op.1) (Frags display)
        (Walker.startTerms start aliasName [] (op :: order)) (pure (D2s.startTerms display start aliasName [] (op :: order)).1) :=
      startTerms_both hwire aliasName [] (op :: order)
    have hallEq : (D2s.startTerms display start aliasName [] (op :: order)).2 = eqTexts display start aliasName (op :: order) :=
      startTerms_allEq aliasName [] (op :: order)
    have hspell : D2s.startSql display start (op :: order) aliasName =
        if start.exclusive then utf8 "(" ++ Lexicon.join (utf8 " OR ") (D2s.startTerms display start aliasName [] (op :: order)).1 ++ utf8 ")"
        else utf8 "(" ++ (utf8 "(" ++ Lexicon.join (utf8 " OR ") (D2s.startTerms display start aliasName [] (op :: order)).1 ++ utf8 ")") ++
          (utf8 " OR (" ++ andJoin (D2s.startTerms display start aliasName [] (op :: order)).2 ++ utf8 "))") := rfl
    have hstrict : ∀ {ts p ts'}, Frags display ts p ts' →
        Frag display (utf8 "(" ++ Lexicon.join (utf8 " OR ") ts ++ utf8 ")") p (utf8 "(" ++ Lexicon.join (utf8 " OR ") ts' ++ utf8 ")") := by
      intro ts p ts' h
      refine (Frag.after (still_utf8 (by rfl)) (h.make ?_)).before (still_utf8 (by rfl))
      exact FillsAll.join (still_utf8 (by rfl))
    rw [hspell, hallEq]
    cases hex : start.exclusive with
    | true =>
      have hrun : Walker.startSql start (op :: order) aliasName = Walker.startTerms start aliasName [] (op :: order) >>= fun orTerms =>
          pure (utf8 "(" ++ Lexicon.join (utf8 " OR ") orTerms ++ utf8 ")") := by
        simp only [Walker.startSql, hex, if_true]
        rfl
      rw [hrun]
      exact hterms.leftMap fun _ _ h => hstrict h
    | false =>
      have hrun : Walker.startSql start (op :: order) aliasName = Walker.startTerms start aliasName [] (op :: order) >>= fun orTerms =>
          Walker.eqSqls start aliasName (op :: order) >>= fun allEq =>
            pure (utf8 "(" ++ (utf8 "(" ++ Lexicon.join (utf8 " OR ") orTerms ++ utf8 ")") ++ (utf8 " OR (" ++ andJoin allEq ++ utf8 "))")) := by
        simp only [Walker.startSql, hex]
        rfl
      rw [hrun]
      refine Both.cast (hterms.left (S := Frag display) ?_) (Bool.or_self _) (fun _ _ _ h => h)
      intro orTerms p hor
      refine (eqSqls_both hwire aliasName (op :: order)).leftMap ?_
      intro allEq q heq
      refine ((hstrict hor).after (still_utf8 (by rfl))).append ?_
      exact (Frag.after (still_utf8 (by rfl)) (heq.make fills_andJoin)).before (still_utf8 (by rfl))

end

/-! ## Conditions -/

theorem still_correlateSql (parentAlias childAlias : String) (corr : Correlation) :
    sqlLexicon.Still (D2s.correlateSql parentAlias childAlias corr) := by
  refine fills_andJoin (stillAll ?_)
  intro t ht
  obtain ⟨⟨p, c⟩, -, rfl⟩ := List.mem_map.mp ht
  exact Still.append (Still.append (still_columnRef _ _) (still_utf8 (by rfl))) (still_columnRef _ _)

theorem correlateSql_both {corr : Correlation} (h : Correlation.fits corr = true) (parentAlias childAlias : String) :
    Both display false (Frag display) (Walker.correlateSql parentAlias childAlias corr) (pure (D2s.correlateSql parentAlias childAlias corr)) := by
  have hlen : corr.parentField.length = corr.childField.length := by simpa [Correlation.fits] using h
  unfold Walker.correlateSql
  rw [if_neg (by omega)]
  exact .pure (.still (still_correlateSql parentAlias childAlias corr))

theorem still_zero : sqlLexicon.Still (utf8 "0") := still_utf8 (by rfl)

theorem still_one : sqlLexicon.Still (utf8 "1") := still_utf8 (by rfl)

mutual

theorem whereSql_both : ∀ (c : Condition) (table aliasName : String), wireCondition c = true →
    Both display (conditionFlaws catalog c table).spoiled (Frag display) (Walker.whereSql catalog c table aliasName)
      (D2s.whereSql display c aliasName)
  | .simple sc, table, aliasName, h => simpleSql_both h table aliasName
  | .and conditions, table, aliasName, h => by
    refine (whereSqls_both conditions table aliasName h).map ?_
    intro ts p ts' hts
    exact hts.make (f := connective "1" " AND ") fun h => fills_connective h still_one (still_utf8 (by rfl))
  | .or conditions, table, aliasName, h => by
    refine (whereSqls_both conditions table aliasName h).map ?_
    intro ts p ts' hts
    exact hts.make (f := connective "0" " OR ") fun h => fills_connective h still_zero (still_utf8 (by rfl))
  | .correlatedSubquery ⟨correlation, .mk head (some w) related having, _⟩ flags, _, parentAlias, h => by
    obtain ⟨hcorr, hsub⟩ := Bool.and_eq_true_iff.mp h
    rw [wireAst_mk, Bool.and_eq_true, Bool.and_eq_true] at hsub
    refine (freshAlias_both head.table).bind ?_
    intro aliasName _ _ hsame
    obtain ⟨rfl, rfl⟩ := hsame
    refine (correlateSql_both hcorr parentAlias aliasName).left ?_
    intro corr p hp
    refine (whereSql_both w head.table aliasName hsub.1.2).map ?_
    intro t q t' ht
    exact fun xs hxs => fills_existsText flags.op (fills_after (still_utf8 (by rfl))
      (fills_correlated ((Frags.cons hp (.one ht)) xs hxs) head.table aliasName))
  | .correlatedSubquery ⟨correlation, .mk head none _ _, _⟩ flags, _, parentAlias, h => by
    obtain ⟨hcorr, -⟩ := Bool.and_eq_true_iff.mp h
    refine (freshAlias_both head.table).bind ?_
    intro aliasName _ _ hsame
    obtain ⟨rfl, rfl⟩ := hsame
    refine (correlateSql_both hcorr parentAlias aliasName).leftMap ?_
    intro corr p hp
    exact fun xs hxs => fills_existsText flags.op (fills_after (still_utf8 (by rfl))
      (fills_correlated ((Frags.one hp) xs hxs) head.table aliasName))

theorem whereSqls_both : ∀ (conditions : List Condition) (table aliasName : String), wireConditions conditions = true →
    Both display (conditionsFlaws catalog conditions table).spoiled (Frags display) (Walker.whereSqls catalog conditions table aliasName)
      (D2s.whereSqls display conditions aliasName)
  | [], _, _, _ => .pure .nil
  | c :: conditions, table, aliasName, h => by
    obtain ⟨hc, hrest⟩ := Bool.and_eq_true_iff.mp h
    rw [conditionsFlaws, Flaws.append_spoiled]
    refine (whereSql_both c table aliasName hc).bind ?_
    intro t p t' ht
    refine (whereSqls_both conditions table aliasName hrest).map ?_
    intro ts q ts' hts
    exact .cons ht hts

end

theorem whereConds_both {where? : Option Condition} (h : wireWhere where? = true) (table aliasName : String) :
    Both display (whereFlaws catalog where? table).spoiled (Frags display) (Walker.whereConds catalog where? table aliasName)
      (D2s.whereConds display where? aliasName) := by
  cases where? with
  | some w => exact (whereSql_both w table aliasName h).map fun _ _ _ ht => .one ht
  | none => exact .pure .nil

/-! ## Collections -/

theorem countExpr_both {correlation : Correlation} {sub : Ast} (hcorr : Correlation.fits correlation = true)
    (hwhere : wireWhere sub.where? = true) (parentAlias : String) :
    Both display (whereFlaws catalog sub.where? sub.table).spoiled (Frag display) (Walker.countExpr catalog correlation sub parentAlias)
      (D2s.aggExpr display correlation sub parentAlias .count) := by
  refine (freshAlias_both sub.table).bind ?_
  intro aliasName _ _ hsame
  obtain ⟨rfl, rfl⟩ := hsame
  refine (correlateSql_both hcorr parentAlias aliasName).left ?_
  intro corr p hp
  refine (whereConds_both hwhere sub.table aliasName).map ?_
  intro ts q ts' hts xs hxs
  refine fills_before (fills_after ?_ (fills_correlated ((Frags.cons hp hts) xs hxs) sub.table aliasName)) (still_utf8 (by rfl))
  exact Still.append (Still.append (still_utf8 (by rfl)) (still_utf8 (by rfl))) (still_utf8 (by rfl))

theorem startConds_both {head : AstHead} (h : AstHead.fits head = true) (aliasName : String) :
    Both display (boundFlaws catalog head).spoiled (Frags display) (Walker.startConds catalog head aliasName)
      (pure (D2s.startConds display head aliasName)) := by
  unfold Walker.startConds D2s.startConds boundFlaws
  have hrow := (Bool.and_eq_true_iff.mp h).1
  cases hstart : head.start with
  | none => exact .pure .nil
  | some start =>
    simp only [hstart] at hrow
    refine Both.cast (f := false || head.orderBy.any fun op => inherits (start.row.lookup op.1) op.1) ?_ (by simp [Flaws.spoiled])
      (fun _ _ _ h => h)
    refine (orderTypes_both head.table head.orderBy).left ?_
    intro _ p hp
    subst hp
    exact (startSql_both hrow aliasName head.orderBy).leftMap fun _ _ ht => .one ht

theorem correlateConds_both {correlate : Option (String × Correlation)} (h : ∀ c ∈ correlate, Correlation.fits c.2 = true)
    (aliasName : String) : Both display false (Frags display) (Walker.correlateConds correlate aliasName)
      (pure (D2s.correlateConds correlate aliasName)) := by
  cases correlate with
  | none => exact .pure .nil
  | some c => exact (correlateSql_both (h c rfl) c.1 aliasName).leftMap fun _ _ ht => .one ht

theorem relationshipFlaws_spoiled (table rel : String) : (relationshipFlaws catalog table rel).spoiled = false := by
  unfold relationshipFlaws
  split
  · split
    · rfl
    · split
      · rfl
      · rfl
  · rfl

/-- The columns of a row, before its relationships. -/
theorem row_frag {ts ts' : List Sql} (cols : List String) (aliasName : String) (h : Frags display ts p ts') :
    Frag display (objectBuild (cols.map (fun col => jsonKey col ++ utf8 ", " ++ columnRef aliasName col) ++ ts)) p
      (objectBuild (cols.map (fun col => jsonKey col ++ utf8 ", " ++ columnRef aliasName col) ++ ts')) := by
  have hcols : Frags display (cols.map fun col => jsonKey col ++ utf8 ", " ++ columnRef aliasName col) []
      (cols.map fun col => jsonKey col ++ utf8 ", " ++ columnRef aliasName col) := by
    refine .still ?_
    intro t ht
    obtain ⟨col, -, rfl⟩ := List.mem_map.mp ht
    exact Still.append (Still.append (still_jsonKey col) (still_utf8 (by rfl))) (still_columnRef _ _)
  exact (hcols.append h).make fills_objectBuild

mutual

theorem collection_both : ∀ (ast : Ast) (singular : Bool) (correlate : Option (String × Correlation)), wireAst ast = true →
    (∀ c ∈ correlate, Correlation.fits c.2 = true) →
    Both display (queryFlaws catalog ast).spoiled (Frag display) (Walker.collection catalog ast singular correlate)
      (D2s.collection display catalog ast singular correlate)
  | .mk head where? related having, singular, correlate, hwire, hcorrelate => by
    rw [wireAst_mk, Bool.and_eq_true, Bool.and_eq_true] at hwire
    obtain ⟨⟨hfits, hwhere⟩, hrelated⟩ := hwire
    have hwalk : Both display (false || (false || ((relatedFlaws catalog related head.table).spoiled || (false ||
        ((whereFlaws catalog where? head.table).spoiled || (boundFlaws catalog head).spoiled))))) (Frag display)
        (Walker.collection catalog (.mk head where? related having) singular correlate)
        (D2s.collection display catalog (.mk head where? related having) singular correlate) := by
      rw [Walker.collection, D2s.collection]
      refine (columns_both head.table).bind ?_
      intro cols _ _ hsame
      obtain ⟨rfl, rfl⟩ := hsame
      refine (freshAlias_both head.table).bind ?_
      intro aliasName _ _ hsame
      obtain ⟨rfl, rfl⟩ := hsame
      refine (relations_both related head.table aliasName hrelated).bind ?_
      intro rels p rels' hrels
      refine (correlateConds_both hcorrelate aliasName).left ?_
      intro corr c hcorr
      refine (whereConds_both hwhere head.table aliasName).bind ?_
      intro conds w conds' hconds
      refine (startConds_both hfits aliasName).leftMap ?_
      intro start b hstart
      have hall : Frags display (corr ++ conds ++ start) (c ++ (w ++ b))
          (D2s.correlateConds correlate aliasName ++ conds' ++ D2s.startConds display head aliasName) := by
        rw [← List.append_assoc]
        exact (hcorr.append hconds).append hstart
      intro xs hxs
      have hxs : literals display (p ++ (c ++ (w ++ b))) = some xs := hxs
      obtain ⟨ys, zs, hys, hzs, rfl⟩ := literals_append_some hxs
      exact fills_pluralOrSingular singular head.table head.orderBy aliasName head.limit (row_frag _ aliasName hrels ys hys)
        (fills_whereClause (hall zs hzs))
    refine hwalk.cast ?_ (fun _ _ _ h => h)
    rw [queryFlaws, Flaws.append_spoiled, Flaws.append_spoiled, Flaws.append_spoiled]
    simp [tableFlaws, Flaws.spoiled, Bool.or_assoc]

theorem relations_both : ∀ (related : List (CorrelatedSubquery Ast)) (parentTable parentAlias : String), wireRelated related = true →
    Both display (relatedFlaws catalog related parentTable).spoiled (Frags display) (Walker.relations catalog related parentTable parentAlias)
      (D2s.relations display catalog related parentTable parentAlias)
  | [], _, _, _ => .pure .nil
  | ⟨correlation, .mk head where? related' having, system⟩ :: related, parentTable, parentAlias, h => by
    simp only [wireRelated, Bool.and_eq_true] at h
    obtain ⟨⟨hcorr, hsub⟩, hrelated⟩ := h
    have hrest := relations_both related parentTable parentAlias hrelated
    have hcollection := fun card => collection_both (.mk head where? related' having) card (some (parentAlias, correlation)) hsub
      (fun c hc => by cases hc; exact hcorr)
    rw [wireAst_mk, Bool.and_eq_true, Bool.and_eq_true] at hsub
    rw [Walker.relations, D2s.relations, relatedFlaws, Flaws.append_spoiled]
    simp only [Ast.head]
    cases head.aliasName with
    | none => exact .of_throw _ _
    | some name =>
      simp only [pure_bind]
      -- the key and the expression, and then the other relationships
      have hkey : ∀ {t p t'}, Frag display t p t' → Both display (relatedFlaws catalog related parentTable).spoiled
          (fun ts q ts' => Frags display ts (p ++ q) ts')
          (Walker.relations catalog related parentTable parentAlias >>= fun rest => pure ((jsonKey name ++ utf8 ", " ++ t) :: rest))
          (D2s.relations display catalog related parentTable parentAlias >>= fun rest => pure ((jsonKey name ++ utf8 ", " ++ t') :: rest)) := by
        intro t p t' ht
        refine hrest.map ?_
        intro ts q ts' hts
        exact .cons (ht.after (Still.append (still_jsonKey name) (still_utf8 (by rfl)))) hts
      have hfits := hsub.1.1
      simp only [AstHead.fits, Bool.and_eq_true, Bool.or_eq_true, decide_eq_true_eq] at hfits
      rcases hfits.2 with hagg | hagg
      · simp only [hagg]
        refine Both.cast (f := false || ((queryFlaws catalog (.mk head where? related' having)).spoiled ||
          (relatedFlaws catalog related parentTable).spoiled)) ?_ ?_ (fun _ _ _ h => h)
        · refine (cardinality_both parentTable name).bind ?_
          intro card _ _ hsame
          obtain ⟨rfl, rfl⟩ := hsame
          refine (hcollection (card = .one)).bind ?_
          intro t p t' ht
          exact hkey ht
        · simp [relationshipFlaws_spoiled]
      · simp only [hagg]
        have hwhere : wireWhere (Ast.mk head where? related' having).where? = true := hsub.1.2
        refine (countExpr_both hcorr hwhere parentAlias).bind ?_
        intro t p t' ht
        exact hkey ht

end

end Rindle.Compile
