/-
  Rindle.Compile.Fragments — the pieces of a compiled text that are filled.

  A piece either has no placeholder outside quotes (identifiers, keys, orderings, the fixed text
  around them) or is made of pieces that are filled, in the order in which their placeholders
  stand (`fills_objectBuild`, `fills_whereClause`, `fills_pluralOrSingular`, …).
-/

import Rindle.Compile.Walker

set_option linter.dupNamespace false

namespace Rindle.Compile

open Lexicon

/-! ## Without a placeholder -/

/-- No byte of the text is a mark, as a test. -/
def noMarks (t : Sql) : Bool := t.all fun b => !sqlLexicon.quotes.contains b && b != sqlLexicon.hole

theorem still_utf8 {s : String} (h : noMarks (utf8 s) = true) : sqlLexicon.Still (utf8 s) := by
  refine still_of_plain fun b hb => ?_
  have hb := List.all_eq_true.mp h b hb
  simpa using hb

theorem Still.append {t u : Sql} (h : sqlLexicon.Still t) (hu : sqlLexicon.Still u) : sqlLexicon.Still (t ++ u) :=
  Fills.append h hu

theorem still_quoteIdent (name : String) : sqlLexicon.Still (quoteIdent name) :=
  still_quoted (by decide) _

theorem still_jsonKey (name : String) : sqlLexicon.Still (jsonKey name) :=
  still_quoted (by decide) _

theorem still_columnRef (aliasName column : String) : sqlLexicon.Still (columnRef aliasName column) :=
  Still.append (Still.append (still_quoteIdent aliasName) (still_utf8 (by rfl))) (still_quoteIdent column)

theorem still_fromSql (table aliasName : String) : sqlLexicon.Still (fromSql table aliasName) :=
  Still.append (Still.append (still_quoteIdent table) (still_utf8 (by rfl))) (still_quoteIdent aliasName)

theorem still_decimalNat (n : Nat) : sqlLexicon.Still (decimalNat n) := by
  refine still_of_plain ?_
  intro b hb
  obtain ⟨hlo, hhi⟩ := decimalNat_digit hb
  have hlo : 48 ≤ b.toNat := UInt8.le_iff_toNat_le.mp hlo
  have hne : ∀ c : UInt8, c.toNat < 48 → b ≠ c := by
    intro c hc heq
    rw [heq] at hlo
    omega
  have hhole : b ≠ 63 := by
    intro heq
    rw [heq] at hhi
    exact absurd hhi (by decide)
  refine ⟨?_, hhole⟩
  intro hquote
  rcases List.mem_cons.mp hquote with heq | hquote
  · exact hne 39 (by decide) heq
  · exact hne 34 (by decide) (List.mem_singleton.mp hquote)

theorem still_dirSql (d : Dir) : sqlLexicon.Still (dirSql d) := by
  cases d with
  | asc => exact still_utf8 (by rfl)
  | desc => exact still_utf8 (by rfl)

/-- Texts that are all still. -/
theorem stillAll {ts : List Sql} (h : ∀ t ∈ ts, sqlLexicon.Still t) : FillsAll sqlLexicon ts [] ts := by
  induction ts with
  | nil => exact .nil
  | cons t ts ih =>
    have ht : sqlLexicon.Fills t [] t := h t (List.mem_cons_self ..)
    exact .cons ht (ih fun u hu => h u (List.mem_cons_of_mem _ hu))

theorem still_flatten {ts : List Sql} (h : ∀ t ∈ ts, sqlLexicon.Still t) : sqlLexicon.Still ts.flatten := by
  induction ts with
  | nil => exact still_nil
  | cons t ts ih => exact Still.append (h t (List.mem_cons_self ..)) (ih fun u hu => h u (List.mem_cons_of_mem _ hu))

variable (order : List (String × Dir)) (aliasName : String)

theorem still_orderTerms : sqlLexicon.Still (orderTerms order aliasName) := by
  refine (stillAll ?_).join (still_utf8 (by rfl))
  intro t ht
  obtain ⟨op, -, rfl⟩ := List.mem_map.mp ht
  exact Still.append (Still.append (still_columnRef _ _) (still_utf8 (by rfl))) (still_dirSql _)

theorem still_orderClause : sqlLexicon.Still (orderClause order aliasName) := by
  unfold orderClause
  split
  · exact still_nil
  · exact Still.append (still_utf8 (by rfl)) (still_orderTerms order aliasName)

theorem still_aggOrder : sqlLexicon.Still (aggOrder order) := by
  unfold aggOrder
  split
  · exact still_nil
  · refine Still.append (still_utf8 (by rfl)) ((stillAll ?_).join (still_utf8 (by rfl)))
    intro t ht
    obtain ⟨⟨op, i⟩, -, rfl⟩ := List.mem_map.mp ht
    exact Still.append (Still.append (Still.append (still_utf8 (by rfl)) (still_decimalNat i)) (still_utf8 (by rfl)))
      (still_dirSql _)

theorem still_orderProj : sqlLexicon.Still (orderProj order aliasName) := by
  refine still_flatten ?_
  intro t ht
  obtain ⟨⟨op, i⟩, -, rfl⟩ := List.mem_map.mp ht
  exact Still.append (Still.append (Still.append (still_utf8 (by rfl)) (still_columnRef _ _)) (still_utf8 (by rfl)))
    (still_decimalNat i)

/-- The two fixed texts that hold a quoted text of their own. -/
theorem still_escape : sqlLexicon.Still (utf8 " ESCAPE '\\'") ∧ sqlLexicon.Still (utf8 ") ESCAPE '\\'") :=
  ⟨⟨by rfl, by rfl, by rfl⟩, ⟨by rfl, by rfl, by rfl⟩⟩

theorem still_emptyArray : sqlLexicon.Still (utf8 ")), '[]')") ∧ sqlLexicon.Still (utf8 "), '[]')") :=
  ⟨⟨by rfl, by rfl, by rfl⟩, ⟨by rfl, by rfl, by rfl⟩⟩

/-! ## Around what is filled -/

theorem fills_after {s t t' : Sql} {xs : List Sql} (hs : sqlLexicon.Still s) (h : sqlLexicon.Fills t xs t') :
    sqlLexicon.Fills (s ++ t) xs (s ++ t') :=
  hs.append h

theorem fills_before {s t t' : Sql} {xs : List Sql} (h : sqlLexicon.Fills t xs t') (hs : sqlLexicon.Still s) :
    sqlLexicon.Fills (t ++ s) xs (t' ++ s) := by
  have happend := h.append hs
  rwa [List.append_nil] at happend

section
variable {ts ts' xs : List Sql} (h : FillsAll sqlLexicon ts xs ts')

include h

theorem fills_commaJoin : sqlLexicon.Fills (commaJoin ts) xs (commaJoin ts') :=
  h.join (still_utf8 (by rfl))

theorem fills_andJoin : sqlLexicon.Fills (andJoin ts) xs (andJoin ts') :=
  h.join (still_utf8 (by rfl))

theorem fills_objectBuild : sqlLexicon.Fills (objectBuild ts) xs (objectBuild ts') :=
  fills_before (fills_after (still_utf8 (by rfl)) (fills_commaJoin h)) (still_utf8 (by rfl))

theorem fills_whereClause : sqlLexicon.Fills (whereClause ts) xs (whereClause ts') := by
  cases h with
  | nil => exact still_nil
  | cons hfirst hrest => exact fills_after (still_utf8 (by rfl)) (fills_andJoin (.cons hfirst hrest))

theorem fills_connective {empty op : String} (hempty : sqlLexicon.Still (utf8 empty)) (hop : sqlLexicon.Still (utf8 op)) :
    sqlLexicon.Fills (connective empty op ts) xs (connective empty op ts') := by
  cases h with
  | nil => exact hempty
  | cons hfirst hrest =>
    refine fills_before (fills_after (still_utf8 (by rfl)) ?_) (still_utf8 (by rfl))
    exact FillsAll.join hop (.cons hfirst hrest)

theorem fills_correlated (table aliasName : String) : sqlLexicon.Fills (correlated table aliasName ts) xs (correlated table aliasName ts') :=
  fills_after (Still.append (still_fromSql table aliasName) (still_utf8 (by rfl))) (fills_andJoin h)

end

theorem fills_existsText {t t' : Sql} {xs : List Sql} (op : ExistsOp) (h : sqlLexicon.Fills t xs t') :
    sqlLexicon.Fills (existsText op t) xs (existsText op t') := by
  cases op with
  | «exists» => exact fills_before (fills_after (still_utf8 (by rfl)) h) (still_utf8 (by rfl))
  | notExists => exact fills_before (fills_after (still_utf8 (by rfl)) h) (still_utf8 (by rfl))

/-- The row's placeholders come before those of the condition, in each form. -/
theorem fills_pluralOrSingular {row row' «where» where' : Sql} {xs ys : List Sql} (singular : Bool) (table : String)
    (order : List (String × Dir)) (aliasName : String) (limit : Option Nat) (hrow : sqlLexicon.Fills row xs row')
    (hwhere : sqlLexicon.Fills «where» ys where') :
    sqlLexicon.Fills (pluralOrSingular singular row (fromSql table aliasName) «where» order aliasName limit) (xs ++ ys)
      (pluralOrSingular singular row' (fromSql table aliasName) where' order aliasName limit) := by
  have hfrom := still_fromSql table aliasName
  have hclause := still_orderClause order aliasName
  unfold pluralOrSingular
  by_cases hs : singular = true
  · rw [if_pos hs, if_pos hs]
    refine (fills_after (still_utf8 (by rfl)) hrow).append ?_
    refine fills_before (fills_before (fills_after ?_ hwhere) hclause) (still_utf8 (by rfl))
    exact Still.append (still_utf8 (by rfl)) hfrom
  · rw [if_neg hs, if_neg hs]
    cases limit with
    | some n =>
      refine Fills.append (fills_after ?_ hrow) ?_
      · exact Still.append (Still.append (still_utf8 (by rfl)) (still_aggOrder order)) (still_utf8 (by rfl))
      · refine fills_before (fills_before (fills_before (fills_before (fills_after ?_ hwhere) hclause) (still_utf8 (by rfl)))
          (still_decimalNat n)) still_emptyArray.1
        exact Still.append (Still.append (Still.append (still_utf8 (by rfl)) (still_orderProj order aliasName))
          (still_utf8 (by rfl))) hfrom
    | none =>
      refine Fills.append (fills_after (still_utf8 (by rfl)) hrow) ?_
      refine fills_before (fills_after ?_ hwhere) still_emptyArray.2
      exact Still.append (Still.append hclause (still_utf8 (by rfl))) hfrom

end Rindle.Compile
