/-
  Rindle.Source.Pushdown — what the builder pushes down into a source connection
  (`rust/src/builder.rs`): the condition without its subqueries (`transform_filters`), the equalities a
  fetch may seek (`pushable_constraint`) and the guard of the push index (`extract_push_guard`).

  Each is weaker than what it is taken from, so none hides a row. A subquery is true or false by its
  place in the tree, whatever it says; the stripped tree holds where the tree does, and is as strong
  where nothing was removed (`transform_weakens`). The equalities hold of every row the tree keeps
  (`pushable_holds`), the guard covers every row the stripped tree's predicate accepts (`guard_covers`).
-/

import Mathlib.Data.List.MinMax
import Mathlib.Data.List.ReduceOption
import Rindle.Predicate.Basic
import Rindle.Source.Postings

set_option linter.dupNamespace false

namespace Rindle

/-! ## Stripping the subqueries -/

mutual

/-- `transform_filters` on a condition: what is left of it, and whether something was removed. -/
def transformCondition : Condition → Option Condition × Bool
  | .simple sc => (some (.simple sc), false)
  | .correlatedSubquery _ _ => (none, true)
  | .and conditions =>
    let transformed := transformConditions conditions
    (some (.and (transformed.filterMap (·.1))), transformed.any (·.2))
  | .or conditions =>
    let transformed := transformConditions conditions
    -- a removed branch collapses the whole OR
    if transformed.any (·.1.isNone) then (none, true)
    else (some (.or (transformed.filterMap (·.1))), transformed.any (·.2))

def transformConditions : List Condition → List (Option Condition × Bool)
  | [] => []
  | c :: conditions => transformCondition c :: transformConditions conditions

end

/-- `transform_filters`. -/
def transformFilters (filters : Option Condition) : Option Condition × Bool :=
  match filters with
  | some cond => transformCondition cond
  | none => (none, false)

/-! ## The equalities -/

/-- `simple_eq_constraint`. -/
def simpleEqConstraint (schema : Schema) (sc : SimpleCondition) : Constraint :=
  if sc.op = .eq then
    match sc.left, sc.right with
    | .column name, .literal value =>
      if value.isNull then []
      else
        match schema.colId name, litToScalar value with
        | some col, .ok v => [(col, v)]
        | _, _ => []
    | _, _ => []
  else []

/-- A column that is taken keeps its value. -/
def takeColumn (out : Constraint) (p : Nat × Value) : Constraint := if out.any (·.1 == p.1) then out else out ++ [p]

/-- The pairs the next branch forces too. -/
def forcedToo (acc next : Constraint) : Constraint :=
  acc.filter fun p => next.any fun q => q.1 == p.1 && valuesIdentical p.2 q.2

/-- The columns every branch of an OR forces to one value. -/
def sharedConstraint : List Constraint → Constraint
  | [] => []
  | first :: rest => rest.foldl forcedToo first

mutual

/-- `pushable_constraint`. -/
def pushableConstraint (schema : Schema) : Condition → Constraint
  | .simple sc => simpleEqConstraint schema sc
  | .and conditions => (pushableConstraints schema conditions).flatten.foldl takeColumn []
  | .or conditions => sharedConstraint (pushableConstraints schema conditions)
  | .correlatedSubquery _ _ => []

def pushableConstraints (schema : Schema) : List Condition → List Constraint
  | [] => []
  | c :: conditions => pushableConstraint schema c :: pushableConstraints schema conditions

end

/-! ## The guard -/

/-- `dedup_guard_values`. -/
def dedupGuardValues (values : List Value) : List Value :=
  values.foldl (fun out v => if out.any fun u => valuesIdentical u v then out else out ++ [v]) []

/-- `extract_simple_guard`. -/
def extractSimpleGuard (schema : Schema) (sc : SimpleCondition) : Option PushGuard :=
  match sc.left, sc.right with
  | .column name, .literal rhs =>
    (schema.colId name).bind fun col =>
      let one := (litToScalar rhs).toOption.map fun v => PushGuard.mk col [v]
      match sc.op with
      | .eq => if rhs.isNull then some ⟨col, []⟩ else one
      | .is => one
      | .isIn =>
        match rhs with
        | .array elems => (elems.mapM litToScalar).toOption.map fun values => ⟨col, dedupGuardValues values⟩
        | _ => none
      | _ => none
  | _, _ => none

/-- The branches of an OR: all guarded, those that can match on one column. -/
def unionGuard (col : Option Nat) (union : List Value) : List (Option PushGuard) → Option PushGuard
  | [] => some ⟨col.getD 0, dedupGuardValues union⟩
  | none :: _ => none
  | some g :: guards =>
    if g.values.isEmpty then unionGuard col union guards
    else if col.any (· != g.col) then none
    else unionGuard (some g.col) (union ++ g.values) guards

mutual

/-- `extract_push_guard`. -/
def extractPushGuard (schema : Schema) : Condition → Option PushGuard
  | .simple sc => extractSimpleGuard schema sc
  -- the first of the smallest
  | .and conditions => (extractPushGuards schema conditions).reduceOption.argmin fun g => g.values.length
  | .or conditions => unionGuard none [] (extractPushGuards schema conditions)
  | .correlatedSubquery _ _ => none

def extractPushGuards (schema : Schema) : List Condition → List (Option PushGuard)
  | [] => []
  | c :: conditions => extractPushGuard schema c :: extractPushGuards schema conditions

end

/-! ## What a condition says of a row -/

mutual

/-- Which comparisons hold is `leaf`, which subqueries `sub`, by their place in the tree. -/
def Condition.keeps (leaf : SimpleCondition → Bool) (sub : List Nat → Bool) : Condition → Bool
  | .simple sc => leaf sc
  | .and conditions => (conditionsKeep leaf sub 0 conditions).all id
  | .or conditions => (conditionsKeep leaf sub 0 conditions).any id
  | .correlatedSubquery _ _ => sub []

@[grind] def conditionsKeep (leaf : SimpleCondition → Bool) (sub : List Nat → Bool) (i : Nat) : List Condition → List Bool
  | [] => []
  | c :: conditions => c.keeps leaf (fun p => sub (i :: p)) :: conditionsKeep leaf sub (i + 1) conditions

end

/-- A comparison holds of a row where its compiled predicate accepts it. -/
def leafKeeps (schema : Schema) (row : Row) (sc : SimpleCondition) : Bool :=
  match createPredicate sc schema with
  | .ok pred => pred.eval row
  | .error _ => false

section
variable {β : Type} {P : β → Prop} {bs : List Bool} {cs : List β}

theorem every_of_all (h : List.Forall₂ (fun b c => b = true → P c) bs cs) (hbs : bs.all id = true) : ∀ c ∈ cs, P c := by
  induction h with
  | nil => exact fun c hc => by cases hc
  | cons hbc _ ih =>
    rw [List.all_cons, Bool.and_eq_true] at hbs
    exact List.forall_mem_cons.mpr ⟨hbc hbs.1, ih hbs.2⟩

theorem some_of_any (h : List.Forall₂ (fun b c => b = true → P c) bs cs) (hbs : bs.any id = true) : ∃ c ∈ cs, P c := by
  induction h with
  | nil => cases hbs
  | cons hbc _ ih =>
    rw [List.any_cons, Bool.or_eq_true] at hbs
    obtain hb | hbs := hbs
    · exact ⟨_, List.mem_cons_self, hbc hb⟩
    · obtain ⟨c, hc, hp⟩ := ih hbs
      exact ⟨c, List.mem_cons_of_mem _ hc, hp⟩

end

/-! ## The stripped tree -/

section
variable {leaf : SimpleCondition → Bool}

/-- What is left of a condition of truth `b` holds where it does, however its own subqueries turn out;
    where nothing was removed it is all there. -/
structure Weakens (leaf : SimpleCondition → Bool) (b : Bool) (t : Option Condition × Bool) : Prop where
  weaker : b = true → ∀ c, t.1 = some c → ∀ sub, c.keeps leaf sub = true
  exact : t.2 = false → ∃ c, t.1 = some c ∧ ∀ sub, c.keeps leaf sub = b

theorem Weakens.gone {b : Bool} : Weakens leaf b (none, true) :=
  ⟨fun _ c hc => (by cases hc), fun h => (by cases h)⟩

variable {bs : List Bool} {ts : List (Option Condition × Bool)}

theorem Weakens.all (h : List.Forall₂ (Weakens leaf) bs ts) (hbs : bs.all id = true) (sub : List Nat → Bool) (i : Nat) :
    (conditionsKeep leaf sub i (ts.filterMap (·.1))).all id = true := by
  induction h generalizing i with
  | nil => rfl
  | @cons b t bs ts hbt _ ih =>
    rw [List.all_cons, Bool.and_eq_true] at hbs
    cases ht : t.1 with
    | none => rw [List.filterMap_cons_none ht]; exact ih hbs.2 i
    | some c =>
      rw [List.filterMap_cons_some ht, conditionsKeep, List.all_cons, Bool.and_eq_true]
      exact ⟨hbt.weaker hbs.1 c ht _, ih hbs.2 _⟩

theorem Weakens.any (h : List.Forall₂ (Weakens leaf) bs ts) (hts : ts.any (·.1.isNone) = false) (hbs : bs.any id = true)
    (sub : List Nat → Bool) (i : Nat) : (conditionsKeep leaf sub i (ts.filterMap (·.1))).any id = true := by
  induction h generalizing i with
  | nil => cases hbs
  | @cons b t bs ts hbt _ ih =>
    rw [List.any_cons, Bool.or_eq_false_iff] at hts
    obtain ⟨c, ht⟩ := Option.isSome_iff_exists.mp (by simpa using hts.1)
    rw [List.filterMap_cons_some ht, conditionsKeep, List.any_cons, Bool.or_eq_true]
    rw [List.any_cons, Bool.or_eq_true] at hbs
    exact hbs.imp (fun hb => hbt.weaker hb c ht _) fun hb => ih hts.2 hb _

theorem Weakens.same (h : List.Forall₂ (Weakens leaf) bs ts) (hts : ts.any (·.2) = false) (sub : List Nat → Bool) (i : Nat) :
    conditionsKeep leaf sub i (ts.filterMap (·.1)) = bs ∧ ts.any (·.1.isNone) = false := by
  induction h generalizing i with
  | nil => exact ⟨rfl, rfl⟩
  | @cons b t bs ts hbt _ ih =>
    rw [List.any_cons, Bool.or_eq_false_iff] at hts
    obtain ⟨c, ht, hc⟩ := hbt.exact hts.1
    obtain ⟨hsame, hnone⟩ := ih hts.2 (i + 1)
    rw [List.filterMap_cons_some ht, conditionsKeep, hc, hsame]
    exact ⟨rfl, by rw [List.any_cons, ht, hnone]; rfl⟩

mutual

theorem transform_weakens : ∀ (c : Condition) (sub : List Nat → Bool), Weakens leaf (c.keeps leaf sub) (transformCondition c)
  | .simple sc, _ => ⟨fun h c hc _ => by cases hc; exact h, fun _ => ⟨.simple sc, rfl, fun _ => rfl⟩⟩
  | .correlatedSubquery _ _, _ => .gone
  | .and conditions, sub => by
    have hcs := transforms_weaken conditions sub 0
    refine ⟨fun h c hc sub' => ?_, fun h => ⟨_, rfl, fun sub' => ?_⟩⟩
    · cases hc
      exact Weakens.all hcs h sub' 0
    · exact congrArg (·.all id) (Weakens.same hcs h sub' 0).1
  | .or conditions, sub => by
    have hcs := transforms_weaken conditions sub 0
    rw [transformCondition]
    by_cases hnone : (transformConditions conditions).any (·.1.isNone) = true
    · rw [if_pos hnone]
      exact .gone
    · rw [if_neg hnone]
      refine ⟨fun h c hc sub' => ?_, fun h => ⟨_, rfl, fun sub' => ?_⟩⟩
      · cases hc
        exact Weakens.any hcs (Bool.eq_false_iff.mpr hnone) h sub' 0
      · exact congrArg (·.any id) (Weakens.same hcs h sub' 0).1

theorem transforms_weaken : ∀ (cs : List Condition) (sub : List Nat → Bool) (i : Nat),
    List.Forall₂ (Weakens leaf) (conditionsKeep leaf sub i cs) (transformConditions cs)
  | [], _, _ => .nil
  | c :: cs, sub, i => .cons (transform_weakens c _) (transforms_weaken cs sub (i + 1))

end

end

/-! ## The equalities -/

section
variable {schema : Schema} {row : Row}

theorem leafKeeps_iff {sc : SimpleCondition} :
    leafKeeps schema row sc = true ↔ ∃ pred, createPredicate sc schema = .ok pred ∧ pred.eval row = true := by
  unfold leafKeeps
  cases createPredicate sc schema <;> simp

theorem valuesEqual_iff {a b : Value} : valuesEqual a b = some true ↔ a.tag = 2 ∧ valuesIdentical a b = true := by
  rw [← compareValues_eq_eq]
  cases a <;> cases b <;> simp [valuesEqual, Value.tag, compareValues]

theorem valuesIdentical_congr {a b : Value} (h : valuesIdentical a b = true) (v : Value) :
    valuesIdentical v a = valuesIdentical v b := by
  rw [Bool.eq_iff_iff, ← canonVal_inj, ← canonVal_inj, canonVal_inj.mpr h]

theorem valuesIdentical_symm {a b : Value} (h : valuesIdentical a b = true) : valuesIdentical b a = true :=
  canonVal_inj.mp (canonVal_inj.mpr h).symm

/-- The row meets every pair of the constraint. -/
def Meets (row : Row) (c : Constraint) : Prop := ∀ p ∈ c, valuesEqual (row.cell p.1) p.2 = some true

/-- A literal that is not null is lowered to a value that is not. -/
theorem litToScalar_tag {l : Lit} {v : Value} (hl : l.isNull = false) (h : litToScalar l = .ok v) : v.tag = 2 := by
  cases l with
  | null => cases hl
  | array elems => cases h
  | number n =>
    cases h
    unfold numberToOwned
    split <;> rfl
  | _ => cases h; rfl

/-- A comparison of a column with a literal that is not null, once both are lowered. -/
theorem createPredicate_eq {name : String} {value : Lit} {col : Nat} {v : Value} (hnull : value.isNull = false)
    (hcol : schema.colId name = some col) (hv : litToScalar value = .ok v) :
    createPredicate ⟨.eq, .column name, .literal value⟩ schema = .ok (.cmp col .eq v) := by
  simp [createPredicate, hnull, colId, hcol, lowerOp, hv, bind, Except.bind, pure, Except.pure]

theorem cmp_eq_identical {col : Nat} {v : Value} (h : (CompiledPredicate.cmp col .eq v).eval row = true) :
    valuesIdentical (row.cell col) v = true := by
  simp only [CompiledPredicate.eval] at h
  split at h
  · cases h
  · exact h

theorem simpleEq_meets {sc : SimpleCondition} (h : leafKeeps schema row sc = true) : Meets row (simpleEqConstraint schema sc) := by
  obtain ⟨op, left, right⟩ := sc
  unfold simpleEqConstraint
  split
  · rename_i hop
    cases hop
    split
    · rename_i name value hleft hright
      cases hleft
      cases hright
      split
      · exact fun p hp => by cases hp
      rename_i hnull
      split
      · rename_i col v hcol hv
        rw [leafKeeps, createPredicate_eq (by simpa using hnull) hcol hv] at h
        have hid := cmp_eq_identical h
        have hv2 := litToScalar_tag (by simpa using hnull) hv
        intro p hp
        obtain rfl := List.mem_singleton.mp hp
        refine valuesEqual_iff.mpr ⟨?_, hid⟩
        rw [← hv2]
        show (row.cell col).tag = v.tag
        cases hc : row.cell col <;> cases v <;> simp_all [valuesIdentical, Value.tag]
      · exact fun p hp => by cases hp
    · exact fun p hp => by cases hp
  · exact fun p hp => by cases hp

theorem Meets.take {out : Constraint} (ho : Meets row out) : ∀ {ps : Constraint}, Meets row ps →
    Meets row (ps.foldl takeColumn out)
  | [], _ => ho
  | p :: ps, hps => by
    have htaken : Meets row (takeColumn out p) := by
      intro q hq
      unfold takeColumn at hq
      split at hq
      · exact ho q hq
      · obtain hq | hq := List.mem_append.mp hq
        · exact ho q hq
        · exact hps q (by rw [List.mem_singleton.mp hq]; exact List.mem_cons_self)
    exact Meets.take htaken fun q hq => hps q (List.mem_cons_of_mem _ hq)

/-- A pair that another branch forces too is met where either branch is. -/
theorem Meets.forced {acc next : Constraint} (h : Meets row acc ∨ Meets row next) : Meets row (forcedToo acc next) := by
  intro p hp
  obtain ⟨hp, hq⟩ := List.mem_filter.mp hp
  obtain h | h := h
  · exact h p hp
  · obtain ⟨q, hq, hpq⟩ := List.any_eq_true.mp hq
    rw [Bool.and_eq_true, beq_iff_eq] at hpq
    have hcell := valuesEqual_iff.mp (h q hq)
    rw [hpq.1] at hcell
    exact valuesEqual_iff.mpr ⟨hcell.1, by rw [valuesIdentical_congr hpq.2]; exact hcell.2⟩

theorem Meets.foldl_forced : ∀ {rest : List Constraint} {acc : Constraint}, (Meets row acc ∨ ∃ c ∈ rest, Meets row c) →
    Meets row (rest.foldl forcedToo acc)
  | [], _, h => h.elim id fun ⟨c, hc, _⟩ => by cases hc
  | next :: rest, acc, h => by
    have hnext : Meets row (forcedToo acc next) ∨ ∃ c ∈ rest, Meets row c := by
      obtain h | ⟨c, hc, h⟩ := h
      · exact Or.inl (Meets.forced (Or.inl h))
      · obtain rfl | hc := List.mem_cons.mp hc
        · exact Or.inl (Meets.forced (Or.inr h))
        · exact Or.inr ⟨c, hc, h⟩
    rw [List.foldl_cons]
    exact Meets.foldl_forced hnext

theorem Meets.shared {cs : List Constraint} (h : ∃ c ∈ cs, Meets row c) : Meets row (sharedConstraint cs) := by
  obtain ⟨c, hc, h⟩ := h
  cases cs with
  | nil => cases hc
  | cons first rest =>
    obtain rfl | hc := List.mem_cons.mp hc
    · exact Meets.foldl_forced (Or.inl h)
    · exact Meets.foldl_forced (Or.inr ⟨c, hc, h⟩)

mutual

theorem pushable_holds : ∀ (c : Condition) (sub : List Nat → Bool), c.keeps (leafKeeps schema row) sub = true →
    Meets row (pushableConstraint schema c)
  | .simple _, _, h => simpleEq_meets h
  | .correlatedSubquery _ _, _, _ => fun p hp => by cases hp
  | .and conditions, sub, h => by
    have hcs := every_of_all (pushables_hold conditions sub 0) h
    refine Meets.take (fun p hp => by cases hp) fun p hp => ?_
    obtain ⟨c, hc, hp⟩ := List.mem_flatten.mp hp
    exact hcs c hc p hp
  | .or conditions, sub, h => Meets.shared (some_of_any (pushables_hold conditions sub 0) h)

theorem pushables_hold : ∀ (cs : List Condition) (sub : List Nat → Bool) (i : Nat),
    List.Forall₂ (fun b c => b = true → Meets row c) (conditionsKeep (leafKeeps schema row) sub i cs)
      (pushableConstraints schema cs)
  | [], _, _ => .nil
  | c :: cs, sub, i => .cons (pushable_holds c _) (pushables_hold cs sub (i + 1))

end

/-! ## The guard -/

/-- The row has one of the guard's values. -/
def PushGuard.Covers (g : PushGuard) (row : Row) : Prop := ∃ v ∈ g.values, valuesIdentical (row.cell g.col) v = true

/-- Dropping a value identical to one that stays loses no cell. -/
theorem dedup_keeps {values out : List Value} {cell : Value}
    (h : ∃ v ∈ out ++ values, valuesIdentical cell v = true) :
    ∃ v ∈ values.foldl (fun out v => if out.any fun u => valuesIdentical u v then out else out ++ [v]) out,
      valuesIdentical cell v = true := by
  induction values generalizing out with
  | nil => simpa using h
  | cons w values ih =>
    rw [List.foldl_cons]
    refine ih ?_
    obtain ⟨v, hv, hcell⟩ := h
    split
    · rename_i hdup
      obtain hv | hv := List.mem_append.mp hv
      · exact ⟨v, List.mem_append_left _ hv, hcell⟩
      · obtain rfl | hv := List.mem_cons.mp hv
        · obtain ⟨u, hu, huv⟩ := List.any_eq_true.mp hdup
          exact ⟨u, List.mem_append_left _ hu, by rw [valuesIdentical_congr huv]; exact hcell⟩
        · exact ⟨v, List.mem_append_right _ hv, hcell⟩
    · exact ⟨v, by simpa using hv, hcell⟩

theorem dedupGuardValues_keeps {values : List Value} {cell : Value} (h : ∃ v ∈ values, valuesIdentical cell v = true) :
    ∃ v ∈ dedupGuardValues values, valuesIdentical cell v = true := dedup_keeps (by simpa using h)

theorem toOption_map_eq_some {ε α β : Type} {x : Except ε α} {f : α → β} {b : β} :
    x.toOption.map f = some b ↔ ∃ a, x = .ok a ∧ f a = b := by
  cases x <;> simp [Except.toOption]

theorem simpleGuard_covers {sc : SimpleCondition} (h : leafKeeps schema row sc = true) {g : PushGuard}
    (hg : extractSimpleGuard schema sc = some g) : g.Covers row := by
  obtain ⟨pred, hpred, hrow⟩ := leafKeeps_iff.mp h
  obtain ⟨op, left, right⟩ := sc
  unfold extractSimpleGuard at hg
  split at hg
  · rename_i name rhs hleft hright
    cases hleft
    cases hright
    obtain ⟨col, hcol, hg⟩ := Option.bind_eq_some_iff.mp hg
    have hid : colId schema name = .ok col := by rw [colId, hcol]
    cases op with
    | eq =>
      simp only at hg
      split at hg
      · -- `= NULL` is folded to false
        rename_i hnull
        simp [createPredicate, hnull, pure, Except.pure] at hpred
        subst hpred
        cases hrow
      · rename_i hnull
        obtain ⟨v, hv, rfl⟩ := toOption_map_eq_some.mp hg
        rw [createPredicate_eq (by simpa using hnull) hcol hv] at hpred
        cases hpred
        exact ⟨v, List.mem_singleton_self v, cmp_eq_identical hrow⟩
    | is =>
      obtain ⟨v, hv, rfl⟩ := toOption_map_eq_some.mp hg
      simp [createPredicate, hv, hid, bind, Except.bind, pure, Except.pure] at hpred
      refine ⟨v, List.mem_singleton_self v, ?_⟩
      subst hpred
      have his : (CondOp.is == CondOp.isNot) = false := rfl
      rw [his] at hrow
      split at hrow
      · rename_i hnull
        cases rhs <;> cases hnull
        cases hv
        cases hc : row.cell col <;> simp_all [CompiledPredicate.eval, valuesIdentical, Value.isNull]
      · rwa [CompiledPredicate.eval, Bool.xor_false] at hrow
    | isIn =>
      cases rhs with
      | array elems =>
        obtain ⟨vs, hvs, rfl⟩ := toOption_map_eq_some.mp hg
        simp [createPredicate, hid, Lit.isNull, lowerOp, inPred, hvs, bind, Except.bind, pure, Except.pure] at hpred
        subst hpred
        simp only [CompiledPredicate.eval] at hrow
        split at hrow
        · cases hrow
        · rw [Bool.xor_false] at hrow
          obtain ⟨v, hv, hcell⟩ := List.any_eq_true.mp hrow
          exact dedupGuardValues_keeps ⟨v, hv, valuesIdentical_symm hcell⟩
      | _ => cases hg
    | _ => cases hg
  · cases hg

/-- The values collected so far cover the row, or a branch that is still to come does. -/
theorem unionGuard_covers {guards : List (Option PushGuard)} {col : Option Nat} {union : List Value} {g : PushGuard}
    (hcol : col = none → union = [])
    (h : (∃ v ∈ union, valuesIdentical (row.cell (col.getD 0)) v = true) ∨ ∃ g ∈ guards, ∀ g', g = some g' → g'.Covers row)
    (hg : unionGuard col union guards = some g) : g.Covers row := by
  induction guards generalizing col union with
  | nil =>
    cases hg
    exact dedupGuardValues_keeps (h.resolve_right (by simp))
  | cons og guards ih =>
    cases og with
    | none => cases hg
    | some g' =>
      rw [unionGuard] at hg
      by_cases hempty : g'.values.isEmpty = true
      · rw [if_pos hempty] at hg
        refine ih hcol (h.imp_right fun h => ?_) hg
        obtain ⟨og, hog, h⟩ := h
        obtain rfl | hog := List.mem_cons.mp hog
        · obtain ⟨v, hv, -⟩ := h g' rfl
          rw [List.isEmpty_iff.mp hempty] at hv
          cases hv
        · exact ⟨og, hog, h⟩
      · rw [if_neg hempty] at hg
        by_cases hother : col.any (· != g'.col) = true
        · rw [if_pos hother] at hg
          cases hg
        rw [if_neg hother] at hg
        refine ih (fun h => by cases h) ?_ hg
        obtain ⟨v, hv, hcell⟩ | h := h
        · refine Or.inl ⟨v, List.mem_append_left _ hv, ?_⟩
          cases col with
          | none => rw [hcol rfl] at hv; cases hv
          | some c =>
            have hc : c = g'.col := by simpa using hother
            rw [← hc]
            exact hcell
        · obtain ⟨og, hog, h⟩ := h
          obtain rfl | hog := List.mem_cons.mp hog
          · obtain ⟨v, hv, hcell⟩ := h g' rfl
            exact Or.inl ⟨v, List.mem_append_right _ hv, hcell⟩
          · exact Or.inr ⟨og, hog, h⟩

mutual

theorem guard_covers : ∀ (c : Condition) (sub : List Nat → Bool), c.keeps (leafKeeps schema row) sub = true →
    ∀ g, extractPushGuard schema c = some g → g.Covers row
  | .simple _, _, h, _, hg => simpleGuard_covers h hg
  | .correlatedSubquery _ _, _, _, _, hg => by cases hg
  | .and conditions, sub, h, g, hg =>
    every_of_all (guards_cover conditions sub 0) h (some g) (List.reduceOption_mem_iff.mp (List.argmin_mem hg)) g rfl
  | .or conditions, sub, h, _, hg => unionGuard_covers (fun _ => rfl) (Or.inr (some_of_any (guards_cover conditions sub 0) h)) hg

theorem guards_cover : ∀ (cs : List Condition) (sub : List Nat → Bool) (i : Nat),
    List.Forall₂ (fun b og => b = true → ∀ g, og = some g → g.Covers row) (conditionsKeep (leafKeeps schema row) sub i cs)
      (extractPushGuards schema cs)
  | [], _, _ => .nil
  | c :: cs, sub, i => .cons (guard_covers c _) (guards_cover cs sub (i + 1))

end

/-! ## What a connection applies -/

mutual

/-- The predicate a stripped tree compiles to says what the tree says. -/
theorem rowPredicate_holds : ∀ (c : Condition) {p : Row → Bool}, createRowPredicate schema c = .ok p →
    ∀ sub, c.keeps (leafKeeps schema row) sub = p row
  | .simple sc, p, hp, sub => by
    obtain ⟨pred, hpred, hp⟩ := bind_ok.mp hp
    cases hp
    rw [Condition.keeps, leafKeeps, hpred]
  | .correlatedSubquery _ _, _, hp, _ => by cases hp
  | .and conditions, p, hp, sub => by
    obtain ⟨ps, hps, hp⟩ := bind_ok.mp hp
    cases hp
    rw [Condition.keeps, rowPredicates_hold conditions hps, List.all_map]
    rfl
  | .or conditions, p, hp, sub => by
    obtain ⟨ps, hps, hp⟩ := bind_ok.mp hp
    cases hp
    rw [Condition.keeps, rowPredicates_hold conditions hps, List.any_map]
    rfl

theorem rowPredicates_hold : ∀ (cs : List Condition) {ps : List (Row → Bool)}, createRowPredicates schema cs = .ok ps →
    ∀ sub i, conditionsKeep (leafKeeps schema row) sub i cs = ps.map fun p => p row
  | [], ps, hps, _, _ => by
    cases hps
    rfl
  | c :: cs, ps, hps, sub, i => by
    obtain ⟨p, hp, hps⟩ := bind_ok.mp hps
    obtain ⟨rest, hrest, hps⟩ := bind_ok.mp hps
    cases hps
    rw [conditionsKeep, rowPredicate_holds c hp, rowPredicates_hold cs hrest, List.map_cons]

end

/-- Filters at least as strict as a stripped tree imply the guard extracted from it. -/
theorem ConnectionFilters.guarded {f : ConnectionFilters} {c : Condition} {p : Row → Bool} (hp : createRowPredicate schema c = .ok p)
    (hstrict : ∀ row, f.predicate row = true → p row = true) (hguard : f.pushGuard = extractPushGuard schema c) : f.Guarded := by
  intro g hg row hrow
  have hkeeps := (rowPredicate_holds c hp fun _ => true).trans (hstrict row hrow)
  obtain ⟨v, hv, hcell⟩ := guard_covers c _ hkeeps g (hguard ▸ hg)
  exact ⟨v, hv, guardKeyEq_iff.mpr (canonVal_inj.mpr hcell).symm⟩

end

theorem pushdown_sound (schema : Schema) (row : Row) (cond : Condition) (sub : List Nat → Bool) :
    ((cond.keeps (leafKeeps schema row) sub = true → ∀ t, (transformFilters (some cond)).1 = some t →
        ∀ sub', t.keeps (leafKeeps schema row) sub' = true) ∧
      ((transformFilters (some cond)).2 = false → ∃ t, (transformFilters (some cond)).1 = some t ∧
        ∀ sub', t.keeps (leafKeeps schema row) sub' = cond.keeps (leafKeeps schema row) sub)) ∧
    (cond.keeps (leafKeeps schema row) sub = true →
      ∀ p ∈ pushableConstraint schema cond, valuesEqual (row.cell p.1) p.2 = some true) ∧
    ∀ t, (transformFilters (some cond)).1 = some t → ∀ p, createRowPredicate schema t = .ok p →
      (∀ sub', t.keeps (leafKeeps schema row) sub' = p row) ∧ (p row = true → ∀ g, extractPushGuard schema t = some g →
        ∃ v ∈ g.values, valuesIdentical (row.cell g.col) v = true) := by
  have hw : Weakens (leafKeeps schema row) (cond.keeps (leafKeeps schema row) sub) (transformCondition cond) :=
    transform_weakens cond sub
  refine ⟨⟨hw.weaker, hw.exact⟩, pushable_holds cond sub, fun t _ p hp => ⟨rowPredicate_holds t hp, ?_⟩⟩
  exact fun hrow => guard_covers t (fun _ => true) ((rowPredicate_holds t hp _).trans hrow)

/-- The smallest guard of an AND; a branch of an OR that cannot match is dropped. -/
example : extractPushGuard (.new ["a", "b"] [0] []) (.and [.simple ⟨.isIn, .column "a", .literal (.array [.int 1, .int 2])⟩,
    .or [.simple ⟨.eq, .column "a", .literal .null⟩, .simple ⟨.eq, .column "b", .literal (.int 7)⟩]]) =
    some ⟨1, [.int 7]⟩ := by rfl

end Rindle
