/-
  Rindle.Planner.Apply — the flags of a planned query (`rindle-planner/src/builder.rs`, `plan_ast`,
  `apply_plans_to_ast`).

  A query and each of its related queries are planned on their own graphs. The flags are written
  back by a second walk of the query that counts its plan ids anew; `apply_at` says that it counts
  at each EXISTS what the first walk counted there, so the flag is the type of the join that was
  built for it.

  A missing alias and a plan without a price stop the planner; both are `none`.
-/

import Rindle.Planner.Build

set_option linter.dupNamespace false

namespace Rindle.Planner

/-! ## Writing the flags -/

mutual

/-- `apply_to_condition`, with the next plan id. -/
def applyToCondition (flippedIds : List Nat) : Condition → Nat → Condition × Nat
  | .simple c, n => (.simple c, n)
  | .correlatedSubquery ⟨correlation, child, system⟩ flags, n =>
    let (child, n) := applyToChild flippedIds child n
    (.correlatedSubquery ⟨correlation, child, system⟩ { flags with flip := some (flippedIds.contains n) }, n + 1)
  | .and conditions, n =>
    let (conditions, n) := applyToConditions flippedIds conditions n
    (.and conditions, n)
  | .or conditions, n =>
    let (conditions, n) := applyToConditions flippedIds conditions n
    (.or conditions, n)

def applyToConditions (flippedIds : List Nat) : List Condition → Nat → List Condition × Nat
  | [], n => ([], n)
  | c :: conditions, n =>
    let (c, n) := applyToCondition flippedIds c n
    let (conditions, n) := applyToConditions flippedIds conditions n
    (c :: conditions, n)

/-- The condition of a query; the rest of it stays. -/
def applyToChild (flippedIds : List Nat) : Ast → Nat → Ast × Nat
  | .mk head (some w) related having, n =>
    let (w, n) := applyToCondition flippedIds w n
    (.mk head (some w) related having, n)
  | .mk head none related having, n => (.mk head none related having, n)

end

/-! ## Plans -/

/-- A graph and, by alias, the plans of the related queries. -/
inductive Plans where
  | mk (plan : PlannerGraph) (subPlans : List (String × Plans))

mutual

/-- `build_plan_graph`. -/
def buildPlanGraph : Ast → Bool → Option PlannerConstraint → Option Plans
  | .mk head w related having, isRoot, baseConstraints => do
    let subPlans ← buildSubPlans related
    pure (.mk (buildGraph (.mk head w related having) isRoot baseConstraints) subPlans)

def buildSubPlans : List (CorrelatedSubquery Ast) → Option (List (String × Plans))
  | [] => some []
  | ⟨correlation, subquery, _⟩ :: related => do
    let name ← subquery.head.aliasName
    let sub ← buildPlanGraph subquery true (some (collect correlation.childField))
    let subPlans ← buildSubPlans related
    pure ((name, sub) :: subPlans)

end

section
variable (totalCost : PlannerGraph → F64)

mutual

/-- `plan_recursively`. -/
def planRecursively : Plans → Option Plans
  | .mk plan subPlans => do
    let subPlans ← planSubPlans subPlans
    let plan ← plan.plan totalCost
    pure (.mk plan subPlans)

def planSubPlans : List (String × Plans) → Option (List (String × Plans))
  | [] => some []
  | (name, sub) :: subPlans => do
    let sub ← planRecursively sub
    let subPlans ← planSubPlans subPlans
    pure ((name, sub) :: subPlans)

end

mutual

/-- `apply_plans_to_ast`. -/
def applyPlansToAst : Ast → Plans → Ast
  | .mk head w related having, .mk plan subPlans =>
    .mk head (w.map fun w => (applyToCondition plan.flippedJoinPlanIds w 0).1) (applyToRelated related subPlans) having

/-- Each related query with the first plan under its alias. -/
def applyToRelated : List (CorrelatedSubquery Ast) → List (String × Plans) → List (CorrelatedSubquery Ast)
  | [], _ => []
  | ⟨correlation, subquery, system⟩ :: related, subPlans =>
    let sub := subquery.head.aliasName.bind fun name => subPlans.find? (·.1 == name)
    let subquery :=
      match sub with
      | some (_, plans) => applyPlansToAst subquery plans
      | none => subquery
    ⟨correlation, subquery, system⟩ :: applyToRelated related subPlans

end

/-- `plan_ast`. -/
def planAst (ast : Ast) : Option Ast := do
  let plans ← buildPlanGraph ast true none
  let plans ← planRecursively totalCost plans
  pure (applyPlansToAst ast plans)

end

/-! ## Erasing the flags -/

mutual

def eraseFlips : Condition → Condition
  | .simple c => .simple c
  | .and conditions => .and (eraseFlipsOf conditions)
  | .or conditions => .or (eraseFlipsOf conditions)
  | .correlatedSubquery ⟨correlation, child, system⟩ flags =>
    .correlatedSubquery ⟨correlation, eraseFlipsIn child, system⟩ { flags with flip := none }

def eraseFlipsOf : List Condition → List Condition
  | [] => []
  | c :: conditions => eraseFlips c :: eraseFlipsOf conditions

def eraseFlipsIn : Ast → Ast
  | .mk head w related having => .mk head (eraseFlipsOpt w) (eraseFlipsRelated related) (eraseFlipsOpt having)

def eraseFlipsOpt : Option Condition → Option Condition
  | none => none
  | some c => some (eraseFlips c)

def eraseFlipsRelated : List (CorrelatedSubquery Ast) → List (CorrelatedSubquery Ast)
  | [] => []
  | ⟨correlation, child, system⟩ :: related => ⟨correlation, eraseFlipsIn child, system⟩ :: eraseFlipsRelated related

end

mutual

/-- Writing flags changes flags only. -/
theorem eraseFlips_apply (ids : List Nat) : ∀ (c : Condition) (n : Nat), eraseFlips (applyToCondition ids c n).1 = eraseFlips c
  | .simple _, _ => rfl
  | .correlatedSubquery ⟨_, child, _⟩ _, n => by
    simp only [applyToCondition, eraseFlips]
    rw [eraseFlipsIn_apply ids child n]
  | .and conditions, n => by
    simp only [applyToCondition, eraseFlips]
    rw [eraseFlipsOf_apply ids conditions n]
  | .or conditions, n => by
    simp only [applyToCondition, eraseFlips]
    rw [eraseFlipsOf_apply ids conditions n]

theorem eraseFlipsOf_apply (ids : List Nat) : ∀ (conditions : List Condition) (n : Nat),
    eraseFlipsOf (applyToConditions ids conditions n).1 = eraseFlipsOf conditions
  | [], _ => rfl
  | c :: conditions, n => by
    simp only [applyToConditions, eraseFlipsOf]
    rw [eraseFlips_apply ids c n, eraseFlipsOf_apply ids conditions]

theorem eraseFlipsIn_apply (ids : List Nat) : ∀ (ast : Ast) (n : Nat), eraseFlipsIn (applyToChild ids ast n).1 = eraseFlipsIn ast
  | .mk _ (some w) _ _, n => by
    simp only [applyToChild, eraseFlipsIn, eraseFlipsOpt]
    rw [eraseFlips_apply ids w n]
  | .mk _ none _ _, _ => rfl

end

mutual

theorem eraseFlips_plans : ∀ (ast : Ast) (plans : Plans), eraseFlipsIn (applyPlansToAst ast plans) = eraseFlipsIn ast
  | .mk head w related having, .mk plan subPlans => by
    have hw : eraseFlipsOpt (w.map fun w => (applyToCondition plan.flippedJoinPlanIds w 0).1) = eraseFlipsOpt w := by
      cases w with
      | none => rfl
      | some w => exact congrArg some (eraseFlips_apply _ w 0)
    simp only [applyPlansToAst, eraseFlipsIn]
    rw [hw, eraseFlips_related related subPlans]

theorem eraseFlips_related : ∀ (related : List (CorrelatedSubquery Ast)) (subPlans : List (String × Plans)),
    eraseFlipsRelated (applyToRelated related subPlans) = eraseFlipsRelated related
  | [], _ => rfl
  | ⟨_, subquery, _⟩ :: related, subPlans => by
    simp only [applyToRelated, eraseFlipsRelated]
    rw [eraseFlips_related related subPlans]
    split
    · rename_i plans _
      rw [eraseFlips_plans subquery plans]
    · rfl

end

/-! ## The same count -/

/-- The condition at a path. -/
def conditionAt : List Nat → Condition → Option Condition
  | [], c => some c
  | i :: path, .and conditions => conditions[i]?.bind (conditionAt path)
  | i :: path, .or conditions => conditions[i]?.bind (conditionAt path)
  | 0 :: path, .correlatedSubquery related _ => related.subquery.where?.bind (conditionAt path)
  | _ :: _, _ => none

mutual

theorem apply_count (ids path : List Nat) : ∀ (c : Condition) (n : Nat), (applyToCondition ids c n).2 = n + (existsAt path c).length
  | .simple _, _ => rfl
  | .correlatedSubquery ⟨_, child, _⟩ _, n => by
    simp only [applyToCondition, existsAt, List.length_append, List.length_singleton]
    rw [applyChild_count ids (path ++ [0]) child n]
    omega
  | .and conditions, n => by
    simp only [applyToCondition, existsAt]
    exact applyFrom_count ids path 0 conditions n
  | .or conditions, n => by
    simp only [applyToCondition, existsAt]
    exact applyFrom_count ids path 0 conditions n

theorem applyFrom_count (ids path : List Nat) (i : Nat) : ∀ (conditions : List Condition) (n : Nat),
    (applyToConditions ids conditions n).2 = n + (existsFrom path i conditions).length
  | [], _ => rfl
  | c :: conditions, n => by
    simp only [applyToConditions, existsFrom, List.length_append]
    rw [applyFrom_count ids path (i + 1) conditions, apply_count ids (path ++ [i]) c n]
    omega

theorem applyChild_count (ids path : List Nat) : ∀ (ast : Ast) (n : Nat),
    (applyToChild ids ast n).2 = n + (existsUnder path ast).length
  | .mk _ (some w) _ _, n => by
    simp only [applyToChild, existsUnder]
    exact apply_count ids path w n
  | .mk _ none _ _, _ => rfl

end

/-- The EXISTS at `q` is the `k`th, and got the flag of the `k`th plan id after `n`. -/
def Marked (ids : List Nat) (es : List Occurrence) (n : Nat) (path : List Nat) (correlation : Correlation) (flags : ExistsFlags)
    (result : Option Condition) : Prop :=
  ∃ k, es[k]? = some ⟨path, correlation, flags⟩ ∧ ∃ related, related.correlation = correlation ∧
    result = some (.correlatedSubquery related { flags with flip := some (ids.contains (n + k)) })

theorem Marked.left {ids : List Nat} {es : List Occurrence} {n : Nat} {path : List Nat} {correlation : Correlation}
    {flags : ExistsFlags} {result : Option Condition} (h : Marked ids es n path correlation flags result) (more : List Occurrence) :
    Marked ids (es ++ more) n path correlation flags result := by
  obtain ⟨k, hk, h⟩ := h
  have hlt := (List.getElem?_eq_some_iff.mp hk).1
  exact ⟨k, by rw [List.getElem?_append_left hlt]; exact hk, h⟩

theorem Marked.right {ids : List Nat} {es es' : List Occurrence} {n : Nat} {path : List Nat} {correlation : Correlation}
    {flags : ExistsFlags} {result : Option Condition} (h : Marked ids es' (n + es.length) path correlation flags result) :
    Marked ids (es ++ es') n path correlation flags result := by
  obtain ⟨k, hk, related, hcorr, h⟩ := h
  refine ⟨es.length + k, by rw [List.getElem?_append_right (by omega)]; simpa using hk, related, hcorr, ?_⟩
  rw [h, Nat.add_assoc]

mutual

/-- The second walk counts at each EXISTS what the first did. -/
theorem apply_at (ids : List Nat) : ∀ (c : Condition) (path q : List Nat) (n : Nat) {related : CorrelatedSubquery Ast} {flags : ExistsFlags},
    conditionAt q c = some (.correlatedSubquery related flags) →
    Marked ids (existsAt path c) n (path ++ q) related.correlation flags (conditionAt q (applyToCondition ids c n).1)
  | .simple _, _, [], _, _, _, h => by cases h
  | .simple _, _, _ :: _, _, _, _, h => by cases h
  | .and conditions, path, [], _, _, _, h => by cases h
  | .and conditions, path, i :: q, n, _, _, h => by
    have := applyFrom_at ids conditions path 0 i q n h
    rw [Nat.zero_add] at this
    exact this
  | .or conditions, path, [], _, _, _, h => by cases h
  | .or conditions, path, i :: q, n, _, _, h => by
    have := applyFrom_at ids conditions path 0 i q n h
    rw [Nat.zero_add] at this
    exact this
  | .correlatedSubquery ⟨correlation, child, system⟩ flags, path, [], n, _, _, h => by
    cases h
    refine ⟨(existsUnder (path ++ [0]) child).length, ?_, ⟨correlation, (applyToChild ids child n).1, system⟩, rfl, ?_⟩
    · simp [existsAt]
    · simp only [applyToCondition, conditionAt]
      rw [applyChild_count ids (path ++ [0]) child n]
  | .correlatedSubquery ⟨correlation, child, system⟩ flags, path, 0 :: q, n, _, _, h => by
    have := (applyChild_at ids child (path ++ [0]) q n h).left [⟨path, correlation, flags⟩]
    rw [List.append_assoc] at this
    exact this
  | .correlatedSubquery ⟨_, _, _⟩ _, _, (_ + 1) :: _, _, _, _, h => by cases h

theorem applyFrom_at (ids : List Nat) : ∀ (conditions : List Condition) (path : List Nat) (i m : Nat) (q : List Nat) (n : Nat)
    {related : CorrelatedSubquery Ast} {flags : ExistsFlags},
    conditions[m]?.bind (conditionAt q) = some (.correlatedSubquery related flags) →
    Marked ids (existsFrom path i conditions) n (path ++ (i + m) :: q) related.correlation flags
      ((applyToConditions ids conditions n).1[m]?.bind (conditionAt q))
  | [], _, _, _, _, _, _, _, h => by cases h
  | c :: conditions, path, i, 0, q, n, _, _, h => by
    have := (apply_at ids c (path ++ [i]) q n h).left (existsFrom path (i + 1) conditions)
    rw [List.append_assoc] at this
    exact this
  | c :: conditions, path, i, m + 1, q, n, _, _, h => by
    have := applyFrom_at ids conditions path (i + 1) m q (applyToCondition ids c n).2 h
    rw [apply_count ids (path ++ [i]) c n] at this
    have := this.right
    rw [show i + 1 + m = i + (m + 1) by omega] at this
    simp only [applyToConditions, existsFrom, List.getElem?_cons_succ]
    rw [apply_count ids (path ++ [i]) c n]
    exact this

theorem applyChild_at (ids : List Nat) : ∀ (ast : Ast) (path q : List Nat) (n : Nat) {related : CorrelatedSubquery Ast}
    {flags : ExistsFlags}, ast.where?.bind (conditionAt q) = some (.correlatedSubquery related flags) →
    Marked ids (existsUnder path ast) n (path ++ q) related.correlation flags
      ((applyToChild ids ast n).1.where?.bind (conditionAt q))
  | .mk _ (some w) _ _, path, q, n, _, _, h => apply_at ids w path q n h
  | .mk _ none _ _, _, _, _, _, _, h => by cases h

end

/-! ## One path, one join -/

mutual

/-- The EXISTS conditions of a condition stand at it or below. -/
theorem existsAt_below : ∀ (path : List Nat) (c : Condition), ∀ e ∈ existsAt path c, path <+: e.path
  | _, .simple _, e, he => by cases he
  | path, .and conditions, e, he => by
    obtain ⟨m, -, hm⟩ := existsFrom_below path 0 conditions e he
    exact (List.prefix_append path [m]).trans hm
  | path, .or conditions, e, he => by
    obtain ⟨m, -, hm⟩ := existsFrom_below path 0 conditions e he
    exact (List.prefix_append path [m]).trans hm
  | path, .correlatedSubquery ⟨_, child, _⟩ _, e, he => by
    rcases List.mem_append.mp he with he | he
    · exact (List.prefix_append path [0]).trans (existsUnder_below (path ++ [0]) child e he)
    · exact (List.mem_singleton.mp he).symm ▸ List.prefix_rfl

theorem existsFrom_below (path : List Nat) : ∀ (i : Nat) (conditions : List Condition), ∀ e ∈ existsFrom path i conditions,
    ∃ m, i ≤ m ∧ path ++ [m] <+: e.path
  | _, [], e, he => by cases he
  | i, c :: conditions, e, he => by
    rcases List.mem_append.mp he with he | he
    · exact ⟨i, Nat.le_refl _, existsAt_below (path ++ [i]) c e he⟩
    · obtain ⟨m, hm, hbelow⟩ := existsFrom_below path (i + 1) conditions e he
      exact ⟨m, by omega, hbelow⟩

theorem existsUnder_below : ∀ (path : List Nat) (ast : Ast), ∀ e ∈ existsUnder path ast, path <+: e.path
  | path, .mk _ (some w) _ _, e, he => existsAt_below path w e he
  | _, .mk _ none _ _, e, he => by cases he

end

mutual

/-- No two of them stand at one path. -/
theorem existsAt_nodup : ∀ (path : List Nat) (c : Condition), ((existsAt path c).map (·.path)).Nodup
  | _, .simple _ => List.nodup_nil
  | path, .and conditions => existsFrom_nodup path 0 conditions
  | path, .or conditions => existsFrom_nodup path 0 conditions
  | path, .correlatedSubquery ⟨_, child, _⟩ _ => by
    rw [existsAt, List.map_append, List.nodup_append]
    refine ⟨existsUnder_nodup (path ++ [0]) child, List.nodup_singleton _, ?_⟩
    intro a ha b hb heq
    obtain ⟨e, he, rfl⟩ := List.mem_map.mp ha
    have hlen := (existsUnder_below (path ++ [0]) child e he).length_le
    rw [heq, List.mem_singleton.mp hb] at hlen
    simp at hlen

theorem existsFrom_nodup (path : List Nat) : ∀ (i : Nat) (conditions : List Condition),
    ((existsFrom path i conditions).map (·.path)).Nodup
  | _, [] => List.nodup_nil
  | i, c :: conditions => by
    rw [existsFrom, List.map_append, List.nodup_append]
    refine ⟨existsAt_nodup (path ++ [i]) c, existsFrom_nodup path (i + 1) conditions, ?_⟩
    intro a ha b hb heq
    obtain ⟨e, he, rfl⟩ := List.mem_map.mp ha
    obtain ⟨e', he', rfl⟩ := List.mem_map.mp hb
    obtain ⟨m, hm, hbelow⟩ := existsFrom_below path (i + 1) conditions e' he'
    have hleft := existsAt_below (path ++ [i]) c e he
    rw [heq] at hleft
    have hsame := (List.prefix_of_prefix_length_le hleft hbelow (by simp)).eq_of_length (by simp)
    have : i = m := by simpa using hsame
    omega

theorem existsUnder_nodup : ∀ (path : List Nat) (ast : Ast), ((existsUnder path ast).map (·.path)).Nodup
  | path, .mk _ (some w) _ _ => existsAt_nodup path w
  | _, .mk _ none _ _ => List.nodup_nil

end

/-! ## One level -/

theorem forall₂_getElem? {α β : Type} {R : α → β → Prop} {l : List α} {l' : List β} (h : List.Forall₂ R l l') (k : Nat) :
    (l[k]? = none ∧ l'[k]? = none) ∨ ∃ a b, l[k]? = some a ∧ l'[k]? = some b ∧ R a b := by
  induction h generalizing k with
  | nil => exact Or.inl ⟨rfl, rfl⟩
  | cons hab _ ih =>
    cases k with
    | zero => exact Or.inr ⟨_, _, rfl, rfl, hab⟩
    | succ k => exact ih k

section
variable {totalCost : PlannerGraph → F64} {ast : Ast} {isRoot : Bool} {base : Option PlannerConstraint} {g : PlannerGraph}

/-- The `k`th join of a planned graph is that of the `k`th EXISTS, of its initial type if it may not flip. -/
theorem planned_joins (h : (buildGraph ast isRoot base).plan totalCost = some g) (k : Nat) :
    ((existsUnder [] ast)[k]? = none ∧ g.joins[k]? = none) ∨
      ∃ e j, (existsUnder [] ast)[k]? = some e ∧ g.joins[k]? = some j ∧ unwired j = { joinFor e k with type := j.type } ∧
        ((flippability e.flags).1 = false → j.type = (flippability e.flags).2) := by
  have hbuilt := congrArg (·[k]?) (buildGraph_joins ast isRoot base)
  simp only [List.getElem?_map, List.getElem?_zipIdx, Nat.zero_add] at hbuilt
  rcases forall₂_getElem? (PlannerGraph.plan_retyped (buildGraph_fresh ast isRoot base) h) k with ⟨hnone, hnone'⟩ | ⟨j, j', hj, hj', hretype⟩
  · rw [hnone] at hbuilt
    refine Or.inl ⟨?_, hnone'⟩
    cases he : (existsUnder [] ast)[k]? with
    | none => rfl
    | some e => rw [he] at hbuilt; cases hbuilt
  · rw [hj] at hbuilt
    cases he : (existsUnder [] ast)[k]? with
    | none => rw [he] at hbuilt; cases hbuilt
    | some e =>
      rw [he] at hbuilt
      have hjoin : unwired j = joinFor e k := Option.some.inj hbuilt
      obtain ⟨heq, hfixed⟩ := hretype
      refine Or.inr ⟨e, j', rfl, hj', ?_, fun hflip => ?_⟩
      · rw [← hjoin, heq]
        rfl
      · have hflippable : j.flippable = (flippability e.flags).1 := congrArg (·.flippable) hjoin
        have htype : j.type = (flippability e.flags).2 := congrArg (·.type) hjoin
        rw [hfixed (hflippable.trans hflip), htype]

/-- The flag of the `k`th plan id is the type of the `k`th join. -/
theorem contains_iff (h : (buildGraph ast isRoot base).plan totalCost = some g) {k : Nat} {j : PlannerJoin} (hj : g.joins[k]? = some j) :
    g.flippedJoinPlanIds.contains k = (j.type == .flipped) := by
  have hid : ∀ {k' : Nat} {j' : PlannerJoin}, g.joins[k']? = some j' → j'.planId = k' := by
    intro k' j' hj'
    rcases planned_joins h k' with ⟨-, hnone⟩ | ⟨e, j'', -, hj'', hun, -⟩
    · rw [hnone] at hj'
      cases hj'
    · rw [hj'] at hj''
      cases hj''
      exact congrArg (·.planId) hun
  rw [Bool.eq_iff_iff, List.contains_iff_mem, PlannerGraph.flippedJoinPlanIds]
  constructor
  · intro hmem
    obtain ⟨j', hj', hk⟩ := List.mem_map.mp hmem
    obtain ⟨hj', hflipped⟩ := List.mem_filter.mp hj'
    obtain ⟨k', hk'⟩ := List.mem_iff_getElem?.mp hj'
    rw [hid hk'] at hk
    rw [hk, hj] at hk'
    cases hk'
    exact hflipped
  · intro hflipped
    exact List.mem_map.mpr ⟨j, List.mem_filter.mpr ⟨List.mem_of_getElem? hj, hflipped⟩, hid hj⟩

/-- A planned level: at each EXISTS stands the type of the one join that was built for it, and one the user
    fixed, or a NOT EXISTS, keeps its own. -/
def Flagged (g : PlannerGraph) (w w' : Condition) : Prop :=
  ∀ q related flags, conditionAt q w = some (.correlatedSubquery related flags) →
    ∃ j ∈ g.joins, j.origin = q ∧ (∀ j' ∈ g.joins, j'.origin = q → j' = j) ∧
      (∃ related', related'.correlation = related.correlation ∧
        conditionAt q w' = some (.correlatedSubquery related' { flags with flip := some (j.type == .flipped) })) ∧
      (flags.op = .exists → ∀ b, flags.flip = some b → (j.type == .flipped) = b) ∧ (flags.op = .notExists → j.type = .semi)

theorem flagged_apply (h : (buildGraph ast isRoot base).plan totalCost = some g) {w : Condition} (hw : ast.where? = some w) :
    Flagged g w (applyToCondition g.flippedJoinPlanIds w 0).1 := by
  intro q related flags hq
  have hunder : existsUnder [] ast = existsAt [] w := by
    cases ast with
    | mk head w' related having =>
      cases hw
      rfl
  obtain ⟨k, hk, related', hcorr, happly⟩ := apply_at g.flippedJoinPlanIds w [] q 0 hq
  rw [List.nil_append, ← hunder] at hk
  rcases planned_joins h k with ⟨hnone, -⟩ | ⟨e, j, he, hj, hun, hfixed⟩
  · rw [hnone] at hk
    cases hk
  rw [hk] at he
  cases he
  rw [Nat.zero_add, contains_iff h hj] at happly
  refine ⟨j, List.mem_of_getElem? hj, congrArg (·.origin) hun, ?_, ⟨related', hcorr, happly⟩, ?_, ?_⟩
  · intro j' hj' horigin
    obtain ⟨k', hk'⟩ := List.mem_iff_getElem?.mp hj'
    rcases planned_joins h k' with ⟨-, hnone⟩ | ⟨e', j'', he', hj'', hun', -⟩
    · rw [hnone] at hk'
      cases hk'
    rw [hk'] at hj''
    cases hj''
    have hpath : e'.path = q := (congrArg (·.origin) hun').symm.trans horigin
    have hnodup : ((existsUnder [] ast).map (·.path)).Nodup := existsUnder_nodup [] ast
    have hget : ((existsUnder [] ast).map (·.path))[k]? = ((existsUnder [] ast).map (·.path))[k']? := by
      rw [List.getElem?_map, List.getElem?_map, hk, he', Option.map_some, Option.map_some, hpath]
    have hlt : k < ((existsUnder [] ast).map (·.path)).length := by
      rw [List.length_map]
      exact (List.getElem?_eq_some_iff.mp hk).1
    have hkk := (List.getElem?_inj hlt hnodup).mp hget
    subst hkk
    rw [hj] at hk'
    cases hk'
    rfl
  · intro hop b hb
    have : flippability flags = (false, if b then .flipped else .semi) := by
      unfold flippability
      rw [hop, hb]
      cases b <;> rfl
    rw [hfixed (by rw [this]), this]
    cases b <;> rfl
  · intro hop
    have : flippability flags = (false, .semi) := by
      unfold flippability
      rw [hop]
    rw [hfixed (by rw [this]), this]

end

/-! ## All levels -/

/-- The query at a path through the related queries, with the constraints its graph is built with. -/
def levelAt : Option PlannerConstraint → Ast → List Nat → Option (Option PlannerConstraint × Ast)
  | base, ast, [] => some (base, ast)
  | _, ast, i :: path =>
    ast.related[i]?.bind fun c => levelAt (some (collect c.correlation.childField)) c.subquery path

mutual

/-- Every related query has an alias, and no two of one query the same. -/
def Aliased : Ast → Prop
  | .mk _ _ related _ => (related.map fun c => c.subquery.head.aliasName).Nodup ∧ AliasedAll related

def AliasedAll : List (CorrelatedSubquery Ast) → Prop
  | [] => True
  | ⟨_, subquery, _⟩ :: related => subquery.head.aliasName.isSome = true ∧ Aliased subquery ∧ AliasedAll related

end

theorem AliasedAll.mem {related : List (CorrelatedSubquery Ast)} (h : AliasedAll related) {c : CorrelatedSubquery Ast}
    (hc : c ∈ related) : c.subquery.head.aliasName.isSome = true ∧ Aliased c.subquery := by
  induction related with
  | nil => cases hc
  | cons c' related ih =>
    obtain ⟨hname, hsub, hrest⟩ := h
    rcases List.mem_cons.mp hc with rfl | hc
    · exact ⟨hname, hsub⟩
    · exact ih hrest hc

mutual

theorem buildPlanGraph_ok : ∀ (ast : Ast) (isRoot : Bool) (base : Option PlannerConstraint), Aliased ast →
    ∃ plans, buildPlanGraph ast isRoot base = some plans
  | .mk head w related having, isRoot, base, h => by
    obtain ⟨subPlans, hsub⟩ := buildSubPlans_ok related h.2
    exact ⟨_, by rw [buildPlanGraph, hsub]; rfl⟩

theorem buildSubPlans_ok : ∀ (related : List (CorrelatedSubquery Ast)), AliasedAll related → ∃ subPlans, buildSubPlans related = some subPlans
  | [], _ => ⟨[], rfl⟩
  | ⟨correlation, subquery, _⟩ :: related, h => by
    obtain ⟨hname, hsub, hrest⟩ := h
    obtain ⟨name, hname⟩ := Option.isSome_iff_exists.mp hname
    obtain ⟨sub, hsub⟩ := buildPlanGraph_ok subquery true (some (collect correlation.childField)) hsub
    obtain ⟨subPlans, hrest⟩ := buildSubPlans_ok related hrest
    exact ⟨(name, sub) :: subPlans, by simp [buildSubPlans, hname, hsub, hrest]⟩

end

/-- The plans of the related queries, in their order. -/
theorem buildSubPlans_each {related : List (CorrelatedSubquery Ast)} {subPlans : List (String × Plans)}
    (h : buildSubPlans related = some subPlans) :
    List.Forall₂ (fun c s => c.subquery.head.aliasName = some s.1 ∧
      buildPlanGraph c.subquery true (some (collect c.correlation.childField)) = some s.2) related subPlans := by
  induction related generalizing subPlans with
  | nil => cases h; exact .nil
  | cons c related ih =>
    obtain ⟨correlation, subquery, system⟩ := c
    simp only [buildSubPlans, Option.bind_eq_bind, Option.bind_eq_some_iff, Option.pure_def, Option.some.injEq] at h
    obtain ⟨name, hname, sub, hsub, rest, hrest, rfl⟩ := h
    exact .cons ⟨hname, hsub⟩ (ih hrest)

section
variable {totalCost : PlannerGraph → F64}

theorem planSubPlans_each {subPlans planned : List (String × Plans)} (h : planSubPlans totalCost subPlans = some planned) :
    List.Forall₂ (fun s s' => s'.1 = s.1 ∧ planRecursively totalCost s.2 = some s'.2) subPlans planned := by
  induction subPlans generalizing planned with
  | nil => cases h; exact .nil
  | cons s subPlans ih =>
    obtain ⟨name, sub⟩ := s
    simp only [planSubPlans, Option.bind_eq_bind, Option.bind_eq_some_iff, Option.pure_def, Option.some.injEq] at h
    obtain ⟨sub', hsub, rest, hrest, rfl⟩ := h
    exact .cons ⟨rfl, hsub⟩ (ih hrest)

/-- A level's property is its own and its related queries'. -/
theorem forall_levels {P : Option PlannerConstraint → Ast → Prop} {base : Option PlannerConstraint} {ast : Ast} :
    (∀ path b a, levelAt base ast path = some (b, a) → P b a) ↔
      P base ast ∧ ∀ c ∈ ast.related, ∀ path b a, levelAt (some (collect c.correlation.childField)) c.subquery path = some (b, a) → P b a := by
  constructor
  · intro h
    refine ⟨h [] base ast rfl, fun c hc path b a hlevel => ?_⟩
    obtain ⟨i, hi⟩ := List.mem_iff_getElem?.mp hc
    exact h (i :: path) b a (by rw [levelAt, hi]; exact hlevel)
  · intro h path b a hlevel
    cases path with
    | nil =>
      cases hlevel
      exact h.1
    | cons i path =>
      obtain ⟨c, hi, hlevel⟩ := Option.bind_eq_some_iff.mp hlevel
      exact h.2 c (List.mem_of_getElem? hi) path b a hlevel

mutual

/-- Planning ends in an answer exactly when every level has a price. -/
theorem planRecursively_isSome : ∀ (ast : Ast) (base : Option PlannerConstraint) {plans : Plans}, buildPlanGraph ast true base = some plans →
    ((planRecursively totalCost plans).isSome = true ↔
      ∀ path b a, levelAt base ast path = some (b, a) → (buildGraph a true b).Priced totalCost)
  | .mk head w related having, base, plans, h => by
    rw [buildPlanGraph] at h
    obtain ⟨subPlans, hsub, hplans⟩ := Option.bind_eq_some_iff.mp h
    cases hplans
    have hlevels : (∀ path b a, levelAt base (.mk head w related having) path = some (b, a) → (buildGraph a true b).Priced totalCost) ↔ _ :=
      @forall_levels (fun b a => (buildGraph a true b).Priced totalCost) base (.mk head w related having)
    rw [hlevels, ← PlannerGraph.plan_isSome (buildGraph_fresh _ true base)]
    have hrest := planSubPlans_isSome related hsub
    show _ ↔ _ ∧ ∀ c ∈ related, _
    rw [← hrest, planRecursively]
    cases planSubPlans totalCost subPlans <;> cases (buildGraph (.mk head w related having) true base).plan totalCost <;> simp

theorem planSubPlans_isSome : ∀ (related : List (CorrelatedSubquery Ast)) {subPlans : List (String × Plans)},
    buildSubPlans related = some subPlans →
    ((planSubPlans totalCost subPlans).isSome = true ↔
      ∀ c ∈ related, ∀ path b a, levelAt (some (collect c.correlation.childField)) c.subquery path = some (b, a) →
        (buildGraph a true b).Priced totalCost)
  | [], subPlans, h => by
    cases h
    simp [planSubPlans]
  | ⟨correlation, subquery, system⟩ :: related, subPlans, h => by
    simp only [buildSubPlans, Option.bind_eq_bind, Option.bind_eq_some_iff, Option.pure_def, Option.some.injEq] at h
    obtain ⟨name, -, sub, hsub, rest, hrest, rfl⟩ := h
    rw [List.forall_mem_cons, ← planSubPlans_isSome related hrest, ← planRecursively_isSome subquery _ hsub, planSubPlans]
    cases planRecursively totalCost sub <;> cases planSubPlans totalCost rest <;> simp

end

theorem applyToRelated_get {related : List (CorrelatedSubquery Ast)} {subPlans : List (String × Plans)} {i : Nat}
    {c : CorrelatedSubquery Ast} {name : String} {s : String × Plans} (hc : related[i]? = some c)
    (hname : c.subquery.head.aliasName = some name) (hs : subPlans.find? (·.1 == name) = some s) :
    (applyToRelated related subPlans)[i]? = some { c with subquery := applyPlansToAst c.subquery s.2 } := by
  induction related generalizing i with
  | nil => cases hc
  | cons c' related ih =>
    cases i with
    | zero =>
      cases hc
      rw [applyToRelated, hname, Option.bind_some, hs]
      rfl
    | succ i => exact ih hc

/-- With distinct aliases a plan is found under its own. -/
theorem find_alias {subPlans : List (String × Plans)} (h : (subPlans.map (·.1)).Nodup) {i : Nat} {s : String × Plans}
    (hs : subPlans[i]? = some s) : subPlans.find? (·.1 == s.1) = some s := by
  induction subPlans generalizing i with
  | nil => cases hs
  | cons s' subPlans ih =>
    rw [List.map_cons, List.nodup_cons] at h
    cases i with
    | zero =>
      cases hs
      rw [List.find?_cons_of_pos (by simp)]
    | succ i =>
      have hmem : s ∈ subPlans := List.mem_of_getElem? hs
      have hne : s'.1 ≠ s.1 := fun heq => h.1 (heq ▸ List.mem_map_of_mem hmem)
      rw [List.find?_cons_of_neg (by simpa using hne)]
      exact ih h.2 hs

theorem names_eq {related : List (CorrelatedSubquery Ast)} {subPlans planned : List (String × Plans)}
    (hbuilt : List.Forall₂ (fun c s => c.subquery.head.aliasName = some s.1 ∧
      buildPlanGraph c.subquery true (some (collect c.correlation.childField)) = some s.2) related subPlans)
    (hplanned : List.Forall₂ (fun s s' => s'.1 = s.1 ∧ planRecursively totalCost s.2 = some s'.2) subPlans planned) :
    related.map (fun c => c.subquery.head.aliasName) = planned.map (some ·.1) := by
  induction hbuilt generalizing planned with
  | nil => cases hplanned; rfl
  | cons hc _ ih =>
    cases hplanned with
    | cons hs hplanned => rw [List.map_cons, List.map_cons, ih hplanned, hc.1, hs.1]

/-- Every level of a planned query was flagged from the plan of its own graph. -/
theorem planned_levels (path : List Nat) : ∀ {ast : Ast} {base : Option PlannerConstraint} {plans planned : Plans}
    {b : Option PlannerConstraint} {a : Ast}, Aliased ast → buildPlanGraph ast true base = some plans →
    planRecursively totalCost plans = some planned → levelAt base ast path = some (b, a) →
    ∃ a' g, levelAt base (applyPlansToAst ast planned) path = some (b, a') ∧ (buildGraph a true b).plan totalCost = some g ∧
      a'.where? = a.where?.map fun w => (applyToCondition g.flippedJoinPlanIds w 0).1 := by
  induction path with
  | nil =>
    intro ast base plans planned b a _ hbuild hplan hlevel
    cases hlevel
    obtain ⟨head, w, related, having⟩ := ast
    rw [buildPlanGraph] at hbuild
    obtain ⟨subPlans, -, hplans⟩ := Option.bind_eq_some_iff.mp hbuild
    cases hplans
    rw [planRecursively] at hplan
    obtain ⟨planned', -, hplan⟩ := Option.bind_eq_some_iff.mp hplan
    obtain ⟨g, hg, hplan⟩ := Option.bind_eq_some_iff.mp hplan
    cases hplan
    exact ⟨_, g, rfl, hg, rfl⟩
  | cons i path ih =>
    intro ast base plans planned b a haliased hbuild hplan hlevel
    obtain ⟨c, hc, hbelow⟩ := Option.bind_eq_some_iff.mp hlevel
    obtain ⟨head, w, related, having⟩ := ast
    rw [buildPlanGraph] at hbuild
    obtain ⟨subPlans, hsub, hplans⟩ := Option.bind_eq_some_iff.mp hbuild
    cases hplans
    rw [planRecursively] at hplan
    obtain ⟨subPlanned, hsubPlan, hplan⟩ := Option.bind_eq_some_iff.mp hplan
    obtain ⟨g, -, hplan⟩ := Option.bind_eq_some_iff.mp hplan
    cases hplan
    have hc : related[i]? = some c := hc
    have hbuilt := buildSubPlans_each hsub
    have hplanned := planSubPlans_each hsubPlan
    rcases forall₂_getElem? hbuilt i with ⟨hnone, -⟩ | ⟨c', s, hc', hs, hname, hbuildSub⟩
    · rw [hc] at hnone
      cases hnone
    rw [hc] at hc'
    cases hc'
    rcases forall₂_getElem? hplanned i with ⟨hnone, -⟩ | ⟨s', s'', hs', hs'', hname', hplanSub⟩
    · rw [hs] at hnone
      cases hnone
    rw [hs] at hs'
    cases hs'
    have hnodup : (subPlanned.map (·.1)).Nodup := by
      have h := haliased.1
      rw [names_eq hbuilt hplanned] at h
      exact List.Nodup.of_map some (by rw [List.map_map]; exact h)
    have hfind := find_alias hnodup hs''
    rw [hname'] at hfind
    obtain ⟨a', g', hlevel', hg', hwhere⟩ := ih (haliased.2.mem (List.mem_of_getElem? hc)).2 hbuildSub hplanSub hbelow
    refine ⟨a', g', ?_, hg', hwhere⟩
    show (applyToRelated related subPlanned)[i]?.bind _ = _
    rw [applyToRelated_get hc hname hfind]
    exact hlevel'

end

/-! ## The planner -/

section
variable (totalCost : PlannerGraph → F64)

/-- For every cost model and every query with distinct aliases, planning answers exactly when each query it
    plans has a price. The answer is the query but for its flags; at every level the flag of an EXISTS is
    the type of the one join that was built for it, a flag the user fixed is kept, and a NOT EXISTS is not
    flipped. -/
theorem plan_ast_flags_only {ast : Ast} (haliased : Aliased ast) :
    ((planAst totalCost ast).isSome = true ↔
      ∀ path b a, levelAt none ast path = some (b, a) → (buildGraph a true b).Priced totalCost) ∧
    ∀ ast', planAst totalCost ast = some ast' → eraseFlipsIn ast' = eraseFlipsIn ast ∧
      ∀ path b a, levelAt none ast path = some (b, a) →
        ∃ a' g, levelAt none ast' path = some (b, a') ∧ (buildGraph a true b).plan totalCost = some g ∧
          ∀ w, a.where? = some w → ∃ w', a'.where? = some w' ∧ Flagged g w w' := by
  obtain ⟨plans, hbuild⟩ := buildPlanGraph_ok ast true none haliased
  refine ⟨?_, ?_⟩
  · rw [← planRecursively_isSome ast none hbuild, planAst, hbuild]
    show ((planRecursively totalCost plans).bind _).isSome = true ↔ _
    cases planRecursively totalCost plans with
    | none => exact Iff.rfl
    | some planned => exact Iff.rfl
  · intro ast' h
    rw [planAst, hbuild] at h
    have h : (planRecursively totalCost plans).bind (fun plans => some (applyPlansToAst ast plans)) = some ast' := h
    obtain ⟨planned, hplan, h⟩ := Option.bind_eq_some_iff.mp h
    cases h
    refine ⟨eraseFlips_plans ast planned, fun path b a hlevel => ?_⟩
    obtain ⟨a', g, hlevel', hg, hwhere⟩ := planned_levels path haliased hbuild hplan hlevel
    refine ⟨a', g, hlevel', hg, fun w hw => ⟨_, by rw [hwhere, hw]; rfl, flagged_apply hg hw⟩⟩

end

/-- `users` with a `posts` subquery under the operator. -/
def usersWithPosts (flags : ExistsFlags) : Ast :=
  .mk { table := "users" } (some (.correlatedSubquery
    ⟨⟨["id"], ["userId"]⟩, .mk { table := "posts", aliasName := some "posts" } none [] none, none⟩ flags)) [] none

theorem plan_ast_flags_only_exists :
    ∃ ast', planAst (fun g => if (g.flippedJoinPlanIds).isEmpty then .infinity else .zero) (usersWithPosts ⟨.exists, none, none, none⟩)
      = some ast' ∧ eraseFlipsIn ast' = eraseFlipsIn (usersWithPosts ⟨.exists, none, none, none⟩) := by
  have hnodup : Aliased (usersWithPosts ⟨.exists, none, none, none⟩) := ⟨List.nodup_nil, trivial⟩
  have h := plan_ast_flags_only (fun g => if (g.flippedJoinPlanIds).isEmpty then .infinity else .zero) hnodup
  obtain ⟨ast', hast⟩ := Option.isSome_iff_exists.mp (show (planAst (fun g => if (g.flippedJoinPlanIds).isEmpty then .infinity else .zero)
    (usersWithPosts ⟨.exists, none, none, none⟩)).isSome = true by decide +kernel)
  exact ⟨ast', hast, (h.2 ast' hast).1⟩

/-- A cost model that prices nothing stops the planner at the first EXISTS it may flip. -/
theorem unpriced_plan_stops : Aliased (usersWithPosts ⟨.exists, none, none, none⟩) ∧
    planAst (fun _ => .infinity) (usersWithPosts ⟨.exists, none, none, none⟩) = none := by
  refine ⟨⟨List.nodup_nil, trivial⟩, ?_⟩
  rw [← Option.not_isSome_iff_eq_none]
  decide +kernel

end Rindle.Planner
