/-
  Rindle.Op.ChainExact — a filter chain is one filter on the whole condition.

  `Spells` reads the links between two of them as a condition. A change pushed into links that
  spell a condition goes on behind them as what a filter on the condition's truth makes of it
  (`spells_yields`): a filter after a filter is one on both (`filterChainPush_and`), and what a
  fan-out collapses from its branches is what a filter on any of them makes of the change
  (`collapse_exact`). The lowering makes links that spell its condition (`applyFilter_built`).

  A gate counts its relationship on an edit's new node only. That is right because a join never
  forwards an edit that changes its key and gives both nodes the children of that key, so that
  the gate sees the same on both (`Exists.Sees`).
-/

import Rindle.Op.Chain

set_option linter.dupNamespace false

namespace Rindle

/-! ## The truth of a condition -/

def Leaf.holds (n : Node) : Leaf → Bool
  | .filter pred => pred.eval n.row
  | .gate e => (e.gate n none).getD false

def leafHolds (n : Node) : Except BuildError Leaf → Bool
  | .ok leaf => leaf.holds n
  | .error _ => false

mutual

/-- Whether a node passes, each EXISTS counted on the node. -/
def Condition.holds (schema : Schema) (n : Node) : Condition → Bool
  | .simple sc => leafHolds n ((createPredicate sc schema).map .filter)
  | .correlatedSubquery related flags => leafHolds n (csqLeaf schema related flags)
  | .and conditions => allHold schema n conditions
  | .or conditions => anyHolds schema n conditions

def allHold (schema : Schema) (n : Node) : List Condition → Bool
  | [] => true
  | c :: rest => c.holds schema n && allHold schema n rest

def anyHolds (schema : Schema) (n : Node) : List Condition → Bool
  | [] => false
  | c :: rest => c.holds schema n || anyHolds schema n rest

end

mutual

/-- Every gate of a condition. -/
def Condition.Gates (schema : Schema) (P : Exists → Prop) : Condition → Prop
  | .simple _ => True
  | .correlatedSubquery related flags => ∀ e, csqLeaf schema related flags = .ok (.gate e) → P e
  | .and conditions => GatesOf schema P conditions
  | .or conditions => GatesOf schema P conditions

def GatesOf (schema : Schema) (P : Exists → Prop) : List Condition → Prop
  | [] => True
  | c :: rest => c.Gates schema P ∧ GatesOf schema P rest

end

/-- The gate's relationship is on the nodes of the change, and no edit changes whether it is empty. -/
def Exists.Sees (e : Exists) : Change → Prop
  | .add n => ∃ b, e.fetchExists n = some b
  | .remove n => ∃ b, e.fetchExists n = some b
  | .edit n old => ∃ b, e.fetchExists n = some b ∧ e.fetchExists old = some b
  | .child _ _ _ => False

/-! ## Filters -/

section
variable (p q : Node → Bool)

@[simp] theorem filterChainPush_add (n : Node) : filterChainPush p (.add n) = if p n then [.add n] else [] := rfl

@[simp] theorem filterChainPush_remove (n : Node) : filterChainPush p (.remove n) = if p n then [.remove n] else [] := rfl

@[simp] theorem filterChainPush_child (n : Node) (rel : Nat) (c : Change) :
    filterChainPush p (.child n rel c) = if p n then [.child n rel c] else [] := rfl

@[simp] theorem filterChainPush_edit (n old : Node) : filterChainPush p (.edit n old) =
    match p old, p n with
    | true, true => [.edit n old]
    | true, false => [.remove old]
    | false, true => [.add n]
    | false, false => [] := rfl

theorem filterChainPush_true (c : Change) : filterChainPush (fun _ => true) c = [c] := by cases c <;> rfl

theorem filterChainPush_and (c : Change) :
    (filterChainPush p c).flatMap (filterChainPush q) = filterChainPush (fun n => p n && q n) c := by
  cases c with
  | add n => cases hp : p n <;> simp [hp]
  | remove n => cases hp : p n <;> simp [hp]
  | child n rel c => cases hp : p n <;> simp [hp]
  | edit n old =>
    cases hold : p old <;> cases hnew : p n <;> cases hqold : q old <;> cases hqnew : q n <;> simp [hold, hnew, hqold, hqnew]

theorem filterChainPush_length (c : Change) : (filterChainPush p c).length ≤ 1 := by
  cases c with
  | add n => rw [filterChainPush_add]; split <;> simp
  | remove n => rw [filterChainPush_remove]; split <;> simp
  | child n rel c => rw [filterChainPush_child]; split <;> simp
  | edit n old => rw [filterChainPush_edit]; split <;> simp

end

theorem Exists.Sees.filtered {e : Exists} {c c' : Change} {p : Node → Bool} (h : e.Sees c) (hc : c' ∈ filterChainPush p c) :
    e.Sees c' := by
  cases c with
  | add n =>
    rw [filterChainPush_add, List.mem_ite_nil_right, List.mem_singleton] at hc
    rw [hc.2]
    exact h
  | remove n =>
    rw [filterChainPush_remove, List.mem_ite_nil_right, List.mem_singleton] at hc
    rw [hc.2]
    exact h
  | child n rel c => exact h.elim
  | edit n old =>
    obtain ⟨b, hnew, hold⟩ := h
    rw [filterChainPush_edit] at hc
    split at hc
    · obtain rfl := List.mem_singleton.mp hc
      exact ⟨b, hnew, hold⟩
    · obtain rfl := List.mem_singleton.mp hc
      exact ⟨b, hold⟩
    · obtain rfl := List.mem_singleton.mp hc
      exact ⟨b, hnew⟩
    · cases hc

mutual

theorem Condition.Gates.mono {schema : Schema} {P Q : Exists → Prop} (h : ∀ e, P e → Q e) : ∀ {cond : Condition},
    cond.Gates schema P → cond.Gates schema Q
  | .simple _, _ => trivial
  | .correlatedSubquery _ _, hp => fun e he => h e (hp e he)
  | .and _, hp => gatesOf_mono h hp
  | .or _, hp => gatesOf_mono h hp

theorem gatesOf_mono {schema : Schema} {P Q : Exists → Prop} (h : ∀ e, P e → Q e) : ∀ {conditions : List Condition},
    GatesOf schema P conditions → GatesOf schema Q conditions
  | [], _ => trivial
  | _ :: _, hp => ⟨hp.1.mono h, gatesOf_mono h hp.2⟩

end

theorem gatesOf_filtered {schema : Schema} {conditions : List Condition} {c c' : Change} {p : Node → Bool}
    (h : GatesOf schema (·.Sees c) conditions) (hc : c' ∈ filterChainPush p c) : GatesOf schema (·.Sees c') conditions :=
  gatesOf_mono (fun _ he => he.filtered hc) h

/-- A gate that sees the change filters it. -/
theorem Exists.pushChain_filter {e : Exists} {c : Change} (h : e.Sees c) :
    e.pushChain (fun c => [c]) c = some (filterChainPush (fun n => (Leaf.gate e).holds n) c) := by
  have hgate : ∀ {n b}, e.fetchExists n = some b → e.gate n none = some (e.not ^^ b) := by
    intro n b hn
    simp only [gate, hn, Option.map_some]
  cases c with
  | add n =>
    obtain ⟨b, hn⟩ := h
    simp [pushChain, pushWithFilter, gated, hgate hn, filterChainPush, Leaf.holds]
  | remove n =>
    obtain ⟨b, hn⟩ := h
    simp [pushChain, pushWithFilter, gated, hgate hn, filterChainPush, Leaf.holds]
  | child n rel c => exact h.elim
  | edit n old =>
    obtain ⟨b, hnew, hold⟩ := h
    simp only [pushChain, pushWithFilter, gated, hgate hnew, filterChainPush, Leaf.holds, hgate hold, Option.map_some,
      Option.getD_some]
    cases e.not ^^ b <;> rfl

/-! ## The collapse -/

section
open Collapse

theorem any_split (ps : List (Node → Bool)) (f g : (Node → Bool) → Bool) :
    ps.any f = (ps.any (fun p => f p && g p) || ps.any fun p => f p && !g p) := by
  induction ps with
  | nil => rfl
  | cons p ps ih =>
    simp only [List.any_cons, ih]
    cases f p <;> cases g p <;> simp

/-- What the branches make of an edit: the edit, its halves, or nothing. -/
theorem firsts_edit (n old : Node) (ps : List (Node → Bool)) : ∀ a r e : Bool,
    (ps.flatMap fun p => filterChainPush p (.edit n old)).foldl Firsts.take
        { add := if a then some n else none, remove := if r then some old else none, edit := if e then some (n, old) else none } =
      { add := if a || ps.any (fun p => p n && !p old) then some n else none
        remove := if r || ps.any (fun p => p old && !p n) then some old else none
        edit := if e || ps.any (fun p => p old && p n) then some (n, old) else none } := by
  induction ps with
  | nil => intro a r e; simp
  | cons p ps ih =>
    intro a r e
    rw [List.flatMap_cons, List.foldl_append]
    cases hold : p old <;> cases hnew : p n
    · simpa [filterChainPush, hold, hnew] using ih a r e
    · have h := ih true r e
      cases a <;> simpa [filterChainPush, hold, hnew, Firsts.take] using h
    · have h := ih a true e
      cases r <;> simpa [filterChainPush, hold, hnew, Firsts.take] using h
    · have h := ih a r true
      cases e <;> simpa [filterChainPush, hold, hnew, Firsts.take] using h

theorem take_take (c : Change) : (({} : Firsts).take c).take c = ({} : Firsts).take c := by cases c <;> rfl

/-- What the branches make of a change that is not split: the change or nothing. -/
theorem firsts_whole {c : Change} (hc : ∀ p : Node → Bool, filterChainPush p c = if p (Exists.gated c) then [c] else [])
    (ps : List (Node → Bool)) : ∀ b : Bool, (ps.flatMap fun p => filterChainPush p c).foldl Firsts.take
        (if b then ({} : Firsts).take c else {}) =
      if b || ps.any (fun p => p (Exists.gated c)) then ({} : Firsts).take c else {} := by
  induction ps with
  | nil => intro b; simp
  | cons p ps ih =>
    intro b
    rw [List.flatMap_cons, List.foldl_append, hc]
    cases hp : p (Exists.gated c)
    · simpa [hp] using ih b
    · have h := ih true
      cases b
      · simpa [hp] using h
      · simpa [hp, take_take] using h

theorem collapse_whole {c : Change} (hc : ∀ p : Node → Bool, filterChainPush p c = if p (Exists.gated c) then [c] else [])
    (hone : (({} : Firsts).take c).emit c.changeType = some [c]) (hnone : ({} : Firsts).emit c.changeType = some [])
    (ps : List (Node → Bool)) : collapseAccumulated (ps.flatMap fun p => filterChainPush p c) c.changeType =
      some (filterChainPush (fun n => ps.any fun p => p n) c) := by
  have h := firsts_whole hc ps false
  simp only [Bool.false_eq_true, if_false, Bool.false_or] at h
  rw [collapseAccumulated, h, hc]
  split
  · exact hone
  · exact hnone

/-- What is collapsed from filtered branches is what a filter on any of them lets through. -/
theorem collapse_exact (ps : List (Node → Bool)) (c : Change) :
    collapseAccumulated (ps.flatMap fun p => filterChainPush p c) c.changeType =
      some (filterChainPush (fun n => ps.any fun p => p n) c) := by
  cases c with
  | add n => exact collapse_whole (fun _ => rfl) rfl rfl ps
  | remove n => exact collapse_whole (fun _ => rfl) rfl rfl ps
  | child n rel c => exact collapse_whole (fun _ => rfl) rfl rfl ps
  | edit n old =>
    have h := firsts_edit n old ps false false false
    simp only [Bool.false_eq_true, if_false, Bool.false_or] at h
    rw [collapseAccumulated, h, filterChainPush_edit, any_split ps (fun p => p old) (fun p => p n), any_split ps (fun p => p n) (fun p => p old)]
    have hboth : (ps.any fun p => p n && p old) = ps.any fun p => p old && p n := by simp only [Bool.and_comm]
    rw [hboth]
    cases ps.any fun p => p old && p n <;> cases ps.any fun p => p n && !p old <;> cases ps.any fun p => p old && !p n <;> rfl

end

/-! ## Links that spell a condition -/

/-- A leaf's link, wired. -/
def Leaf.wired (next : Nat) : Leaf → Link
  | .filter pred => .filter pred (some next)
  | .gate e => .gate e (some next)

namespace Links

mutual

/-- From `head` the links are those of the condition, and go on at `next`. -/
def Spells (schema : Schema) (g : Links) : Condition → Nat → Nat → Prop
  | .simple sc, head, next => ∃ pred, createPredicate sc schema = .ok pred ∧ g[head]? = some (.filter pred (some next))
  | .correlatedSubquery related flags, head, next => ∃ leaf, csqLeaf schema related flags = .ok leaf ∧
    g[head]? = some (leaf.wired next)
  | .and conditions, head, next =>
    (conditions = [] ∧ g[head]? = some (.filter (.const true) (some next))) ∨ (conditions ≠ [] ∧
      InSeries schema g conditions head next)
  | .or conditions, head, next =>
    (conditions = [] ∧ g[head]? = some (.filter (.const false) (some next))) ∨
      ∃ heads fanIn, g[head]? = some (.fanOut heads (some fanIn)) ∧ g[fanIn]? = some (.fanIn (some next)) ∧
        InBranches schema g conditions heads fanIn

def InSeries (schema : Schema) (g : Links) : List Condition → Nat → Nat → Prop
  | [], head, next => head = next
  | c :: rest, head, next => ∃ mid, Spells schema g c head mid ∧ InSeries schema g rest mid next

def InBranches (schema : Schema) (g : Links) : List Condition → List Nat → Nat → Prop
  | [], heads, _ => heads = []
  | c :: rest, heads, fanIn =>
    ∃ head heads', heads = head :: heads' ∧ Spells schema g c head fanIn ∧ InBranches schema g rest heads' fanIn

end

/-- A push into a link ends so, given fuel. -/
def Yields (g : Links) (link : Nat) (c : Change) (out : Emitted) : Prop := ∃ N, ∀ fuel, N ≤ fuel → g.chainPush fuel link c = some out

end Links

namespace Emitted

@[simp] theorem append_nothing (a : Emitted) : a.append nothing = a := by simp [append, nothing]

theorem append_assoc (a b c : Emitted) : (a.append b).append c = a.append (b.append c) := by simp [append, List.append_assoc]

/-- What all of the changes come to. -/
@[grind] def gather (k : Change → Emitted) : List Change → Emitted
  | [] => nothing
  | c :: rest => (k c).append (gather k rest)

theorem gather_append (k : Change → Emitted) (cs ds : List Change) : gather k (cs ++ ds) = (gather k cs).append (gather k ds) := by
  induction cs with
  | nil => rfl
  | cons c cs ih => rw [List.cons_append, gather, gather, ih, append_assoc]

theorem gather_flatMap (k : Change → Emitted) (f : Change → List Change) (cs : List Change) :
    gather k (cs.flatMap f) = gather (fun c => gather k (f c)) cs := by
  induction cs with
  | nil => rfl
  | cons c cs ih => rw [List.flatMap_cons, gather_append, ih, gather]

end Emitted

namespace Links

open Emitted

variable {g : Links} {k : Change → Emitted}

theorem forward_yields {next : Nat} : ∀ {cs : List Change}, (∀ c ∈ cs, g.Yields next c (k c)) →
    ∃ N, ∀ fuel, N ≤ fuel → forward (g.chainPush fuel next) cs = some (gather k cs) := by
  intro cs
  induction cs with
  | nil => intro _; exact ⟨0, fun _ _ => rfl⟩
  | cons c cs ih =>
    intro h
    obtain ⟨N, hN⟩ := h c List.mem_cons_self
    obtain ⟨M, hM⟩ := ih fun c' hc' => h c' (List.mem_cons_of_mem _ hc')
    refine ⟨max N M, fun fuel hfuel => ?_⟩
    rw [forward, hN fuel (by omega), hM fuel (by omega)]
    rfl

theorem filter_yields {head next : Nat} {pred : CompiledPredicate} (hl : g[head]? = some (.filter pred (some next))) {c : Change}
    (hk : ∀ c' ∈ filterChainPush (fun n => pred.eval n.row) c, g.Yields next c' (k c')) :
    g.Yields head c (gather k (filterChainPush (fun n => pred.eval n.row) c)) := by
  obtain ⟨N, hN⟩ := forward_yields hk
  refine ⟨N + 1, fun fuel hfuel => ?_⟩
  obtain ⟨fuel, rfl⟩ : ∃ f, fuel = f + 1 := ⟨fuel - 1, by omega⟩
  rw [chainPush, hl]
  exact hN fuel (by omega)

theorem gate_yields {head next : Nat} {e : Exists} (hl : g[head]? = some (.gate e (some next))) {c : Change} (hsees : e.Sees c)
    (hk : ∀ c' ∈ filterChainPush (fun n => (Leaf.gate e).holds n) c, g.Yields next c' (k c')) :
    g.Yields head c (gather k (filterChainPush (fun n => (Leaf.gate e).holds n) c)) := by
  obtain ⟨N, hN⟩ := forward_yields hk
  refine ⟨N + 1, fun fuel hfuel => ?_⟩
  obtain ⟨fuel, rfl⟩ : ∃ f, fuel = f + 1 := ⟨fuel - 1, by omega⟩
  rw [chainPush, hl]
  simp only [Exists.pushChain_filter hsees, Option.bind_some]
  exact hN fuel (by omega)

theorem fanIn_yields {fanIn : Nat} {output : Option Nat} (hl : g[fanIn]? = some (.fanIn output)) (c : Change) :
    g.Yields fanIn c ⟨[c], []⟩ := by
  refine ⟨1, fun fuel hfuel => ?_⟩
  obtain ⟨fuel, rfl⟩ : ∃ f, fuel = f + 1 := ⟨fuel - 1, by omega⟩
  rw [chainPush, hl]

theorem gather_leftover (cs : List Change) : gather (fun c => ⟨[c], []⟩) cs = ⟨cs, []⟩ := by
  induction cs with
  | nil => rfl
  | cons c cs ih =>
    rw [gather, ih]
    rfl

/-- A fan-out over branches that each return what a filter lets through. -/
theorem fanOut_yields {head next fanIn : Nat} {heads : List Nat} {c : Change} {ps : List (Node → Bool)}
    (hl : g[head]? = some (.fanOut heads (some fanIn))) (hfan : g[fanIn]? = some (.fanIn (some next)))
    (hbranches : ∃ N, ∀ fuel, N ≤ fuel → replay (fun b => g.chainPush fuel b c) heads =
      some ⟨ps.flatMap fun p => filterChainPush p c, []⟩)
    (hk : ∀ c' ∈ filterChainPush (fun n => ps.any fun p => p n) c, g.Yields next c' (k c')) :
    g.Yields head c (gather k (filterChainPush (fun n => ps.any fun p => p n) c)) := by
  obtain ⟨N, hN⟩ := hbranches
  obtain ⟨M, hM⟩ := forward_yields hk
  refine ⟨max N M + 1, fun fuel hfuel => ?_⟩
  obtain ⟨fuel, rfl⟩ : ∃ f, fuel = f + 1 := ⟨fuel - 1, by omega⟩
  have hcont : g.fanContinuation (some fanIn) = some (some next) := by
    simp only [fanContinuation, Option.bind_some, hfan]
  rw [chainPush, hl]
  simp only [hN fuel (by omega), collapse_exact, hcont, hM fuel (by omega), Option.bind_eq_bind, Option.bind_some, Option.pure_def,
    List.nil_append]

theorem anyHolds_eq (schema : Schema) (n : Node) (conditions : List Condition) : anyHolds schema n conditions =
    (conditions.map fun cond n => cond.holds schema n).any fun p => p n := by
  induction conditions with
  | nil => rfl
  | cons c rest ih => rw [anyHolds, ih, List.map_cons, List.any_cons]

theorem gather_single (c : Change) : gather k [c] = k c := append_nothing (k c)

mutual

/-- A change pushed into a condition's links goes on behind them as what a filter on the condition
    makes of it. -/
theorem spells_yields {schema : Schema} : ∀ {cond : Condition} {head next : Nat} {c : Change} {k : Change → Emitted},
    Spells schema g cond head next → cond.Gates schema (·.Sees c) →
    (∀ c' ∈ filterChainPush (fun n => cond.holds schema n) c, g.Yields next c' (k c')) →
    g.Yields head c (gather k (filterChainPush (fun n => cond.holds schema n) c))
  | .simple sc, head, next, c, k, hs, _, hk => by
    obtain ⟨pred, hpred, hl⟩ := hs
    have hholds : (fun n => (Condition.simple sc).holds schema n) = fun n => pred.eval n.row := by
      funext n
      simp only [Condition.holds, hpred, Except.map, leafHolds, Leaf.holds]
    rw [hholds] at hk ⊢
    exact filter_yields hl hk
  | .correlatedSubquery related flags, head, next, c, k, hs, hg, hk => by
    obtain ⟨leaf, hleaf, hl⟩ := hs
    have hholds : (fun n => (Condition.correlatedSubquery related flags).holds schema n) = fun n => leaf.holds n := by
      funext n
      simp only [Condition.holds, hleaf, leafHolds]
    rw [hholds] at hk ⊢
    cases leaf with
    | filter pred => exact filter_yields hl hk
    | gate e => exact gate_yields hl (hg e hleaf) hk
  | .and conditions, head, next, c, k, hs, hg, hk => by
    rcases hs with ⟨rfl, hl⟩ | ⟨-, hs⟩
    · exact filter_yields hl hk
    · exact series_yields hs hg hk
  | .or conditions, head, next, c, k, hs, hg, hk => by
    have hholds : (fun n => (Condition.or conditions).holds schema n) = fun n =>
        (conditions.map fun cond n => cond.holds schema n).any fun p => p n := by
      funext n
      rw [Condition.holds, anyHolds_eq]
    rcases hs with ⟨rfl, hl⟩ | ⟨heads, fanIn, hl, hfan, hs⟩
    · exact filter_yields hl hk
    · rw [hholds] at hk ⊢
      exact fanOut_yields hl hfan (branches_yield hs hfan hg) hk

theorem series_yields {schema : Schema} : ∀ {conditions : List Condition} {head next : Nat} {c : Change} {k : Change → Emitted},
    InSeries schema g conditions head next → GatesOf schema (·.Sees c) conditions →
    (∀ c' ∈ filterChainPush (fun n => allHold schema n conditions) c, g.Yields next c' (k c')) →
    g.Yields head c (gather k (filterChainPush (fun n => allHold schema n conditions) c))
  | [], head, next, c, k, hs, _, hk => by
    obtain rfl : head = next := hs
    have htrue : (fun n => allHold schema n []) = fun _ => true := rfl
    rw [htrue, filterChainPush_true] at hk ⊢
    rw [gather_single]
    exact hk c List.mem_cons_self
  | cond :: rest, head, next, c, k, hs, hg, hk => by
    obtain ⟨mid, hcond, hrest⟩ := hs
    have hand : (fun n => allHold schema n (cond :: rest)) = fun n => cond.holds schema n && allHold schema n rest := rfl
    rw [hand, ← filterChainPush_and] at hk ⊢
    rw [gather_flatMap]
    refine spells_yields hcond hg.1 fun c' hc' => ?_
    refine series_yields hrest (gatesOf_filtered hg.2 hc') fun c'' hc'' => ?_
    exact hk c'' (List.mem_flatMap.mpr ⟨c', hc', hc''⟩)

theorem branches_yield {schema : Schema} : ∀ {conditions : List Condition} {heads : List Nat} {fanIn : Nat} {output : Option Nat}
    {c : Change}, InBranches schema g conditions heads fanIn → g[fanIn]? = some (.fanIn output) →
      GatesOf schema (·.Sees c) conditions →
    ∃ N, ∀ fuel, N ≤ fuel → replay (fun b => g.chainPush fuel b c) heads =
      some ⟨(conditions.map fun cond n => cond.holds schema n).flatMap fun p => filterChainPush p c, []⟩
  | [], heads, fanIn, output, c, hs, _, _ => by
    obtain rfl : heads = [] := hs
    exact ⟨0, fun _ _ => rfl⟩
  | cond :: rest, heads, fanIn, output, c, hs, hfan, hg => by
    obtain ⟨head, heads, rfl, hcond, hrest⟩ := hs
    obtain ⟨N, hN⟩ := spells_yields hcond hg.1 fun c' _ => fanIn_yields hfan c'
    obtain ⟨M, hM⟩ := branches_yield hrest hfan hg.2
    refine ⟨max N M, fun fuel hfuel => ?_⟩
    rw [replay, hN fuel (by omega), hM fuel (by omega), gather_leftover]
    rfl

end

/-! ## The lowering -/

/-- A link once its output is wired, and any other link. -/
@[grind] def wire (g : Links) (tail next i : Nat) : Option Link := if i = tail then g[i]?.bind (Link.withOutput next) else g[i]?

variable {ε : Type} {g g' : Links}

theorem setOutput_ok {op downstream : Nat} (h : (g.setOutput op downstream : Outcome ε Links) = .ok g') :
    g'.length = g.length ∧ ∀ i, g'[i]? = g.wire op downstream i := by
  unfold setOutput at h
  split at h
  · rename_i l hl
    obtain rfl := Outcome.ok.inj h
    obtain ⟨l₀, hl₀, -⟩ := Option.bind_eq_some_iff.mp hl
    have hlt := (List.getElem?_eq_some_iff.mp hl₀).1
    refine ⟨List.length_set .., fun i => ?_⟩
    unfold wire
    split
    · subst i
      rw [hl, List.getElem?_set_self hlt]
    · rename_i hne
      rw [List.getElem?_set_ne (Ne.symm hne)]
  · cases h

/-- Links were added, the last of them at `tail`; in any graph that has them with the tail wired, they read as they should. -/
structure Built (Reads : Links → Nat → Prop) (g g' : Links) (tail : Nat) : Prop where
  grows : g.length ≤ g'.length
  keeps : ∀ i, i < g.length → g'[i]? = g[i]?
  fresh : g.length ≤ tail
  inside : tail < g'.length
  reads : ∀ (h : Links) (next : Nat), (∀ i, g.length ≤ i → i < g'.length → h[i]? = g'.wire tail next i) → Reads h next

/-- One link. -/
theorem built_one {Reads : Links → Nat → Prop} (g : Links) {l : Link}
    (h : ∀ (h : Links) (next : Nat), h[g.length]? = l.withOutput next → Reads h next) : Built Reads g (g ++ [l]) g.length := by
  refine ⟨by simp, fun i hi => List.getElem?_append_left hi, Nat.le_refl _, by simp, fun h' next hag => h h' next ?_⟩
  rw [hag g.length (Nat.le_refl _) (by simp), wire, if_pos rfl, List.getElem?_concat_length]
  rfl

/-- Links after links: the first tail is wired to the second head. -/
theorem Built.next {Reads₁ Reads₂ : Links → Nat → Prop} {g g₁ g₂ g₃ : Links} {t₁ t₂ head : Nat} (h₁ : Built Reads₁ g g₁ t₁)
    (h₂ : Built Reads₂ g₁ g₂ t₂) (h : (g₂.setOutput t₁ head : Outcome ε Links) = .ok g₃) :
    Built (fun h next => Reads₁ h head ∧ Reads₂ h next) g g₃ t₂ := by
  obtain ⟨hlen, hset⟩ := setOutput_ok h
  have hsame : ∀ i, i < g₁.length → g₂[i]? = g₁[i]? := h₂.keeps
  refine ⟨?_, fun i hi => ?_, Nat.le_trans h₁.grows h₂.fresh, hlen ▸ h₂.inside, fun h' next hag => ⟨?_, ?_⟩⟩
  · rw [hlen]
    exact Nat.le_trans h₁.grows h₂.grows
  · have hne : i ≠ t₁ := fun he => Nat.not_le.mpr hi (he ▸ h₁.fresh)
    rw [hset, wire, if_neg hne, h₂.keeps i (Nat.lt_of_lt_of_le hi h₁.grows), h₁.keeps i hi]
  · refine h₁.reads h' head fun i hlo hhi => ?_
    have hne : i ≠ t₂ := fun he => Nat.not_le.mpr hhi (he ▸ h₂.fresh)
    rw [hag i hlo (hlen ▸ Nat.lt_of_lt_of_le hhi h₂.grows), wire, if_neg hne, hset, wire, wire, hsame i hhi]
  · refine h₂.reads h' next fun i hlo hhi => ?_
    have hne : i ≠ t₁ := fun he => Nat.not_le.mpr h₁.inside (he ▸ hlo)
    rw [hag i (Nat.le_trans h₁.grows hlo) (hlen ▸ hhi), wire, wire, hset, wire, if_neg hne]

/-- Branches were added, each wired to the fan-in. -/
structure Branched (schema : Schema) (conditions : List Condition) (fanIn : Nat) (g g' : Links) (heads : List Nat) : Prop where
  grows : g.length ≤ g'.length
  keeps : ∀ i, i < g.length → g'[i]? = g[i]?
  reads : ∀ h : Links, (∀ i, g.length ≤ i → i < g'.length → h[i]? = g'[i]?) → InBranches schema h conditions heads fanIn

theorem Branched.cons {schema : Schema} {cond : Condition} {rest : List Condition} {fanIn : Nat} {g g₁ g₂ g₃ : Links}
    {head tail : Nat} {heads : List Nat} (h₁ : Built (fun h next => Spells schema h cond head next) g g₁ tail)
    (h : (g₁.setOutput tail fanIn : Outcome ε Links) = .ok g₂) (h₂ : Branched schema rest fanIn g₂ g₃ heads) :
    Branched schema (cond :: rest) fanIn g g₃ (head :: heads) := by
  obtain ⟨hlen, hset⟩ := setOutput_ok h
  refine ⟨?_, fun i hi => ?_, fun h' hag => ⟨head, heads, rfl, ?_, ?_⟩⟩
  · exact Nat.le_trans h₁.grows (hlen ▸ h₂.grows)
  · have hne : i ≠ tail := fun he => Nat.not_le.mpr hi (he ▸ h₁.fresh)
    rw [h₂.keeps i (hlen ▸ Nat.lt_of_lt_of_le hi h₁.grows), hset, wire, if_neg hne, h₁.keeps i hi]
  · refine h₁.reads h' fanIn fun i hlo hhi => ?_
    rw [hag i hlo (Nat.lt_of_lt_of_le hhi (hlen ▸ h₂.grows)), h₂.keeps i (hlen ▸ hhi), hset]
  · exact h₂.reads h' fun i hlo hhi => hag i (Nat.le_trans (hlen ▸ h₁.grows) hlo) hhi

theorem setFan_ok {fanOut fanIn : Nat} {branches : List Nat}
    (h : (g.setFan fanOut branches fanIn : Outcome ε Links) = .ok g') : g' = g.set fanOut (.fanOut branches (some fanIn)) := by
  unfold setFan at h
  split at h
  · exact (Outcome.ok.inj h).symm
  · cases h

/-- A fan-out, a fan-in and the branches between them. -/
theorem Branched.built {schema : Schema} {conditions : List Condition} {g g₁ g₂ : Links} {heads : List Nat}
    (hb : Branched schema conditions (g.length + 1) (g ++ [Link.fanOut [] none] ++ [Link.fanIn none]) g₁ heads)
    (h : (g₁.setFan g.length heads (g.length + 1) : Outcome ε Links) = .ok g₂) :
    Built (fun h next => Spells schema h (.or conditions) g.length next) g g₂ (g.length + 1) := by
  obtain rfl := setFan_ok h
  have hlen : (g ++ [Link.fanOut [] none] ++ [Link.fanIn none]).length = g.length + 2 := by simp
  have hgrows := hb.grows
  rw [hlen] at hgrows
  have hout : g.length < g₁.length := by omega
  have hfanIn : g₁[g.length + 1]? = some (.fanIn none) := by
    rw [hb.keeps _ (by omega)]
    simp
  refine ⟨by rw [List.length_set]; omega, fun i hi => ?_, Nat.le_succ _, by rw [List.length_set]; omega, fun h' next hag => ?_⟩
  · rw [List.getElem?_set_ne (by omega), hb.keeps i (by omega), List.append_assoc, List.getElem?_append_left hi]
  · rw [List.length_set] at hag
    refine Or.inr ⟨heads, g.length + 1, ?_, ?_, hb.reads h' fun i hlo hhi => ?_⟩
    · rw [hag g.length (Nat.le_refl _) hout, wire, if_neg (by omega), List.getElem?_set_self hout]
    · rw [hag (g.length + 1) (by omega) (by omega), wire, if_pos rfl, List.getElem?_set_ne (by omega), hfanIn]
      rfl
    · rw [hlen] at hlo
      rw [hag i (by omega) hhi, wire, if_neg (by omega), List.getElem?_set_ne (by omega)]

mutual

/-- The lowering adds links that spell its condition, whatever is wired to their tail. -/
theorem applyFilter_built {schema : Schema} : ∀ {cond : Condition} {g g' : Links} {head tail : Nat},
    applyFilter schema cond g = .ok (g', head, tail) → Built (fun h next => Spells schema h cond head next) g g' tail
  | .simple sc, g, g', head, tail, h => by
    obtain ⟨pred, hpred, h⟩ := Outcome.bind_eq_ok.mp h
    cases h
    refine built_one g fun h next hl => ⟨pred, ?_, hl⟩
    cases hc : createPredicate sc schema with
    | ok p => rw [hc] at hpred; cases hpred; rfl
    | error e => rw [hc] at hpred; cases hpred
  | .correlatedSubquery related flags, g, g', head, tail, h => by
    obtain ⟨leaf, hleaf, h⟩ := Outcome.bind_eq_ok.mp h
    cases h
    refine built_one g fun h next hl => ⟨leaf, ?_, ?_⟩
    · cases hc : csqLeaf schema related flags with
      | ok l => rw [hc] at hleaf; cases hleaf; rfl
      | error e => rw [hc] at hleaf; cases hleaf
    · rw [hl]
      cases leaf <;> rfl
  | .and [], g, g', head, tail, h => by
    cases h
    exact built_one g fun h next hl => Or.inl ⟨rfl, hl⟩
  | .and (first :: rest), g, g', head, tail, h => by
    obtain ⟨⟨g₁, head₁, tail₁⟩, hfirst, h⟩ := Outcome.bind_eq_ok.mp h
    obtain ⟨⟨g₂, tail₂⟩, hrest, h⟩ := Outcome.bind_eq_ok.mp h
    cases h
    have hbuilt := applyNext_built hrest (applyFilter_built hfirst)
    refine ⟨hbuilt.grows, hbuilt.keeps, hbuilt.fresh, hbuilt.inside, fun h next hag => Or.inr ⟨List.cons_ne_nil first rest, ?_⟩⟩
    exact hbuilt.reads h next hag
  | .or [], g, g', head, tail, h => by
    cases h
    exact built_one g fun h next hl => Or.inl ⟨rfl, hl⟩
  | .or (c :: rest), g, g', head, tail, h => by
    obtain ⟨⟨g₁, heads⟩, hbranches, h⟩ := Outcome.bind_eq_ok.mp h
    obtain ⟨g₂, hfan, h⟩ := Outcome.bind_eq_ok.mp h
    cases h
    have hlen : (g ++ [Link.fanOut [] none]).length = g.length + 1 := by simp
    have hbranched := applyBranches_built hbranches (by simp)
    simp only [hlen] at hbranched hfan ⊢
    exact hbranched.built hfan

theorem applyNext_built {schema : Schema} : ∀ {conditions : List Condition} {g₀ g g' : Links} {tail tail' : Nat}
    {Reads : Links → Nat → Prop}, applyNext schema conditions g tail = .ok (g', tail') → Built Reads g₀ g tail →
    Built (fun h next => ∃ mid, Reads h mid ∧ InSeries schema h conditions mid next) g₀ g' tail'
  | [], g₀, g, g', tail, tail', Reads, h, hb => by
    cases h
    exact ⟨hb.grows, hb.keeps, hb.fresh, hb.inside, fun h next hag => ⟨next, hb.reads h next hag, rfl⟩⟩
  | c :: rest, g₀, g, g', tail, tail', Reads, h, hb => by
    obtain ⟨⟨g₁, head₁, tail₁⟩, hc, h⟩ := Outcome.bind_eq_ok.mp h
    obtain ⟨g₂, hset, h⟩ := Outcome.bind_eq_ok.mp h
    have hbuilt := applyNext_built h (hb.next (applyFilter_built hc) hset)
    refine ⟨hbuilt.grows, hbuilt.keeps, hbuilt.fresh, hbuilt.inside, fun h next hag => ?_⟩
    obtain ⟨mid, ⟨hreads, hspells⟩, hrest⟩ := hbuilt.reads h next hag
    exact ⟨head₁, hreads, mid, hspells, hrest⟩

theorem applyBranches_built {schema : Schema} : ∀ {conditions : List Condition} {g g' : Links} {fanIn : Nat} {heads : List Nat},
    applyBranches schema conditions g fanIn = .ok (g', heads) → fanIn < g.length → Branched schema conditions fanIn g g' heads
  | [], g, g', fanIn, heads, h, _ => by
    cases h
    exact ⟨Nat.le_refl _, fun _ _ => rfl, fun _ _ => rfl⟩
  | c :: rest, g, g', fanIn, heads, h, hlt => by
    obtain ⟨⟨g₁, head, tail⟩, hc, h⟩ := Outcome.bind_eq_ok.mp h
    obtain ⟨g₂, hset, h⟩ := Outcome.bind_eq_ok.mp h
    obtain ⟨⟨g₃, heads'⟩, hrest, h⟩ := Outcome.bind_eq_ok.mp h
    cases h
    have hbuilt := applyFilter_built hc
    have hlen := (setOutput_ok hset).1
    exact Branched.cons hbuilt hset (applyBranches_built hrest (hlen ▸ Nat.lt_of_lt_of_le hlt hbuilt.grows))

end

theorem setChainHead_ok {start head : Nat} (h : (g.setChainHead start head : Outcome ε Links) = .ok g') :
    start < g.length ∧ g' = g.set start (.filterStart (some head)) := by
  unfold setChainHead at h
  split at h
  · rename_i hl
    exact ⟨(List.getElem?_eq_some_iff.mp hl).1, (Outcome.ok.inj h).symm⟩
  · cases h

/-- A whole chain: from its start the links spell the condition, up to its end. -/
theorem buildFilterBranch_spells {schema : Schema} {cond : Condition} {fs fe : Nat}
    (hbuild : buildFilterBranch schema g cond = .ok (g', fs, fe)) : fs = g.length ∧ fs < fe ∧ fe < g'.length ∧
      g'[fe]? = some (.filterEnd none) ∧
      ∀ h : Links, (∀ i, g.length ≤ i → i < g'.length → i ≠ fe → h[i]? = g'[i]?) →
        ∃ head, h[fs]? = some (.filterStart (some head)) ∧ Spells schema h cond head fe := by
  obtain ⟨⟨g₁, head, tail⟩, happly, hbuild⟩ := Outcome.bind_eq_ok.mp hbuild
  obtain ⟨g₂, hhead, hbuild⟩ := Outcome.bind_eq_ok.mp hbuild
  obtain ⟨g₃, hout, hbuild⟩ := Outcome.bind_eq_ok.mp hbuild
  cases hbuild
  have hb := applyFilter_built happly
  have hlen : (g ++ [Link.filterStart none]).length = g.length + 1 := by simp
  have hgrows := hb.grows
  have hfresh := hb.fresh
  have hinside := hb.inside
  rw [hlen] at hgrows hfresh
  obtain ⟨-, rfl⟩ := setChainHead_ok hhead
  obtain ⟨hlen', hset⟩ := setOutput_ok hout
  have hlen₂ : ((g₁ ++ [Link.filterEnd none]).set g.length (.filterStart (some head))).length = g₁.length + 1 := by simp
  rw [hlen₂] at hlen'
  -- what the finished links are, one by one
  have hlink : ∀ i, i ≠ g.length → i < g₁.length → g'[i]? = g₁.wire tail g₁.length i := by
    intro i hne hlt
    rw [hset, wire, wire, List.getElem?_set_ne (Ne.symm hne), List.getElem?_append_left hlt]
  refine ⟨rfl, by show g.length < g₁.length; omega, by show g₁.length < g'.length; omega, ?_, fun h hag => ⟨head, ?_, ?_⟩⟩
  · show g'[g₁.length]? = _
    rw [hset, wire, if_neg (by omega), List.getElem?_set_ne (by omega), List.getElem?_concat_length]
  · show h[g.length]? = _
    rw [hag g.length (Nat.le_refl _) (by omega) (by show g.length ≠ g₁.length; omega), hset, wire, if_neg (by omega),
      List.getElem?_set_self (by rw [List.length_append]; omega)]
  · refine hb.reads h g₁.length fun i hlo hhi => ?_
    rw [hlen] at hlo
    rw [hag i (by omega) (by omega) (by show i ≠ g₁.length; omega), hlink i (by omega) hhi]

theorem filterEnd_yields {fe down : Nat} (hl : g[fe]? = some (.filterEnd (some down))) (c : Change) :
    g.Yields fe c ⟨[], [(down, c)]⟩ := by
  refine ⟨1, fun fuel hfuel => ?_⟩
  obtain ⟨fuel, rfl⟩ : ∃ f, fuel = f + 1 := ⟨fuel - 1, by omega⟩
  rw [chainPush, hl]
  rfl

theorem gather_pushed (down : Nat) (cs : List Change) : gather (fun c => ⟨[], [(down, c)]⟩) cs = ⟨[], cs.map fun c => (down, c)⟩ := by
  induction cs with
  | nil => rfl
  | cons c cs ih =>
    rw [gather, ih]
    rfl

end Links

open Links

/-- A change pushed into a lowered condition: what goes downstream is what one filter on the whole
    condition makes of the change, at most one change, and no assertion fails; and so at each OR of
    it, where the fan-out collapses what its branches return. -/
theorem filter_chain_exact {schema : Schema} {cond : Condition} {g g' : Links} {fs fe : Nat}
    (hbuild : buildFilterBranch schema g cond = .ok (g', fs, fe)) {h : Links} {down : Nat}
    (hgraph : ∀ i, g.length ≤ i → i < g'.length → h[i]? = if i = fe then some (.filterEnd (some down)) else g'[i]?) :
    (∀ c : Change, cond.Gates schema (·.Sees c) →
      (∃ N, ∀ fuel, N ≤ fuel → h.push fuel fs c =
        some ((filterChainPush (fun n => cond.holds schema n) c).map fun c => (down, c))) ∧
      (filterChainPush (fun n => cond.holds schema n) c).length ≤ 1) ∧
    (∃ head, h[fs]? = some (.filterStart (some head)) ∧ h.Spells schema cond head fe) ∧
    ∀ (conditions : List Condition) (fanOut next : Nat), conditions ≠ [] → h.Spells schema (.or conditions) fanOut next →
      ∀ c : Change, GatesOf schema (·.Sees c) conditions →
        ∃ heads fanIn acc, h[fanOut]? = some (.fanOut heads fanIn) ∧
          (∃ N, ∀ fuel, N ≤ fuel → replay (fun b => h.chainPush fuel b c) heads = some ⟨acc, []⟩) ∧
          collapseAccumulated acc c.changeType = some (filterChainPush (fun n => anyHolds schema n conditions) c) := by
  obtain ⟨rfl, hlt, hin, hfe, hspells⟩ := buildFilterBranch_spells hbuild
  obtain ⟨head, hstart, hs⟩ := hspells h fun i hlo hhi hne => by rw [hgraph i hlo hhi, if_neg hne]
  have hend : h[fe]? = some (.filterEnd (some down)) := by rw [hgraph fe (Nat.le_of_lt hlt) hin, if_pos rfl]
  refine ⟨fun c hc => ⟨?_, filterChainPush_length _ c⟩, ⟨head, hstart, hs⟩, fun conditions fanOut next hne hor c hc => ?_⟩
  · obtain ⟨N, hN⟩ := spells_yields hs hc fun c' _ => filterEnd_yields hend c'
    refine ⟨N, fun fuel hfuel => ?_⟩
    simp only [push, hstart, hN fuel hfuel, gather_pushed, Option.bind_some, List.isEmpty_nil, if_true]
  · rcases hor with ⟨rfl, -⟩ | ⟨heads, fanIn, hfan, hfanIn, hbranches⟩
    · exact absurd rfl hne
    · refine ⟨heads, some fanIn, _, hfan, branches_yield hbranches hfanIn hc, ?_⟩
      rw [collapse_exact]
      simp only [anyHolds_eq]

/-- An edit that one branch of an OR drops and another, with a gate, starts to keep: it comes out as the edit. -/
theorem filter_chain_exact_rejoined :
    let schema : Schema := (Schema.new ["id", "v"] [0] [(0, true)]).withRelationships [.new "kids"]
    let cond : Condition := .or [.simple ⟨.is, .column "v", .literal .null⟩,
      .and [.simple ⟨.isNot, .column "v", .literal .null⟩,
        .correlatedSubquery ⟨⟨["id"], ["parent"]⟩, .mk { table := "kid", aliasName := some "kids" } none [] none, none⟩
          { op := .exists }]]
    let old : Node := .mk [.int 1, .null] [(0, [.leaf [.int 7]])]
    let new : Node := .mk [.int 1, .int 5] [(0, [.leaf [.int 7]])]
    ∃ g' fs fe, buildFilterBranch schema [] cond = .ok (g', fs, fe) ∧
      ∃ N, ∀ fuel, N ≤ fuel → Links.push (g'.set fe (.filterEnd (some 9))) fuel fs (.edit new old) = some [(9, .edit new old)] := by
  intro schema cond old new
  obtain ⟨g', fs, fe, hbuild⟩ : ∃ g' fs fe, buildFilterBranch schema [] cond = .ok (g', fs, fe) := ⟨_, _, _, rfl⟩
  refine ⟨g', fs, fe, hbuild, ?_⟩
  have hgates : cond.Gates schema (·.Sees (.edit new old)) := by
    refine ⟨trivial, ⟨trivial, fun e he => ?_, trivial⟩, trivial⟩
    cases he
    exact ⟨true, rfl, rfl⟩
  have hgraph : ∀ i, 0 ≤ i → i < g'.length → (g'.set fe (.filterEnd (some 9)))[i]? = if i = fe then some (.filterEnd
    (some 9)) else g'[i]? := by
    intro i _ hi
    by_cases he : i = fe
    · rw [if_pos he, he, List.getElem?_set_self (he ▸ hi)]
    · rw [if_neg he, List.getElem?_set_ne (Ne.symm he)]
  obtain ⟨N, hN⟩ := ((filter_chain_exact hbuild hgraph).1 _ hgates).1
  have hholds : filterChainPush (fun n => cond.holds schema n) (.edit new old) = [.edit new old] := rfl
  exact ⟨N, fun fuel hfuel => by rw [hN fuel hfuel, hholds]; rfl⟩

end Rindle
