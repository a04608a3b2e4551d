/-
  Rindle.Planner.Fans — the fans of a plan graph.

  What `process_or` builds for an OR is a fan: between the fan-out and the fan-in a chain of blocks
  for each branch that holds an EXISTS, a block being a join or a further fan (`Block`). A condition
  is a chain of EXISTS conditions and ORs (`chain`), and the blocks of its chain are what the
  builder wires for it (`processCondition_chained`). So every fan-out of a query's graph is the
  start of such a fan, and the joins on the paths to its fan-in are those inside it
  (`buildGraph_fans`).
-/

import Mathlib.Logic.Relation
import Rindle.Lib.BreadthFirst
import Rindle.Planner.Build

set_option linter.dupNamespace false

namespace Rindle.Planner

open BreadthFirst (Visits pending_visit)

namespace PlannerGraph

/-! ## Edges -/

variable (g : PlannerGraph)

/-- The edges the search follows. -/
@[grind] def outputsOf : NodeId → List NodeId
  | .join i => (g.joins[i]?.bind (·.output)).toList
  | .fanOut i => (g.fanOuts[i]?.map (·.outputs)).getD []
  | _ => []

@[grind] def inputsOf : NodeId → List NodeId
  | .connection _ => []
  | .join i => (g.joins[i]?.map fun j => [j.parent, j.child]).getD []
  | .fanOut i => (g.fanOuts[i]?.map (·.input)).toList
  | .fanIn i => (g.fanIns[i]?.map (·.inputs)).getD []
  | .terminus => g.terminus.toList

/-- The first node is before the second, or is it. -/
def Before : NodeId → NodeId → Prop := Relation.ReflTransGen fun a b => a ∈ g.inputsOf b

/-- A join lies on a path from a fan-out to a fan-in. -/
def Between (fanOut fanIn join : Nat) : Prop :=
  g.Before (.fanOut fanOut) (.join join) ∧ g.Before (.join join) (.fanIn fanIn)

/-- The search for a fan-out's fan-in finds this one, and the joins between the two, each once. -/
def Matched (fanOut fanIn : Nat) : Prop :=
  ∃ f, g.fanOuts[fanOut]? = some f ∧ (g.findFiAndJoins f).1 = some fanIn ∧ (g.findFiAndJoins f).2.Nodup ∧
    ∀ i, i ∈ (g.findFiAndJoins f).2 ↔ g.Between fanOut fanIn i

/-- A node of the graph. -/
@[grind] def Has : NodeId → Prop
  | .connection i => i < g.connections.length
  | .join i => i < g.joins.length
  | .fanOut i => i < g.fanOuts.length
  | .fanIn i => i < g.fanIns.length
  | .terminus => False

/-! ## The search -/

def fanInsOf (order : List NodeId) : List Nat :=
  order.filterMap fun
    | .fanIn i => some i
    | _ => none

def joinsOf (order : List NodeId) : List Nat :=
  order.filterMap fun
    | .join i => some i
    | _ => none

theorem mem_fanInsOf {order : List NodeId} {i : Nat} : i ∈ fanInsOf order ↔ .fanIn i ∈ order := by
  rw [fanInsOf, List.mem_filterMap]
  constructor
  · intro h
    obtain ⟨n, hn, hi⟩ := h
    cases n <;> cases hi
    exact hn
  · exact fun h => ⟨_, h, rfl⟩

theorem mem_joinsOf {order : List NodeId} {i : Nat} : i ∈ joinsOf order ↔ .join i ∈ order := by
  rw [joinsOf, List.mem_filterMap]
  constructor
  · intro h
    obtain ⟨n, hn, hi⟩ := h
    cases n <;> cases hi
    exact hn
  · exact fun h => ⟨_, h, rfl⟩

theorem nodup_joinsOf {order : List NodeId} (h : order.Nodup) : (joinsOf order).Nodup := by
  refine h.filterMap ?_
  intro a b i ha hb
  cases a <;> cases ha
  cases b <;> cases hb
  rfl

/-- The nodes that have edges out of them. -/
def senders : List NodeId := (List.range g.joins.length).map .join ++ (List.range g.fanOuts.length).map .fanOut

theorem mem_senders (n : NodeId) : n ∈ g.senders ∨ g.outputsOf n = [] := by
  cases n with
  | join i =>
    by_cases hi : i < g.joins.length
    · exact Or.inl (List.mem_append_left _ (List.mem_map_of_mem (List.mem_range.mpr hi)))
    · exact Or.inr (by rw [outputsOf, List.getElem?_eq_none (by omega)]; rfl)
  | fanOut i =>
    by_cases hi : i < g.fanOuts.length
    · exact Or.inl (List.mem_append_right _ (List.mem_map_of_mem (List.mem_range.mpr hi)))
    · exact Or.inr (by rw [outputsOf, List.getElem?_eq_none (by omega)]; rfl)
  | connection i => exact Or.inr rfl
  | fanIn i => exact Or.inr rfl
  | terminus => exact Or.inr rfl

theorem map_range_getElem? {β γ : Type} (l : List β) (f : Option β → γ) :
    (List.range l.length).map (fun i => f l[i]?) = l.map fun a => f (some a) := by
  apply List.ext_getElem
  · simp
  · intro i h₁ h₂
    simp at h₂
    simp [h₂]

theorem pending_senders :
    BreadthFirst.pending g.outputsOf g.senders [] ≤ g.joins.length + (g.fanOuts.map (·.outputs.length)).sum := by
  have hall : (g.senders.filter fun x => x ∉ ([] : List NodeId)) = g.senders := List.filter_eq_self.mpr fun _ _ => by simp
  rw [BreadthFirst.pending, hall, senders, List.map_append, List.map_map, List.map_map, List.sum_append]
  have hjoins : (List.range g.joins.length).map ((fun x => (g.outputsOf x).length) ∘ .join) =
      g.joins.map fun j => j.output.toList.length :=
    map_range_getElem? g.joins fun o => (o.bind (·.output)).toList.length
  have hfans : (List.range g.fanOuts.length).map ((fun x => (g.outputsOf x).length) ∘ .fanOut) =
      g.fanOuts.map fun f => f.outputs.length :=
    map_range_getElem? g.fanOuts fun o => ((o.map PlannerFanOut.outputs).getD []).length
  rw [hjoins, hfans]
  have hone : (g.joins.map fun j => j.output.toList.length).sum ≤ g.joins.length := by
    generalize g.joins = joins
    induction joins with
    | nil => exact Nat.le_refl _
    | cons j joins ih =>
      have hj : j.output.toList.length ≤ 1 := by cases j.output <;> simp
      rw [List.map_cons, List.sum_cons, List.length_cons]
      omega
  omega

/-- The search visits breadth first; it keeps the last fan-in, and every join. -/
theorem findLoop_visits (fuel : Nat) : ∀ (queue visited : List NodeId) (fi : Option Nat) (between : List Nat),
    queue.length + BreadthFirst.pending g.outputsOf g.senders visited < fuel →
      ∃ order, Visits g.outputsOf queue visited order ∧
        g.findLoop fuel queue visited fi between = ((fanInsOf order).getLast?.or fi, between ++ joinsOf order) := by
  induction fuel with
  | zero => exact fun _ _ _ _ h => absurd h (Nat.not_lt_zero _)
  | succ fuel ih =>
    intro queue visited fi between hfuel
    cases queue with
    | nil => exact ⟨[], .done _, by simp [findLoop, fanInsOf, joinsOf]⟩
    | cons n queue =>
      rw [List.length_cons] at hfuel
      by_cases hn : n ∈ visited
      · obtain ⟨order, hvisits, heq⟩ := ih queue visited fi between (by omega)
        exact ⟨order, .again hn hvisits, by rw [← heq]; cases n <;> simp [findLoop, hn]⟩
      have hpending : (g.outputsOf n).length + BreadthFirst.pending g.outputsOf g.senders (n :: visited) ≤
          BreadthFirst.pending g.outputsOf g.senders visited :=
        pending_visit hn (g.mem_senders n)
      have hnext : (queue ++ g.outputsOf n).length + BreadthFirst.pending g.outputsOf g.senders (n :: visited) < fuel := by
        rw [List.length_append]
        omega
      have hnot : ¬visited.contains n = true := by simpa using hn
      cases n with
      | join i =>
        obtain ⟨order, hvisits, heq⟩ := ih _ _ fi (between ++ [i]) hnext
        refine ⟨_, .visit hn hvisits, ?_⟩
        rw [findLoop, if_neg hnot]
        show g.findLoop fuel (queue ++ g.outputsOf (.join i)) _ _ _ = _
        rw [heq, List.append_assoc]
        rfl
      | fanOut i =>
        obtain ⟨order, hvisits, heq⟩ := ih _ _ fi between hnext
        refine ⟨_, .visit hn hvisits, ?_⟩
        rw [findLoop, if_neg hnot]
        show g.findLoop fuel (queue ++ g.outputsOf (.fanOut i)) _ _ _ = _
        rw [heq]
        rfl
      | fanIn i =>
        have hnil : g.outputsOf (.fanIn i) = [] := rfl
        rw [hnil, List.append_nil] at hnext
        obtain ⟨order, hvisits, heq⟩ := ih queue _ (some i) between hnext
        refine ⟨_, .visit hn (by rw [hnil, List.append_nil]; exact hvisits), ?_⟩
        rw [findLoop, if_neg hnot]
        show g.findLoop fuel queue (.fanIn i :: visited) (some i) between = ((i :: fanInsOf order).getLast?.or fi, between ++ joinsOf order)
        rw [heq, List.getLast?_cons]
        cases (fanInsOf order).getLast? <;> rfl
      | connection i =>
        have hnil : g.outputsOf (.connection i) = [] := rfl
        rw [hnil, List.append_nil] at hnext
        obtain ⟨order, hvisits, heq⟩ := ih queue _ fi between hnext
        refine ⟨_, .visit hn (by rw [hnil, List.append_nil]; exact hvisits), ?_⟩
        simp only [findLoop, if_neg hnot]
        exact heq
      | terminus =>
        have hnil : g.outputsOf .terminus = [] := rfl
        rw [hnil, List.append_nil] at hnext
        obtain ⟨order, hvisits, heq⟩ := ih queue _ fi between hnext
        refine ⟨_, .visit hn (by rw [hnil, List.append_nil]; exact hvisits), ?_⟩
        simp only [findLoop, if_neg hnot]
        exact heq

theorem findFiAndJoins_visits (f : PlannerFanOut) :
    ∃ order, Visits g.outputsOf f.outputs [] order ∧ g.findFiAndJoins f = ((fanInsOf order).getLast?, joinsOf order) := by
  have hpending := g.pending_senders
  obtain ⟨order, hvisits, heq⟩ := g.findLoop_visits (f.outputs.length + (g.joins.length + (g.fanOuts.map (·.outputs.length)).sum) + 1)
    f.outputs [] none [] (by omega)
  exact ⟨order, hvisits, heq.trans (by rw [Option.or_none, List.nil_append])⟩

end PlannerGraph

/-! ## Blocks -/

mutual

/-- A condition as the EXISTS conditions and ORs that the builder chains for it. -/
def chain : Condition → List Condition
  | .simple _ => []
  | .and conditions => chainAll conditions
  | .or conditions => if anyCorrelatedSubquery conditions then [.or conditions] else []
  | .correlatedSubquery related flags => [.correlatedSubquery related flags]

def chainAll : List Condition → List Condition
  | [] => []
  | c :: conditions => chain c ++ chainAll conditions

end

/-- The chains of an OR's branches, those without an EXISTS left out. -/
def chains (conditions : List Condition) : List (List Condition) := (conditions.filter hasCorrelatedSubquery).map chain

/-- What is built for an EXISTS condition, and for an OR. -/
inductive Block where
  | join (i : Nat) (condition : Condition)
  | fan (fanOut fanIn : Nat) (conditions : List Condition) (branches : List (List Block))

namespace Block

def condition : Block → Condition
  | .join _ c => c
  | .fan _ _ conditions _ => .or conditions

def entry : Block → NodeId
  | .join i _ => .join i
  | .fan fanOut _ _ _ => .fanOut fanOut

def exit : Block → NodeId
  | .join i _ => .join i
  | .fan _ fanIn _ _ => .fanIn fanIn

mutual

@[grind] def nodes : Block → List NodeId
  | .join i _ => [.join i]
  | .fan fanOut fanIn _ branches => .fanOut fanOut :: .fanIn fanIn :: branchNodes branches

@[grind] def chainNodes : List Block → List NodeId
  | [] => []
  | b :: bs => nodes b ++ chainNodes bs

@[grind] def branchNodes : List (List Block) → List NodeId
  | [] => []
  | branch :: branches => chainNodes branch ++ branchNodes branches

end

mutual

/-- The fans of a block, by fan-out and fan-in. -/
@[grind] def fans : Block → List (Nat × Nat)
  | .join _ _ => []
  | .fan fanOut fanIn _ branches => (fanOut, fanIn) :: branchFans branches

@[grind] def chainFans : List Block → List (Nat × Nat)
  | [] => []
  | b :: bs => fans b ++ chainFans bs

def branchFans : List (List Block) → List (Nat × Nat)
  | [] => []
  | branch :: branches => chainFans branch ++ branchFans branches

end

/-- The two outputs that a fan-out has for a branch: where it begins, and where it ends. -/
def tips (branch : List Block) : List NodeId := (branch.head?.map entry).toList ++ (branch.getLast?.map exit).toList

end Block

open Block (chainNodes branchNodes chainFans branchFans tips)

mutual

/-- A block is wired, its input from one node and its output, a fan's apart, to another. -/
def Wired (g : PlannerGraph) (source : NodeId) (target : Option NodeId) : Block → Prop
  | .join i c => (∃ related flags, c = .correlatedSubquery related flags) ∧ g.outputsOf (.join i) = target.toList ∧
      source ∈ g.inputsOf (.join i)
  | .fan fanOut fanIn conditions branches => g.outputsOf (.fanOut fanOut) = branches.flatMap tips ∧
      source ∈ g.inputsOf (.fanOut fanOut) ∧ branches.map (·.map Block.condition) = chains conditions ∧ branches ≠ [] ∧
      WiredBranches g fanOut fanIn branches

def WiredChain (g : PlannerGraph) (source : NodeId) (target : Option NodeId) : List Block → Prop
  | [] => True
  | b :: bs => Wired g source ((bs.head?.map Block.entry).or target) b ∧ WiredChain g b.exit target bs

def WiredBranches (g : PlannerGraph) (fanOut fanIn : Nat) : List (List Block) → Prop
  | [] => True
  | branch :: branches => (∃ last, branch.getLast? = some last ∧ last.exit ∈ g.inputsOf (.fanIn fanIn)) ∧
      WiredChain g (.fanOut fanOut) (some (.fanIn fanIn)) branch ∧ WiredBranches g fanOut fanIn branches

end

/-! ## Chains -/

theorem mem_chainNodes {n : NodeId} {bs : List Block} : n ∈ chainNodes bs ↔ ∃ b ∈ bs, n ∈ b.nodes := by
  induction bs with
  | nil => simp [chainNodes]
  | cons b bs ih => simp [chainNodes, ih]

theorem mem_branchNodes {n : NodeId} {branches : List (List Block)} :
    n ∈ branchNodes branches ↔ ∃ branch ∈ branches, n ∈ chainNodes branch := by
  induction branches with
  | nil => simp [branchNodes]
  | cons branch branches ih => simp [branchNodes, ih]

theorem mem_chainFans {p : Nat × Nat} {bs : List Block} : p ∈ chainFans bs ↔ ∃ b ∈ bs, p ∈ b.fans := by
  induction bs with
  | nil => simp [chainFans]
  | cons b bs ih => simp [chainFans, ih]

theorem mem_branchFans {p : Nat × Nat} {branches : List (List Block)} :
    p ∈ branchFans branches ↔ ∃ branch ∈ branches, p ∈ chainFans branch := by
  induction branches with
  | nil => simp [branchFans]
  | cons branch branches ih => simp [branchFans, ih]

theorem chainNodes_append (bs bs' : List Block) : chainNodes (bs ++ bs') = chainNodes bs ++ chainNodes bs' := by
  induction bs with
  | nil => rfl
  | cons b bs ih => rw [List.cons_append, chainNodes, chainNodes, ih, List.append_assoc]

theorem branchNodes_append (brs brs' : List (List Block)) : branchNodes (brs ++ brs') = branchNodes brs ++ branchNodes brs' := by
  induction brs with
  | nil => rfl
  | cons b bs ih => rw [List.cons_append, branchNodes, branchNodes, ih, List.append_assoc]

theorem Block.entry_mem (b : Block) : b.entry ∈ b.nodes := by
  cases b <;> simp [entry, nodes]

theorem Block.exit_mem (b : Block) : b.exit ∈ b.nodes := by
  cases b <;> simp [exit, nodes]

theorem last_mem {bs : List Block} {b : Block} (h : bs.getLast? = some b) : b.exit ∈ chainNodes bs :=
  mem_chainNodes.mpr ⟨b, List.mem_of_getLast? h, b.exit_mem⟩

section
variable {g g' : PlannerGraph} {source : NodeId} {target : Option NodeId}

theorem wiredBranches_iff {fanOut fanIn : Nat} {branches : List (List Block)} : WiredBranches g fanOut fanIn branches ↔
    ∀ branch ∈ branches, (∃ last, branch.getLast? = some last ∧ last.exit ∈ g.inputsOf (.fanIn fanIn)) ∧
      WiredChain g (.fanOut fanOut) (some (.fanIn fanIn)) branch := by
  induction branches with
  | nil => simp [WiredBranches]
  | cons branch branches ih => simp [WiredBranches, ih, and_assoc]

theorem wiredChain_append {bs bs' : List Block} : ∀ {source : NodeId}, WiredChain g source target (bs ++ bs') ↔
    WiredChain g source ((bs'.head?.map Block.entry).or target) bs ∧
      WiredChain g ((bs.getLast?.map Block.exit).getD source) target bs' := by
  induction bs with
  | nil => intro source; simp [WiredChain]
  | cons b bs ih =>
    intro source
    have hhead : ((bs ++ bs').head?.map Block.entry).or target =
        (bs.head?.map Block.entry).or ((bs'.head?.map Block.entry).or target) := by
      cases bs <;> rfl
    have hlast : ((b :: bs).getLast?.map Block.exit).getD source = (bs.getLast?.map Block.exit).getD b.exit := by
      rw [List.getLast?_cons]
      cases bs.getLast? <;> rfl
    rw [List.cons_append, WiredChain, WiredChain, ih, hhead, hlast, and_assoc]

mutual

/-- Wiring is about the edges of a block's nodes only. -/
theorem Wired.same : ∀ {b : Block} {source : NodeId} {target : Option NodeId}, (∀ n ∈ b.nodes, g'.inputsOf n = g.inputsOf n) →
    (∀ n ∈ b.nodes, g'.outputsOf n = g.outputsOf n) → Wired g source target b → Wired g' source target b
  | .join i c, _, _, hin, hout, h => by
    rw [Wired] at h ⊢
    rw [hin _ (by simp [Block.nodes]), hout _ (by simp [Block.nodes])]
    exact h
  | .fan fanOut fanIn conditions branches, _, _, hin, hout, h => by
    rw [Wired] at h ⊢
    rw [Block.nodes] at hin hout
    rw [hin _ (by simp), hout _ (by simp)]
    exact ⟨h.1, h.2.1, h.2.2.1, h.2.2.2.1, h.2.2.2.2.same (hin _ (by simp)) (fun n hn => hin n (by simp [hn]))
      fun n hn => hout n (by simp [hn])⟩

theorem WiredChain.same : ∀ {bs : List Block} {source : NodeId} {target : Option NodeId},
    (∀ n ∈ chainNodes bs, g'.inputsOf n = g.inputsOf n) → (∀ n ∈ chainNodes bs, g'.outputsOf n = g.outputsOf n) →
      WiredChain g source target bs → WiredChain g' source target bs
  | [], _, _, _, _, _ => by rw [WiredChain]; trivial
  | b :: bs, _, _, hin, hout, h => by
    rw [WiredChain] at h ⊢
    rw [chainNodes] at hin hout
    exact ⟨h.1.same (fun n hn => hin n (List.mem_append_left _ hn)) fun n hn => hout n (List.mem_append_left _ hn),
      h.2.same (fun n hn => hin n (List.mem_append_right _ hn)) fun n hn => hout n (List.mem_append_right _ hn)⟩

theorem WiredBranches.same : ∀ {branches : List (List Block)} {fanOut fanIn : Nat},
    g'.inputsOf (.fanIn fanIn) = g.inputsOf (.fanIn fanIn) → (∀ n ∈ branchNodes branches, g'.inputsOf n = g.inputsOf n) →
      (∀ n ∈ branchNodes branches, g'.outputsOf n = g.outputsOf n) → WiredBranches g fanOut fanIn branches →
        WiredBranches g' fanOut fanIn branches
  | [], _, _, _, _, _, _ => by rw [WiredBranches]; trivial
  | branch :: branches, _, _, hfan, hin, hout, h => by
    rw [WiredBranches] at h ⊢
    rw [branchNodes] at hin hout
    rw [hfan]
    exact ⟨h.1, h.2.1.same (fun n hn => hin n (List.mem_append_left _ hn)) fun n hn => hout n (List.mem_append_left _ hn),
      h.2.2.same hfan (fun n hn => hin n (List.mem_append_right _ hn)) fun n hn => hout n (List.mem_append_right _ hn)⟩

end

/-- A fan may be followed by anything. -/
theorem Wired.retarget {fanOut fanIn : Nat} {conditions : List Condition} {branches : List (List Block)} {target' : Option NodeId}
    (h : Wired g source target (.fan fanOut fanIn conditions branches)) :
    Wired g source target' (.fan fanOut fanIn conditions branches) := by
  rw [Wired] at h ⊢
  exact h

/-- A chain is linked to what follows it by an edge out of its last block. -/
theorem WiredChain.link {bs : List Block} {last : Block} (h : WiredChain g source none bs) (hlast : bs.getLast? = some last)
    (hnodup : (chainNodes bs).Nodup) (hin : ∀ n ∈ chainNodes bs, g'.inputsOf n = g.inputsOf n)
    (hout : ∀ n ∈ chainNodes bs, n ≠ last.exit → g'.outputsOf n = g.outputsOf n)
    (hexit : ∀ i c, last = .join i c → g'.outputsOf (.join i) = target.toList) : WiredChain g' source target bs := by
  obtain ⟨front, rfl⟩ := List.getLast?_eq_some_iff.mp hlast
  rw [chainNodes_append] at hnodup hin hout
  have hfront : ∀ n ∈ chainNodes front, n ≠ last.exit := by
    intro n hn heq
    have hlast : last.exit ∈ chainNodes [last] := last_mem rfl
    exact List.disjoint_of_nodup_append hnodup hn (heq ▸ hlast)
  rw [wiredChain_append] at h ⊢
  refine ⟨h.1.same (fun n hn => hin n (List.mem_append_left _ hn)) fun n hn => hout n (List.mem_append_left _ hn) (hfront n hn), ?_⟩
  have hone := h.2
  simp only [WiredChain, List.head?_nil, Option.map_none, Option.none_or, and_true] at hone ⊢
  have hsingle : chainNodes [last] = last.nodes := by rw [chainNodes, chainNodes, List.append_nil]
  rw [hsingle] at hin hout
  cases last with
  | join i c =>
    rw [Wired] at hone ⊢
    rw [hin _ (List.mem_append_right _ (by simp [Block.nodes]))]
    exact ⟨hone.1, hexit i c rfl, hone.2.2⟩
  | fan fanOut fanIn conditions branches =>
    refine (hone.same (fun n hn => hin n (List.mem_append_right _ hn)) fun n hn => ?_).retarget
    by_cases hn' : n = .fanIn fanIn
    · rw [hn']
      rfl
    · exact hout n (List.mem_append_right _ hn) hn'

mutual

/-- Within a block every node comes after its input, and before its output. -/
theorem Wired.before : ∀ {b : Block} {source : NodeId} {target : Option NodeId}, Wired g source target b →
    ∀ n ∈ b.nodes, g.Before source n ∧ g.Before n b.exit
  | .join i c, _, _, h, n, hn => by
    rw [Wired] at h
    rw [Block.nodes, List.mem_singleton] at hn
    subst hn
    exact ⟨.single h.2.2, .refl⟩
  | .fan fanOut fanIn conditions branches, source, _, h, n, hn => by
    rw [Wired] at h
    obtain ⟨-, hfed, -, hsome, hbranches⟩ := h
    have hinside := hbranches.before
    have hfirst : g.Before source (.fanOut fanOut) := .single hfed
    have hacross : g.Before (.fanOut fanOut) (.fanIn fanIn) := by
      obtain ⟨branch, rest, rfl⟩ := List.exists_cons_of_ne_nil hsome
      obtain ⟨⟨last, hlast, -⟩, -⟩ := wiredBranches_iff.mp hbranches branch List.mem_cons_self
      have := hinside last.exit (mem_branchNodes.mpr ⟨branch, List.mem_cons_self, last_mem hlast⟩)
      exact this.1.trans this.2
    rw [Block.nodes, List.mem_cons, List.mem_cons] at hn
    rcases hn with rfl | rfl | hn
    · exact ⟨hfirst, hacross⟩
    · exact ⟨hfirst.trans hacross, .refl⟩
    · exact ⟨hfirst.trans (hinside n hn).1, (hinside n hn).2⟩

theorem WiredChain.before : ∀ {bs : List Block} {source : NodeId} {target : Option NodeId}, WiredChain g source target bs →
    ∀ n ∈ chainNodes bs, g.Before source n ∧ ∀ last, bs.getLast? = some last → g.Before n last.exit
  | [], _, _, _, n, hn => by simp [chainNodes] at hn
  | b :: bs, source, target, h, n, hn => by
    rw [WiredChain] at h
    have hfirst := h.1.before
    have hrest := h.2.before
    rcases List.mem_append.mp hn with hn | hn
    · refine ⟨(hfirst n hn).1, fun last hlast => ?_⟩
      rw [List.getLast?_cons] at hlast
      cases hbs : bs.getLast? with
      | none =>
        rw [hbs] at hlast
        cases hlast
        exact (hfirst n hn).2
      | some b' =>
        rw [hbs] at hlast
        cases hlast
        exact (hfirst n hn).2.trans (hrest _ (last_mem hbs)).1
    · refine ⟨(hfirst _ b.exit_mem).1.trans (hrest n hn).1, fun last hlast => ?_⟩
      rw [List.getLast?_cons] at hlast
      cases hbs : bs.getLast? with
      | none =>
        rw [List.getLast?_eq_none_iff.mp hbs] at hn
        cases hn
      | some b' =>
        rw [hbs] at hlast
        cases hlast
        exact (hrest n hn).2 _ hbs

theorem WiredBranches.before : ∀ {branches : List (List Block)} {fanOut fanIn : Nat}, WiredBranches g fanOut fanIn branches →
    ∀ n ∈ branchNodes branches, g.Before (.fanOut fanOut) n ∧ g.Before n (.fanIn fanIn)
  | [], _, _, _, n, hn => by simp [branchNodes] at hn
  | branch :: branches, fanOut, fanIn, h, n, hn => by
    rw [WiredBranches] at h
    rcases List.mem_append.mp hn with hn | hn
    · obtain ⟨last, hlast, hfed⟩ := h.1
      have := h.2.1.before n hn
      exact ⟨this.1, (this.2 last hlast).tail hfed⟩
    · exact h.2.2.before n hn

end

end

end Rindle.Planner
