/-
  Rindle.Planner.FansExact — when the search for a fan-in finds the right one.

  The search stops at every fan-in, and each fan-out has the ends of its branches among its
  outputs: so the fan-in it keeps is the last one met, breadth first. That is its own exactly when
  every fan-in inside is met within two steps and before it (`Matchable`). Where it is not, an OR
  is matched with the fan-in of one inside it, or with none.
-/

import Rindle.Planner.Wiring

set_option linter.dupNamespace false

namespace Rindle.Planner

open Block (chainNodes branchNodes chainFans branchFans tips)
open BreadthFirst (Visits)
open PlannerGraph

/-! ## The condition, on an OR -/

def IsExists : Condition → Prop
  | .correlatedSubquery _ _ => True
  | _ => False

/-- A chain of EXISTS conditions alone. -/
def Plain (branch : List Condition) : Prop := ∀ c ∈ branch, IsExists c

def EndsInExists (branch : List Condition) : Prop := ∃ c, branch.getLast? = some c ∧ IsExists c

/-- EXISTS conditions, and then an OR. -/
def EndsInOr (branch front : List Condition) (conditions : List Condition) : Prop :=
  branch = front ++ [.or conditions] ∧ Plain front

variable (conditions : List Condition)

/-- No OR inside. -/
def Flat : Prop := ∀ branch ∈ chains conditions, Plain branch

/-- ORs only at the ends of branches, and none inside those. -/
def Shallow : Prop :=
  ∀ branch ∈ chains conditions, Plain branch ∨ ∃ front inner, EndsInOr branch front inner ∧ Flat inner

/-- Some branch ends in an EXISTS, no branch has an OR but at its end, and an OR there is flat; or
    else it is the whole branch, is shallow, and no branch before it ends in an EXISTS. -/
def Matchable : Prop :=
  (∃ branch ∈ chains conditions, EndsInExists branch) ∧
    ∀ before branch after, chains conditions = before ++ branch :: after → Plain branch ∨ ∃ front inner,
      EndsInOr branch front inner ∧
        (Flat inner ∨ (front = [] ∧ Shallow inner ∧ ∀ branch' ∈ before, ¬EndsInExists branch'))

/-! ## Where edges lead -/

def IsJoin (b : Block) : Prop := ∃ i c, b = .join i c

/-- Joins alone. -/
def Joins (bs : List Block) : Prop := ∀ b ∈ bs, IsJoin b

def EndsInJoin (branch : List Block) : Prop := ∃ b, branch.getLast? = some b ∧ IsJoin b

section
variable {g : PlannerGraph}

mutual

/-- An edge out of a block's node stays in the block, unless the block is a join. -/
theorem Wired.leads : ∀ {b : Block} {source : NodeId} {target : Option NodeId}, Wired g source target b →
    ∀ n ∈ b.nodes, ∀ y ∈ g.outputsOf n, y ∈ b.nodes ∨ (IsJoin b ∧ n = b.exit ∧ some y = target)
  | .join i c, _, target, h, n, hn, y, hy => by
    rw [Wired] at h
    rw [Block.nodes, List.mem_singleton] at hn
    subst hn
    rw [h.2.1, Option.mem_toList] at hy
    exact Or.inr ⟨⟨i, c, rfl⟩, rfl, hy.symm⟩
  | .fan fanOut fanIn conditions branches, _, _, h, n, hn, y, hy => by
    rw [Wired] at h
    refine Or.inl ?_
    rw [Block.nodes, List.mem_cons, List.mem_cons] at hn ⊢
    rcases hn with rfl | rfl | hn
    · rw [h.1, List.mem_flatMap] at hy
      obtain ⟨branch, hbranch, hy⟩ := hy
      refine Or.inr (Or.inr (mem_branchNodes.mpr ⟨branch, hbranch, ?_⟩))
      rw [tips, List.mem_append, Option.mem_toList, Option.mem_toList, Option.map_eq_some_iff, Option.map_eq_some_iff] at hy
      rcases hy with ⟨b, hb, rfl⟩ | ⟨b, hb, rfl⟩
      · exact mem_chainNodes.mpr ⟨b, List.mem_of_head? hb, b.entry_mem⟩
      · exact last_mem hb
    · cases hy
    · rcases h.2.2.2.2.leads n hn y hy with hy | rfl
      · exact Or.inr (Or.inr hy)
      · exact Or.inr (Or.inl rfl)

theorem WiredChain.leads : ∀ {bs : List Block} {source : NodeId} {target : Option NodeId}, WiredChain g source target bs →
    ∀ n ∈ chainNodes bs, ∀ y ∈ g.outputsOf n, y ∈ chainNodes bs ∨ some y = target
  | [], _, _, _, _, hn, _, _ => by cases hn
  | b :: bs, _, _, h, n, hn, y, hy => by
    rw [WiredChain] at h
    rw [chainNodes, List.mem_append] at hn ⊢
    rcases hn with hn | hn
    · rcases h.1.leads n hn y hy with hy | ⟨-, -, hy⟩
      · exact Or.inl (Or.inl hy)
      · cases bs with
        | nil => exact Or.inr hy
        | cons b' bs =>
          obtain rfl : y = b'.entry := Option.some.inj hy
          exact Or.inl (Or.inr (mem_chainNodes.mpr ⟨b', List.mem_cons_self, b'.entry_mem⟩))
    · exact (h.2.leads n hn y hy).imp_left Or.inr

theorem WiredBranches.leads : ∀ {branches : List (List Block)} {fanOut fanIn : Nat}, WiredBranches g fanOut fanIn branches →
    ∀ n ∈ branchNodes branches, ∀ y ∈ g.outputsOf n, y ∈ branchNodes branches ∨ y = .fanIn fanIn
  | [], _, _, _, _, hn, _, _ => by cases hn
  | branch :: branches, _, _, h, n, hn, y, hy => by
    rw [WiredBranches] at h
    rw [branchNodes, List.mem_append] at hn ⊢
    rcases hn with hn | hn
    · rcases h.2.1.leads n hn y hy with hy | hy
      · exact Or.inl (Or.inl hy)
      · exact Or.inr (Option.some.inj hy)
    · exact (h.2.2.leads n hn y hy).imp_left Or.inr

end

variable {branch : List Block}

theorem mem_tips {y : NodeId} :
    y ∈ tips branch ↔ (∃ b, branch.head? = some b ∧ b.entry = y) ∨ ∃ b, branch.getLast? = some b ∧ b.exit = y := by
  rw [tips, List.mem_append, Option.mem_toList, Option.mem_toList, Option.map_eq_some_iff, Option.map_eq_some_iff]

theorem tips_subset {y : NodeId} (h : y ∈ tips branch) : y ∈ chainNodes branch := by
  rcases mem_tips.mp h with ⟨b, hb, rfl⟩ | ⟨b, hb, rfl⟩
  · exact mem_chainNodes.mpr ⟨b, List.mem_of_head? hb, b.entry_mem⟩
  · exact last_mem hb

/-- A fan-in is a tip only as the end of a branch. -/
theorem fanIn_tip {i : Nat} (h : .fanIn i ∈ tips branch) : ∃ b, branch.getLast? = some b ∧ b.exit = .fanIn i := by
  rcases mem_tips.mp h with ⟨b, -, hb⟩ | h
  · cases b <;> cases hb
  · exact h

section
variable {i fo fi : Nat} {front post : List Block} {conditions : List Condition} {inner : List (List Block)} {x : NodeId}

theorem mem_fan_nodes : x ∈ (Block.fan fo fi conditions inner).nodes ↔ x = .fanOut fo ∨ x = .fanIn fi ∨ x ∈ branchNodes inner := by
  rw [Block.nodes, List.mem_cons, List.mem_cons]

theorem mem_chain_fan (hx : x ∈ (Block.fan fo fi conditions inner).nodes) :
    x ∈ chainNodes (front ++ Block.fan fo fi conditions inner :: post) :=
  mem_chainNodes.mpr ⟨_, List.mem_append_right _ List.mem_cons_self, hx⟩

theorem mem_fan_inner (hx : x ∈ branchNodes inner) : x ∈ (Block.fan fo fi conditions inner).nodes :=
  mem_fan_nodes.mpr (Or.inr (Or.inr hx))

theorem joins_nodes {bs : List Block} (hj : Joins bs) : .fanIn i ∉ chainNodes bs := by
  intro hn
  obtain ⟨b, hb, hn⟩ := mem_chainNodes.mp hn
  obtain ⟨k, c, rfl⟩ := hj b hb
  rw [Block.nodes, List.mem_singleton] at hn
  cases hn

theorem flat_nodes (hflat : ∀ br ∈ inner, Joins br) : .fanIn i ∉ branchNodes inner := by
  intro hn
  obtain ⟨br, hbr, hn⟩ := mem_branchNodes.mp hn
  exact joins_nodes (hflat br hbr) hn

/-- The fan-in of a fan at the end of a branch is a tip. -/
theorem fan_tip : .fanIn fi ∈ tips (front ++ [Block.fan fo fi conditions inner]) := mem_tips.mpr (Or.inr ⟨_, List.getLast?_concat .., rfl⟩)

theorem mem_fan_last : x ∈ chainNodes (front ++ [Block.fan fo fi conditions inner]) ↔
    x ∈ chainNodes front ∨ x = .fanOut fo ∨ x = .fanIn fi ∨ x ∈ branchNodes inner := by
  rw [chainNodes_append, chainNodes, chainNodes, List.append_nil, List.mem_append, mem_fan_nodes]

/-- The fan-ins of joins and a fan. -/
theorem fanIn_last (hj : Joins front) (hi : .fanIn i ∈ chainNodes (front ++ [Block.fan fo fi conditions inner])) :
    i = fi ∨ .fanIn i ∈ branchNodes inner := by
  rcases mem_fan_last.mp hi with hi | hi | hi | hi
  · exact absurd hi (joins_nodes hj)
  · cases hi
  · exact Or.inl (NodeId.fanIn.inj hi)
  · exact Or.inr hi

end

theorem WiredChain.mem {bs : List Block} : ∀ {source : NodeId} {target : Option NodeId}, WiredChain g source target bs →
    ∀ b ∈ bs, ∃ source target, Wired g source target b := by
  induction bs with
  | nil => exact fun _ b hb => by cases hb
  | cons b bs ih =>
    intro source target h b' hb'
    rw [WiredChain] at h
    rcases List.mem_cons.mp hb' with rfl | hb'
    · exact ⟨_, _, h.1⟩
    · exact ih h.2 b' hb'

theorem Wired.isExists_iff {source : NodeId} {target : Option NodeId} {b : Block} (h : Wired g source target b) :
    IsExists b.condition ↔ IsJoin b := by
  cases b with
  | join i c =>
    rw [Wired] at h
    obtain ⟨related, flags, rfl⟩ := h.1
    exact ⟨fun _ => ⟨_, _, rfl⟩, fun _ => trivial⟩
  | fan fanOut fanIn conditions branches => exact ⟨fun h => h.elim, fun ⟨_, _, h⟩ => by cases h⟩

section
variable {source : NodeId} {target : Option NodeId} {bs : List Block}

theorem WiredChain.plain_iff (h : WiredChain g source target bs) : Plain (bs.map Block.condition) ↔ Joins bs := by
  rw [Plain, List.forall_mem_map]
  refine forall₂_congr fun b hb => ?_
  obtain ⟨_, _, hw⟩ := h.mem b hb
  exact hw.isExists_iff

theorem WiredChain.endsInExists_iff (h : WiredChain g source target bs) :
    EndsInExists (bs.map Block.condition) ↔ EndsInJoin bs := by
  rw [EndsInExists, List.getLast?_map]
  constructor
  · intro hc
    obtain ⟨c, hc, he⟩ := hc
    obtain ⟨b, hb, rfl⟩ := Option.map_eq_some_iff.mp hc
    obtain ⟨_, _, hw⟩ := h.mem b (List.mem_of_getLast? hb)
    exact ⟨b, hb, hw.isExists_iff.mp he⟩
  · intro hb
    obtain ⟨b, hb, hj⟩ := hb
    obtain ⟨_, _, hw⟩ := h.mem b (List.mem_of_getLast? hb)
    exact ⟨b.condition, by rw [hb]; rfl, hw.isExists_iff.mpr hj⟩

/-- A chain that ends in an OR ends in its fan. -/
theorem WiredChain.of_endsInOr (h : WiredChain g source target bs) {front conditions : List Condition}
    (ho : EndsInOr (bs.map Block.condition) front conditions) : ∃ joins fanOut fanIn branches,
      bs = joins ++ [Block.fan fanOut fanIn conditions branches] ∧ joins.map Block.condition = front ∧ Joins joins := by
  obtain ⟨heq, hplain⟩ := ho
  obtain ⟨joins, rest, rfl, hjoins, hrest⟩ := List.map_eq_append_iff.mp heq
  obtain ⟨b, rest, rfl, hb, hnil⟩ := List.map_eq_cons_iff.mp hrest
  obtain rfl := List.map_eq_nil_iff.mp hnil
  have hw := (wiredChain_append.mp h).1
  cases b with
  | join i c =>
    obtain ⟨_, _, hj⟩ := h.mem (.join i c) (List.mem_append_right _ List.mem_cons_self)
    rw [Wired] at hj
    obtain ⟨related, flags, rfl⟩ := hj.1
    cases hb
  | fan fanOut fanIn conditions' branches =>
    cases hb
    refine ⟨joins, fanOut, fanIn, branches, rfl, hjoins, hw.plain_iff.mp ?_⟩
    rw [hjoins]
    exact hplain

/-- What the joins at the front of a chain lead to. -/
theorem WiredChain.reach {S : NodeId → Prop} (hS : ∀ x, S x → ∀ y ∈ g.outputsOf x, S y) {front : List Block} :
    ∀ {source : NodeId} {rest : List Block}, Joins front → WiredChain g source target (front ++ rest) →
      (∀ b, (front ++ rest).head? = some b → S b.entry) → (∀ n ∈ chainNodes front, S n) ∧
        (front ++ rest ≠ [] → ∀ y, (rest.head?.map Block.entry).or target = some y → S y) := by
  induction front with
  | nil =>
    intro source rest _ _ hhead
    refine ⟨fun n hn => (by cases hn), fun hne y hy => ?_⟩
    obtain ⟨b, post, rfl⟩ := List.exists_cons_of_ne_nil hne
    obtain rfl : b.entry = y := Option.some.inj hy
    exact hhead b rfl
  | cons b front ih =>
    intro source rest hjoins h hhead
    rw [List.cons_append, WiredChain] at h
    have hb : S b.entry := hhead b rfl
    obtain ⟨i, c, rfl⟩ := hjoins b List.mem_cons_self
    have hw := h.1
    rw [Wired] at hw
    have hnext : ∀ y, ((front ++ rest).head?.map Block.entry).or target = some y → S y := by
      intro y hy
      refine hS _ hb y ?_
      show y ∈ g.outputsOf (.join i)
      rw [hw.2.1, hy]
      exact List.mem_singleton.mpr rfl
    obtain ⟨hnodes, hrest⟩ := ih (fun b hb => hjoins b (List.mem_cons_of_mem _ hb)) h.2 fun b' hb' => hnext b'.entry (by rw [hb']; rfl)
    refine ⟨fun n hn => ?_, fun _ y hy => ?_⟩
    · rcases List.mem_append.mp hn with hn | hn
      · rw [List.mem_singleton.mp hn]
        exact hb
      · exact hnodes n hn
    · by_cases hne : front ++ rest = []
      · obtain ⟨rfl, rfl⟩ := List.append_eq_nil_iff.mp hne
        exact hnext y hy
      · exact hrest hne y hy

end

/-- The joins a chain begins with, and the first fan. -/
theorem first_fan (bs : List Block) : Joins bs ∨ ∃ front fo fi conditions inner post,
    bs = front ++ Block.fan fo fi conditions inner :: post ∧ Joins front := by
  induction bs with
  | nil => exact Or.inl fun _ hb => by cases hb
  | cons b bs ih =>
    cases b with
    | fan fo fi conditions inner => exact Or.inr ⟨[], fo, fi, conditions, inner, bs, rfl, fun _ hb => by cases hb⟩
    | join i c =>
      rcases ih with hall | ⟨front, fo, fi, conditions, inner, post, rfl, hfront⟩
      · refine Or.inl fun b hb => ?_
        rcases List.mem_cons.mp hb with rfl | hb
        · exact ⟨i, c, rfl⟩
        · exact hall b hb
      · refine Or.inr ⟨.join i c :: front, fo, fi, conditions, inner, post, rfl, fun b hb => ?_⟩
        rcases List.mem_cons.mp hb with rfl | hb
        · exact ⟨i, c, rfl⟩
        · exact hfront b hb

/-! ## A fan -/

/-- A fan as it is wired, with no node twice. -/
structure Laid (g : PlannerGraph) (fanOut fanIn : Nat) (branches : List (List Block)) : Prop where
  outputs : g.outputsOf (.fanOut fanOut) = branches.flatMap tips
  wired : WiredBranches g fanOut fanIn branches
  nodup : (NodeId.fanOut fanOut :: .fanIn fanIn :: branchNodes branches).Nodup

theorem Wired.laid {source : NodeId} {target : Option NodeId} {fanOut fanIn : Nat} {conditions : List Condition}
    {branches : List (List Block)} (h : Wired g source target (.fan fanOut fanIn conditions branches))
    (hnodup : (Block.fan fanOut fanIn conditions branches).nodes.Nodup) : Laid g fanOut fanIn branches := by
  rw [Wired] at h
  exact ⟨h.1, h.2.2.2.2, hnodup⟩

section
variable {fanOut fanIn : Nat} {branches : List (List Block)} {branch : List Block}

theorem Laid.mem (h : branch ∈ branches) {n : NodeId} (hn : n ∈ chainNodes branch) : n ∈ branchNodes branches :=
  mem_branchNodes.mpr ⟨branch, h, hn⟩

variable (h : Laid g fanOut fanIn branches)
include h

theorem Laid.chain (hb : branch ∈ branches) :
    WiredChain g (.fanOut fanOut) (some (.fanIn fanIn)) branch := (wiredBranches_iff.mp h.wired branch hb).2

theorem Laid.ne_nil (hb : branch ∈ branches) : branch ≠ [] := by
  obtain ⟨⟨last, hlast, -⟩, -⟩ := wiredBranches_iff.mp h.wired branch hb
  rintro rfl
  cases hlast

theorem Laid.fanOut_not : .fanOut fanOut ∉ branchNodes branches := fun hm =>
  (List.nodup_cons.mp h.nodup).1 (List.mem_cons_of_mem _ hm)

theorem Laid.fanIn_not : .fanIn fanIn ∉ branchNodes branches :=
  (List.nodup_cons.mp (List.nodup_cons.mp h.nodup).2).1

theorem Laid.nodes_nodup : (branchNodes branches).Nodup :=
  (List.nodup_cons.mp (List.nodup_cons.mp h.nodup).2).2

theorem Laid.chain_nodup (hb : branch ∈ branches) : (chainNodes branch).Nodup := by
  obtain ⟨front, back, rfl⟩ := List.append_of_mem hb
  have := h.nodes_nodup
  rw [branchNodes_append, branchNodes] at this
  exact (List.nodup_append.mp this).2.1.sublist (List.sublist_append_left _ _)

/-- What leads to a node inside a branch is in that branch, or is the fan-out. -/
theorem Laid.from_branch {n y : NodeId} (hb : branch ∈ branches) (hy : y ∈ chainNodes branch)
    (hn : n ∈ branchNodes branches) (hny : y ∈ g.outputsOf n) : n ∈ chainNodes branch := by
  obtain ⟨branch', hb', hn'⟩ := mem_branchNodes.mp hn
  rcases (h.chain hb').leads n hn' y hny with hy' | hy'
  · rwa [branch_unique h.nodes_nodup hb hb' hy hy']
  · obtain rfl := Option.some.inj hy'
    exact absurd (Laid.mem hb hy) h.fanIn_not

/-- What leads to a fan's fan-in from within its fan is the join at the end of a branch. -/
theorem Laid.to_fanIn {n : NodeId} (hb : branch ∈ branches) (hn : n ∈ chainNodes branch)
    (hout : .fanIn fanIn ∈ g.outputsOf n) : ∃ b, branch.getLast? = some b ∧ IsJoin b ∧ n = b.exit := by
  obtain ⟨front, b, rfl⟩ : ∃ front b, branch = front ++ [b] := ⟨_, _, (List.dropLast_append_getLast (h.ne_nil hb)).symm⟩
  have hw := wiredChain_append.mp (h.chain hb)
  have hnot : ∀ x ∈ chainNodes (front ++ [b]), x ≠ .fanIn fanIn := fun x hx heq => h.fanIn_not (heq ▸ Laid.mem hb hx)
  rw [chainNodes_append] at hn hnot
  rcases List.mem_append.mp hn with hn | hn
  · rcases hw.1.leads n hn _ hout with hy | hy
    · exact absurd rfl (hnot _ (List.mem_append_left _ hy))
    · have hentry : b.entry = .fanIn fanIn := (Option.some.inj hy).symm
      cases b <;> cases hentry
  · rw [chainNodes, chainNodes, List.append_nil] at hn
    have hone := hw.2
    rw [WiredChain] at hone
    rcases hone.1.leads n hn _ hout with hy | ⟨hj, hexit, -⟩
    · refine absurd rfl (hnot _ (List.mem_append_right _ ?_))
      rw [chainNodes, chainNodes, List.append_nil]
      exact hy
    · exact ⟨b, List.getLast?_concat .., hj, hexit⟩

/-- A fan inside a fan. -/
theorem Laid.inner {fo fi : Nat} {front post : List Block} {conditions : List Condition} {inner : List (List Block)}
    (hb : front ++ Block.fan fo fi conditions inner :: post ∈ branches) : Laid g fo fi inner := by
  obtain ⟨_, _, hw⟩ := (h.chain hb).mem (.fan fo fi conditions inner) (List.mem_append_right _ List.mem_cons_self)
  refine hw.laid ?_
  have := h.chain_nodup hb
  rw [chainNodes_append, chainNodes] at this
  exact (List.nodup_append.mp this).2.1.sublist (List.sublist_append_left _ _)

variable {fo fi : Nat} {front post : List Block} {conditions : List Condition} {inner : List (List Block)}
  (hb : front ++ Block.fan fo fi conditions inner :: post ∈ branches)
include hb

theorem Laid.inner_labels :
    inner.map (·.map Block.condition) = chains conditions := by
  obtain ⟨_, _, hw⟩ := (h.chain hb).mem (.fan fo fi conditions inner) (List.mem_append_right _ List.mem_cons_self)
  rw [Wired] at hw
  exact hw.2.2.1

/-- The chain of a branch, at a fan in it. -/
theorem Laid.around :
    ∀ x ∈ (Block.fan fo fi conditions inner).nodes, x ∉ chainNodes front ∧ x ∉ chainNodes post := by
  have hnodup := h.chain_nodup hb
  rw [chainNodes_append, chainNodes] at hnodup
  obtain ⟨-, hrest, hdisjoint⟩ := List.nodup_append.mp hnodup
  intro x hx
  exact ⟨fun hf => hdisjoint x hf x (List.mem_append_left _ hx) rfl, fun hp => (List.nodup_append.mp hrest).2.2 x hx x hp rfl⟩

/-- What leads into an inner fan, but to its fan-out, is inside it, or is its fan-out. -/
theorem Laid.to_inner {n y : NodeId}
    (hy : y = .fanIn fi ∨ y ∈ branchNodes inner) (hn : n ∈ branchNodes branches) (hout : y ∈ g.outputsOf n) :
    n ∈ branchNodes inner ∨ (n = .fanOut fo ∧ y ∈ inner.flatMap tips) := by
  have hinner := h.inner hb
  have hyF : y ∈ (Block.fan fo fi conditions inner).nodes := mem_fan_nodes.mpr (Or.inr hy)
  have hybranch : y ∈ chainNodes (front ++ Block.fan fo fi conditions inner :: post) := mem_chain_fan hyF
  have haround := h.around hb y hyF
  have hn := h.from_branch hb hybranch hn hout
  have hw := wiredChain_append.mp (h.chain hb)
  rw [WiredChain] at hw
  rw [chainNodes_append, chainNodes] at hn
  rcases List.mem_append.mp hn with hn | hn
  · rcases hw.1.leads n hn y hout with hy' | hy'
    · exact absurd hy' haround.1
    · obtain rfl : y = .fanOut fo := Option.some.inj hy'
      rcases hy with hy | hy
      · cases hy
      · exact absurd hy hinner.fanOut_not
  · rcases List.mem_append.mp hn with hn | hn
    · rcases mem_fan_nodes.mp hn with rfl | rfl | hn
      · rw [hinner.outputs] at hout
        exact Or.inr ⟨rfl, hout⟩
      · cases hout
      · exact Or.inl hn
    · rcases hw.2.2.leads n hn y hout with hy' | hy'
      · exact absurd hy' haround.2
      · obtain rfl := Option.some.inj hy'
        exact absurd (Laid.mem hb hybranch) h.fanIn_not

/-- The tips of a branch are not inside a fan of it. -/
theorem Laid.tips_not_inner {a : NodeId}
    (ha : a ∈ tips (front ++ Block.fan fo fi conditions inner :: post)) : a ∉ branchNodes inner := by
  have hinner := h.inner hb
  intro hin
  have haround := h.around hb a (mem_fan_inner hin)
  rcases mem_tips.mp ha with ⟨b, hb', rfl⟩ | ⟨b, hb', rfl⟩
  · cases front with
    | nil =>
      obtain rfl := Option.some.inj hb'
      exact hinner.fanOut_not hin
    | cons b₀ front =>
      obtain rfl := Option.some.inj hb'
      exact haround.1 (mem_chainNodes.mpr ⟨_, List.mem_cons_self, b₀.entry_mem⟩)
  · rw [List.getLast?_append, List.getLast?_cons] at hb'
    cases hpost : post.getLast? with
    | none =>
      rw [hpost] at hb'
      obtain rfl := Option.some.inj hb'
      exact hinner.fanIn_not hin
    | some b₁ =>
      rw [hpost] at hb'
      obtain rfl := Option.some.inj hb'
      exact haround.2 (last_mem hpost)

end

/-! ## The search of a fan -/

/-- The search finds this fan-in. -/
def Found (g : PlannerGraph) (fanOut fanIn : Nat) : Prop :=
  ∃ f, g.fanOuts[fanOut]? = some f ∧ (g.findFiAndJoins f).1 = some fanIn

section
variable {i fanOut fanIn fo fi : Nat} {branches : List (List Block)} {branch front post : List Block} {conditions : List Condition}
  {inner : List (List Block)} {order : List NodeId}

theorem visits_shut (hv : Visits g.outputsOf (branches.flatMap tips) [] order) :
    ∀ x, x ∈ order → ∀ y ∈ g.outputsOf x, y ∈ order := fun x hx y hy => (hv.closed x hx y hy).resolve_left List.not_mem_nil

theorem visits_tips (hv : Visits g.outputsOf (branches.flatMap tips) [] order) (hb : branch ∈ branches) :
    ∀ x ∈ tips branch, x ∈ order := fun x hx =>
  (hv.queued x (List.mem_flatMap.mpr ⟨branch, hb, hx⟩)).resolve_left List.not_mem_nil

/-- Once the last fan-in is visited, no other comes. -/
theorem late (hv : Visits g.outputsOf (branches.flatMap tips) [] order) (hlast : (fanInsOf order).getLast? = some fanIn)
    {first rest : List NodeId} (horder : order = first ++ rest) (hfirst : .fanIn fanIn ∈ first) (hi : .fanIn i ∈ order) :
    .fanIn i ∈ first := by
  subst horder
  rcases List.mem_append.mp hi with hi | hi
  · exact hi
  · have hmem := mem_fanInsOf.mpr hi
    rw [show fanInsOf (first ++ rest) = fanInsOf first ++ fanInsOf rest from List.filterMap_append, List.getLast?_append_of_ne_nil _
      (List.ne_nil_of_mem hmem)] at hlast
    have hrest : .fanIn fanIn ∈ rest := mem_fanInsOf.mp (List.mem_of_getLast? hlast)
    exact absurd hrest (List.disjoint_of_nodup_append hv.nodup hfirst)

/-- The fans of an inner fan are fans of this one. -/
theorem inner_fans (hb : front ++ Block.fan fo fi conditions inner :: post ∈ branches) {q : Nat × Nat} (hq : q = (fo, fi) ∨ q ∈ branchFans inner) :
    q ∈ branchFans branches :=
  mem_branchFans.mpr ⟨_, hb, mem_chainFans.mpr ⟨.fan fo fi conditions inner, by simp, by simpa [Block.fans] using hq⟩⟩

theorem Flat.shallow (h : Flat conditions) : Shallow conditions := fun branch hb => Or.inl (h branch hb)

/-- The first of a list with a property. -/
theorem first_such {α : Type} {p : α → Prop} {l : List α} (h : ∃ a ∈ l, p a) :
    ∃ before a after, l = before ++ a :: after ∧ p a ∧ ∀ b ∈ before, ¬p b := by
  induction l with
  | nil =>
    obtain ⟨_, ha, _⟩ := h
    cases ha
  | cons x l ih =>
    by_cases hx : p x
    · exact ⟨[], x, l, rfl, hx, fun _ hb => by cases hb⟩
    · obtain ⟨a, ha, hpa⟩ := h
      have hrest : ∃ a ∈ l, p a := by
        rcases List.mem_cons.mp ha with rfl | ha
        · exact absurd hpa hx
        · exact ⟨a, ha, hpa⟩
      obtain ⟨before, a, after, rfl, hpa, hbefore⟩ := ih hrest
      refine ⟨x :: before, a, after, rfl, hpa, fun b hb => ?_⟩
      rcases List.mem_cons.mp hb with rfl | hb
      · exact hx
      · exact hbefore b hb

variable (h : Laid g fanOut fanIn branches)
include h

theorem Laid.search {f : PlannerFanOut} (hf : g.fanOuts[fanOut]? = some f) :
    ∃ order, Visits g.outputsOf (branches.flatMap tips) [] order ∧ g.findFiAndJoins f = ((fanInsOf order).getLast?, joinsOf order) := by
  have houtputs : f.outputs = branches.flatMap tips := by
    rw [← h.outputs, outputsOf, hf]
    rfl
  rw [← houtputs]
  exact g.findFiAndJoins_visits f

/-- The search stays between the two. -/
theorem Laid.visited (hv : Visits g.outputsOf (branches.flatMap tips) [] order) :
    ∀ x ∈ order, x ∈ branchNodes branches ∨ x = .fanIn fanIn := by
  refine hv.subset (fun x hx y hy => ?_) fun x hx => ?_
  · rcases hx with hx | rfl
    · exact h.wired.leads x hx y hy
    · cases hy
  · obtain ⟨branch, hb, hx⟩ := List.mem_flatMap.mp hx
    exact Or.inl (Laid.mem hb (tips_subset hx))

/-- Where the tips of a branch are visited, so are the joins at its front, and the block behind them. -/
theorem Laid.visits_front (hshut : ∀ x, x ∈ order → ∀ y ∈ g.outputsOf x, y ∈ order)
    {b : Block} (hb : front ++ b :: post ∈ branches) (hfront : Joins front)
    (htips : ∀ x ∈ tips (front ++ b :: post), x ∈ order) : (∀ n ∈ chainNodes front, n ∈ order) ∧ b.entry ∈ order := by
  obtain ⟨hnodes, hnext⟩ := (h.chain hb).reach (S := (· ∈ order)) hshut hfront fun b' hb' =>
    htips _ (mem_tips.mpr (Or.inl ⟨b', hb', rfl⟩))
  exact ⟨hnodes, hnext (by simp) _ rfl⟩

/-- Found, a fan has a branch that ends in a join. -/
theorem Laid.ends_in_join (hv : Visits g.outputsOf (branches.flatMap tips) [] order)
    (hfi : .fanIn fanIn ∈ order) : ∃ branch ∈ branches, EndsInJoin branch := by
  by_contra hnone
  have hin : ∀ x ∈ order, x ∈ branchNodes branches := by
    refine hv.subset (fun x hx y hy => ?_) fun x hx => ?_
    · rcases h.wired.leads x hx y hy with hy' | rfl
      · exact hy'
      · obtain ⟨branch, hb, hx⟩ := mem_branchNodes.mp hx
        obtain ⟨b, hlast, hj, -⟩ := h.to_fanIn hb hx hy
        exact absurd ⟨branch, hb, b, hlast, hj⟩ hnone
    · obtain ⟨branch, hb, hx⟩ := List.mem_flatMap.mp hx
      exact Laid.mem hb (tips_subset hx)
  exact h.fanIn_not (hin _ hfi)

/-- The join at the end of a branch leads to the fan-in. -/
theorem Laid.exit_leads (hb : branch ∈ branches) {b : Block}
    (hlast : branch.getLast? = some b) (hj : IsJoin b) : .fanIn fanIn ∈ g.outputsOf b.exit := by
  obtain ⟨front, rfl⟩ := List.getLast?_eq_some_iff.mp hlast
  obtain ⟨i, c, rfl⟩ := hj
  have hw := (wiredChain_append.mp (h.chain hb)).2
  rw [WiredChain, Wired] at hw
  show .fanIn fanIn ∈ g.outputsOf (.join i)
  rw [hw.1.2.1]
  exact List.mem_singleton.mpr rfl

/-- Where the search finds the fan-in, every other fan-in is a tip, or an output of one. -/
theorem Laid.early (hv : Visits g.outputsOf (branches.flatMap tips) [] order)
    (hlast : (fanInsOf order).getLast? = some fanIn) (hi : .fanIn i ∈ order) :
    .fanIn i ∈ branches.flatMap tips ∨ ∃ a ∈ branches.flatMap tips, .fanIn i ∈ g.outputsOf a := by
  have hfi : .fanIn fanIn ∈ order := mem_fanInsOf.mp (List.mem_of_getLast? hlast)
  obtain ⟨branch, hb, b, hbl, hj⟩ := h.ends_in_join hv hfi
  have hv' := hv
  rw [← List.append_nil (branches.flatMap tips)] at hv'
  obtain ⟨first, rest, horder, hfirst⟩ := hv'.front
  have htip : b.exit ∈ branches.flatMap tips := List.mem_flatMap.mpr ⟨branch, hb, mem_tips.mpr (Or.inr ⟨b, hbl, rfl⟩)⟩
  have hmem := late hv hlast horder ((hfirst _).mpr (Or.inr (Or.inr ⟨_, htip, h.exit_leads hb hbl hj⟩))) hi
  rcases (hfirst _).mp hmem with hm | hm | hm
  · exact Or.inl hm
  · cases hm
  · exact Or.inr hm

/-- A fan-in inside a branch is a tip only of that branch, and its last. -/
theorem Laid.tip_exit (hb : branch ∈ branches)
    (hi : .fanIn i ∈ chainNodes branch) (htip : .fanIn i ∈ branches.flatMap tips) : ∃ b, branch.getLast? = some b ∧ b.exit = .fanIn i := by
  obtain ⟨branch', hb', htip⟩ := List.mem_flatMap.mp htip
  rw [branch_unique h.nodes_nodup hb hb' hi (tips_subset htip)]
  exact fanIn_tip htip

/-- Where all the fans inside are found, a branch of one that is found has no fan but at its end. -/
theorem Laid.shape (hfound : Found g fanOut fanIn)
    (hinner : ∀ q ∈ branchFans branches, Found g q.1 q.2) (hb : branch ∈ branches) :
    Joins branch ∨ ∃ front fo fi conditions inner,
      branch = front ++ [Block.fan fo fi conditions inner] ∧ Joins front := by
  rcases first_fan branch with hall | ⟨front, fo, fi, conditions, inner, post, rfl, hfront⟩
  · exact Or.inl hall
  refine Or.inr ⟨front, fo, fi, conditions, inner, ?_, hfront⟩
  by_contra hpost
  have hpost : post ≠ [] := fun hnil => hpost (by rw [hnil])
  obtain ⟨f, hf, hfi⟩ := hfound
  obtain ⟨order, hv, hsearch⟩ := h.search hf
  rw [hsearch] at hfi
  have hlaid := h.inner hb
  -- the inner fan is found too, by nodes that this search visits
  obtain ⟨f', hf', hfi'⟩ := hinner _ (inner_fans hb (Or.inl rfl))
  obtain ⟨order', hv', hsearch'⟩ := hlaid.search hf'
  rw [hsearch'] at hfi'
  have hentry : .fanOut fo ∈ order := (h.visits_front (visits_shut hv) hb hfront (visits_tips hv hb)).2
  have hvisited : .fanIn fi ∈ order := by
    refine hv'.subset (visits_shut hv) (fun x hx => visits_shut hv _ hentry x ?_) _ (mem_fanInsOf.mp (List.mem_of_getLast? hfi'))
    rw [hlaid.outputs]
    exact hx
  have hF : NodeId.fanIn fi ∈ (Block.fan fo fi conditions inner).nodes := mem_fan_nodes.mpr (Or.inr (Or.inl rfl))
  have hbranch : NodeId.fanIn fi ∈ chainNodes (front ++ Block.fan fo fi conditions inner :: post) := mem_chain_fan hF
  rcases h.early hv hfi hvisited with htip | ⟨a, ha, hout⟩
  · obtain ⟨b, hbl, hexit⟩ := h.tip_exit hb hbranch htip
    rw [List.getLast?_append, List.getLast?_cons] at hbl
    obtain ⟨b', hb'⟩ := Option.isSome_iff_exists.mp (List.getLast?_isSome.mpr hpost)
    rw [hb'] at hbl
    obtain rfl := Option.some.inj hbl
    exact (h.around hb _ hF).2 (hexit ▸ last_mem hb')
  · obtain ⟨branch', hb', ha⟩ := List.mem_flatMap.mp ha
    rcases h.to_inner hb (Or.inl rfl) (Laid.mem hb' (tips_subset ha)) hout with hin | ⟨-, htip⟩
    · obtain rfl := branch_unique h.nodes_nodup hb hb' (mem_chain_fan (mem_fan_inner hin)) (tips_subset ha)
      exact h.tips_not_inner hb ha hin
    · obtain ⟨br, hbr, htip⟩ := List.mem_flatMap.mp htip
      exact hlaid.fanIn_not (Laid.mem hbr (tips_subset htip))

/-- A fan-in inside a fan at the end of a branch is no tip. -/
theorem Laid.not_tip (hb : front ++ [Block.fan fo fi conditions inner] ∈ branches) (hin : .fanIn i ∈ branchNodes inner) :
    .fanIn i ∉ branches.flatMap tips := by
  intro htip
  obtain ⟨b, hbl, hexit⟩ := h.tip_exit hb (mem_chain_fan (mem_fan_inner hin)) htip
  rw [List.getLast?_concat] at hbl
  obtain rfl := Option.some.inj hbl
  have hexit : NodeId.fanIn fi = .fanIn i := hexit
  exact (h.inner hb).fanIn_not (hexit ▸ hin)

/-- A fan-in two fans down that is visited in time is the end of a branch of a fan that is a branch of its own. -/
theorem Laid.deep (hv : Visits g.outputsOf (branches.flatMap tips) [] order) (hlast : (fanInsOf order).getLast? = some fanIn)
    (hb : front ++ [Block.fan fo fi conditions inner] ∈ branches) (hin : .fanIn i ∈ branchNodes inner) (hi : .fanIn i ∈ order) :
    front = [] ∧ .fanIn i ∈ inner.flatMap tips := by
  have hbranch : ∀ x ∈ (Block.fan fo fi conditions inner).nodes, x ∈ chainNodes (front ++ [Block.fan fo fi conditions inner]) :=
    fun _ => mem_chain_fan
  rcases h.early hv hlast hi with htip | ⟨a, ha, hout⟩
  · exact absurd htip (h.not_tip hb hin)
  obtain ⟨branch', hb', ha⟩ := List.mem_flatMap.mp ha
  rcases h.to_inner hb (Or.inr hin) (Laid.mem hb' (tips_subset ha)) hout with ha' | ⟨rfl, htip⟩
  · obtain rfl := branch_unique h.nodes_nodup hb hb' (hbranch a (mem_fan_inner ha')) (tips_subset ha)
    exact absurd ha' (h.tips_not_inner hb ha)
  have hfo : NodeId.fanOut fo ∈ (Block.fan fo fi conditions inner).nodes := mem_fan_nodes.mpr (Or.inl rfl)
  obtain rfl := branch_unique h.nodes_nodup hb hb' (hbranch _ hfo) (tips_subset ha)
  refine ⟨?_, htip⟩
  rcases mem_tips.mp ha with ⟨b, hhead, hentry⟩ | ⟨b, hbl, hexit⟩
  · cases front with
    | nil => rfl
    | cons b₀ front =>
      obtain rfl := Option.some.inj hhead
      exact absurd (mem_chainNodes.mpr ⟨_, List.mem_cons_self, hentry ▸ b₀.entry_mem⟩) (h.around hb _ hfo).1
  · rw [List.getLast?_concat] at hbl
    obtain rfl := Option.some.inj hbl
    cases hexit

/-- The tips of a fan at the end of a visited branch are visited. -/
theorem Laid.visits_inner (hshut : ∀ x, x ∈ order → ∀ y ∈ g.outputsOf x, y ∈ order) (hb : front ++ [Block.fan fo fi conditions inner] ∈ branches)
    (hj : Joins front) (htips : ∀ x ∈ tips (front ++ [Block.fan fo fi conditions inner]), x ∈ order) :
    ∀ x ∈ inner.flatMap tips, x ∈ order := by
  intro x hx
  rw [← (h.inner hb).outputs] at hx
  exact hshut _ (h.visits_front hshut hb hj htips).2 x hx

/-- Where it and all the fans inside are found, and its tips are visited, a branch that is not plain ends in a fan whose fan-in is
    visited. -/
theorem Laid.ends_in_fan (hfound : Found g fanOut fanIn) (hinner : ∀ q ∈ branchFans branches, Found g q.1 q.2)
    (htips : ∀ x ∈ branches.flatMap tips, x ∈ order) (hb : branch ∈ branches) (hnot : ¬Plain (branch.map Block.condition)) :
    ∃ front fo fi conditions inner, branch = front ++ [Block.fan fo fi conditions inner] ∧ Joins front ∧
      .fanIn fi ∈ branchNodes branches ∧ .fanIn fi ∈ order := by
  rcases h.shape hfound hinner hb with hj | ⟨front, fo, fi, conditions, inner, rfl, hj⟩
  · exact absurd ((h.chain hb).plain_iff.mpr hj) hnot
  · exact ⟨front, fo, fi, conditions, inner, rfl, hj, Laid.mem hb (tips_subset fan_tip),
      htips _ (List.mem_flatMap.mpr ⟨_, hb, fan_tip⟩)⟩

/-- Found, a fan has only shallow ORs at the ends of its branches. -/
theorem Laid.inner_shallow (hv : Visits g.outputsOf (branches.flatMap tips) [] order) (hlast : (fanInsOf order).getLast? = some fanIn)
    (hinner : ∀ q ∈ branchFans branches, Found g q.1 q.2) (hb : front ++ [Block.fan fo fi conditions inner] ∈ branches) (hj : Joins front) :
    Shallow conditions := by
  have hlaid := h.inner hb
  have htips := h.visits_inner (visits_shut hv) hb hj (visits_tips hv hb)
  have hfound : Found g fo fi := hinner _ (inner_fans hb (Or.inl rfl))
  have hinner : ∀ q ∈ branchFans inner, Found g q.1 q.2 := fun q hq => hinner q (inner_fans hb (Or.inr hq))
  intro branch hbranch
  rw [← h.inner_labels hb] at hbranch
  obtain ⟨br, hbr, rfl⟩ := List.mem_map.mp hbranch
  by_cases hplain : Plain (br.map Block.condition)
  · exact Or.inl hplain
  · obtain ⟨front', fo', fi', cs', inner', rfl, hj', -, -⟩ := hlaid.ends_in_fan hfound hinner htips hbr hplain
    have hlaid' := hlaid.inner hbr
    have htips' := hlaid.visits_inner (visits_shut hv) hbr hj' fun x hx => htips x (List.mem_flatMap.mpr ⟨_, hbr, hx⟩)
    have hfront : Plain (front'.map Block.condition) := (wiredChain_append.mp (hlaid.chain hbr)).1.plain_iff.mpr hj'
    refine Or.inr ⟨front'.map Block.condition, cs', ⟨by rw [List.map_append]; rfl, hfront⟩, fun branch' hbranch' => ?_⟩
    rw [← hlaid.inner_labels hbr] at hbranch'
    obtain ⟨br', hbr', rfl⟩ := List.mem_map.mp hbranch'
    by_contra hnot
    -- a fourth fan: its fan-in would be a tip of the second
    obtain ⟨front₄, fo₄, fi₄, cs₄, inner₄, rfl, -, hin, hvisited⟩ := hlaid'.ends_in_fan (hinner _ (inner_fans hbr (Or.inl rfl)))
      (fun q hq => hinner q (inner_fans hbr (Or.inr hq))) htips' hbr' hnot
    exact hlaid.not_tip hbr hin
      (h.deep hv hlast hb (Laid.mem hbr (mem_chain_fan (mem_fan_inner hin))) hvisited).2

/-- Where a third fan's fan-in is visited in time, no branch before its own ends in a join. -/
theorem Laid.none_before {before after : List (List Block)} (hsplit : branches = before ++ branch :: after)
    (hv : Visits g.outputsOf (branches.flatMap tips) [] order) (hlast : (fanInsOf order).getLast? = some fanIn)
    (hfan : branch = [.fan fo fi conditions inner]) (hin : .fanIn i ∈ branchNodes inner) (hi : .fanIn i ∈ order) :
    ∀ br ∈ before, ¬EndsInJoin br := by
  intro br hbr hend
  obtain ⟨last, hbl, hj⟩ := hend
  have hbefore : ∀ x ∈ before, x ∈ branches := fun x hx => by rw [hsplit]; exact List.mem_append_left _ hx
  have hb : [] ++ [Block.fan fo fi conditions inner] ∈ branches := by rw [hsplit, hfan]; exact List.mem_append_right _ List.mem_cons_self
  have hnot := h.not_tip hb hin
  have hv' := hv
  rw [hsplit, List.flatMap_append] at hv' hnot
  obtain ⟨first, rest, horder, hfirst⟩ := hv'.front
  have hexit : last.exit ∈ before.flatMap tips := List.mem_flatMap.mpr ⟨br, hbr, mem_tips.mpr (Or.inr ⟨last, hbl, rfl⟩)⟩
  have hmem := late hv hlast horder ((hfirst _).mpr (Or.inr (Or.inr ⟨_, hexit, h.exit_leads (hbefore br hbr) hbl hj⟩))) hi
  rw [List.mem_append, not_or] at hnot
  rcases (hfirst _).mp hmem with hm | hm | ⟨a, ha, hout⟩
  · exact hnot.1 hm
  · exact hnot.2 hm
  · obtain ⟨br', hbr', ha⟩ := List.mem_flatMap.mp ha
    have hF : a ∈ (Block.fan fo fi conditions inner).nodes := by
      refine mem_fan_nodes.mpr ?_
      rcases h.to_inner hb (Or.inr hin) (Laid.mem (hbefore br' hbr') (tips_subset ha)) hout with ha | ⟨rfl, -⟩
      · exact Or.inr (Or.inr ha)
      · exact Or.inl rfl
    have hnodup := h.nodes_nodup
    rw [hsplit, branchNodes_append, branchNodes, hfan] at hnodup
    exact List.disjoint_of_nodup_append hnodup (Laid.mem hbr' (tips_subset ha)) (List.mem_append_left _ (@mem_chain_fan _ _ [] _ _ _ _ hF))

/-- Where a fan and all the fans inside it are found, its OR is matchable. -/
theorem Laid.matchable (hfound : Found g fanOut fanIn) (hinner : ∀ q ∈ branchFans branches, Found g q.1 q.2)
    (hlabels : branches.map (·.map Block.condition) = chains conditions) : Matchable conditions := by
  have hshape := fun branch (hb : branch ∈ branches) => h.shape hfound hinner hb
  obtain ⟨f, hf, hfi⟩ := hfound
  obtain ⟨order, hv, hsearch⟩ := h.search hf
  rw [hsearch] at hfi
  constructor
  · obtain ⟨branch, hb, hend⟩ := h.ends_in_join hv (mem_fanInsOf.mp (List.mem_of_getLast? hfi))
    refine ⟨branch.map Block.condition, ?_, (h.chain hb).endsInExists_iff.mpr hend⟩
    rw [← hlabels]
    exact List.mem_map_of_mem hb
  · intro before branch after hsplit
    rw [← hlabels] at hsplit
    obtain ⟨bs, rest, rfl, rfl, hrest⟩ := List.map_eq_append_iff.mp hsplit
    obtain ⟨b, as, rfl, rfl, rfl⟩ := List.map_eq_cons_iff.mp hrest
    have hb : b ∈ bs ++ b :: as := List.mem_append_right _ List.mem_cons_self
    rcases hshape b hb with hjoins | ⟨front, fo, fi, cs, inner, rfl, hjoins⟩
    · exact Or.inl ((h.chain hb).plain_iff.mpr hjoins)
    have hplain : Plain (front.map Block.condition) := (wiredChain_append.mp (h.chain hb)).1.plain_iff.mpr hjoins
    refine Or.inr ⟨front.map Block.condition, cs, ⟨by rw [List.map_append]; rfl, hplain⟩, ?_⟩
    by_cases hflat : Flat cs
    · exact Or.inl hflat
    · obtain ⟨branch, hbranch, hnot⟩ : ∃ branch ∈ chains cs, ¬Plain branch := by
        by_contra hall
        exact hflat fun branch hbranch => by_contra fun hnot => hall ⟨branch, hbranch, hnot⟩
      rw [← h.inner_labels hb] at hbranch
      obtain ⟨br, hbr, rfl⟩ := List.mem_map.mp hbranch
      -- the third fan
      obtain ⟨-, -, fi₃, -, -, -, -, hin, hvisited⟩ := (h.inner hb).ends_in_fan (hinner _ (inner_fans hb (Or.inl rfl)))
        (fun q hq => hinner q (inner_fans hb (Or.inr hq))) (h.visits_inner (visits_shut hv) hb hjoins (visits_tips hv hb)) hbr hnot
      obtain ⟨rfl, -⟩ := h.deep hv hfi hb hin hvisited
      refine Or.inr ⟨rfl, h.inner_shallow hv hfi hinner hb hjoins, fun branch' hbranch' hend => ?_⟩
      obtain ⟨b, hb', rfl⟩ := List.mem_map.mp hbranch'
      exact h.none_before rfl hv hfi rfl hin hvisited b hb' ((h.chain (List.mem_append_left _ hb')).endsInExists_iff.mp hend)

/-! ## A matchable OR -/

theorem Laid.visits_joins (hshut : ∀ x, x ∈ order → ∀ y ∈ g.outputsOf x, y ∈ order)
    (hb : branch ∈ branches) (hj : Joins branch) (htips : ∀ x ∈ tips branch, x ∈ order) :
    ∀ n ∈ chainNodes branch, n ∈ order := by
  have hw := h.chain hb
  rw [← List.append_nil branch] at hw
  refine (hw.reach (S := (· ∈ order)) hshut hj fun b' hb' => htips _ (mem_tips.mpr (Or.inl ⟨b', ?_, rfl⟩))).1
  rwa [List.append_nil] at hb'

/-- A branch that ends in a fan is visited whole, if the fan's branches are once their tips are. -/
theorem Laid.visits_fan (hshut : ∀ x, x ∈ order → ∀ y ∈ g.outputsOf x, y ∈ order)
    (hb : front ++ [Block.fan fo fi conditions inner] ∈ branches) (hj : Joins front)
    (htips : ∀ x ∈ tips (front ++ [Block.fan fo fi conditions inner]), x ∈ order)
    (hinner : ∀ branch ∈ inner, (∀ x ∈ tips branch, x ∈ order) → ∀ n ∈ chainNodes branch, n ∈ order) :
    ∀ n ∈ chainNodes (front ++ [Block.fan fo fi conditions inner]), n ∈ order := by
  obtain ⟨hfront, hentry⟩ := h.visits_front hshut hb hj htips
  intro n hn
  rcases mem_fan_last.mp hn with hn | rfl | rfl | hn
  · exact hfront n hn
  · exact hentry
  · exact htips _ fan_tip
  · obtain ⟨branch, hbranch, hn⟩ := mem_branchNodes.mp hn
    exact hinner branch hbranch (fun x hx => h.visits_inner hshut hb hj htips x (List.mem_flatMap.mpr ⟨branch, hbranch, hx⟩)) n hn

/-- The branches of a flat OR are joins only. -/
theorem Laid.flat (hlabels : branches.map (·.map Block.condition) = chains conditions) (hflat : Flat conditions) :
    ∀ branch ∈ branches, Joins branch := by
  intro branch hb
  refine (h.chain hb).plain_iff.mp (hflat _ ?_)
  rw [← hlabels]
  exact List.mem_map_of_mem hb

/-- The branches of a shallow OR are joins, or joins and a fan of joins. -/
theorem Laid.shallow (hlabels : branches.map (·.map Block.condition) = chains conditions) (hshallow : Shallow conditions) :
    ∀ branch ∈ branches, Joins branch ∨ ∃ front fo fi conditions inner,
      branch = front ++ [Block.fan fo fi conditions inner] ∧ Joins front ∧ ∀ branch ∈ inner, Joins branch := by
  intro branch hb
  have hmem : branch.map Block.condition ∈ chains conditions := by
    rw [← hlabels]
    exact List.mem_map_of_mem hb
  rcases hshallow _ hmem with hplain | ⟨front, inner, hor, hflat⟩
  · exact Or.inl ((h.chain hb).plain_iff.mp hplain)
  · obtain ⟨joins, fo, fi, inner', rfl, -, hj⟩ := (h.chain hb).of_endsInOr hor
    exact Or.inr ⟨joins, fo, fi, inner, inner', rfl, hj, (h.inner hb).flat (h.inner_labels hb) hflat⟩

/-- The branches of a matchable OR end in joins, or in a fan that is shallow at least. -/
theorem Laid.branch_cases (hlabels : branches.map (·.map Block.condition) = chains conditions) (hm : Matchable conditions) {before after : List (List Block)}
    (hsplit : branches = before ++ branch :: after) : Joins branch ∨
      ∃ front fo fi cs inner, branch = front ++ [Block.fan fo fi cs inner] ∧ Joins front ∧ Shallow cs ∧
        ((∀ br ∈ inner, Joins br) ∨
          (front = [] ∧ ∀ br ∈ before, ¬EndsInJoin br)) := by
  have hb : branch ∈ branches := by rw [hsplit]; exact List.mem_append_right _ List.mem_cons_self
  have hchains : chains conditions = before.map (·.map Block.condition) ++ branch.map Block.condition :: after.map (·.map Block.condition) := by
    rw [← hlabels, hsplit, List.map_append, List.map_cons]
  rcases hm.2 _ _ _ hchains with hplain | ⟨front, inner, hor, hcases⟩
  · exact Or.inl ((h.chain hb).plain_iff.mp hplain)
  · obtain ⟨joins, fo, fi, inner', rfl, hjoins, hj⟩ := (h.chain hb).of_endsInOr hor
    refine Or.inr ⟨joins, fo, fi, inner, inner', rfl, hj, ?_⟩
    rcases hcases with hflat | ⟨hnil, hshallow, hbefore⟩
    · exact ⟨hflat.shallow, Or.inl ((h.inner hb).flat (h.inner_labels hb) hflat)⟩
    · refine ⟨hshallow, Or.inr ⟨List.map_eq_nil_iff.mp (hjoins.trans hnil), fun br hbr hend => hbefore _ (List.mem_map_of_mem hbr) ?_⟩⟩
      have hbr' : br ∈ branches := by rw [hsplit]; exact List.mem_append_left _ hbr
      exact (h.chain hbr').endsInExists_iff.mpr hend

/-- Of a matchable OR everything is visited. -/
theorem Laid.visits_all (hv : Visits g.outputsOf (branches.flatMap tips) [] order)
    (hlabels : branches.map (·.map Block.condition) = chains conditions) (hm : Matchable conditions) :
    ∀ n ∈ branchNodes branches, n ∈ order := by
  have hshut := visits_shut hv
  intro n hn
  obtain ⟨branch, hb, hn⟩ := mem_branchNodes.mp hn
  obtain ⟨before, after, hsplit⟩ := List.append_of_mem hb
  rcases h.branch_cases hlabels hm hsplit with hj | ⟨front, fo, fi, cs, inner, rfl, hj, hshallow, -⟩
  · exact h.visits_joins hshut hb hj (visits_tips hv hb) n hn
  · refine h.visits_fan hshut hb hj (visits_tips hv hb) (fun br hbr htips => ?_) n hn
    have hlaid := h.inner hb
    rcases hlaid.shallow (h.inner_labels hb) hshallow br hbr with hj' | ⟨front', fo', fi', cs', inner', rfl, hj', hflat⟩
    · exact hlaid.visits_joins hshut hbr hj' htips
    · exact hlaid.visits_fan hshut hbr hj' htips fun br' hbr' htips' =>
        (hlaid.inner hbr).visits_joins hshut hbr' (hflat br' hbr') htips'

/-- Of a matchable OR every fan-in inside is visited before its own: as a tip, or behind a branch that comes before the first that
    ends in a join. -/
theorem Laid.fanIns_first (hlabels : branches.map (·.map Block.condition) = chains conditions) (hm : Matchable conditions) {before after : List (List Block)}
    (hsplit : branches = before ++ branch :: after) (hend : EndsInJoin branch)
    (hi : .fanIn i ∈ branchNodes branches) : .fanIn i ∈ before.flatMap tips ∨ .fanIn i ∈ (branch :: after).flatMap tips ∨
      ∃ a ∈ before.flatMap tips, .fanIn i ∈ g.outputsOf a := by
  obtain ⟨br, hbr, hi⟩ := mem_branchNodes.mp hi
  have htip : ∀ x ∈ tips br, x ∈ before.flatMap tips ∨ x ∈ (branch :: after).flatMap tips := by
    intro x hx
    rw [← List.mem_append, ← List.flatMap_append, ← hsplit]
    exact List.mem_flatMap.mpr ⟨br, hbr, hx⟩
  -- a fan that is the end of its branch: its own fan-in is a tip, one further in is behind a branch that comes before
  have hfan : ∀ {pre post : List (List Block)}, branches = pre ++ br :: post →
      (br ∈ before ∨ ∃ x ∈ pre, EndsInJoin x) → .fanIn i ∈ before.flatMap tips ∨
        .fanIn i ∈ (branch :: after).flatMap tips ∨ ∃ a ∈ before.flatMap tips, .fanIn i ∈ g.outputsOf a := by
    intro pre post hpre hwhere
    rcases h.branch_cases hlabels hm hpre with hj | ⟨front, fo, fi, cs, inner, rfl, hj, hshallow, hrest⟩
    · exact absurd hi (joins_nodes hj)
    rcases fanIn_last hj hi with rfl | hin
    · exact (htip _ fan_tip).imp_right Or.inl
    obtain ⟨br', hbr', hbri⟩ := mem_branchNodes.mp hin
    have hlaid := h.inner hbr
    rcases hrest with hflat | ⟨rfl, hbefore⟩
    · exact absurd hin (flat_nodes hflat)
    · rcases hlaid.shallow (h.inner_labels hbr) hshallow br' hbr' with hj' | ⟨front', fo', fi', cs', inner', rfl, hj', hflat⟩
      · exact absurd hbri (joins_nodes hj')
      · obtain rfl := (fanIn_last hj' hbri).resolve_right (flat_nodes hflat)
        rcases hwhere with hmem | ⟨x, hx, hxend⟩
        · refine Or.inr (Or.inr ⟨.fanOut fo, List.mem_flatMap.mpr ⟨_, hmem, mem_tips.mpr (Or.inl ⟨_, rfl, rfl⟩)⟩, ?_⟩)
          rw [hlaid.outputs]
          exact List.mem_flatMap.mpr ⟨_, hbr', fan_tip⟩
        · exact absurd hxend (hbefore x hx)
  have hmem : br ∈ before ++ branch :: after := hsplit ▸ hbr
  rcases List.mem_append.mp hmem with hin | hin
  · obtain ⟨pre, post, hpre⟩ := List.append_of_mem hbr
    exact hfan hpre (Or.inl hin)
  rcases List.mem_cons.mp hin with rfl | hin
  · -- this one ends in a join
    rcases h.branch_cases hlabels hm hsplit with hj | ⟨front, fo, fi, cs, inner, rfl, -⟩
    · exact absurd hi (joins_nodes hj)
    · obtain ⟨b, hb, k, c, rfl⟩ := hend
      rw [List.getLast?_concat] at hb
      cases hb
  · obtain ⟨pre, post, rfl⟩ := List.append_of_mem hin
    have hsplit' : branches = (before ++ branch :: pre) ++ br :: post := by
      rw [hsplit]
      simp
    exact hfan hsplit' (Or.inr ⟨branch, by simp, hend⟩)

theorem Laid.last_of_matchable (hv : Visits g.outputsOf (branches.flatMap tips) [] order)
    (hlabels : branches.map (·.map Block.condition) = chains conditions) (hm : Matchable conditions) :
    (fanInsOf order).getLast? = some fanIn := by
  have hsome : ∃ br ∈ branches, EndsInJoin br := by
    obtain ⟨c, hc, hend⟩ := hm.1
    rw [← hlabels] at hc
    obtain ⟨br, hbr, rfl⟩ := List.mem_map.mp hc
    exact ⟨br, hbr, (h.chain hbr).endsInExists_iff.mp hend⟩
  obtain ⟨before, branch, after, hsplit, hend, hbefore⟩ := first_such hsome
  have hb : branch ∈ branches := by rw [hsplit]; exact List.mem_append_right _ List.mem_cons_self
  have hin : ∀ x ∈ before, x ∈ branches := fun x hx => by rw [hsplit]; exact List.mem_append_left _ hx
  have hv' := hv
  rw [hsplit, List.flatMap_append] at hv'
  obtain ⟨first, rest, rfl, hfirst⟩ := hv'.front
  -- its own fan-in is visited, but not among the first
  have hvisited : .fanIn fanIn ∈ first ++ rest := by
    obtain ⟨b, hbl, hj⟩ := hend
    exact visits_shut hv _ (visits_tips hv hb _ (mem_tips.mpr (Or.inr ⟨b, hbl, rfl⟩))) _ (h.exit_leads hb hbl hj)
  have hnot : .fanIn fanIn ∉ first := by
    intro hf
    have htip : ∀ l : List (List Block), (∀ x ∈ l, x ∈ branches) → .fanIn fanIn ∉ l.flatMap tips := by
      intro l hl hx
      obtain ⟨br, hbr, hx⟩ := List.mem_flatMap.mp hx
      exact h.fanIn_not (Laid.mem (hl br hbr) (tips_subset hx))
    rcases (hfirst _).mp hf with hf | hf | ⟨a, ha, hout⟩
    · exact htip _ hin hf
    · exact htip _ (fun x hx => by rw [hsplit]; exact List.mem_append_right _ hx) hf
    · obtain ⟨br, hbr, ha⟩ := List.mem_flatMap.mp ha
      obtain ⟨b, hbl, hj, -⟩ := h.to_fanIn (hin br hbr) (tips_subset ha) hout
      exact hbefore br hbr ⟨b, hbl, hj⟩
  have hrest : .fanIn fanIn ∈ rest := (List.mem_append.mp hvisited).resolve_left hnot
  have honly : ∀ k ∈ fanInsOf rest, k = fanIn := by
    intro k hk
    have hk := mem_fanInsOf.mp hk
    rcases h.visited hv _ (List.mem_append_right _ hk) with hinside | heq
    · exact absurd hk (List.disjoint_of_nodup_append hv.nodup ((hfirst _).mpr (h.fanIns_first hlabels hm hsplit hend hinside)))
    · cases heq
      rfl
  have hne : fanInsOf rest ≠ [] := List.ne_nil_of_mem (mem_fanInsOf.mpr hrest)
  rw [show fanInsOf (first ++ rest) = fanInsOf first ++ fanInsOf rest from List.filterMap_append, List.getLast?_append_of_ne_nil _ hne,
    List.getLast?_eq_some_getLast hne, honly _ (List.getLast_mem hne)]

end

end

/-! ## The plan graph -/

/-- The builder of a query's graph, behind its first connection. -/
def rootBuilder (ast : Ast) (isRoot : Bool) (baseConstraints : Option PlannerConstraint) : NodeId × Builder :=
  let b : Builder := ⟨{ sources := [ast.table] }, 0⟩
  let (connection, graph) := b.graph.addConnection
    (connect ast.table ast.head.orderBy ast.where? isRoot baseConstraints ast.head.limit)
  (connection, { b with graph })

/-- The fans that `build_plan_graph` creates. -/
def fansOfGraph (ast : Ast) (isRoot : Bool) (baseConstraints : Option PlannerConstraint) : List FanRecord :=
  fansChild [] ast (rootBuilder ast isRoot baseConstraints).1 (rootBuilder ast isRoot baseConstraints).2

section
variable (ast : Ast) (isRoot : Bool) (baseConstraints : Option PlannerConstraint)

/-- Every fan-out is the start of a fan that stands, and the fans inside it are fans of the graph. -/
theorem buildGraph_fans :
    (∀ p ∈ fansOfGraph ast isRoot baseConstraints, ∃ branches, Standing (buildGraph ast isRoot baseConstraints) p branches ∧
      ∀ q ∈ branchFans branches, ∃ r ∈ fansOfGraph ast isRoot baseConstraints, r.pair = q) ∧
    ∀ i, (buildGraph ast isRoot baseConstraints).Has (.fanOut i) → ∃ p ∈ fansOfGraph ast isRoot baseConstraints, p.fanOut = i := by
  have hroot : Added { sources := [ast.table] } (rootBuilder ast isRoot baseConstraints).2.graph
    (rootBuilder ast isRoot baseConstraints).1 [] := addConnection_added { sources := [ast.table] } _
  have hempty : ∀ n, ¬PlannerGraph.Has { sources := [ast.table] } n := by
    intro n hn
    cases n with
    | terminus => exact hn
    | _ => exact Nat.not_lt_zero _ hn
  have hclosed : (rootBuilder ast isRoot baseConstraints).2.graph.Closed := by
    intro n hn a ha
    obtain rfl := ((hroot.has n).mp hn).resolve_left (hempty n)
    rw [hroot.ins] at ha
    cases ha
  obtain ⟨bs, hb⟩ := processChild_builds [] ast (rootBuilder ast isRoot baseConstraints).1 (rootBuilder ast isRoot baseConstraints).2 hclosed
    ⟨(hroot.has _).mpr (Or.inr rfl), fun _ hi => by cases hi⟩
  let last := (processChild [] ast (rootBuilder ast isRoot baseConstraints).1 (rootBuilder ast isRoot baseConstraints).2).1
  let g := (processChild [] ast (rootBuilder ast isRoot baseConstraints).1 (rootBuilder ast isRoot baseConstraints).2).2.graph
  have hg : buildGraph ast isRoot baseConstraints = { g.wireOutput last .terminus with terminus := some last } := rfl
  have hhas : ∀ n, (buildGraph ast isRoot baseConstraints).Has n ↔ g.Has n := by
    intro n
    rw [hg, ← wireOutput_has g last .terminus n]
    cases n <;> exact Iff.rfl
  have hin : ∀ n, g.Has n → (buildGraph ast isRoot baseConstraints).inputsOf n = g.inputsOf n := by
    intro n hn
    rw [hg, ← wireOutput_inputs g last .terminus n]
    cases n with
    | terminus => exact absurd hn id
    | _ => rfl
  have hout : ∀ n, n ≠ last → (buildGraph ast isRoot baseConstraints).outputsOf n = g.outputsOf n := by
    intro n hn
    have hsame := wireOutput_outputs (g := g) .terminus hn
    rw [hg, ← hsame]
    cases n <;> rfl
  have hgrown : Grown g (buildGraph ast isRoot baseConstraints) [last] [] :=
    ⟨fun n => (hhas n).mpr, hin, fun n hn => absurd ((hhas n).mp hn.1) hn.2, fun n _ hne => hout n (mt List.mem_singleton.mpr hne),
      fun n hn => (by cases hn), List.nodup_nil, fun n hn => absurd ((hhas n).mp hn.1) hn.2⟩
  constructor
  · intro p hp
    have hkept : Recorded _ _ _ ([] : List NodeId) := hb.records.keep (hb.chained.closed hclosed ((hroot.has _).mpr (Or.inr rfl))) hgrown
      (fun _ _ hne => hne) (fun _ _ _ => List.not_mem_nil)
    obtain ⟨branches, hstands, hinner, -⟩ := hkept p hp
    exact ⟨branches, hstands, hinner⟩
  · intro i hi
    refine hb.covers i ⟨(hhas _).mp hi, fun ho => ?_⟩
    cases ((hroot.has _).mp ho).resolve_left (hempty _)

/-- The fan that stands for a record, as it is wired. -/
theorem standing_laid {g : PlannerGraph} {p : FanRecord} {branches : List (List Block)} (h : Standing g p branches) :
    Laid g p.fanOut p.fanIn branches ∧ branches.map (·.map Block.condition) = chains p.conditions := by
  obtain ⟨source, hw⟩ := h.wired
  rw [FanRecord.block] at hw
  refine ⟨hw.laid h.nodup, ?_⟩
  rw [Wired] at hw
  exact hw.2.2.1

theorem fansOfGraph_conditions : (fansOfGraph ast isRoot baseConstraints).map (·.conditions) = orsUnder ast :=
  fansChild_conditions [] ast _ _

/-- Where every fan is matched, every OR is matchable. -/
theorem matchable_of_matched
    (hmatched : ∀ p ∈ fansOfGraph ast isRoot baseConstraints, (buildGraph ast isRoot baseConstraints).Matched p.fanOut p.fanIn) :
    ∀ conditions ∈ orsUnder ast, Matchable conditions := by
  intro conditions hc
  rw [← fansOfGraph_conditions ast isRoot baseConstraints] at hc
  obtain ⟨p, hp, rfl⟩ := List.mem_map.mp hc
  obtain ⟨branches, hstands, hinner⟩ := (buildGraph_fans ast isRoot baseConstraints).1 p hp
  obtain ⟨hl, hlabels⟩ := standing_laid hstands
  obtain ⟨f, hf, hfi, -⟩ := hmatched p hp
  refine hl.matchable ⟨f, hf, hfi⟩ (fun q hq => ?_) hlabels
  obtain ⟨r, hr, rfl⟩ := hinner q hq
  obtain ⟨f', hf', hfi', -⟩ := hmatched r hr
  exact ⟨f', hf', hfi'⟩

/-- The fan-outs of a query's graph are those created for its ORs, and the search matches each with the
    fan-in created with it, and with exactly the joins between the two, if and only if each OR is matchable. -/
theorem fan_matching_exact :
    (∀ i f, (buildGraph ast isRoot baseConstraints).fanOuts[i]? = some f →
      ∃ p ∈ fansOfGraph ast isRoot baseConstraints, p.fanOut = i) ∧
    ((∀ p ∈ fansOfGraph ast isRoot baseConstraints, (buildGraph ast isRoot baseConstraints).Matched p.fanOut p.fanIn) ↔
      ∀ conditions ∈ orsUnder ast, Matchable conditions) := by
  obtain ⟨hfans, hcovers⟩ := buildGraph_fans ast isRoot baseConstraints
  refine ⟨fun i f hf => hcovers i (List.getElem?_eq_some_iff.mp hf).1, matchable_of_matched ast isRoot baseConstraints, fun hall => ?_⟩
  intro p hp
  obtain ⟨branches, hstands, -⟩ := hfans p hp
  obtain ⟨hl, hlabels⟩ := standing_laid hstands
  have hm : Matchable p.conditions := by
    refine hall _ ?_
    rw [← fansOfGraph_conditions ast isRoot baseConstraints]
    exact List.mem_map_of_mem hp
  have hhas : (buildGraph ast isRoot baseConstraints).Has (.fanOut p.fanOut) := hstands.has _ (p.block branches).entry_mem
  have hf := List.getElem?_eq_getElem hhas
  obtain ⟨order, hv, hsearch⟩ := hl.search hf
  refine ⟨_, hf, ?_, ?_, fun i => ?_⟩
  · rw [hsearch]
    exact hl.last_of_matchable hv hlabels hm
  · rw [hsearch]
    exact nodup_joinsOf hv.nodup
  · rw [hsearch, mem_joinsOf]
    constructor
    · intro hi
      rcases hl.visited hv _ hi with hin | heq
      · exact hl.wired.before _ hin
      · cases heq
    · exact fun hi => hl.visits_all hv hlabels hm _ (hstands.between i hi)

end

/-- `((b OR c) AND a) OR d`, of EXISTS conditions: the inner fan-in is met a step after the outer. -/
theorem wrong_fan_in : ∃ ast : Ast, ¬∀ p ∈ fansOfGraph ast true none, (buildGraph ast true none).Matched p.fanOut p.fanIn := by
  let existing (table : String) : Condition :=
    .correlatedSubquery ⟨⟨["id"], ["id"]⟩, .mk { table := table } none [] none, none⟩ { op := .exists }
  let either : Condition := .or [existing "b", existing "c"]
  refine ⟨.mk { table := "t" } (some (.or [.and [either, existing "a"], existing "d"])) [] none, fun hall => ?_⟩
  have hm : Matchable [.and [either, existing "a"], existing "d"] := matchable_of_matched _ _ _ hall _ List.mem_cons_self
  have hchains : chains [.and [either, existing "a"], existing "d"] = [] ++ [either, existing "a"] :: [[existing "d"]] := rfl
  rcases hm.2 [] _ _ hchains with hplain | ⟨front, inner, ⟨heq, -⟩, -⟩
  · exact hplain either List.mem_cons_self
  · have hlast := congrArg List.getLast? heq
    rw [List.getLast?_concat] at hlast
    cases Option.some.inj hlast

end Rindle.Planner
