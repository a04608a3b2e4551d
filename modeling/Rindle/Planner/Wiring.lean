/-
  Rindle.Planner.Wiring — the builder wires a fan for each OR.

  What a condition adds to a graph is a chain of blocks behind its input (`Chained`): no node of
  before is changed but the input, which gets one more output, and no node of the chain's feeds on
  anything but the input and what was added. Chains compose (`Chained.trans`), and the fans that
  are complete stay as they are (`Standing`). With it goes the record of which fan-in was created
  with which fan-out, and for which OR (`fansOf`).
-/

import Rindle.Planner.Fans

set_option linter.dupNamespace false

namespace Rindle.Planner

open Block (chainNodes branchNodes chainFans branchFans tips)

namespace PlannerGraph

/-! ## Graphs that grow -/

/-- A node that was added. -/
def New (g g' : PlannerGraph) (n : NodeId) : Prop := g'.Has n ∧ ¬g.Has n

/-- The inputs of the graph's nodes are nodes of it. -/
def Closed (g : PlannerGraph) : Prop := ∀ n, g.Has n → ∀ a ∈ g.inputsOf n, g.Has a

/-- A node whose outputs are recorded. -/
def Sends : NodeId → Prop
  | .join _ => True
  | .fanOut _ => True
  | _ => False

theorem outputsOf_of_not_sends {g : PlannerGraph} {n : NodeId} (h : ¬Sends n) : g.outputsOf n = [] := by
  cases n with
  | join i => exact absurd trivial h
  | fanOut i => exact absurd trivial h
  | _ => rfl

/-- A node that can be wired: a join has no output yet. -/
structure Wirable (g : PlannerGraph) (n : NodeId) : Prop where
  has : g.Has n
  free : ∀ i, n = .join i → g.outputsOf n = []

/-- What is before an old node is old, and was before it. -/
theorem before_old {g g' : PlannerGraph} (hinputs : ∀ n, g.Has n → g'.inputsOf n = g.inputsOf n) (hclosed : g.Closed) {m n : NodeId}
    (hn : g.Has n) (h : g'.Before m n) : g.Before m n ∧ g.Has m := by
  induction h using Relation.ReflTransGen.head_induction_on with
  | refl => exact ⟨.refl, hn⟩
  | @head a c hac _ ih =>
    rw [hinputs c ih.2] at hac
    exact ⟨ih.1.head hac, hclosed c ih.2 a hac⟩

/-- A set that nothing outside feeds holds all that is before its members. -/
theorem before_mem {g : PlannerGraph} {S : NodeId → Prop} (hclosed : ∀ n, S n → ∀ a ∈ g.inputsOf n, S a) {m n : NodeId} (hn : S n)
    (h : g.Before m n) : S m := by
  induction h using Relation.ReflTransGen.head_induction_on with
  | refl => exact hn
  | head hac _ ih => exact hclosed _ ih _ hac

/-- A chain of blocks was added behind a node. -/
structure Chained (g g' : PlannerGraph) (source last : NodeId) (bs : List Block) : Prop where
  has : ∀ n, g.Has n → g'.Has n
  inputs : ∀ n, g.Has n → g'.inputsOf n = g.inputsOf n
  within : ∀ n, New g g' n → ∀ a ∈ g'.inputsOf n, a = source ∨ New g g' a
  outputs : ∀ n, g.Has n → n ≠ source → g'.outputsOf n = g.outputsOf n
  tapped : Sends source → g'.outputsOf source = g.outputsOf source ++ (bs.head?.map Block.entry).toList
  last : last = (bs.getLast?.map Block.exit).getD source
  new : ∀ n ∈ chainNodes bs, New g g' n
  nodup : (chainNodes bs).Nodup
  wired : WiredChain g' source none bs
  /-- What is not in the chain is in a part that feeds on nothing outside it. -/
  apart : ∀ n, New g g' n → n ∈ chainNodes bs ∨
    ∃ S : NodeId → Prop, S n ∧ (∀ m, S m → New g g' m) ∧ ∀ m, S m → ∀ a ∈ g'.inputsOf m, S a

/-- A part was added: it feeds on its taps only, and of the nodes of before only they got outputs. -/
structure Grown (g g' : PlannerGraph) (taps ns : List NodeId) : Prop where
  has : ∀ n, g.Has n → g'.Has n
  inputs : ∀ n, g.Has n → g'.inputsOf n = g.inputsOf n
  within : ∀ n, New g g' n → ∀ a ∈ g'.inputsOf n, a ∈ taps ∨ New g g' a
  outputs : ∀ n, g.Has n → n ∉ taps → g'.outputsOf n = g.outputsOf n
  new : ∀ n ∈ ns, New g g' n
  nodup : ns.Nodup
  apart : ∀ n, New g g' n → n ∈ ns ∨
    ∃ S : NodeId → Prop, S n ∧ (∀ m, S m → New g g' m) ∧ ∀ m, S m → ∀ a ∈ g'.inputsOf m, S a

section
variable {g g₁ g₂ : PlannerGraph} {taps taps' ns ns' : List NodeId}

theorem Grown.refl (g : PlannerGraph) (taps : List NodeId) : Grown g g taps [] := by
  refine ⟨fun _ h => h, fun _ _ => rfl, fun n h => absurd h.1 h.2, fun _ _ _ => rfl, fun n hn => (by cases hn), List.nodup_nil,
    fun n h => absurd h.1 h.2⟩

theorem Grown.weaken (h : Grown g g₁ taps ns) (hsub : taps ⊆ taps') : Grown g g₁ taps' ns :=
  ⟨h.has, h.inputs, fun n hn a ha => (h.within n hn a ha).imp_left (@hsub a), fun n hn hne => h.outputs n hn (mt (@hsub n) hne),
    h.new, h.nodup, h.apart⟩

theorem Grown.perm (h : Grown g g₁ taps ns) (hp : ns.Perm ns') : Grown g g₁ taps ns' :=
  ⟨h.has, h.inputs, h.within, h.outputs, fun n hn => h.new n (hp.mem_iff.mpr hn), hp.nodup_iff.mp h.nodup,
    fun n hn => (h.apart n hn).imp_left hp.mem_iff.mp⟩

/-- A part that feeds on nothing of before stands apart. -/
theorem Grown.hidden (h : Grown g g₁ [] ns) : Grown g g₁ [] [] :=
  ⟨h.has, h.inputs, h.within, h.outputs, fun n hn => (by cases hn), List.nodup_nil, fun n hn => Or.inr ⟨New g g₁, hn, fun _ hm => hm,
    fun m hm a ha => (h.within m hm a ha).resolve_left List.not_mem_nil⟩⟩

theorem Grown.closed (h : Grown g g₁ taps ns) (hg : g.Closed) (htaps : ∀ a ∈ taps, g.Has a) : g₁.Closed := by
  intro n hn a ha
  by_cases hold : g.Has n
  · rw [h.inputs n hold] at ha
    exact h.has a (hg n hold a ha)
  · rcases h.within n ⟨hn, hold⟩ a ha with htap | hnew
    · exact h.has _ (htaps a htap)
    · exact hnew.1

/-- One part after another, which may feed on the first. -/
theorem Grown.trans (h : Grown g g₁ taps ns) (h' : Grown g₁ g₂ taps' ns') (htaps : ∀ a ∈ taps', a ∈ taps ∨ New g g₁ a) :
    Grown g g₂ taps (ns ++ ns') := by
  have hnew₁ : ∀ n, New g g₁ n → New g g₂ n := fun n hn => ⟨h'.has n hn.1, hn.2⟩
  have hnew₂ : ∀ n, New g₁ g₂ n → New g g₂ n := fun n hn => ⟨hn.1, fun ho => hn.2 (h.has n ho)⟩
  have hsplit : ∀ n, New g g₂ n → New g g₁ n ∨ New g₁ g₂ n := by
    intro n hn
    by_cases hmid : g₁.Has n
    · exact Or.inl ⟨hmid, hn.2⟩
    · exact Or.inr ⟨hn.1, hmid⟩
  refine ⟨fun n hn => h'.has n (h.has n hn), ?_, ?_, ?_, ?_, ?_, ?_⟩
  · intro n hn
    rw [h'.inputs n (h.has n hn), h.inputs n hn]
  · intro n hn a ha
    rcases hsplit n hn with hn₁ | hn₂
    · rw [h'.inputs n hn₁.1] at ha
      exact (h.within n hn₁ a ha).imp_right (hnew₁ a)
    · rcases h'.within n hn₂ a ha with htap | hn₂
      · exact (htaps a htap).imp_right (hnew₁ a)
      · exact Or.inr (hnew₂ a hn₂)
  · intro n hn hne
    have hne' : n ∉ taps' := fun htap => (htaps n htap).elim hne fun hnew => hnew.2 hn
    rw [h'.outputs n (h.has n hn) hne', h.outputs n hn hne]
  · intro n hn
    rcases List.mem_append.mp hn with hn | hn
    · exact hnew₁ n (h.new n hn)
    · exact hnew₂ n (h'.new n hn)
  · rw [List.nodup_append]
    refine ⟨h.nodup, h'.nodup, fun a ha b hb heq => ?_⟩
    subst heq
    exact (h'.new a hb).2 (h.new a ha).1
  · intro n hn
    rw [List.mem_append]
    rcases hsplit n hn with hn₁ | hn₂
    · rcases h.apart n hn₁ with hin | ⟨S, hS, hnew, hclosed⟩
      · exact Or.inl (Or.inl hin)
      · refine Or.inr ⟨S, hS, fun m hm => hnew₁ m (hnew m hm), fun m hm a ha => hclosed m hm a ?_⟩
        rwa [h'.inputs m (hnew m hm).1] at ha
    · rcases h'.apart n hn₂ with hin | ⟨S, hS, hnew, hclosed⟩
      · exact Or.inl (Or.inr hin)
      · exact Or.inr ⟨S, hS, fun m hm => hnew₂ m (hnew m hm), hclosed⟩

end

section
variable {g g₁ g₂ : PlannerGraph} {source mid last : NodeId} {bs bs' : List Block}

theorem Chained.grown (h : Chained g g₁ source last bs) : Grown g g₁ [source] (chainNodes bs) :=
  ⟨h.has, h.inputs, fun n hn a ha => (h.within n hn a ha).imp_left List.mem_singleton.mpr,
    fun n hn hne => h.outputs n hn (mt List.mem_singleton.mpr hne), h.new, h.nodup, h.apart⟩

theorem Grown.chained (h : Grown g g₁ [source] (chainNodes bs))
    (htapped : Sends source → g₁.outputsOf source = g.outputsOf source ++ (bs.head?.map Block.entry).toList)
    (hlast : last = (bs.getLast?.map Block.exit).getD source) (hwired : WiredChain g₁ source none bs) : Chained g g₁ source last bs :=
  ⟨h.has, h.inputs, fun n hn a ha => (h.within n hn a ha).imp_left List.mem_singleton.mp,
    fun n hn hne => h.outputs n hn (mt List.mem_singleton.mp hne), htapped, hlast, h.new, h.nodup, hwired, h.apart⟩

theorem Chained.refl (g : PlannerGraph) (source : NodeId) : Chained g g source source [] := by
  refine (Grown.refl g [source]).chained (fun _ => (List.append_nil _).symm) rfl ?_
  rw [WiredChain]
  trivial

theorem Chained.closed (h : Chained g g₁ source last bs) (hg : g.Closed) (hs : g.Has source) : g₁.Closed :=
  h.grown.closed hg fun _ ha => List.mem_singleton.mp ha ▸ hs

/-- The end of a chain is the last of its blocks. -/
theorem Chained.end_cases (h : Chained g g₁ source last bs) :
    (bs = [] ∧ last = source) ∨ ∃ b, bs.getLast? = some b ∧ last = b.exit ∧ New g g₁ last := by
  have hlast := h.last
  cases hb : bs.getLast? with
  | none =>
    rw [hb] at hlast
    exact Or.inl ⟨List.getLast?_eq_none_iff.mp hb, hlast⟩
  | some b =>
    rw [hb] at hlast
    obtain rfl : last = b.exit := hlast
    exact Or.inr ⟨b, rfl, rfl, h.new _ (last_mem hb)⟩

theorem Chained.ready (h : Chained g g₁ source last bs) (hs : g.Wirable source) : g₁.Wirable last := by
  rcases h.end_cases with ⟨rfl, rfl⟩ | ⟨b, hb, rfl, hnew⟩
  · refine ⟨h.has _ hs.has, fun i hi => ?_⟩
    rw [h.tapped (by rw [hi]; trivial), hs.free i hi]
    rfl
  · refine ⟨hnew.1, fun i hi => ?_⟩
    obtain ⟨front, rfl⟩ := List.getLast?_eq_some_iff.mp hb
    have hone := (wiredChain_append.mp h.wired).2
    cases b with
    | fan => cases hi
    | join j c =>
      rw [WiredChain, Wired] at hone
      exact hone.1.2.1

/-- One chain after another. -/
theorem Chained.trans (h : Chained g g₁ source mid bs) (h' : Chained g₁ g₂ mid last bs') (hs : g.Wirable source) :
    Chained g g₂ source last (bs ++ bs') := by
  have hready := h.ready hs
  have hmid : ∀ a ∈ [mid], a ∈ [source] ∨ New g g₁ a := by
    intro a ha
    obtain rfl := List.mem_singleton.mp ha
    rcases h.end_cases with ⟨-, rfl⟩ | ⟨-, -, -, hm⟩
    · exact Or.inl ha
    · exact Or.inr hm
  have hgrown := h.grown.trans h'.grown hmid
  rw [← chainNodes_append] at hgrown
  refine hgrown.chained ?_ ?_ ?_
  · intro hsend
    rcases h.end_cases with ⟨rfl, rfl⟩ | ⟨b, hb, -, hnew⟩
    · rw [h'.tapped hsend, h.tapped hsend]
      simp
    · have hne : source ≠ mid := fun heq => hnew.2 (heq ▸ hs.has)
      rw [h'.outputs source (h.has _ hs.has) hne, h.tapped hsend]
      cases bs with
      | nil => cases hb
      | cons b' bs => rfl
  · rw [h'.last, h.last, List.getLast?_append]
    cases bs'.getLast? <;> rfl
  · rw [wiredChain_append, ← h.last]
    refine ⟨?_, h'.wired⟩
    rcases h.end_cases with ⟨rfl, -⟩ | ⟨b, hb, hexit, hnew⟩
    · rw [WiredChain]
      trivial
    · refine h.wired.link hb h.nodup (fun n hn => h'.inputs n (h.new n hn).1)
        (fun n hn hne => h'.outputs n (h.new n hn).1 (hexit ▸ hne)) fun i c hi => ?_
      subst hi
      have hmid : mid = .join i := hexit
      have hfree := hready.free i hmid
      have htapped := h'.tapped (by rw [hmid]; trivial)
      rw [hfree, List.nil_append, hmid] at htapped
      rw [htapped, Option.or_none]

/-- A join that is on a path from a new fan's fan-out to its fan-in is inside it. -/
theorem Chained.between {fanOut fanIn : Nat} {conditions : List Condition} {branches : List (List Block)}
    (h : Chained g g₁ source last [.fan fanOut fanIn conditions branches]) (hclosed : g.Closed) (hs : g.Has source) {i : Nat}
    (hi : g₁.Between fanOut fanIn i) : .join i ∈ branchNodes branches := by
  have hnodes : ∀ n, n ∈ chainNodes [.fan fanOut fanIn conditions branches] ↔
      n = .fanOut fanOut ∨ n = .fanIn fanIn ∨ n ∈ branchNodes branches := by
    intro n
    rw [chainNodes, chainNodes, List.append_nil, Block.nodes, List.mem_cons, List.mem_cons]
  have hfan : New g g₁ (.fanOut fanOut) := h.new _ ((hnodes _).mpr (Or.inl rfl))
  have hfed : source ∈ g₁.inputsOf (.fanOut fanOut) := by
    have := h.wired
    rw [WiredChain, Wired] at this
    exact this.1.2.1
  have hjoin : g₁.Has (.join i) := before_mem (h.closed hclosed hs) (h.new _ ((hnodes _).mpr (Or.inr (Or.inl rfl)))).1 hi.2
  by_cases hold : g.Has (.join i)
  · exact absurd (before_old h.inputs hclosed hold hi.1).2 hfan.2
  · rcases h.apart _ ⟨hjoin, hold⟩ with hin | ⟨S, hS, hnew, hfeeds⟩
    · rcases (hnodes _).mp hin with heq | heq | hin
      · cases heq
      · cases heq
      · exact hin
    · have hout : S (.fanOut fanOut) := before_mem hfeeds hS hi.1
      exact absurd hs (hnew _ (hfeeds _ hout _ hfed)).2

end

/-! ## What the builder does to the edges -/

section
variable {g : PlannerGraph}

theorem wireOutput_has (g : PlannerGraph) (s t n : NodeId) : (g.wireOutput s t).Has n ↔ g.Has n := by
  cases s <;> cases n <;> simp [wireOutput, addOutput, Has]

theorem wireOutput_inputs (g : PlannerGraph) (s t n : NodeId) : (g.wireOutput s t).inputsOf n = g.inputsOf n := by
  cases s with
  | join i =>
    cases n with
    | join j =>
      simp only [wireOutput, inputsOf, List.getElem?_modify]
      by_cases hij : i = j
      · subst hij
        cases g.joins[i]? <;> simp
      · simp [hij]
    | _ => rfl
  | fanOut i =>
    cases n with
    | fanOut j =>
      simp only [wireOutput, addOutput, inputsOf, List.getElem?_modify]
      by_cases hij : i = j
      · subst hij
        cases g.fanOuts[i]? <;> simp
      · simp [hij]
    | _ => rfl
  | _ => rfl

theorem wireOutput_outputs {s n : NodeId} (t : NodeId) (h : n ≠ s) : (g.wireOutput s t).outputsOf n = g.outputsOf n := by
  cases s with
  | join i =>
    cases n with
    | join j =>
      have hij : i ≠ j := fun heq => h (by rw [heq])
      simp only [wireOutput, outputsOf, List.getElem?_modify, if_neg hij, Option.map_eq_map, Option.map_id_fun', id_eq]
    | _ => rfl
  | fanOut i =>
    cases n with
    | fanOut j =>
      have hij : i ≠ j := fun heq => h (by rw [heq])
      simp only [wireOutput, addOutput, outputsOf, List.getElem?_modify, if_neg hij, Option.map_eq_map, Option.map_id_fun', id_eq]
    | _ => rfl
  | _ => rfl

theorem wireOutput_join {i : Nat} (t : NodeId) (h : g.Has (.join i)) : (g.wireOutput (.join i) t).outputsOf (.join i) = [t] := by
  have hget : g.joins[i]? = some (g.joins.get ⟨i, h⟩) := List.getElem?_eq_getElem h
  simp [wireOutput, outputsOf, hget]

theorem wireOutput_fanOut {i : Nat} (t : NodeId) (h : g.Has (.fanOut i)) :
    (g.wireOutput (.fanOut i) t).outputsOf (.fanOut i) = g.outputsOf (.fanOut i) ++ [t] := by
  have hget : g.fanOuts[i]? = some (g.fanOuts.get ⟨i, h⟩) := List.getElem?_eq_getElem h
  simp [wireOutput, addOutput, outputsOf, hget]

/-- A node that is ready gets one more output. -/
theorem wireOutput_ready {s : NodeId} (t : NodeId) (h : g.Wirable s) (hs : Sends s) :
    (g.wireOutput s t).outputsOf s = g.outputsOf s ++ [t] := by
  cases s with
  | join i => rw [wireOutput_join t h.has, h.free i rfl, List.nil_append]
  | fanOut i => exact wireOutput_fanOut t h.has
  | _ => exact absurd hs id

theorem wireOutput_grown (g : PlannerGraph) (s t : NodeId) : Grown g (g.wireOutput s t) [s] [] := by
  refine ⟨fun n => (wireOutput_has g s t n).mpr, fun n _ => wireOutput_inputs g s t n,
    fun n hn => absurd ((wireOutput_has g s t n).mp hn.1) hn.2, fun n _ hne => wireOutput_outputs t (mt List.mem_singleton.mpr hne),
    fun n hn => (by cases hn), List.nodup_nil, fun n hn => absurd ((wireOutput_has g s t n).mp hn.1) hn.2⟩

/-- A node was added that nothing takes yet. -/
structure Added (g g' : PlannerGraph) (id : NodeId) (ins : List NodeId) : Prop where
  has : ∀ n, g'.Has n ↔ g.Has n ∨ n = id
  fresh : ¬g.Has id
  inputs : ∀ n, g.Has n → g'.inputsOf n = g.inputsOf n
  outputs : ∀ n, g.Has n → g'.outputsOf n = g.outputsOf n
  ins : g'.inputsOf id = ins
  outs : g'.outputsOf id = []

theorem Added.grown {g' : PlannerGraph} {id : NodeId} {ins : List NodeId} (h : Added g g' id ins) : Grown g g' ins [id] := by
  have hid : ∀ n, New g g' n → n = id := fun n hn => ((h.has n).mp hn.1).resolve_left hn.2
  refine ⟨fun n hn => (h.has n).mpr (Or.inl hn), h.inputs, fun n hn a ha => ?_, fun n hn _ => h.outputs n hn, fun n hn => ?_,
    List.nodup_singleton _, fun n hn => Or.inl (List.mem_singleton.mpr (hid n hn))⟩
  · rw [hid n hn, h.ins] at ha
    exact Or.inl ha
  · rw [List.mem_singleton.mp hn]
    exact ⟨(h.has _).mpr (Or.inr rfl), h.fresh⟩

theorem addConnection_added (g : PlannerGraph) (c : PlannerConnection) : Added g (g.addConnection c).2 (g.addConnection c).1 [] := by
  refine ⟨fun n => ?_, Nat.lt_irrefl _, fun n _ => ?_, fun n _ => ?_, rfl, rfl⟩
  · cases n <;> simp [addConnection, Has]
    omega
  · cases n <;> rfl
  · cases n <;> rfl

theorem addJoin_added (g : PlannerGraph) {j : PlannerJoin} (hj : j.output = none) :
    Added g (g.addJoin j).2 (g.addJoin j).1 [j.parent, j.child] := by
  refine ⟨fun n => ?_, Nat.lt_irrefl _, fun n hn => ?_, fun n hn => ?_, ?_, ?_⟩
  · cases n <;> simp [addJoin, Has]
    omega
  · cases n with
    | join i => simp only [addJoin, inputsOf, List.getElem?_append_left hn]
    | _ => rfl
  · cases n with
    | join i => simp only [addJoin, outputsOf, List.getElem?_append_left hn]
    | _ => rfl
  · simp [addJoin, inputsOf]
  · simp [addJoin, outputsOf, hj]

theorem addFanOut_added (g : PlannerGraph) (input : NodeId) :
    Added g (g.addFanOut ⟨.fo, input, []⟩).2 (g.addFanOut ⟨.fo, input, []⟩).1 [input] := by
  refine ⟨fun n => ?_, Nat.lt_irrefl _, fun n hn => ?_, fun n hn => ?_, ?_, ?_⟩
  · cases n <;> simp [addFanOut, Has]
    omega
  · cases n with
    | fanOut i => simp only [addFanOut, inputsOf, List.getElem?_append_left hn]
    | _ => rfl
  · cases n with
    | fanOut i => simp only [addFanOut, outputsOf, List.getElem?_append_left hn]
    | _ => rfl
  · simp [addFanOut, inputsOf]
  · simp [addFanOut, outputsOf]

theorem addFanIn_added (g : PlannerGraph) (inputs : List NodeId) :
    Added g (g.addFanIn ⟨.fi, inputs⟩).2 (g.addFanIn ⟨.fi, inputs⟩).1 inputs := by
  refine ⟨fun n => ?_, Nat.lt_irrefl _, fun n hn => ?_, fun n hn => ?_, ?_, rfl⟩
  · cases n <;> simp [addFanIn, Has]
    omega
  · cases n with
    | fanIn i => simp only [addFanIn, inputsOf, List.getElem?_append_left hn]
    | _ => rfl
  · cases n <;> rfl
  · simp [addFanIn, inputsOf]

/-- The ends of the branches are wired to a fan-in: those that are joins get it as their output. -/
theorem wireAll (target : NodeId) (ends : List NodeId) : ∀ g : PlannerGraph,
    Grown g (ends.foldl (fun g s => g.wireOutput s target) g) ends [] ∧
      (∀ n, (ends.foldl (fun g s => g.wireOutput s target) g).inputsOf n = g.inputsOf n) ∧
      (∀ n, (ends.foldl (fun g s => g.wireOutput s target) g).Has n → g.Has n) ∧
      ∀ i, .join i ∈ ends → g.Has (.join i) → (ends.foldl (fun g s => g.wireOutput s target) g).outputsOf (.join i) = [target] := by
  induction ends with
  | nil => exact fun g => ⟨.refl g [], fun _ => rfl, fun _ => id, fun i hi => by cases hi⟩
  | cons s ends ih =>
    intro g
    obtain ⟨hgrown, hin, hhas, hjoin⟩ := ih (g.wireOutput s target)
    refine ⟨((wireOutput_grown g s target).weaken (by simp)).trans (hgrown.weaken (List.subset_cons_self s ends)) fun a => Or.inl,
      fun n => (hin n).trans (wireOutput_inputs g s target n), fun n hn => (wireOutput_has g s target n).mp (hhas n hn), ?_⟩
    intro i hi hg
    have hi' := (wireOutput_has g s target (.join i)).mpr hg
    by_cases hrest : .join i ∈ ends
    · exact hjoin i hrest hi'
    · obtain rfl : .join i = s := (List.mem_cons.mp hi).resolve_right hrest
      exact (hgrown.outputs _ hi' hrest).trans (wireOutput_join target hg)

end

/-! ## The branches of an OR -/

/-- Chains of blocks were added behind a fan-out, and for each the fan-out got its tips as outputs. -/
structure Branched (g g' : PlannerGraph) (fanOut : Nat) (ends : List NodeId) (brs : List (List Block)) : Prop where
  has : ∀ n, g.Has n → g'.Has n
  inputs : ∀ n, g.Has n → g'.inputsOf n = g.inputsOf n
  within : ∀ n, New g g' n → ∀ a ∈ g'.inputsOf n, a = .fanOut fanOut ∨ New g g' a
  outputs : ∀ n, g.Has n → n ≠ .fanOut fanOut → g'.outputsOf n = g.outputsOf n
  tapped : g'.outputsOf (.fanOut fanOut) = g.outputsOf (.fanOut fanOut) ++ brs.flatMap tips
  leave : ∀ e ∈ ends, ∃ branch ∈ brs, ∃ b, branch.getLast? = some b ∧ e = b.exit
  ended : ∀ branch ∈ brs, ∃ b, branch.getLast? = some b ∧ b.exit ∈ ends
  new : ∀ n ∈ branchNodes brs, New g g' n
  nodup : (branchNodes brs).Nodup
  wired : ∀ branch ∈ brs, WiredChain g' (.fanOut fanOut) none branch
  apart : ∀ n, New g g' n → n ∈ branchNodes brs ∨
    ∃ S : NodeId → Prop, S n ∧ (∀ m, S m → New g g' m) ∧ ∀ m, S m → ∀ a ∈ g'.inputsOf m, S a

theorem Branched.nil (g : PlannerGraph) (fanOut : Nat) : Branched g g fanOut [] [] := by
  refine ⟨fun _ h => h, fun _ _ => rfl, fun n h => absurd h.1 h.2, fun _ _ _ => rfl, (List.append_nil _).symm,
    fun _ he => (by cases he), fun _ hb => (by cases hb), fun n hn => (by cases hn), List.nodup_nil, fun _ hb => (by cases hb),
    fun n h => absurd h.1 h.2⟩

section
variable {g g₁ g₂ : PlannerGraph} {fanOut : Nat} {last : NodeId} {ends : List NodeId} {branch : List Block} {brs : List (List Block)}

theorem Branched.grown (h : Branched g g₁ fanOut ends brs) : Grown g g₁ [.fanOut fanOut] (branchNodes brs) :=
  ⟨h.has, h.inputs, fun n hn a ha => (h.within n hn a ha).imp_left List.mem_singleton.mpr,
    fun n hn hne => h.outputs n hn (mt List.mem_singleton.mpr hne), h.new, h.nodup, h.apart⟩

/-- What is added for the branches behind the first, the wire to it included. -/
theorem Branched.rest (h' : Branched (g₁.addOutput (.fanOut fanOut) last) g₂ fanOut ends brs) :
    Grown g₁ g₂ [.fanOut fanOut] (branchNodes brs) :=
  (wireOutput_grown g₁ (.fanOut fanOut) last).trans h'.grown fun _ => Or.inl

/-- One more branch, in front. -/
theorem Branched.cons (h : Chained g g₁ (.fanOut fanOut) last branch) (hsome : branch ≠ [])
    (h' : Branched (g₁.addOutput (.fanOut fanOut) last) g₂ fanOut ends brs) (hg : g.Has (.fanOut fanOut)) :
    Branched g g₂ fanOut (last :: ends) (branch :: brs) := by
  have hrest := h'.rest
  have hgrown := h.grown.trans hrest fun _ => Or.inl
  obtain ⟨b, hb, hexit⟩ : ∃ b, branch.getLast? = some b ∧ last = b.exit := by
    rcases h.end_cases with ⟨hnil, -⟩ | ⟨b, hb, hexit, -⟩
    · exact absurd hnil hsome
    · exact ⟨b, hb, hexit⟩
  refine ⟨hgrown.has, hgrown.inputs, fun n hn a ha => (hgrown.within n hn a ha).imp_left List.mem_singleton.mp,
    fun n hn hne => hgrown.outputs n hn (mt List.mem_singleton.mp hne), ?_, ?_, ?_, hgrown.new, hgrown.nodup, ?_, hgrown.apart⟩
  · have htapped : (g₁.addOutput (.fanOut fanOut) last).outputsOf (.fanOut fanOut) = g₁.outputsOf (.fanOut fanOut) ++ [last] :=
      wireOutput_fanOut last (h.has _ hg)
    rw [h'.tapped, htapped, h.tapped trivial, List.flatMap_cons, tips, hb, hexit]
    simp
  · intro e he
    rcases List.mem_cons.mp he with rfl | he
    · exact ⟨branch, List.mem_cons_self, b, hb, hexit⟩
    · obtain ⟨br, hbr, hlast⟩ := h'.leave e he
      exact ⟨br, List.mem_cons_of_mem _ hbr, hlast⟩
  · intro br hbr
    rcases List.mem_cons.mp hbr with rfl | hbr
    · exact ⟨b, hb, List.mem_cons.mpr (Or.inl hexit.symm)⟩
    · obtain ⟨b', hb', hmem⟩ := h'.ended br hbr
      exact ⟨b', hb', List.mem_cons_of_mem _ hmem⟩
  · intro br hbr
    rcases List.mem_cons.mp hbr with rfl | hbr
    · refine h.wired.same (fun n hn => hrest.inputs n (h.new n hn).1) fun n hn => hrest.outputs n (h.new n hn).1 fun heq => ?_
      exact (h.new n hn).2 (List.mem_singleton.mp heq ▸ hg)
    · exact h'.wired br hbr

end

/-! ## An OR, and an EXISTS -/

/-- A node is in one branch only. -/
theorem branch_unique {brs : List (List Block)} (hnodup : (branchNodes brs).Nodup) {n : NodeId} {branch branch' : List Block}
    (hb : branch ∈ brs) (hb' : branch' ∈ brs) (hn : n ∈ chainNodes branch) (hn' : n ∈ chainNodes branch') : branch = branch' := by
  induction brs with
  | nil => cases hb
  | cons br brs ih =>
    rw [branchNodes] at hnodup
    have hdisjoint := List.disjoint_of_nodup_append hnodup
    rcases List.mem_cons.mp hb with rfl | hm
    · rcases List.mem_cons.mp hb' with rfl | hm'
      · rfl
      · exact absurd (mem_branchNodes.mpr ⟨branch', hm', hn'⟩) (hdisjoint hn)
    · rcases List.mem_cons.mp hb' with rfl | hm'
      · exact absurd (mem_branchNodes.mpr ⟨branch, hm, hn⟩) (hdisjoint hn')
      · exact ih (hnodup.sublist (List.sublist_append_right _ _)) hm hm'

section
variable {g g₁ g₂ g₃ g₄ : PlannerGraph} {source last : NodeId} {ends : List NodeId} {brs : List (List Block)}

/-- A fan: a fan-out behind a node, its branches, and a fan-in behind their ends. -/
theorem fan_chained {fanOut fanIn : Nat} {conditions : List Condition} (hs : g.Wirable source)
    (hfo : Added g g₁ (.fanOut fanOut) [source]) (hbr : Branched (g₁.wireOutput source (.fanOut fanOut)) g₂ fanOut ends brs)
    (hfi : Added g₂ g₃ (.fanIn fanIn) ends) (hsome : brs ≠ []) (hlabels : brs.map (·.map Block.condition) = chains conditions) :
    Chained g (ends.foldl (fun g s => g.wireOutput s (.fanIn fanIn)) g₃) source (.fanIn fanIn) [.fan fanOut fanIn conditions brs] := by
  have hsource : source ≠ .fanOut fanOut := fun heq => hfo.fresh (heq ▸ hs.has)
  have hend_mem : ∀ e ∈ ends, e ∈ branchNodes brs := by
    intro e he
    obtain ⟨branch, hbranch, b, hb, rfl⟩ := hbr.leave e he
    exact mem_branchNodes.mpr ⟨branch, hbranch, last_mem hb⟩
  -- the fan-out and its wire, the branches, the fan-in and its wires
  have hout := hfo.grown.trans (wireOutput_grown g₁ source (.fanOut fanOut)) fun _ => Or.inl
  have hmid := hout.trans hbr.grown fun a ha => Or.inr (hout.new a ha)
  obtain ⟨hwires, hin, -, hjoin⟩ := wireAll (.fanIn fanIn) ends g₃
  have hrest := hfi.grown.trans hwires fun _ => Or.inl
  have hall := hmid.trans hrest fun a ha => Or.inr (hmid.new a (List.mem_append_right _ (hend_mem a ha)))
  have hnew : ∀ n, (g₁.wireOutput source (.fanOut fanOut)).Has n → g₂.Has n ∧ n ∉ ends := fun n hn =>
    ⟨hbr.has n hn, fun he => (hbr.new n (hend_mem n he)).2 hn⟩
  have hfo₁ := hnew (.fanOut fanOut) (hout.new _ (by simp)).1
  have hin_fo : (ends.foldl (fun g s => g.wireOutput s (.fanIn fanIn)) g₃).inputsOf (.fanOut fanOut) = [source] := by
    rw [hrest.inputs _ hfo₁.1, hbr.inputs _ (hout.new _ (by simp)).1, wireOutput_inputs, hfo.ins]
  have hin_fi : (ends.foldl (fun g s => g.wireOutput s (.fanIn fanIn)) g₃).inputsOf (.fanIn fanIn) = ends := (hin _).trans hfi.ins
  have hperm : ([NodeId.fanOut fanOut] ++ [] ++ branchNodes brs ++ ([NodeId.fanIn fanIn] ++ [])).Perm
      (chainNodes [.fan fanOut fanIn conditions brs]) := by
    rw [chainNodes, chainNodes, List.append_nil, Block.nodes, List.append_nil, List.append_nil, List.append_assoc]
    exact show (NodeId.fanOut fanOut :: (branchNodes brs ++ [NodeId.fanIn fanIn])).Perm _ from List.perm_append_comm.cons _
  refine (hall.perm hperm).chained ?_ rfl ?_
  · intro hsend
    have hready : g₁.Wirable source := by
      refine ⟨(hfo.has _).mpr (Or.inl hs.has), fun i hi => ?_⟩
      rw [hfo.outputs _ hs.has]
      exact hs.free i hi
    have hold := hnew source (hout.has _ hs.has)
    rw [hrest.outputs _ hold.1 hold.2, hbr.outputs _ (hout.has _ hs.has) hsource, wireOutput_ready _ hready hsend,
      hfo.outputs _ hs.has]
    rfl
  · rw [WiredChain, WiredChain, Wired, hin_fo, wiredBranches_iff, hin_fi]
    refine ⟨⟨?_, List.mem_singleton.mpr rfl, hlabels, hsome, fun branch hbranch => ?_⟩, trivial⟩
    · rw [hrest.outputs _ hfo₁.1 hfo₁.2, hbr.tapped, wireOutput_outputs _ hsource.symm, hfo.outs, List.nil_append]
    · obtain ⟨b, hb, hmem⟩ := hbr.ended branch hbranch
      have hin_branch : ∀ n ∈ chainNodes branch, g₂.Has n := fun n hn => (hbr.new n (mem_branchNodes.mpr ⟨branch, hbranch, hn⟩)).1
      refine ⟨⟨b, hb, hmem⟩, (hbr.wired branch hbranch).link hb ?_ (fun n hn => hrest.inputs n (hin_branch n hn)) ?_ ?_⟩
      · obtain ⟨front, back, rfl⟩ := List.append_of_mem hbranch
        have := hbr.nodup
        rw [branchNodes_append, branchNodes] at this
        exact ((List.nodup_append.mp this).2.1).sublist (List.sublist_append_left _ _)
      · intro n hn hne
        refine hrest.outputs n (hin_branch n hn) fun he => ?_
        obtain ⟨branch', hbranch', b', hb', rfl⟩ := hbr.leave n he
        obtain rfl := branch_unique hbr.nodup hbranch hbranch' hn (last_mem hb')
        rw [hb] at hb'
        cases hb'
        exact hne rfl
      · intro i c hi
        subst hi
        exact hjoin i hmem ((hfi.has _).mpr (Or.inl (hbr.new _ (hend_mem _ hmem)).1))

/-- A join: the connection of its child, the chain of the child's condition, and the join behind both. -/
theorem join_chained {child childEnd : NodeId} {i : Nat} {c : Condition} {bs : List Block} (hs : g.Wirable source)
    (hc : Added g g₁ child []) (hchild : Chained g₁ g₂ child childEnd bs) (hwirable : g₁.Wirable child)
    (hj : Added g₂ g₃ (.join i) [source, childEnd]) (hexists : ∃ related flags, c = .correlatedSubquery related flags) :
    Chained g ((g₃.wireOutput source (.join i)).wireOutput childEnd (.join i)) source (.join i) [.join i c] := by
  have hpart := hc.grown.trans hchild.grown fun a ha => Or.inr (hc.grown.new a ha)
  have hwire₁ : Grown g₃ (g₃.wireOutput source (.join i)) [source, childEnd] [] := (wireOutput_grown g₃ source (.join i)).weaken (by simp)
  have hwire₂ : Grown (g₃.wireOutput source (.join i)) ((g₃.wireOutput source (.join i)).wireOutput childEnd (.join i))
    [source, childEnd] [] := (wireOutput_grown _ childEnd (.join i)).weaken (by simp)
  have hrest := (hj.grown.trans hwire₁ fun _ => Or.inl).trans hwire₂ fun _ => Or.inl
  have hend : New g g₂ childEnd := by
    rcases hchild.end_cases with ⟨-, rfl⟩ | ⟨-, -, -, hnew⟩
    · exact ⟨hchild.has _ hwirable.has, hc.fresh⟩
    · exact ⟨hnew.1, fun ho => hnew.2 (hc.grown.has _ ho)⟩
  -- the child's part feeds on nothing outside it
  have hall := (hpart.hidden.weaken (List.nil_subset [source])).trans hrest fun a ha => by
    rcases List.mem_cons.mp ha with rfl | ha
    · exact Or.inl (List.mem_singleton.mpr rfl)
    · rw [List.mem_singleton.mp ha]
      exact Or.inr hend
  have hne_end : ∀ n, g.Has n → n ≠ childEnd := fun n hn heq => hend.2 (heq ▸ hn)
  have hall : Grown g ((g₃.wireOutput source (.join i)).wireOutput childEnd (.join i)) [source] (chainNodes [.join i c]) := hall
  refine hall.chained ?_ rfl ?_
  · intro hsend
    have hsame : g₃.outputsOf source = g.outputsOf source := by
      rw [hj.outputs _ (hpart.has _ hs.has), hpart.outputs _ hs.has List.not_mem_nil]
    have hready : g₃.Wirable source := by
      refine ⟨(hj.has _).mpr (Or.inl (hpart.has _ hs.has)), fun j hj => ?_⟩
      rw [hsame]
      exact hs.free j hj
    rw [wireOutput_outputs _ (hne_end _ hs.has), wireOutput_ready _ hready hsend, hsame]
    rfl
  · have hin_join : ((g₃.wireOutput source (.join i)).wireOutput childEnd (.join i)).inputsOf (.join i) = [source, childEnd] := by
      rw [wireOutput_inputs, wireOutput_inputs, hj.ins]
    rw [WiredChain, WiredChain, Wired, hin_join]
    refine ⟨⟨hexists, ?_, List.mem_cons_self⟩, trivial⟩
    have hne₁ : NodeId.join i ≠ childEnd := fun heq => hj.fresh (heq ▸ hend.1)
    have hne₂ : NodeId.join i ≠ source := fun heq => hj.fresh (heq ▸ hpart.has _ hs.has)
    rw [wireOutput_outputs _ hne₁, wireOutput_outputs _ hne₂, hj.outs]
    rfl

end

end PlannerGraph

/-! ## The fans, as they are created -/

/-- A fan-out, the fan-in created with it, and their OR. -/
structure FanRecord where
  fanOut : Nat
  fanIn : Nat
  conditions : List Condition

def FanRecord.pair (p : FanRecord) : Nat × Nat := (p.fanOut, p.fanIn)

def FanRecord.block (p : FanRecord) (branches : List (List Block)) : Block := .fan p.fanOut p.fanIn p.conditions branches

mutual

/-- The fans that `processCondition` creates. -/
def fansOf (path : List Nat) : Condition → NodeId → Builder → List FanRecord
  | .simple _, _, _ => []
  | .and conditions, input, b => fansAnd path 0 conditions input b
  | .or conditions, input, b =>
    if !anyCorrelatedSubquery conditions then []
    else
      let (fanOut, b') := b.fanOut input
      let (_, b'') := processBranches path 0 conditions fanOut b'
      ⟨b.graph.fanOuts.length, b''.graph.fanIns.length, conditions⟩ :: fansBranches path 0 conditions fanOut b'
  | .correlatedSubquery ⟨_, child, _⟩ flags, _, b =>
    let (childConnection, b) := b.connectChild child flags.op
    fansChild (path ++ [0]) child childConnection b

def fansAnd (path : List Nat) (i : Nat) : List Condition → NodeId → Builder → List FanRecord
  | [], _, _ => []
  | c :: conditions, input, b =>
    let (next, b') := processCondition (path ++ [i]) c input b
    fansOf (path ++ [i]) c input b ++ fansAnd path (i + 1) conditions next b'

def fansBranches (path : List Nat) (i : Nat) : List Condition → NodeId → Builder → List FanRecord
  | [], _, _ => []
  | c :: conditions, fanOut, b =>
    if hasCorrelatedSubquery c then
      let (branch, b') := processCondition (path ++ [i]) c fanOut b
      fansOf (path ++ [i]) c fanOut b ++
        fansBranches path (i + 1) conditions fanOut { b' with graph := b'.graph.addOutput fanOut branch }
    else fansBranches path (i + 1) conditions fanOut b

def fansChild (path : List Nat) : Ast → NodeId → Builder → List FanRecord
  | .mk _ (some w) _ _, input, b => fansOf path w input b
  | .mk _ none _ _, _, _ => []

end

mutual

/-- The ORs of a condition that hold an EXISTS. -/
def orsIn : Condition → List (List Condition)
  | .simple _ => []
  | .and conditions => orsFrom conditions
  | .or conditions => if anyCorrelatedSubquery conditions then conditions :: orsFrom conditions else []
  | .correlatedSubquery ⟨_, child, _⟩ _ => orsUnder child

def orsFrom : List Condition → List (List Condition)
  | [] => []
  | c :: conditions => orsIn c ++ orsFrom conditions

def orsUnder : Ast → List (List Condition)
  | .mk _ (some w) _ _ => orsIn w
  | .mk _ none _ _ => []

end

mutual

theorem orsIn_nil : ∀ {c : Condition}, hasCorrelatedSubquery c = false → orsIn c = []
  | .simple _, _ => rfl
  | .and _, h => orsFrom_nil h
  | .or _, h => by
    rw [hasCorrelatedSubquery] at h
    rw [orsIn, h]
    rfl
  | .correlatedSubquery _ _, h => by cases h

theorem orsFrom_nil : ∀ {conditions : List Condition}, anyCorrelatedSubquery conditions = false → orsFrom conditions = []
  | [], _ => rfl
  | _ :: _, h => by
    simp only [anyCorrelatedSubquery, Bool.or_eq_false_iff] at h
    rw [orsFrom, orsIn_nil h.1, orsFrom_nil h.2]
    rfl

end

mutual

/-- A fan for every OR. -/
theorem fansOf_conditions (path : List Nat) : ∀ (c : Condition) (input : NodeId) (b : Builder),
    (fansOf path c input b).map (·.conditions) = orsIn c
  | .simple _, _, _ => rfl
  | .and conditions, input, b => fansAnd_conditions path 0 conditions input b
  | .or conditions, input, b => by
    rw [fansOf, orsIn]
    by_cases h : anyCorrelatedSubquery conditions = true
    · rw [h, if_neg (by simp), if_pos rfl]
      exact congrArg (conditions :: ·) (fansBranches_conditions path 0 conditions (b.fanOut input).1 (b.fanOut input).2)
    · rw [Bool.not_eq_true] at h
      rw [h]
      rfl
  | .correlatedSubquery ⟨_, child, _⟩ flags, _, b => fansChild_conditions (path ++ [0]) child _ (b.connectChild child flags.op).2

theorem fansAnd_conditions (path : List Nat) (i : Nat) : ∀ (conditions : List Condition) (input : NodeId) (b : Builder),
    (fansAnd path i conditions input b).map (·.conditions) = orsFrom conditions
  | [], _, _ => rfl
  | c :: conditions, input, b => by
    rw [fansAnd, orsFrom, List.map_append, fansOf_conditions, fansAnd_conditions]

theorem fansBranches_conditions (path : List Nat) (i : Nat) : ∀ (conditions : List Condition) (fanOut : NodeId) (b : Builder),
    (fansBranches path i conditions fanOut b).map (·.conditions) = orsFrom conditions
  | [], _, _ => rfl
  | c :: conditions, fanOut, b => by
    rw [fansBranches, orsFrom]
    by_cases h : hasCorrelatedSubquery c = true
    · rw [if_pos h, List.map_append, fansOf_conditions, fansBranches_conditions]
    · rw [if_neg h, orsIn_nil (by simpa using h), fansBranches_conditions]
      rfl

theorem fansChild_conditions (path : List Nat) : ∀ (child : Ast) (input : NodeId) (b : Builder),
    (fansChild path child input b).map (·.conditions) = orsUnder child
  | .mk _ (some w) _ _, input, b => fansOf_conditions path w input b
  | .mk _ none _ _, _, _ => rfl

end

namespace PlannerGraph

/-- A fan stands in the graph: it is wired, and holds every join on a path across it. -/
structure Standing (g : PlannerGraph) (p : FanRecord) (branches : List (List Block)) : Prop where
  wired : ∃ source, Wired g source none (p.block branches)
  nodup : (p.block branches).nodes.Nodup
  has : ∀ n ∈ (p.block branches).nodes, g.Has n
  between : ∀ i, g.Between p.fanOut p.fanIn i → .join i ∈ branchNodes branches

/-- The fans of a part that was added stand, the fans inside them are fans of it too, and none sends to the part's ends. -/
def Recorded (g g' : PlannerGraph) (fans : List FanRecord) (ends : List NodeId) : Prop :=
  ∀ p ∈ fans, ∃ branches, Standing g' p branches ∧ (∀ q ∈ branchFans branches, ∃ r ∈ fans, r.pair = q) ∧
    ∀ n ∈ (p.block branches).nodes, New g g' n ∧ (Sends n → n ∉ ends)

section
variable {g g₁ g₂ : PlannerGraph} {fans fans' : List FanRecord} {ends ends' : List NodeId}

/-- A fan stands as long as the edges of its nodes stay. -/
theorem Standing.keep {p : FanRecord} {branches : List (List Block)} (h : Standing g₁ p branches) (hclosed : g₁.Closed)
    (hhas : ∀ n, g₁.Has n → g₂.Has n) (hin : ∀ n, g₁.Has n → g₂.inputsOf n = g₁.inputsOf n)
    (hout : ∀ n ∈ (p.block branches).nodes, g₂.outputsOf n = g₁.outputsOf n) : Standing g₂ p branches := by
  obtain ⟨source, hwired⟩ := h.wired
  refine ⟨⟨source, hwired.same (fun n hn => hin n (h.has n hn)) hout⟩, h.nodup, fun n hn => hhas n (h.has n hn), fun i hi => ?_⟩
  have hfan : g₁.Has (.fanIn p.fanIn) := h.has _ (p.block branches).exit_mem
  have hafter := before_old hin hclosed hfan hi.2
  exact h.between i ⟨(before_old hin hclosed hafter.2 hi.1).1, hafter.1⟩

theorem Recorded.keep {taps ns : List NodeId} (h : Recorded g g₁ fans ends) (hclosed : g₁.Closed) (hgrown : Grown g₁ g₂ taps ns)
    (htaps : ∀ n, New g g₁ n → n ∉ ends → n ∉ taps) (hends : ∀ n, New g g₁ n → n ∉ ends → n ∉ ends') : Recorded g g₂ fans ends' := by
  intro p hp
  obtain ⟨branches, hstands, hinner, hnodes⟩ := h p hp
  refine ⟨branches, hstands.keep hclosed hgrown.has hgrown.inputs fun n hn => ?_, hinner, fun n hn => ?_⟩
  · obtain ⟨hnew, hfree⟩ := hnodes n hn
    by_cases hsend : Sends n
    · exact hgrown.outputs n hnew.1 (htaps n hnew (hfree hsend))
    · rw [outputsOf_of_not_sends hsend, outputsOf_of_not_sends hsend]
  · obtain ⟨hnew, hfree⟩ := hnodes n hn
    exact ⟨⟨hgrown.has n hnew.1, hnew.2⟩, fun hsend => hends n hnew (hfree hsend)⟩

theorem Recorded.mono (h : Recorded g₁ g₂ fans ends) (hhas : ∀ n, g.Has n → g₁.Has n)
    (hends : ∀ n, New g₁ g₂ n → n ∉ ends → n ∉ ends') : Recorded g g₂ fans ends' := by
  intro p hp
  obtain ⟨branches, hstands, hinner, hnodes⟩ := h p hp
  refine ⟨branches, hstands, hinner, fun n hn => ?_⟩
  obtain ⟨hnew, hfree⟩ := hnodes n hn
  exact ⟨⟨hnew.1, fun ho => hnew.2 (hhas n ho)⟩, fun hsend => hends n hnew (hfree hsend)⟩

theorem found_left {P : FanRecord → Prop} (h : ∃ p ∈ fans, P p) : ∃ p ∈ fans ++ fans', P p :=
  h.imp fun _ hp => ⟨List.mem_append_left _ hp.1, hp.2⟩

theorem found_right {P : FanRecord → Prop} (h : ∃ p ∈ fans', P p) : ∃ p ∈ fans ++ fans', P p :=
  h.imp fun _ hp => ⟨List.mem_append_right _ hp.1, hp.2⟩

theorem Recorded.append (h : Recorded g g₁ fans ends) (h' : Recorded g g₁ fans' ends) : Recorded g g₁ (fans ++ fans') ends := by
  intro p hp
  rcases List.mem_append.mp hp with hp | hp
  · obtain ⟨branches, hstands, hinner, hnodes⟩ := h p hp
    exact ⟨branches, hstands, fun q hq => found_left (hinner q hq), hnodes⟩
  · obtain ⟨branches, hstands, hinner, hnodes⟩ := h' p hp
    exact ⟨branches, hstands, fun q hq => found_right (hinner q hq), hnodes⟩

/-- The fan-outs of two parts are recorded, those of each with it. -/
theorem covers_append (h : ∀ i, New g g₁ (.fanOut i) → ∃ p ∈ fans, p.fanOut = i)
    (h' : ∀ i, New g₁ g₂ (.fanOut i) → ∃ p ∈ fans', p.fanOut = i) (i : Nat) (hi : New g g₂ (.fanOut i)) :
    ∃ p ∈ fans ++ fans', p.fanOut = i := by
  by_cases hmid : g₁.Has (.fanOut i)
  · exact found_left (h i ⟨hmid, hi.2⟩)
  · exact found_right (h' i ⟨hi.1, hmid⟩)

theorem chainFans_append (bs bs' : List Block) : chainFans (bs ++ bs') = chainFans bs ++ chainFans bs' := by
  induction bs with
  | nil => rfl
  | cons b bs ih => rw [List.cons_append, chainFans, chainFans, ih, List.append_assoc]

theorem inner_append {l l' : List (Nat × Nat)} (h : ∀ q ∈ l, ∃ p ∈ fans, p.pair = q) (h' : ∀ q ∈ l', ∃ p ∈ fans', p.pair = q) :
    ∀ q ∈ l ++ l', ∃ p ∈ fans ++ fans', p.pair = q := by
  intro q hq
  rcases List.mem_append.mp hq with hq | hq
  · exact found_left (h q hq)
  · exact found_right (h' q hq)

end

/-- What a condition adds: a chain, and the fans in it and in the children of its joins. -/
structure Builds (g g' : PlannerGraph) (fans : List FanRecord) (source last : NodeId) (bs : List Block) : Prop where
  chained : Chained g g' source last bs
  records : Recorded g g' fans [last]
  covers : ∀ i, New g g' (.fanOut i) → ∃ p ∈ fans, p.fanOut = i
  inner : ∀ q ∈ chainFans bs, ∃ p ∈ fans, p.pair = q

/-- What the branches of an OR add. -/
structure BuildsBranches (g g' : PlannerGraph) (fans : List FanRecord) (fanOut : Nat) (ends : List NodeId) (brs : List (List Block)) :
    Prop where
  branched : Branched g g' fanOut ends brs
  records : Recorded g g' fans ends
  covers : ∀ i, New g g' (.fanOut i) → ∃ p ∈ fans, p.fanOut = i
  inner : ∀ q ∈ branchFans brs, ∃ p ∈ fans, p.pair = q

section
variable {g g₁ g₂ : PlannerGraph} {fans fans' : List FanRecord} {source mid last : NodeId} {bs bs' : List Block}

theorem Builds.refl (g : PlannerGraph) (source : NodeId) : Builds g g [] source source [] :=
  ⟨.refl g source, fun p hp => (by cases hp), fun _ h => absurd h.1 h.2, fun q hq => (by cases hq)⟩

theorem Builds.trans (h : Builds g g₁ fans source mid bs) (h' : Builds g₁ g₂ fans' mid last bs') (hclosed : g.Closed)
    (hs : g.Wirable source) : Builds g g₂ (fans ++ fans') source last (bs ++ bs') := by
  refine ⟨h.chained.trans h'.chained hs, ?_, covers_append h.covers h'.covers, ?_⟩
  · refine (h.records.keep (h.chained.closed hclosed hs.has) h'.chained.grown (fun _ _ hne => hne) ?_).append
      (h'.records.mono h.chained.has fun _ _ hn => hn)
    intro n hn hne hl
    rw [List.mem_singleton] at hne hl
    rcases h'.chained.end_cases with ⟨-, heq⟩ | ⟨-, -, -, hnew⟩
    · exact hne (hl.trans heq)
    · exact hnew.2 (hl ▸ hn.1)
  · rw [chainFans_append]
    exact inner_append h.inner h'.inner

theorem BuildsBranches.nil (g : PlannerGraph) (fanOut : Nat) : BuildsBranches g g [] fanOut [] [] :=
  ⟨.nil g fanOut, fun p hp => (by cases hp), fun _ h => absurd h.1 h.2, fun q hq => (by cases hq)⟩

theorem BuildsBranches.cons {fanOut : Nat} {ends : List NodeId} {branch : List Block} {brs : List (List Block)}
    (h : Builds g g₁ fans (.fanOut fanOut) last branch) (hsome : branch ≠ [])
    (h' : BuildsBranches (g₁.addOutput (.fanOut fanOut) last) g₂ fans' fanOut ends brs) (hclosed : g.Closed)
    (hg : g.Has (.fanOut fanOut)) : BuildsBranches g g₂ (fans ++ fans') fanOut (last :: ends) (branch :: brs) := by
  have hrest := h'.branched.rest
  have hhas : ∀ n, (g₁.addOutput (.fanOut fanOut) last).Has n ↔ g₁.Has n := wireOutput_has g₁ (.fanOut fanOut) last
  have hlast : g₁.Has last := by
    rcases h.chained.end_cases with ⟨hnil, -⟩ | ⟨-, -, -, hnew⟩
    · exact absurd hnil hsome
    · exact hnew.1
  have hends : ∀ e ∈ ends, ¬g₁.Has e := by
    intro e he ho
    obtain ⟨br, hbr, b, hb, rfl⟩ := h'.branched.leave e he
    exact (h'.branched.new _ (mem_branchNodes.mpr ⟨br, hbr, last_mem hb⟩)).2 ((hhas _).mpr ho)
  refine ⟨.cons h.chained hsome h'.branched hg, ?_, covers_append h.covers fun i hi => h'.covers i ⟨hi.1, mt (hhas _).mp hi.2⟩, ?_⟩
  · refine (h.records.keep (h.chained.closed hclosed hg) hrest ?_ ?_).append
      (h'.records.mono (fun n hn => (hhas n).mpr (h.chained.has n hn)) ?_)
    · intro n hn _ htap
      exact hn.2 (List.mem_singleton.mp htap ▸ hg)
    · intro n hn hne hm
      rcases List.mem_cons.mp hm with rfl | hm
      · exact hne (List.mem_singleton.mpr rfl)
      · exact hends n hm hn.1
    · intro n hn hne hm
      rcases List.mem_cons.mp hm with rfl | hm
      · exact hn.2 ((hhas _).mpr hlast)
      · exact hne hm
  · rw [branchFans]
    exact inner_append h.inner h'.inner

theorem fan_builds {g₃ : PlannerGraph} {fanOut fanIn : Nat} {conditions : List Condition} {ends : List NodeId} {brs : List (List Block)}
    (hs : g.Wirable source) (hclosed : g.Closed) (hfo : Added g g₁ (.fanOut fanOut) [source])
    (hbr : BuildsBranches (g₁.wireOutput source (.fanOut fanOut)) g₂ fans fanOut ends brs) (hfi : Added g₂ g₃ (.fanIn fanIn) ends)
    (hsome : brs ≠ []) (hlabels : brs.map (·.map Block.condition) = chains conditions) :
    Builds g (ends.foldl (fun g s => g.wireOutput s (.fanIn fanIn)) g₃) (⟨fanOut, fanIn, conditions⟩ :: fans) source (.fanIn fanIn)
      [.fan fanOut fanIn conditions brs] := by
  have hchained := fan_chained hs hfo hbr.branched hfi hsome hlabels
  obtain ⟨hwires, -, hhas, -⟩ := wireAll (.fanIn fanIn) ends g₃
  have hout := hfo.grown.trans (wireOutput_grown g₁ source (.fanOut fanOut)) fun _ => Or.inl
  have hfo_has : ∀ n, (g₁.wireOutput source (.fanOut fanOut)).Has n → g.Has n ∨ n = .fanOut fanOut := fun n hn =>
    (hfo.has n).mp ((wireOutput_has _ _ _ n).mp hn)
  have hclosed₂ : g₂.Closed := by
    refine hbr.branched.grown.closed (hout.closed hclosed fun a ha => List.mem_singleton.mp ha ▸ hs.has) fun a ha => ?_
    rw [List.mem_singleton.mp ha]
    exact (hout.new _ (by simp)).1
  have hrecords : Recorded g (ends.foldl (fun g s => g.wireOutput s (.fanIn fanIn)) g₃) fans [.fanIn fanIn] := by
    refine (hbr.records.keep hclosed₂ (hfi.grown.trans hwires fun _ => Or.inl) (fun _ _ hne => hne) ?_).mono hout.has fun _ _ hn => hn
    intro n hn _ hm
    exact hfi.fresh (List.mem_singleton.mp hm ▸ hn.1)
  have hnodes : chainNodes [.fan fanOut fanIn conditions brs] = (Block.fan fanOut fanIn conditions brs).nodes := by
    rw [chainNodes, chainNodes, List.append_nil]
  refine ⟨hchained, ?_, ?_, ?_⟩
  · intro p hp
    rcases List.mem_cons.mp hp with rfl | hp
    · refine ⟨brs, ⟨⟨source, ?_⟩, hnodes ▸ hchained.nodup, fun n hn => (hchained.new n (hnodes ▸ hn)).1, fun i hi =>
        hchained.between hclosed hs.has hi⟩, fun q hq => ?_, fun n hn => ⟨hchained.new n (hnodes ▸ hn), fun hsend hm => ?_⟩⟩
      · have := hchained.wired
        rw [WiredChain] at this
        exact this.1
      · exact (hbr.inner q hq).imp fun r hr => ⟨List.mem_cons_of_mem _ hr.1, hr.2⟩
      · rw [List.mem_singleton.mp hm] at hsend
        exact hsend
    · obtain ⟨branches, hstands, hinner, hfree⟩ := hrecords p hp
      exact ⟨branches, hstands, fun q hq => (hinner q hq).imp fun r hr => ⟨List.mem_cons_of_mem _ hr.1, hr.2⟩, hfree⟩
  · intro i hi
    have hi₂ : g₂.Has (.fanOut i) := by
      rcases (hfi.has _).mp (hhas _ hi.1) with h | h
      · exact h
      · cases h
    by_cases hi₁ : (g₁.wireOutput source (.fanOut fanOut)).Has (.fanOut i)
    · rcases hfo_has _ hi₁ with h | h
      · exact absurd h hi.2
      · cases h
        exact ⟨_, List.mem_cons_self, rfl⟩
    · obtain ⟨p, hp, heq⟩ := hbr.covers i ⟨hi₂, hi₁⟩
      exact ⟨p, List.mem_cons_of_mem _ hp, heq⟩
  · intro q hq
    rw [chainFans, chainFans, List.append_nil, Block.fans] at hq
    rcases List.mem_cons.mp hq with rfl | hq
    · exact ⟨_, List.mem_cons_self, rfl⟩
    · obtain ⟨r, hr, heq⟩ := hbr.inner q hq
      exact ⟨r, List.mem_cons_of_mem _ hr, heq⟩

theorem join_builds {g₃ : PlannerGraph} {child childEnd : NodeId} {i : Nat} {c : Condition} (hs : g.Wirable source) (hclosed : g.Closed)
    (hc : Added g g₁ child []) (hchild : Builds g₁ g₂ fans child childEnd bs) (hwirable : g₁.Wirable child)
    (hfree : ∀ i, child ≠ .fanOut i) (hj : Added g₂ g₃ (.join i) [source, childEnd])
    (hexists : ∃ related flags, c = .correlatedSubquery related flags) :
    Builds g ((g₃.wireOutput source (.join i)).wireOutput childEnd (.join i)) fans source (.join i) [.join i c] := by
  have hclosed₁ := hc.grown.closed hclosed fun a ha => (by cases ha)
  refine ⟨join_chained hs hc hchild.chained hwirable hj hexists, ?_, ?_, fun q hq => ?_⟩
  · have hwires := (hj.grown.weaken (List.subset_cons_of_subset source (List.Subset.refl _))).trans
      ((wireOutput_grown g₃ source (.join i)).weaken (by simp)) fun _ => Or.inl
    have hrest := hwires.trans ((wireOutput_grown _ childEnd (.join i)).weaken (by simp)) fun _ => Or.inl
    refine (hchild.records.keep (hchild.chained.closed hclosed₁ hwirable.has) hrest ?_ ?_).mono hc.grown.has fun _ _ hn => hn
    · intro n hn hne htap
      have hne' : n ≠ source := fun heq => hn.2 (hc.grown.has n (heq ▸ hs.has))
      simp only [List.mem_cons, List.not_mem_nil, or_false] at htap
      rcases htap with rfl | rfl | rfl
      · exact hne' rfl
      · exact hne' rfl
      · exact hne (List.mem_singleton.mpr rfl)
    · intro n hn _ hm
      exact hj.fresh (List.mem_singleton.mp hm ▸ hn.1)
  · intro k hk
    have hk₂ : g₂.Has (.fanOut k) := by
      rcases (hj.has _).mp ((wireOutput_has _ _ _ _).mp ((wireOutput_has _ _ _ _).mp hk.1)) with h | h
      · exact h
      · cases h
    refine hchild.covers k ⟨hk₂, fun ho => ?_⟩
    rcases (hc.has _).mp ho with h | h
    · exact hk.2 h
    · exact hfree k h.symm
  · rw [chainFans, chainFans, Block.fans] at hq
    cases hq

end

end PlannerGraph

open PlannerGraph

/-! ## The builder -/

/-- The tables that are known are no part of the wiring. -/
theorem PlannerGraph.Added.sources {g g' : PlannerGraph} {id : NodeId} {ins : List NodeId} {tables : List String}
    (h : Added { g with sources := tables } g' id ins) : Added g g' id ins := by
  refine ⟨fun n => ?_, ?_, fun n hn => ?_, fun n hn => ?_, h.ins, h.outs⟩
  · cases n <;> exact h.has _
  · cases id <;> exact h.fresh
  · cases n <;> exact h.inputs _ hn
  · cases n <;> exact h.outputs _ hn

theorem connectChild_added (b : Builder) (child : Ast) (op : ExistsOp) :
    Added b.graph (b.connectChild child op).2.graph (b.connectChild child op).1 [] := by
  unfold Builder.connectChild
  by_cases h : b.graph.sources.contains child.table = true
  · have hsource : b.source child.table = b := if_pos h
    rw [hsource]
    exact addConnection_added b.graph _
  · have hsource : b.source child.table = { b with graph := { b.graph with sources := b.graph.sources ++ [child.table] } } := if_neg h
    rw [hsource]
    exact (addConnection_added _ _).sources

theorem wirable_connection {b : Builder} {child : Ast} {op : ExistsOp} :
    (b.connectChild child op).2.graph.Wirable (b.connectChild child op).1 :=
  ⟨((connectChild_added b child op).has _).mpr (Or.inr rfl), fun _ hi => by cases hi⟩

mutual

/-- A condition has an EXISTS exactly when its chain is not empty. -/
theorem chain_ne_nil : ∀ (c : Condition), hasCorrelatedSubquery c = true → chain c ≠ []
  | .simple _, h => by cases h
  | .and conditions, h => chainAll_ne_nil conditions h
  | .or conditions, h => by
    rw [hasCorrelatedSubquery] at h
    rw [chain, if_pos h]
    exact List.cons_ne_nil _ _
  | .correlatedSubquery _ _, _ => List.cons_ne_nil _ _

theorem chainAll_ne_nil : ∀ (conditions : List Condition), anyCorrelatedSubquery conditions = true → chainAll conditions ≠ []
  | [], h => by cases h
  | c :: conditions, h => by
    rw [anyCorrelatedSubquery, Bool.or_eq_true] at h
    rw [chainAll, Ne, List.append_eq_nil_iff, not_and_or]
    exact h.imp (chain_ne_nil c) (chainAll_ne_nil conditions)

end

theorem anyCorrelatedSubquery_filter {conditions : List Condition} (h : anyCorrelatedSubquery conditions = true) :
    conditions.filter hasCorrelatedSubquery ≠ [] := by
  induction conditions with
  | nil => cases h
  | cons c conditions ih =>
    rw [anyCorrelatedSubquery] at h
    by_cases hc : hasCorrelatedSubquery c = true
    · rw [List.filter_cons_of_pos hc]
      exact List.cons_ne_nil _ _
    · rw [Bool.not_eq_true] at hc
      rw [hc, Bool.false_or] at h
      rw [List.filter_cons_of_neg (by simp [hc])]
      exact ih h

mutual

/-- A condition becomes the blocks of its chain. -/
theorem processCondition_builds (path : List Nat) : ∀ (c : Condition) (input : NodeId) (b : Builder), b.graph.Closed →
    b.graph.Wirable input → ∃ bs, Builds b.graph (processCondition path c input b).2.graph (fansOf path c input b) input
      (processCondition path c input b).1 bs ∧ bs.map Block.condition = chain c
  | .simple _, input, b, _, _ => ⟨[], .refl b.graph input, rfl⟩
  | .and conditions, input, b, hclosed, hs => processAnd_builds path 0 conditions input b hclosed hs
  | .or conditions, input, b, hclosed, hs => by
    rw [processCondition, fansOf, chain]
    by_cases h : anyCorrelatedSubquery conditions = true
    · rw [h, if_neg (by simp), if_neg (by simp), if_pos rfl]
      have hfo := addFanOut_added b.graph input
      have hhas : ∀ n, (b.fanOut input).2.graph.Has n ↔ b.graph.Has n ∨ n = (b.fanOut input).1 := fun n =>
        (wireOutput_has _ _ _ n).trans (hfo.has n)
      have hclosed₁ : (b.fanOut input).2.graph.Closed :=
        (hfo.grown.trans (wireOutput_grown _ input (b.fanOut input).1) fun _ => Or.inl).closed hclosed
          fun a ha => List.mem_singleton.mp ha ▸ hs.has
      obtain ⟨brs, hbr, hlabels⟩ := processBranches_builds path 0 conditions b.graph.fanOuts.length (b.fanOut input).2 hclosed₁
        ((hhas _).mpr (Or.inr rfl))
      have hsome : brs ≠ [] := by
        rintro rfl
        exact anyCorrelatedSubquery_filter h (List.map_eq_nil_iff.mp hlabels.symm)
      exact ⟨_, fan_builds hs hclosed hfo hbr (addFanIn_added _ _) hsome hlabels, rfl⟩
    · rw [Bool.not_eq_true] at h
      rw [h]
      exact ⟨[], .refl b.graph input, rfl⟩
  | .correlatedSubquery ⟨correlation, child, hidden⟩ flags, input, b, hclosed, hs => by
    have hc := connectChild_added b child flags.op
    have hclosed₁ := hc.grown.closed hclosed fun a ha => (by cases ha)
    obtain ⟨bs, hchild⟩ := processChild_builds (path ++ [0]) child (b.connectChild child flags.op).1 (b.connectChild child flags.op).2
      hclosed₁ wirable_connection
    exact ⟨_, join_builds hs hclosed hc hchild wirable_connection (fun _ h => by cases h) (addJoin_added _ rfl) ⟨_, _, rfl⟩, rfl⟩

theorem processAnd_builds (path : List Nat) (i : Nat) : ∀ (conditions : List Condition) (input : NodeId) (b : Builder),
    b.graph.Closed → b.graph.Wirable input → ∃ bs, Builds b.graph (processAnd path i conditions input b).2.graph
      (fansAnd path i conditions input b) input (processAnd path i conditions input b).1 bs ∧
        bs.map Block.condition = chainAll conditions
  | [], input, b, _, _ => ⟨[], .refl b.graph input, rfl⟩
  | c :: conditions, input, b, hclosed, hs => by
    obtain ⟨bs, hb, hlabels⟩ := processCondition_builds (path ++ [i]) c input b hclosed hs
    obtain ⟨bs', hb', hlabels'⟩ := processAnd_builds path (i + 1) conditions (processCondition (path ++ [i]) c input b).1
      (processCondition (path ++ [i]) c input b).2 (hb.chained.closed hclosed hs.has) (hb.chained.ready hs)
    exact ⟨bs ++ bs', hb.trans hb' hclosed hs, by rw [List.map_append, hlabels, hlabels']; rfl⟩

theorem processBranches_builds (path : List Nat) (i : Nat) : ∀ (conditions : List Condition) (fanOut : Nat) (b : Builder),
    b.graph.Closed → b.graph.Has (.fanOut fanOut) → ∃ brs, BuildsBranches b.graph
      (processBranches path i conditions (.fanOut fanOut) b).2.graph (fansBranches path i conditions (.fanOut fanOut) b) fanOut
        (processBranches path i conditions (.fanOut fanOut) b).1 brs ∧ brs.map (·.map Block.condition) = chains conditions
  | [], fanOut, b, _, _ => ⟨[], .nil b.graph fanOut, rfl⟩
  | c :: conditions, fanOut, b, hclosed, hg => by
    rw [processBranches, fansBranches, chains]
    by_cases h : hasCorrelatedSubquery c = true
    · rw [if_pos h, if_pos h, List.filter_cons_of_pos h, List.map_cons]
      have hs : b.graph.Wirable (.fanOut fanOut) := ⟨hg, fun _ hi => by cases hi⟩
      obtain ⟨branch, hb, hlabels⟩ := processCondition_builds (path ++ [i]) c (.fanOut fanOut) b hclosed hs
      have hsome : branch ≠ [] := by
        rintro rfl
        exact chain_ne_nil c h hlabels.symm
      have hclosed₁ := hb.chained.closed hclosed hg
      have hclosed₂ : ((processCondition (path ++ [i]) c (.fanOut fanOut) b).2.graph.addOutput (.fanOut fanOut)
          (processCondition (path ++ [i]) c (.fanOut fanOut) b).1).Closed :=
        (wireOutput_grown _ (.fanOut fanOut) _).closed hclosed₁ fun a ha => List.mem_singleton.mp ha ▸ hb.chained.has _ hg
      obtain ⟨brs, hbr, hlabels'⟩ := processBranches_builds path (i + 1) conditions fanOut
        { (processCondition (path ++ [i]) c (.fanOut fanOut) b).2 with
          graph := (processCondition (path ++ [i]) c (.fanOut fanOut) b).2.graph.addOutput (.fanOut fanOut)
            (processCondition (path ++ [i]) c (.fanOut fanOut) b).1 } hclosed₂
        ((wireOutput_has _ (.fanOut fanOut) _ _).mpr (hb.chained.has _ hg))
      exact ⟨branch :: brs, .cons hb hsome hbr hclosed hg, by rw [List.map_cons, hlabels, hlabels']; rfl⟩
    · rw [if_neg h, if_neg h, List.filter_cons_of_neg h]
      exact processBranches_builds path (i + 1) conditions fanOut b hclosed hg

theorem processChild_builds (path : List Nat) : ∀ (child : Ast) (input : NodeId) (b : Builder), b.graph.Closed →
    b.graph.Wirable input → ∃ bs, Builds b.graph (processChild path child input b).2.graph (fansChild path child input b) input
      (processChild path child input b).1 bs
  | .mk _ (some w) _ _, input, b, hclosed, hs => by
    obtain ⟨bs, hb, -⟩ := processCondition_builds path w input b hclosed hs
    exact ⟨bs, hb⟩
  | .mk _ none _ _, input, b, _, _ => ⟨[], .refl b.graph input⟩

end

end Rindle.Planner
