/-
  Rindle.Op.Exists — `EXISTS` and `NOT EXISTS` over a relationship (`rust/src/op/exists.rs`).

  A link of a filter chain: it counts the gated relationship on the node it is handed. On a
  fetch it gates each node, with a cache of the loop by the parent's join key. On a push it
  forwards what it keeps; a child added to or removed from the gated slot that makes the
  relationship non-empty or empty turns into the parent's addition or removal.

  `none` is a panic: the node lacks the gated relationship.

  Upstream is a level whose nodes are handed over complete and current (`Delivered`): the node
  of a child change as it is after the change, the node of a removal as it was, and an edit's
  node with the relationships the old one had. Then `Exists` is a gate (`pushChain_gate`) and
  over any run downstream holds the nodes it keeps.
-/

import Rindle.Keys
import Rindle.Op.Gate

set_option linter.dupNamespace false

namespace Rindle

structure Exists where
  rel : Nat
  not : Bool
  parentJoinKey : List Nat
  /-- The join key is the primary key: no two parents share a size. -/
  noSizeReuse : Bool

namespace Exists

def new (rel : Nat) (parentJoinKey : List Nat) (not : Bool) (primaryKey : List Nat) : Exists :=
  { rel, not, parentJoinKey, noSizeReuse := parentJoinKey == primaryKey }

/-! ## Sizes -/

def fetchSize (e : Exists) (n : Node) : Option Nat := (n.rels.find? fun r => r.1 == e.rel).map fun r => r.2.length

def fetchExists (e : Exists) (n : Node) : Option Bool := (e.fetchSize n).map fun size => decide (0 < size)

/-- `gate`: the size is counted unless it is known. -/
@[grind] def gate (e : Exists) (n : Node) (known : Option Bool) : Option Bool :=
  (match known with
    | some b => some b
    | none => e.fetchExists n).map fun b => e.not ^^ b

def cacheKey (e : Exists) (n : Node) : List UInt8 := encodeStateKey [] (e.parentJoinKey.map n.row.cell)

/-! ## Fetching -/

/-- `filter`, with the loop's cache. -/
def filter (e : Exists) (inPush : Bool) (cache : List (List UInt8 × Bool)) (n : Node) :
    Option (Bool × List (List UInt8 × Bool)) :=
  if !e.noSizeReuse && !inPush then
    match cache.lookup (e.cacheKey n) with
    | some b => (e.gate n (some b)).map fun pass => (pass, cache)
    | none =>
      match e.fetchExists n with
      | none => none
      | some b => (e.gate n (some b)).map fun pass => (pass, (e.cacheKey n, b) :: cache)
  else (e.gate n none).map fun pass => (pass, cache)

/-- The loop of `filter_start_fetch`. -/
def fetchFrom (e : Exists) (cache : List (List UInt8 × Bool)) : List Node → Option (List Node)
  | [] => some []
  | n :: rest =>
    match e.filter false cache n with
    | none => none
    | some (pass, cache') => (e.fetchFrom cache' rest).map fun kept => if pass then n :: kept else kept

/-- A whole fetch: the cache is empty before it and cleared after it. -/
def fetch (e : Exists) (nodes : List Node) : Option (List Node) := e.fetchFrom [] nodes

/-! ## Pushing -/

def forceRelSingle (n : Node) (slot : Nat) (child : Node) : Node :=
  .mk n.row ((n.rels.filter fun r => r.1 != slot) ++ [(slot, [child])])

def forceRelEmpty (n : Node) (slot : Nat) : Node := .mk n.row ((n.rels.filter fun r => r.1 != slot) ++ [(slot, [])])

/-- The node that the gate looks at: an edit's new one. -/
@[grind] def gated : Change → Node
  | .add n => n
  | .remove n => n
  | .edit n _ => n
  | .child n _ _ => n

/-- `push_with_filter`; `out` is the rest of the chain. -/
def pushWithFilter (e : Exists) (out : Change → List Change) (change : Change) (known : Option Bool) :
    Option (List Change) :=
  (e.gate (gated change) known).map fun pass => if pass then out change else []

/-- `push_chain`. -/
@[grind] def pushChain (e : Exists) (out : Change → List Change) : Change → Option (List Change)
  | .child n rel c =>
    if rel ≠ e.rel then e.pushWithFilter out (.child n rel c) none
    else
      match c with
      | .add m =>
        (e.fetchSize n).bind fun size =>
          if size = 1 then
            some (if e.not then out (.remove (forceRelEmpty n e.rel)) else out (.add n))
          else e.pushWithFilter out (.child n rel (.add m)) (some (decide (0 < size)))
      | .remove removed =>
        (e.fetchSize n).bind fun size =>
          if size = 0 then
            some (if e.not then out (.add n) else out (.remove (forceRelSingle n e.rel removed)))
          else e.pushWithFilter out (.child n rel (.remove removed)) (some (decide (0 < size)))
      | c => e.pushWithFilter out (.child n rel c) none
  | change => e.pushWithFilter out change none

/-- A run of pushes at the end of the chain. -/
def pushAll (e : Exists) (changes : List Change) : Option (List (List Change)) := changes.mapM (e.pushChain fun c => [c])

/-! ## What it keeps -/

/-- The relationship is non-empty, or empty for `NOT EXISTS`. -/
def keeps (e : Exists) (t : Tree) : Bool := e.not ^^ (t.kids[e.rel]?.any fun kids => !kids.isEmpty)

end Exists

/-- A node with all there is to it: its tree is `t`, and it has the slot. -/
structure Node.Current (schema : Schema) (slot : Nat) (n : Node) (t : Tree) : Prop where
  keyed : n.Keyed
  setValued : n.SetValued schema
  has : slot ∈ n.rels.map Prod.fst
  tree : Tree.ofNode schema n = t

/-- What the upstream of a gate on `slot` hands over with a change. -/
def Delivered (schema : Schema) (slot : Nat) (U : List Tree) (c : Change) : Prop :=
  match c with
  | .add n => slot ∈ n.rels.map Prod.fst
  | .remove n => ∃ t ∈ U, n.Current schema slot t
  | .edit n old => ∃ t ∈ U, rowCmp schema.sort t.row old.row = .eq ∧ n.Current schema slot (t.succ schema c)
  | .child n _ _ => ∃ t ∈ U, rowCmp schema.sort t.row n.row = .eq ∧ n.Current schema slot (t.succ schema c)

/-- A run of valid changes, each handed over as it should be. -/
def DeliveredStream (schema : Schema) (slot : Nat) (U : List Tree) : List Change → Prop
  | [] => True
  | c :: rest => c.ValidFor schema U ∧ Delivered schema slot U c ∧ DeliveredStream schema slot (Tree.apply schema U c) rest

/-! ## Counting -/

namespace Tree

section
variable {schema : Schema} {U : List Tree}

theorem length_insert_fresh (h : SList.Sorted (byRow schema.sort) U) {t : Tree}
    (ht : ∀ x ∈ U, rowCmp schema.sort x.row t.row ≠ .eq) : (SList.insert (byRow schema.sort) t U).length = U.length + 1 := by
  obtain ⟨A, C, rfl, -, -, hins⟩ := split_absent h ht
  rw [hins]
  simp only [List.length_append, List.length_cons]
  omega

theorem length_erase_present (h : SList.Sorted (byRow schema.sort) U) {row : Row}
    (ht : ∃ t ∈ U, rowCmp schema.sort t.row row = .eq) :
    (SList.erase (byRow schema.sort) (key row) U).length + 1 = U.length := by
  obtain ⟨A, x, C, rfl, hA, hC, hx⟩ := split_present h ht
  rw [erase_present hA hC hx]
  simp only [List.length_append, List.length_cons]
  omega

/-- A valid edit or child change keeps the number of nodes. -/
theorem length_apply_touch (h : OrderedLevel schema U) {c : Change} (hc : c.isTouch = true) (hv : c.ValidFor schema U) :
    (apply schema U c).length = U.length := by
  have hfound : (∃ t ∈ U, rowCmp schema.sort t.row c.located = .eq) → (apply schema U c).length = U.length := by
    rintro ⟨t, ht, hrow⟩
    rw [apply_touch h hc ht hrow, length_insert_fresh (SList.sorted_erase h.sorted) (succ_fresh h hc hv hrow),
      length_erase_present h.sorted ⟨t, ht, hrow⟩]
  cases c with
  | add n => cases hc
  | remove n => cases hc
  | edit n old => exact hfound hv.1
  | child n rel c =>
    simp only [Change.ValidFor] at hv
    simp only [apply]
    split
    · rfl
    · rw [List.length_map]

theorem length_ofNodes {schema : Schema} (cs : List Node) (hkeys : cs.Pairwise fun a b => rowCmp schema.sort a.row b.row ≠ .eq) :
    ∀ acc, SList.Sorted (byRow schema.sort) acc → (∀ t ∈ acc, ∀ c ∈ cs, rowCmp schema.sort t.row c.row ≠ .eq) →
      (ofNodes schema cs acc).length = acc.length + cs.length := by
  induction cs with
  | nil => intro acc _ _; rfl
  | cons c rest ih =>
    intro acc hacc hfresh
    obtain ⟨hc, hkeys⟩ := List.pairwise_cons.mp hkeys
    have habs : ∀ x ∈ acc, rowCmp schema.sort x.row (ofNode schema c).row ≠ .eq := by
      intro x hx
      rw [ofNode_row]
      exact hfresh x hx c (List.mem_cons_self ..)
    rw [ofNodes, ih hkeys _ (SList.sorted_insert hacc), length_insert_fresh hacc habs, List.length_cons]
    · omega
    · intro t ht d hd
      rcases (SList.mem_insert hacc).mp ht with rfl | ⟨ht, -⟩
      · rw [ofNode_row]; exact hc d hd
      · exact hfresh t ht d (List.mem_cons_of_mem _ hd)

end

end Tree

namespace Exists

variable {schema sub : Schema} {e : Exists}

/-- The count on a current node is the number of its tree's children. -/
theorem fetchSize_current (hrel : schema.relChild e.rel = some sub) {n : Node} {t : Tree} (h : n.Current schema e.rel t) :
    ∃ kids, t.kids[e.rel]? = some kids ∧ e.fetchSize n = some kids.length := by
  obtain ⟨hkeyed, hset, hhas, rfl⟩ := h
  cases hkeyed with
  | @mk row rels slots _ =>
    cases hset with
    | mk keys _ =>
      obtain ⟨⟨k, cs⟩, hcs, hk⟩ := List.mem_map.mp hhas
      obtain rfl : k = e.rel := hk
      refine ⟨Tree.ofNodes sub cs [], ?_, ?_⟩
      · simp only [Tree.ofNode, List.getElem?_map, List.getElem?_range (Schema.relChild_lt hrel), Option.map_some,
          Tree.lookup_ofRels hrel rels slots hcs, Option.getD_some]
      · have hfind : (rels.find? fun r => r.1 == e.rel) = some (e.rel, cs) := by
          obtain ⟨r, hr⟩ : ∃ r, (rels.find? fun r => r.1 == e.rel) = some r := by
            cases hfind : rels.find? fun r => r.1 == e.rel with
            | some r => exact ⟨r, rfl⟩
            | none => exact absurd (List.find?_eq_none.mp hfind _ hcs) (by simp)
          have hslot : r.1 = e.rel := by simpa using List.find?_some hr
          rw [hr]
          refine congrArg some (List.inj_on_of_nodup_map slots (List.mem_of_find?_eq_some hr) hcs ?_)
          exact hslot
        have hlen := Tree.length_ofNodes cs (keys _ cs sub hcs hrel) [] SList.sorted_nil (by simp)
        simp only [fetchSize, Node.rels, hfind, Option.map_some]
        rw [hlen]
        simp

/-- The gate on a current node is whether its tree is kept. -/
theorem gate_current (hrel : schema.relChild e.rel = some sub) {n : Node} {t : Tree} (h : n.Current schema e.rel t) :
    e.gate n none = some (e.keeps t) := by
  obtain ⟨kids, hkids, hsize⟩ := fetchSize_current hrel h
  simp only [gate, fetchExists, hsize, Option.map_some, keeps, hkids, Option.any_some]
  cases kids <;> simp

theorem keeps_of_kids {t : Tree} {kids : List Tree} (h : t.kids[e.rel]? = some kids) :
    e.keeps t = (e.not ^^ decide (0 < kids.length)) := by
  rw [keeps, h, Option.any_some]
  cases kids <;> simp

/-! ## A gate -/

section
variable {U : List Tree}

/-- A change that cannot flip the gate passes if the node is kept. -/
theorem pushWithFilter_touch (hrel : schema.relChild e.rel = some sub) {c : Change} {t : Tree} (hc : c.isTouch = true)
    (ht : t ∈ U) (hrow : rowCmp schema.sort t.row c.located = .eq) (hn : (gated c).Current schema e.rel (t.succ schema c))
    (hsame : e.keeps (t.succ schema c) = e.keeps t) :
    ∃ out, e.pushWithFilter (fun c => [c]) c none = some out ∧ GateOut schema U e.keeps c out := by
  simp only [pushWithFilter, gate_current hrel hn, Option.map_some]
  cases hk : e.keeps (t.succ schema c) with
  | true => exact ⟨[c], rfl, .pass hc ht hrow (hsame ▸ hk) hk⟩
  | false => exact ⟨[], rfl, .silent hc ht hrow (hsame ▸ hk) hk⟩

/-- The children of the touched slot, before and after. -/
theorem succ_kids (hrel : schema.relChild e.rel = some sub) {t : Tree} {n : Node} {c : Change} {kids : List Tree}
    (hkids : t.kids[e.rel]? = some kids) :
    (t.succ schema (.child n e.rel c)).kids[e.rel]? = some (Tree.apply sub kids c) := by
  simp only [Tree.succ, hrel, List.getElem?_modify, hkids, if_true]
  rfl

theorem succ_kids_other {t : Tree} {n : Node} {rel : Nat} {c : Change} (hne : rel ≠ e.rel) :
    (t.succ schema (.child n rel c)).kids[e.rel]? = t.kids[e.rel]? := by
  simp only [Tree.succ]
  split
  · rfl
  · simp [hne]

/-- One push: it does not panic, and what it makes is what a gate makes. -/
theorem pushChain_gate (hrel : schema.relChild e.rel = some sub) (hU : Tree.OrderedLevel schema U) {c : Change}
    (hv : c.ValidFor schema U) (hd : Delivered schema e.rel U c) :
    ∃ out, e.pushChain (fun c => [c]) c = some out ∧ GateOut schema U e.keeps c out := by
  cases c with
  | add n =>
    have hn : n.Current schema e.rel (.ofNode schema n) := ⟨hv.1, hv.2.1, hd, rfl⟩
    simp only [pushChain, pushWithFilter, gated, gate_current hrel hn, Option.map_some]
    cases hk : e.keeps (.ofNode schema n) with
    | true => exact ⟨[.add n], rfl, .addKept hk⟩
    | false => exact ⟨[], rfl, .addDropped hk⟩
  | remove n =>
    obtain ⟨t, ht, hn⟩ := hd
    have hrow : rowCmp schema.sort t.row n.row = .eq := by
      rw [← hn.tree, Tree.ofNode_row]
      exact Std.ReflCmp.compare_self
    simp only [pushChain, pushWithFilter, gated, gate_current hrel hn, Option.map_some]
    cases hk : e.keeps t with
    | true => exact ⟨[.remove n], rfl, .removeKept ht hrow hk⟩
    | false => exact ⟨[], rfl, .removeDropped ht hrow hk⟩
  | edit n old =>
    obtain ⟨t, ht, hrow, hn⟩ := hd
    exact pushWithFilter_touch hrel rfl ht hrow hn rfl
  | child n rel c =>
    obtain ⟨t, ht, hrow, hn⟩ := hd
    by_cases hne : rel ≠ e.rel
    · have hsame : e.keeps (t.succ schema (.child n rel c)) = e.keeps t := by
        rw [keeps, keeps, succ_kids_other hne]
      simp only [pushChain, if_pos hne]
      exact pushWithFilter_touch hrel rfl ht hrow hn hsame
    rw [not_not] at hne
    subst hne
    -- the slot's own children, as validity found them
    simp only [Change.ValidFor, hrel] at hv
    obtain ⟨u, hu, hur, kids, hkids, hvalid⟩ := hv
    obtain rfl : u = t := Tree.eq_of_key hU hu ht hur hrow
    have hlevel : Tree.OrderedLevel sub kids := by
      cases hU.ordered u hu with
      | mk length sorted children => exact ⟨sorted e.rel sub kids hrel hkids, children e.rel sub kids hrel hkids⟩
    have hafter : (u.succ schema (.child n e.rel c)).kids[e.rel]? = some (Tree.apply sub kids c) := succ_kids hrel hkids
    obtain ⟨kids', hkids', hsize⟩ := fetchSize_current hrel hn
    obtain rfl : Tree.apply sub kids c = kids' := Option.some.inj (hafter.symm.trans hkids')
    have hbefore : e.keeps u = (e.not ^^ decide (0 < kids.length)) := keeps_of_kids hkids
    have hthen : e.keeps (u.succ schema (.child n e.rel c)) = (e.not ^^ decide (0 < (Tree.apply sub kids c).length)) :=
      keeps_of_kids hafter
    have htouch : c.isTouch = true → ∃ out, e.pushWithFilter (fun c => [c]) (.child n e.rel c) none = some out ∧
        GateOut schema U e.keeps (.child n e.rel c) out := by
      intro hc
      refine pushWithFilter_touch hrel rfl ht hrow hn ?_
      rw [hthen, hbefore, Tree.length_apply_touch hlevel hc hvalid]
    simp only [pushChain, ne_eq, not_true_eq_false, if_false]
    cases c with
    | edit m old => exact htouch rfl
    | child m r c => exact htouch rfl
    | add m =>
      have hlen : (Tree.apply sub kids (.add m)).length = kids.length + 1 :=
        Tree.length_insert_fresh hlevel.sorted (by rw [Tree.ofNode_row]; exact hvalid.2.2)
      simp only [hsize, Option.bind_some]
      rw [hlen] at hthen ⊢
      by_cases h0 : kids.length = 0
      · simp only [h0, Nat.zero_add, if_true]
        cases hnot : e.not with
        | true => exact ⟨_, rfl, .leave rfl ht hrow (by simp [hbefore, h0, hnot]) (by simp [hthen, hnot]) rfl⟩
        | false =>
          exact ⟨_, rfl, .enter rfl ht hrow (by simp [hbefore, h0, hnot]) (by simp [hthen, hnot]) hn.tree hn.keyed
            hn.setValued⟩
      · have hne : ¬kids.length + 1 = 1 := by omega
        have hpos : 0 < kids.length := by omega
        simp only [hne, if_false, pushWithFilter, gate, Option.map_some]
        cases hnot : e.not with
        | true => exact ⟨[], by simp, .silent rfl ht hrow (by simp [hbefore, hpos, hnot]) (by simp [hthen, hnot])⟩
        | false => exact ⟨_, by simp, .pass rfl ht hrow (by simp [hbefore, hpos, hnot]) (by simp [hthen, hnot])⟩
    | remove m =>
      have hlen : (Tree.apply sub kids (.remove m)).length + 1 = kids.length :=
        Tree.length_erase_present hlevel.sorted hvalid
      have hpos : 0 < kids.length := by omega
      simp only [hsize, Option.bind_some]
      by_cases h0 : (Tree.apply sub kids (.remove m)).length = 0
      · simp only [h0, if_true]
        cases hnot : e.not with
        | true =>
          exact ⟨_, rfl, .enter rfl ht hrow (by simp [hbefore, hpos, hnot]) (by simp [hthen, h0, hnot]) hn.tree hn.keyed
            hn.setValued⟩
        | false => exact ⟨_, rfl, .leave rfl ht hrow (by simp [hbefore, hpos, hnot]) (by simp [hthen, h0, hnot]) rfl⟩
      · have hsome : 0 < (Tree.apply sub kids (.remove m)).length := by omega
        simp only [h0, if_false, pushWithFilter, gate, Option.map_some, hsome, decide_true]
        cases hnot : e.not with
        | true => exact ⟨[], by simp, .silent rfl ht hrow (by simp [hbefore, hpos, hnot]) (by simp [hthen, hsome, hnot])⟩
        | false => exact ⟨_, by simp, .pass rfl ht hrow (by simp [hbefore, hpos, hnot]) (by simp [hthen, hsome, hnot])⟩

end

/-! ## Fetches and runs -/

/-- Parents of one join key have equally empty relationships: what a join upstream gives. -/
def SharedByKey (e : Exists) (nodes : List Node) : Prop :=
  ∀ n ∈ nodes, ∀ m ∈ nodes, (∀ c ∈ e.parentJoinKey, valuesIdentical (n.row.cell c) (m.row.cell c) = true) →
    e.fetchExists n = e.fetchExists m

theorem fetchFrom_eq (hrel : schema.relChild e.rel = some sub) {all : List Node} (hkey : e.SharedByKey all)
    (nodes : List Node) (hsub : ∀ n ∈ nodes, n ∈ all) (hcur : ∀ n ∈ nodes, n.Current schema e.rel (.ofNode schema n)) :
    ∀ cache, (∀ n ∈ nodes, ∀ b, cache.lookup (e.cacheKey n) = some b → e.fetchExists n = some b) →
      e.fetchFrom cache nodes = some (nodes.filter fun n => e.keeps (.ofNode schema n)) := by
  induction nodes with
  | nil => intro cache _; rfl
  | cons n rest ih =>
    intro cache hcache
    have hn := hcur n (List.mem_cons_self ..)
    have hgate := gate_current hrel hn
    obtain ⟨b, hb⟩ : ∃ b, e.fetchExists n = some b := by
      obtain ⟨kids, -, hsize⟩ := fetchSize_current hrel hn
      exact ⟨_, by rw [fetchExists, hsize]; rfl⟩
    have hknown : e.gate n (some b) = some (e.keeps (.ofNode schema n)) := by
      rw [← hgate]
      simp only [gate, hb]
    have hrest := ih (fun m hm => hsub m (List.mem_cons_of_mem _ hm)) fun m hm => hcur m (List.mem_cons_of_mem _ hm)
    have hold : ∀ m ∈ rest, ∀ b, cache.lookup (e.cacheKey m) = some b → e.fetchExists m = some b := fun m hm =>
      hcache m (List.mem_cons_of_mem _ hm)
    have hstep : ∃ cache', e.filter false cache n = some (e.keeps (.ofNode schema n), cache') ∧
        ∀ m ∈ rest, ∀ b, cache'.lookup (e.cacheKey m) = some b → e.fetchExists m = some b := by
      simp only [filter, Bool.not_false, Bool.and_true]
      split
      · cases hlook : cache.lookup (e.cacheKey n) with
        | some b' =>
          have := hcache n (List.mem_cons_self ..) b' hlook
          obtain rfl : b = b' := Option.some.inj (hb.symm.trans this)
          exact ⟨cache, by simp only [hknown, Option.map_some], hold⟩
        | none =>
          refine ⟨(e.cacheKey n, b) :: cache, by simp only [hb, hknown, Option.map_some], fun m hm b' hlook' => ?_⟩
          rw [List.lookup_cons] at hlook'
          split at hlook'
          · rename_i heq
            cases hlook'
            have hsame := encodeStateKey_inj.mp (beq_iff_eq.mp heq)
            rw [List.map_map, List.map_map, List.map_inj_left] at hsame
            rw [hkey m (hsub m (List.mem_cons_of_mem _ hm)) n (hsub n (List.mem_cons_self ..))
              (fun c hc => canonVal_inj.mp (hsame c hc)), hb]
          · exact hold m hm b' hlook'
      · exact ⟨cache, by simp only [hgate, Option.map_some], hold⟩
    obtain ⟨cache', hfilter, hcache'⟩ := hstep
    simp only [fetchFrom, hfilter, hrest cache' hcache', Option.map_some, List.filter_cons]

/-- Downstream of a run of pushes, step by step. -/
theorem pushAll_fold (hrel : schema.relChild e.rel = some sub) (changes : List Change) : ∀ {U : List Tree},
    Tree.OrderedLevel schema U → DeliveredStream schema e.rel U changes →
    ∃ outs, e.pushAll changes = some outs ∧ Change.ValidStream schema (U.filter e.keeps) outs.flatten ∧
      ∀ k, Tree.applyAll schema (U.filter e.keeps) (outs.take k).flatten =
        (Tree.applyAll schema U (changes.take k)).filter e.keeps := by
  induction changes with
  | nil => intro U _ _; exact ⟨[], rfl, trivial, fun k => by simp [Tree.applyAll]⟩
  | cons c rest ih =>
    intro U hU hd
    obtain ⟨hv, hc, hrest⟩ := hd
    obtain ⟨out, hout, hgate⟩ := pushChain_gate hrel hU hv hc
    obtain ⟨hvalid, hfold⟩ := gate_fold hU hv hgate
    obtain ⟨outs, houts, hvalids, hfolds⟩ := ih (Tree.apply_ordered c hU) hrest
    refine ⟨out :: outs, ?_, ?_, fun k => ?_⟩
    · rw [pushAll] at houts ⊢
      rw [List.mapM_cons, hout, houts]
      rfl
    · rw [List.flatten_cons]
      exact Change.validStream_append hvalid (hfold ▸ hvalids)
    · cases k with
      | zero => rfl
      | succ k =>
        rw [List.take_succ_cons, List.take_succ_cons, List.flatten_cons, Tree.applyAll_append, hfold, hfolds k]
        rfl

end Exists

/-- From a fetch over any upstream and any relationships, and over any run of changes: downstream
    is, at each step, the nodes whose relationship is non-empty (empty for `NOT EXISTS`), and each
    change is valid there, so none is added that is present and none removed that is absent. -/
theorem exists_incremental {schema sub : Schema} {e : Exists} (hrel : schema.relChild e.rel = some sub)
    {nodes : List Node} (hcur : ∀ n ∈ nodes, n.Current schema e.rel (.ofNode schema n))
    (hU : Tree.OrderedLevel schema (nodes.map (.ofNode schema))) (hkey : e.SharedByKey nodes)
    {changes : List Change} (hd : DeliveredStream schema e.rel (nodes.map (.ofNode schema)) changes) :
    ∃ kept outs, e.fetch nodes = some kept ∧ e.pushAll changes = some outs ∧
      Change.ValidStream schema (kept.map (.ofNode schema)) outs.flatten ∧
      ∀ k, Tree.applyAll schema (kept.map (.ofNode schema)) (outs.take k).flatten =
        (Tree.applyAll schema (nodes.map (.ofNode schema)) (changes.take k)).filter e.keeps := by
  have hfetch : e.fetch nodes = some (nodes.filter fun n => e.keeps (.ofNode schema n)) :=
    Exists.fetchFrom_eq hrel hkey nodes (fun n hn => hn) hcur [] (by simp)
  have hkept : (nodes.filter fun n => e.keeps (.ofNode schema n)).map (Tree.ofNode schema) =
      (nodes.map (.ofNode schema)).filter e.keeps := by
    rw [List.filter_map]
    rfl
  obtain ⟨outs, hpush, hvalid, hfold⟩ := Exists.pushAll_fold hrel changes hU hd
  exact ⟨_, outs, hfetch, hpush, hkept ▸ hvalid, hkept ▸ hfold⟩

/-- A parent without children is not there; its first child brings it in. -/
theorem exists_incremental_first_child :
    ∃ outs, (Exists.new 0 [0] false [0]).fetch [.mk [.int 1] [(0, [])]] = some [] ∧
      (Exists.new 0 [0] false [0]).pushAll
        [.child (.mk [.int 1] [(0, [.leaf [.int 7]])]) 0 (.add (.leaf [.int 7]))] = some outs ∧
      (Tree.applyAll ((Schema.new ["id"] [0] [(0, true)]).withRelationships
          [.related "kids" (.new ["id"] [0] [(0, true)])]) [] (outs.take 1).flatten).map (·.row) = [[.int 1]] := by
  have hleaf : Node.Keyed (.leaf [.int 7]) := ⟨by simp, by simp⟩
  have hset : ∀ schema, Node.SetValued schema (.leaf [.int 7]) := fun schema => ⟨by simp, by simp⟩
  have hnode : ∀ schema (cs : List Node), cs = [] ∨ cs = [.leaf [.int 7]] →
      Node.Keyed (.mk [.int 1] [(0, cs)]) ∧ Node.SetValued schema (.mk [.int 1] [(0, cs)]) := by
    rintro schema cs (rfl | rfl)
    · refine ⟨⟨by simp, by simp⟩, ⟨fun slot cs child h _ => ?_, fun slot cs child h _ => ?_⟩⟩ <;>
        cases List.mem_singleton.mp h <;> simp
    · refine ⟨⟨by simp, by simpa using hleaf⟩, ⟨fun slot cs child h _ => ?_, fun slot cs child h _ => ?_⟩⟩ <;>
        cases List.mem_singleton.mp h <;> simp [hset]
  obtain ⟨kept, outs, hfetch, hpush, -, hfold⟩ := @exists_incremental
    ((Schema.new ["id"] [0] [(0, true)]).withRelationships [.related "kids" (.new ["id"] [0] [(0, true)])])
    (.new ["id"] [0] [(0, true)]) (Exists.new 0 [0] false [0]) rfl [.mk [.int 1] [(0, [])]]
    (by
      intro n hn
      rw [List.mem_singleton.mp hn]
      exact ⟨(hnode (.new [] [] []) [] (.inl rfl)).1, (hnode _ [] (.inl rfl)).2, by simp [Exists.new, Node.rels], rfl⟩)
    ⟨by simp [SList.Sorted], by simpa using Tree.ofNode_ordered _ _⟩
    (by
      intro n hn m hm _
      rw [List.mem_singleton.mp hn, List.mem_singleton.mp hm])
    [.child (.mk [.int 1] [(0, [.leaf [.int 7]])]) 0 (.add (.leaf [.int 7]))]
    ⟨⟨_, List.mem_singleton_self _, by decide +kernel, [], rfl, hleaf, hset _, by simp⟩,
      ⟨_, List.mem_singleton_self _, by decide +kernel, (hnode (.new [] [] []) _ (.inr rfl)).1, (hnode _ _ (.inr rfl)).2,
        by simp [Exists.new, Node.rels], rfl⟩, trivial⟩
  obtain rfl : kept = [] := (Option.some.inj hfetch).symm
  refine ⟨outs, hfetch, hpush, ?_⟩
  rw [← List.map_nil (f := Tree.ofNode _), hfold 1]
  decide +kernel

end Rindle
