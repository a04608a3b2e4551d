/-
  Rindle.Lib.Footprint — steps that depend on some places of a state and change some.

  A state is what `look` shows at each place. A step ends in a state with a result, or fails.
  From `s` to `t` it is `Confined` to a footprint when it takes every state that shows the
  same at the places read to the same result, and writes there what it wrote in `t`, at the
  places written and nowhere else.

  Steps whose footprints are `Apart` change places freely (`Confined.swap`). So in a `Chain`
  one of them can be taken to the front (`Chain.front`), and a later step that covers it can
  stand in for it where it stood (`Chain.supersede`).
-/

import Mathlib.Data.Set.BooleanAlgebra
import Mathlib.Data.Set.Disjoint
import Mathlib.Order.CompletePartialOrder

namespace Rindle

structure Footprint (P : Type*) where
  reads : Set P
  writes : Set P

namespace Footprint

variable {P : Type*} {x y : Footprint P}

/-- Neither writes a place the other reads or writes. -/
structure Apart (x y : Footprint P) : Prop where
  left : Disjoint x.writes y.reads
  right : Disjoint y.writes x.reads
  both : Disjoint x.writes y.writes

theorem Apart.symm (h : Apart x y) : Apart y x := ⟨h.right, h.left, h.both.symm⟩

/-- `y` writes all that `x` writes and reads none of it. -/
structure Covers (y x : Footprint P) : Prop where
  writes : x.writes ⊆ y.writes
  reads : Disjoint x.writes y.reads

variable {S V ρ ε : Type*} {look : S → P → V}

/-- A step of a program: what it does to a state, its footprint and its result. -/
structure Step (S P ρ ε : Type*) where
  act : S → Except ε (S × ρ)
  foot : Footprint P
  result : ρ

variable {a b c : Step S P ρ ε} {s s' t t' u v : S} {l m : List (Step S P ρ ε)}

/-- From `s` to `t`, the step is confined to its footprint. -/
structure Confined (look : S → P → V) (a : Step S P ρ ε) (s t : S) : Prop where
  acts : a.act s = .ok (t, a.result)
  outside : ∀ p ∉ a.foot.writes, look t p = look s p
  elsewhere : ∀ s', (∀ p ∈ a.foot.reads, look s' p = look s p) →
    ∃ t', a.act s' = .ok (t', a.result) ∧ (∀ p ∈ a.foot.writes, look t' p = look t p) ∧ ∀ p ∉ a.foot.writes, look t' p = look s' p

/-- Where the places read look the same the step is as confined, and writes the same. -/
theorem Confined.move (h : Confined look a s t) (hs : ∀ p ∈ a.foot.reads, look s' p = look s p) :
    ∃ t', Confined look a s' t' ∧ (∀ p ∈ a.foot.writes, look t' p = look t p) ∧ ∀ p ∉ a.foot.writes, look t' p = look s' p := by
  obtain ⟨t', hact, hin, hout⟩ := h.elsewhere s' hs
  refine ⟨t', ⟨hact, hout, ?_⟩, hin, hout⟩
  intro r hr
  obtain ⟨r', hact', hin', hout'⟩ := h.elsewhere r fun p hp => (hr p hp).trans (hs p hp)
  exact ⟨r', hact', fun p hp => (hin' p hp).trans (hin p hp).symm, hout'⟩

/-- Two confined steps apart can be taken in the other order, to the same end. -/
theorem Confined.swap (hlook : ∀ s t, (∀ p, look s p = look t p) → s = t) (ha : Confined look a s t) (hb : Confined look b t u)
    (hab : Apart a.foot b.foot) : ∃ t', Confined look b s t' ∧ Confined look a t' u := by
  have hsame : ∀ p ∈ b.foot.reads, look s p = look t p := by
    intro p hp
    exact (ha.outside p (Set.disjoint_right.mp hab.left hp)).symm
  obtain ⟨t', hb', hin, hout⟩ := hb.move hsame
  have hback : ∀ p ∈ a.foot.reads, look t' p = look s p := by
    intro p hp
    exact hout p (Set.disjoint_right.mp hab.right hp)
  obtain ⟨u', ha', hin', hout'⟩ := ha.move hback
  have hu : u' = u := by
    apply hlook
    intro p
    by_cases hpa : p ∈ a.foot.writes
    · have hpb : p ∉ b.foot.writes := Set.disjoint_left.mp hab.both hpa
      rw [hin' p hpa, hb.outside p hpb]
    · rw [hout' p hpa]
      by_cases hpb : p ∈ b.foot.writes
      · exact hin p hpb
      · rw [hout p hpb, hb.outside p hpb, ha.outside p hpa]
  exact ⟨t', hb', hu ▸ ha'⟩

/-- After a step that covers it, a step might as well not have been taken. -/
theorem Confined.absorb (hlook : ∀ s t, (∀ p, look s p = look t p) → s = t) (ha : Confined look a s t) (hb : Confined look b t u)
    (h : Covers b.foot a.foot) : Confined look b s u := by
  have hsame : ∀ p ∈ b.foot.reads, look s p = look t p := by
    intro p hp
    exact (ha.outside p (Set.disjoint_right.mp h.reads hp)).symm
  obtain ⟨u', hb', hin, hout⟩ := hb.move hsame
  have hu : u' = u := by
    apply hlook
    intro p
    by_cases hp : p ∈ b.foot.writes
    · exact hin p hp
    · rw [hout p hp, hb.outside p hp, ha.outside p fun hpa => hp (h.writes hpa)]
  exact hu ▸ hb'

/-! ## Chains -/

/-- Confined steps one after the other. -/
inductive Chain (look : S → P → V) : List (Step S P ρ ε) → S → S → Prop
  | nil (s : S) : Chain look [] s s
  | cons {a : Step S P ρ ε} {l : List (Step S P ρ ε)} {s t u : S} : Confined look a s t → Chain look l t u → Chain look (a :: l) s u

/-- Steps one after the other, confined or not. -/
inductive Executes : List (Step S P ρ ε) → S → S → Prop
  | nil (s : S) : Executes [] s s
  | cons {a : Step S P ρ ε} {l : List (Step S P ρ ε)} {s t u : S} : a.act s = .ok (t, a.result) → Executes l t u → Executes (a :: l) s u

theorem Executes.append (h : Executes l s t) (h' : Executes m t u) : Executes (l ++ m) s u := by
  induction h with
  | nil => exact h'
  | cons ha _ ih => exact .cons ha (ih h')

theorem Chain.executes (h : Chain look l s t) : Executes l s t := by
  induction h with
  | nil s => exact .nil s
  | cons ha _ ih => exact .cons ha.acts ih

theorem Chain.append (h : Chain look l s t) (h' : Chain look m t u) : Chain look (l ++ m) s u := by
  induction h with
  | nil => exact h'
  | cons ha _ ih => exact .cons ha (ih h')

theorem Chain.split (h : Chain look (l ++ m) s u) : ∃ t, Chain look l s t ∧ Chain look m t u := by
  induction l generalizing s with
  | nil => exact ⟨s, .nil s, h⟩
  | cons a l ih =>
    cases h with
    | cons ha hl =>
      obtain ⟨t, h₁, h₂⟩ := ih hl
      exact ⟨t, .cons ha h₁, h₂⟩

/-- A step apart from the whole chain before it could have been taken first. -/
theorem Chain.before (hlook : ∀ s t, (∀ p, look s p = look t p) → s = t) (h : Chain look l s t) (ha : Confined look a t u)
    (hl : ∀ b ∈ l, Apart b.foot a.foot) : ∃ t', Confined look a s t' ∧ Chain look l t' u := by
  induction h with
  | nil s => exact ⟨u, ha, .nil u⟩
  | cons hb _ ih =>
    obtain ⟨r, ha', hrest⟩ := ih ha fun c hc => hl c (List.mem_cons_of_mem _ hc)
    obtain ⟨r', ha'', hb'⟩ := hb.swap hlook ha' (hl _ List.mem_cons_self)
    exact ⟨r', ha'', .cons hb' hrest⟩

/-- A step apart from the whole chain after it could have been taken last. -/
theorem Chain.after (hlook : ∀ s t, (∀ p, look s p = look t p) → s = t) (ha : Confined look a s t) (h : Chain look l t u)
    (hl : ∀ b ∈ l, Apart a.foot b.foot) : ∃ t', Chain look l s t' ∧ Confined look a t' u := by
  induction h generalizing s with
  | nil t => exact ⟨s, .nil s, ha⟩
  | cons hb _ ih =>
    obtain ⟨r, hb', ha'⟩ := ha.swap hlook hb (hl _ List.mem_cons_self)
    obtain ⟨r', hrest, ha''⟩ := ih ha' fun c hc => hl c (List.mem_cons_of_mem _ hc)
    exact ⟨r', .cons hb' hrest, ha''⟩

/-- A step of a chain apart from those before it can be taken first. -/
theorem Chain.front (hlook : ∀ s t, (∀ p, look s p = look t p) → s = t) (h : Chain look (l ++ a :: m) s u)
    (hl : ∀ b ∈ l, Apart b.foot a.foot) : ∃ t, Confined look a s t ∧ Chain look (l ++ m) t u := by
  obtain ⟨t, hpre, hpost⟩ := h.split
  cases hpost with
  | cons ha hm =>
    obtain ⟨r, ha', hpre'⟩ := hpre.before hlook ha hl
    exact ⟨r, ha', hpre'.append hm⟩

/-- A step at the end that covers one of the chain, both apart from the steps after that one, takes its place. -/
theorem Chain.supersede (hlook : ∀ s t, (∀ p, look s p = look t p) → s = t) (h : Chain look (l ++ a :: m) s u)
    (hb : Confined look b u v) (hcov : Covers b.foot a.foot) (ha : ∀ c ∈ m, Apart a.foot c.foot) (hm : ∀ c ∈ m, Apart b.foot c.foot) :
    Chain look (l ++ b :: m) s v := by
  obtain ⟨t, hpre, hpost⟩ := h.split
  cases hpost with
  | cons hat hrest =>
    obtain ⟨r, hrest', hau⟩ := Chain.after hlook hat hrest ha
    obtain ⟨r', hb', hrest''⟩ := hrest'.before hlook (hau.absorb hlook hb hcov) fun c hc => (hm c hc).symm
    exact hpre.append (.cons hb' hrest'')

end Footprint

end Rindle
