/-
  Rindle.Mutations.Rebase — the head's predictions over a reconcile cycle.

  `Predictions` are the ledger with the server's rows (`base`) and the rows shown (`head`). A
  mutator runs on the head when it is invoked. A reconcile cycle rewinds the head to the base
  and runs the pending mutators again: those sent in the order they were sent, then the open
  folds. The policy stays as it is and no fold defers across writes.

  The two orders agree because an invocation flushes the folds whose tables it touched. That
  test sees tables written on either side and nothing read. `rebase_keeps_head`: where every
  invocation is apart, cell by cell, from the folds still open after its drain, and a folded
  one covers the prediction it overwrites, a cycle without deltas leaves everything as it
  was. `read_of_open_fold_snaps` is the trace that breaks it: an ordinary mutator copies a cell
  from a folded one into another table.
-/

import Rindle.Mutations.Places
import Rindle.Mutations.Sound

set_option linter.dupNamespace false

namespace Rindle.Mutations

open Footprint

variable {α W K Q R : Type}

/-! ## Fold keys -/

/-- What `stableJson` gives: a text without the character that ends the name in a fold key. -/
structure StableJson where
  text : String
  plain : Char.ofNat 0 ∉ text.toList

def foldKey (name : String) (key : StableJson) : String := name ++ String.singleton (Char.ofNat 0) ++ key.text

theorem append_mark_inj {β : Type} {c : β} {l l' r r' : List β} (hr : c ∉ r) (hr' : c ∉ r') (h : l ++ c :: r = l' ++ c :: r') :
    l = l' := by
  rcases List.append_eq_append_iff.mp h with ⟨a, rfl, ha⟩ | ⟨a, rfl, ha⟩
  · cases a with
    | nil => simp
    | cons x a =>
      have hmem : c ∈ r := (List.cons_eq_cons.mp ha).2 ▸ List.mem_append_right a List.mem_cons_self
      exact absurd hmem hr
  · cases a with
    | nil => simp
    | cons x a =>
      have hmem : c ∈ r' := (List.cons_eq_cons.mp ha).2 ▸ List.mem_append_right a List.mem_cons_self
      exact absurd hmem hr'

/-- A fold key tells its mutator. -/
theorem foldKey_name {name name' : String} {key key' : StableJson} (h : foldKey name key = foldKey name' key') : name = name' := by
  have hl := congrArg String.toList h
  simp only [foldKey, String.toList_append, String.toList_singleton, List.append_assoc, List.singleton_append] at hl
  exact String.toList_inj.mp (append_mark_inj key.plain key'.plain hl)

/-! ## Replay order -/

theorem seqLe_trans (a b c : Option Nat) (h : Backend.seqLe a b = true) (h' : Backend.seqLe b c = true) : Backend.seqLe a c = true := by
  cases a <;> cases b <;> cases c <;> simp_all [Backend.seqLe]
  omega

theorem seqLe_total (a b : Option Nat) : (Backend.seqLe a b || Backend.seqLe b a) = true := by
  cases a <;> cases b <;> simp [Backend.seqLe]
  omega

/-- A list in which nothing marked stands before anything that is not splits there. -/
theorem filter_append_filter_not {β : Type} {mark : β → Bool} {l : List β} (h : l.Pairwise fun a b => mark a = true → mark b = true) :
    l.filter (fun a => !mark a) ++ l.filter mark = l := by
  induction l with
  | nil => rfl
  | cons a l ih =>
    obtain ⟨ha, hl⟩ := List.pairwise_cons.mp h
    by_cases hm : mark a = true
    · have hall : l.filter (fun a => !mark a) = [] := by
        refine List.filter_eq_nil_iff.mpr fun b hb => ?_
        simp [ha b hb hm]
      rw [List.filter_cons_of_neg (by simp [hm]), List.filter_cons_of_pos hm, hall, List.nil_append]
      have hrest := ih hl
      rw [hall, List.nil_append] at hrest
      rw [hrest]
    · rw [List.filter_cons_of_pos (by simp [hm]), List.filter_cons_of_neg hm, List.cons_append, ih hl]

namespace Backend

/-- `i` was sent before `j`. -/
def SentBefore (b : Backend α) (i j : Nat) : Prop := ∃ s t, (b.entries i).seq = some s ∧ (b.entries j).seq = some t ∧ s < t

/-- Those sent in the order they were sent, then the others as they were created. -/
theorem replayOrder_eq {b : Backend α} {sent waiting : List Nat} (hnodup : b.pendingMutations.Nodup)
    (hsent : ∀ i, i ∈ sent ↔ i ∈ b.pendingMutations ∧ (b.entries i).seq.isSome = true) (hrise : sent.Pairwise b.SentBefore)
    (hwait : b.pendingMutations.filter (fun i => (b.entries i).seq.isNone) = waiting) : b.replayOrder = sent ++ waiting := by
  let le : Nat → Nat → Bool := fun i j => seqLe (b.entries i).seq (b.entries j).seq
  have htrans : ∀ i j k, le i j = true → le j k = true → le i k = true := fun i j k => seqLe_trans _ _ _
  have htotal : ∀ i j, (le i j || le j i) = true := fun i j => seqLe_total _ _
  have hperm : b.replayOrder.Perm b.pendingMutations := List.mergeSort_perm _ _
  have hsorted : b.replayOrder.Pairwise fun i j => le i j = true := List.pairwise_mergeSort htrans htotal _
  have hlate : b.replayOrder.Pairwise fun i j => (b.entries i).seq.isNone = true → (b.entries j).seq.isNone = true := by
    refine hsorted.imp ?_
    intro i j hij hi
    rw [Option.isNone_iff_eq_none] at hi ⊢
    cases hj : (b.entries j).seq with
    | none => rfl
    | some t => simp [le, seqLe, hi, hj] at hij
  have hfirst : b.replayOrder.filter (fun i => !(b.entries i).seq.isNone) = sent := by
    have hne : ∀ i ∈ sent, ∀ j ∈ sent, i = j ∨ b.SentBefore i j ∨ b.SentBefore j i := by
      intro i hi j hj
      exact List.Pairwise.forall_of_forall_of_flip (R := fun i j => i = j ∨ b.SentBefore i j ∨ b.SentBefore j i) (fun i _ => .inl rfl)
        (hrise.imp fun h => .inr (.inl h)) (hrise.imp fun h => .inr (.inr h)) hi hj
    refine List.Perm.eq_of_pairwise ?_ (hsorted.filter _) (hrise.imp ?_) ?_
    · intro i j hi hj hij hji
      have hi' : i ∈ sent := by
        obtain ⟨hmem, hsome⟩ := List.mem_filter.mp hi
        exact (hsent i).mpr ⟨hperm.mem_iff.mp hmem, by simpa using hsome⟩
      rcases hne i hi' j hj with h | ⟨s, t, hs, ht, hlt⟩ | ⟨s, t, hs, ht, hlt⟩
      · exact h
      · simp [le, seqLe, hs, ht] at hji
        omega
      · simp [le, seqLe, hs, ht] at hij
        omega
    · intro i j hij
      obtain ⟨s, t, hs, ht, hlt⟩ := hij
      simp [le, seqLe, hs, ht]
      omega
    · have hdistinct : sent.Nodup := hrise.imp fun ⟨s, t, hs, ht, hlt⟩ he => by
        subst he
        rw [hs] at ht
        have := Option.some.inj ht
        omega
      refine (List.perm_ext_iff_of_nodup ((hperm.nodup_iff.mpr hnodup).filter _) hdistinct).mpr ?_
      intro i
      rw [List.mem_filter, hsent, hperm.mem_iff]
      simp [Option.isSome_iff_ne_none]
  have hlast : b.replayOrder.filter (fun i => (b.entries i).seq.isNone) = waiting := by
    have hsub : waiting.Sublist b.replayOrder := by
      refine List.sublist_mergeSort htrans htotal ?_ (hwait ▸ List.filter_sublist)
      rw [← hwait]
      refine List.pairwise_of_forall_mem_list ?_
      intro i hi j hj
      have hi' := (List.mem_filter.mp hi).2
      have hj' := (List.mem_filter.mp hj).2
      rw [Option.isNone_iff_eq_none] at hi' hj'
      show seqLe (b.entries i).seq (b.entries j).seq = true
      rw [hi', hj']
      rfl
    have hsub' := hsub.filter fun i => (b.entries i).seq.isNone
    have hself : waiting.filter (fun i => (b.entries i).seq.isNone) = waiting := by
      rw [← hwait, List.filter_filter]
      simp
    rw [hself] at hsub'
    refine (hsub'.eq_of_length ?_).symm
    rw [(hperm.filter _).length_eq, hwait]
  rw [← filter_append_filter_not hlate, hfirst, hlast]

end Backend

/-! ## Predictions -/

/-- The client's mutators and the policy that routes them. -/
structure App (env : Env W K) (α Q R : Type) where
  registry : String → Option (α → Mutator W Q R)
  policy : Policy α
  queries : env.Queries Q R

/-- `foot` is a ghost: the footprint of each entry's prediction. -/
structure Predictions (env : Env W K) (α : Type) where
  ledger : Backend α
  base : env.Contents
  head : env.Contents
  foot : Nat → Footprint (Place K) := fun _ => ⟨∅, ∅⟩

def Predictions.start {env : Env W K} (base : env.Contents) (nothing : PendingMutation α) : Predictions env α :=
  { ledger := .fresh nothing, base := base, head := base }

/-- What can happen between two releases: a handle or a timer may flush a fold at any time. -/
inductive Act (α : Type)
  | invoke (name : String) (args : α)
  | invokeFolded (name : String) (key : StableJson) (args : α) (due : Bool)
  | flushFold (foldKey : String)
  | flushFolds
  | reconcile

namespace App

variable [DecidableEq K] {env : Env W K} (app : App env α Q R)

/-- One run of a mutator on these rows: what it leaves, and the tables it touched. -/
def attempt (name : String) (args : α) (domain : String) (trapReads : Bool) (rows : env.Contents) :
    Except String (env.Contents × List String) :=
  match app.registry name with
  | none => .error ("unknown client mutator: " ++ name)
  | some m => (m args).predict app.queries domain trapReads rows

/-- The re-invocations of a cycle in order, and how each went. -/
def replay (b : Backend α) : List Nat → env.Contents → env.Contents × List (Nat × Ran)
  | [], rows => (rows, [])
  | i :: order, rows =>
    match app.attempt (b.entries i).name (b.entries i).args (b.entries i).domain false rows with
    | .ok (rows, touched) => let r := replay b order rows; (r.1, (i, .ok touched) :: r.2)
    | .error e => let r := replay b order rows; (r.1, (i, .error e) :: r.2)

/-- `runReconcileCycle` without server deltas, on the ledger and the head. -/
def reconcile (p : Predictions env α) : Predictions env α :=
  let r := app.replay p.ledger p.ledger.replayOrder p.base
  { p with ledger := p.ledger.runReconcileCycle fun i => (r.2.lookup i).getD (.ok []), head := r.1 }

def invoke (p : Predictions env α) (name : String) (args : α) (x : Footprint (Place K)) : Predictions env α :=
  match app.attempt name args (resolveDomain app.policy name args) false p.head with
  | .error _ => p
  | .ok (head, touched) =>
    match p.ledger.invokeWith app.policy name args none (.ok touched) .invoked with
    | .error _ => p
    | .ok ledger => { p with ledger := ledger, head := head, foot := Function.update p.foot p.ledger.created x }

/-- The entry a folded invocation lands in. -/
def slotOf (b : Backend α) (foldKey : String) : Nat :=
  match b.folds.lookup foldKey with
  | some f => f.entry
  | none => b.created

def invokeFolded (p : Predictions env α) (name : String) (key : StableJson) (args : α) (due : Bool) (x : Footprint (Place K)) :
    Predictions env α :=
  match app.attempt name args (resolveDomain app.policy name args) true p.head with
  | .error _ => p
  | .ok (head, touched) =>
    { p with
      ledger := p.ledger.invokeFolded app.policy name (foldKey name key) args false due (.ok touched)
      head := head
      foot := Function.update p.foot (slotOf p.ledger (foldKey name key)) x }

/-- One act; an invocation has this footprint. -/
def step (p : Predictions env α) (a : Act α) (x : Footprint (Place K)) : Predictions env α :=
  match a with
  | .invoke name args => app.invoke p name args x
  | .invokeFolded name key args due => app.invokeFolded p name key args due x
  | .flushFold foldKey => { p with ledger := p.ledger.flushFold app.policy foldKey }
  | .flushFolds => { p with ledger := p.ledger.flushFolds app.policy }
  | .reconcile => app.reconcile p

/-- The step a mutator takes again at a cycle. -/
def stepOf (name : String) (args : α) (domain : String) (x : Footprint (Place K)) (touched : List String) :
    Step env.Contents (Place K) (List String) String :=
  ⟨app.attempt name args domain false, x, touched⟩

/-- An invocation that runs through has the footprint, and is apart from the folds it leaves open;
    a folded one covers the prediction it overwrites. -/
def Meets (p : Predictions env α) (a : Act α) (x : Footprint (Place K)) : Prop :=
  match a with
  | .invoke name args => ∀ head touched, app.attempt name args (resolveDomain app.policy name args) false p.head = .ok (head, touched) →
      Confined Env.look (app.stepOf name args (resolveDomain app.policy name args) x touched) p.head head ∧
        ∀ e ∈ (p.ledger.drainOverlapping app.policy touched).folds, Apart (p.foot e.2.entry) x
  | .invokeFolded name key args _ => ∀ head touched,
      app.attempt name args (resolveDomain app.policy name args) true p.head = .ok (head, touched) →
      Confined Env.look (app.stepOf name args (resolveDomain app.policy name args) x touched) p.head head ∧
        (∀ e ∈ p.ledger.folds, e.1 ≠ foldKey name key → Apart (p.foot e.2.entry) x) ∧
        ∀ f, p.ledger.folds.lookup (foldKey name key) = some f → Covers x (p.foot f.entry)
  | _ => True

/-- What is reached from these rows by acts that meet the condition. -/
inductive Reach (base : env.Contents) (nothing : PendingMutation α) : Predictions env α → Prop
  | start : Reach base nothing (.start base nothing)
  | step {p : Predictions env α} (a : Act α) (x : Footprint (Place K)) :
      Reach base nothing p → app.Meets p a x → Reach base nothing (app.step p a x)

/-! ## What the predictions keep -/

/-- The step of a pending entry. -/
def entryStep (p : Predictions env α) (i : Nat) : Step env.Contents (Place K) (List String) String :=
  app.stepOf (p.ledger.entries i).name (p.ledger.entries i).args (p.ledger.entries i).domain (p.foot i) (p.ledger.entries i).touched

/-- The entries of the open folds, oldest first. -/
def waiting (b : Backend α) : List Nat := b.folds.map (·.2.entry)

/-- An open fold and its entry agree. -/
structure Own (b : Backend α) (e : String × Fold α) : Prop where
  drains : e.2.deferAcrossWrites = false
  args : e.2.args = (b.entries e.2.entry).args
  domain : (b.entries e.2.entry).domain = resolveDomain app.policy (b.entries e.2.entry).name (b.entries e.2.entry).args
  key : ∃ key, e.1 = foldKey (b.entries e.2.entry).name key

/-- The entries sent, run on the base in the order they were sent, give `mid`, and from there the
    open folds, which are apart from each other, give the head. -/
structure Held (p : Predictions env α) (sent : List Nat) (mid : env.Contents) : Prop where
  live : p.ledger.Live
  gone : ∀ i, i ∈ sent ↔ i ∈ p.ledger.pendingMutations ∧ (p.ledger.entries i).seq.isSome = true
  rising : sent.Pairwise p.ledger.SentBefore
  dealt : ∀ i ∈ sent, ∃ s, (p.ledger.entries i).seq = some s ∧ s ≤ p.ledger.dealSeq
  waits : p.ledger.pendingMutations.filter (fun i => (p.ledger.entries i).seq.isNone) = waiting p.ledger
  own : ∀ e ∈ p.ledger.folds, app.Own p.ledger e
  before : Executes (sent.map (app.entryStep p)) p.base mid
  after : Chain Env.look ((waiting p.ledger).map (app.entryStep p)) mid p.head
  apart : (waiting p.ledger).Pairwise fun i j => Apart (p.foot i) (p.foot j)

variable {app} {p : Predictions env α} {sent : List Nat} {mid : env.Contents}

/-- Predictions that differ at the entry `i` alone. -/
structure But (i : Nat) (p p' : Predictions env α) : Prop where
  base : p'.base = p.base
  entries : ∀ j, j ≠ i → p'.ledger.entries j = p.ledger.entries j
  foot : ∀ j, j ≠ i → p'.foot j = p.foot j

section
variable {p' : Predictions env α} {i : Nat} {l : List Nat}

theorem But.steps (h : But i p p') (hl : ∀ j ∈ l, j ≠ i) : l.map (app.entryStep p') = l.map (app.entryStep p) := by
  refine List.map_congr_left fun j hj => ?_
  rw [entryStep, entryStep, h.entries j (hl j hj), h.foot j (hl j hj)]

omit [DecidableEq K] in
theorem But.apart (h : But i p p') (hl : ∀ j ∈ l, j ≠ i) (hp : l.Pairwise fun j k => Apart (p.foot j) (p.foot k)) :
    l.Pairwise fun j k => Apart (p'.foot j) (p'.foot k) := by
  refine hp.imp_of_mem ?_
  intro j k hj hk hjk
  rwa [h.foot j (hl j hj), h.foot k (hl k hk)]

omit [DecidableEq K] in
theorem But.unsent (h : But i p p') (hl : ∀ j ∈ l, j ≠ i) :
    l.filter (fun j => (p'.ledger.entries j).seq.isNone) = l.filter fun j => (p.ledger.entries j).seq.isNone :=
  List.filter_congr fun j hj => by rw [h.entries j (hl j hj)]

omit [DecidableEq K] in
theorem Own.but {e : String × Fold α} (h : app.Own p.ledger e) (hbut : But i p p') (he : e.2.entry ≠ i) : app.Own p'.ledger e := by
  have hsame := hbut.entries _ he
  exact ⟨h.drains, by rw [hsame]; exact h.args, by rw [hsame]; exact h.domain, by rw [hsame]; exact h.key⟩

end

/-- A fold found under a key, and the others. -/
theorem split_folds {b : Backend α} (h : b.Live) {key : String} {f : Fold α} (hf : b.folds.lookup key = some f) :
    ∃ l m, b.folds = l ++ (key, f) :: m ∧ b.folds.filter (·.1 != key) = l ++ m ∧ f.entry ∉ (l ++ m).map (·.2.entry) := by
  obtain ⟨l, m, hl⟩ := List.append_of_mem (Backend.mem_of_lookup hf)
  have hkeys := h.keys
  have hapart := h.apart
  rw [hl, List.map_append, List.map_cons] at hkeys hapart
  obtain ⟨hk, -⟩ := List.nodup_cons.mp (List.nodup_middle.mp hkeys)
  obtain ⟨ha, -⟩ := List.nodup_cons.mp (List.nodup_middle.mp hapart)
  refine ⟨l, m, hl, ?_, by simpa using ha⟩
  rw [← List.map_append] at hk
  have hkeep : ∀ e ∈ l ++ m, (e.1 != key) = true := by
    intro e he
    refine bne_iff_ne.mpr fun heq => hk (List.mem_map.mpr ⟨e, he, heq⟩)
  rw [hl, List.filter_append, List.filter_cons_of_neg (by simp), ← List.filter_append]
  exact List.filter_eq_self.mpr hkeep

/-- What was sent keeps its order where it keeps its seqs. -/
theorem Held.rank (h : app.Held p sent mid) {b : Backend α} (hsame : ∀ j ∈ sent, (b.entries j).seq = (p.ledger.entries j).seq) :
    sent.Pairwise b.SentBefore := by
  refine h.rising.imp_of_mem ?_
  intro j k hj hk hjk
  obtain ⟨s, t, hs, ht, hlt⟩ := hjk
  exact ⟨s, t, (hsame j hj).trans hs, (hsame k hk).trans ht, hlt⟩

/-- The entry dealt the next seq is the last one sent. -/
theorem Held.rise (h : app.Held p sent mid) {b : Backend α} {i : Nat}
    (hsame : ∀ j ∈ sent, (b.entries j).seq = (p.ledger.entries j).seq) (hi : (b.entries i).seq = some (p.ledger.dealSeq + 1))
    (hdeal : b.dealSeq = p.ledger.dealSeq + 1) :
    (sent ++ [i]).Pairwise b.SentBefore ∧ ∀ j ∈ sent ++ [i], ∃ s, (b.entries j).seq = some s ∧ s ≤ b.dealSeq := by
  constructor
  · refine List.pairwise_append.mpr ⟨h.rank hsame, List.pairwise_singleton _ _, ?_⟩
    · intro j hj k hk
      obtain ⟨s, hs, hle⟩ := h.dealt j hj
      rw [List.mem_singleton.mp hk]
      exact ⟨s, _, (hsame j hj).trans hs, hi, by omega⟩
  · intro j hj
    rcases List.mem_append.mp hj with hj | hj
    · obtain ⟨s, hs, hle⟩ := h.dealt j hj
      exact ⟨s, (hsame j hj).trans hs, by omega⟩
    · rw [List.mem_singleton.mp hj]
      exact ⟨_, hi, by omega⟩

/-- What is pending and unsent waits in a fold. -/
theorem Held.pending (h : app.Held p sent mid) {i : Nat} (hi : i ∈ waiting p.ledger) :
    i ∈ p.ledger.pendingMutations ∧ (p.ledger.entries i).seq = none ∧ i ∉ sent := by
  rw [← h.waits] at hi
  obtain ⟨hmem, hnone⟩ := List.mem_filter.mp hi
  rw [Option.isNone_iff_eq_none] at hnone
  refine ⟨hmem, hnone, ?_⟩
  intro hin
  have hsome := ((h.gone i).mp hin).2
  rw [hnone] at hsome
  cases hsome

/-- Flushing a fold sends its entry behind those sent before; nothing shown changes. -/
theorem Held.flushTo (h : app.Held p sent mid) {key : String} {f : Fold α} (hf : p.ledger.folds.lookup key = some f) :
    ∃ mid', app.Held { p with ledger := p.ledger.flushTo key f (resolveDomain app.policy (p.ledger.entries f.entry).name f.args) }
      (sent ++ [f.entry]) mid' := by
  obtain ⟨l, m, hfolds, hrest, hout⟩ := split_folds h.live hf
  have hmem : (key, f) ∈ p.ledger.folds := Backend.mem_of_lookup hf
  have hargs : f.args = (p.ledger.entries f.entry).args := (h.own _ hmem).args
  have hdomain : (p.ledger.entries f.entry).domain = resolveDomain app.policy (p.ledger.entries f.entry).name f.args := by
    rw [hargs]
    exact (h.own _ hmem).domain
  let b' := p.ledger.flushTo key f (resolveDomain app.policy (p.ledger.entries f.entry).name f.args)
  let p' : Predictions env α := { p with ledger := b' }
  have hbut : But f.entry p p' := ⟨rfl, fun i hi => Function.update_of_ne hi _ _, fun _ _ => rfl⟩
  have hself : b'.entries f.entry = { p.ledger.entries f.entry with
      domain := resolveDomain app.policy (p.ledger.entries f.entry).name f.args
      mid := some (p.ledger.nextMid (resolveDomain app.policy (p.ledger.entries f.entry).name f.args))
      seq := some (p.ledger.dealSeq + 1) } := Function.update_self _ _ _
  have hstep : ∀ i, app.entryStep p' i = app.entryStep p i := by
    intro i
    by_cases hi : i = f.entry
    · subst hi
      simp only [entryStep, p', hself, hdomain]
    · rw [entryStep, entryStep, hbut.entries i hi]
  have hwaits : waiting p.ledger = l.map (·.2.entry) ++ f.entry :: m.map (·.2.entry) := by simp [waiting, hfolds]
  have hwaits' : waiting b' = l.map (·.2.entry) ++ m.map (·.2.entry) := by
    simp only [waiting, b', Backend.flushTo, hrest, List.map_append]
  have hwait : f.entry ∈ waiting p.ledger := List.mem_map.mpr ⟨_, hmem, rfl⟩
  obtain ⟨hpend, hseq, hnotin⟩ := h.pending hwait
  have hfront := h.after
  rw [hwaits, List.map_append, List.map_cons] at hfront
  have hpair := h.apart
  rw [hwaits] at hpair
  obtain ⟨mid', hact, hchain⟩ := hfront.front Env.look_ext (by
    intro c hc
    obtain ⟨i, hi, rfl⟩ := List.mem_map.mp hc
    exact (List.pairwise_append.mp hpair).2.2 i hi f.entry List.mem_cons_self)
  obtain ⟨hrise, hdealt⟩ := h.rise (b := b') (i := f.entry) (fun j hj => congrArg _ (hbut.entries j fun hji => hnotin (hji ▸ hj)))
    (by rw [hself]) rfl
  refine ⟨mid', ⟨?_, ?_, hrise, hdealt, ?_, ?_, ?_, ?_, ?_⟩⟩
  · exact Backend.move_live (a := Backend.anything) (.flush p.ledger key f _ hf trivial) h.live
  · intro i
    by_cases hi : i = f.entry
    · subst hi
      simp [Backend.flushTo, hpend]
    · rw [List.mem_append, List.mem_singleton, h.gone]
      simp [hi, Backend.flushTo]
  · have hfilter : p.ledger.pendingMutations.filter (fun i => (b'.entries i).seq.isNone) =
        (p.ledger.pendingMutations.filter fun i => (p.ledger.entries i).seq.isNone).filter (· != f.entry) := by
      rw [List.filter_filter]
      refine List.filter_congr ?_
      intro i _
      by_cases hi : i = f.entry
      · subst hi
        simp [hself]
      · have hsame : b'.entries i = p.ledger.entries i := hbut.entries i hi
        simp [hsame, hi]
    show p.ledger.pendingMutations.filter (fun i => (b'.entries i).seq.isNone) = waiting b'
    rw [hfilter, h.waits, hwaits, hwaits', List.filter_append, List.filter_cons_of_neg (by simp), ← List.filter_append,
      ← List.map_append]
    exact List.filter_eq_self.mpr fun i hi => bne_iff_ne.mpr fun heq => hout (heq ▸ hi)
  · intro e he
    have he' : e ∈ l ++ m := by
      rw [← hrest]
      exact he
    exact (h.own e (List.mem_filter.mp (hrest ▸ he')).1).but hbut fun heq => hout (List.mem_map.mpr ⟨e, he', heq⟩)
  · rw [List.map_append, List.map_congr_left fun i _ => hstep i]
    refine h.before.append (.cons ?_ (.nil _))
    rw [hstep]
    exact hact.acts
  · show Chain Env.look ((waiting b').map (app.entryStep p')) mid' p.head
    rw [hwaits', List.map_congr_left fun i _ => hstep i, List.map_append]
    exact hchain
  · show (waiting b').Pairwise fun i j => Apart (p.foot i) (p.foot j)
    rw [hwaits']
    exact hpair.sublist (List.Sublist.append_left (List.sublist_cons_self _ _) _)

theorem Held.flushFold (h : app.Held p sent mid) (key : String) :
    ∃ sent' mid', app.Held { p with ledger := p.ledger.flushFold app.policy key } sent' mid' := by
  rw [Backend.flushFold_eq]
  cases hf : p.ledger.folds.lookup key with
  | none => exact ⟨sent, mid, h⟩
  | some f => exact ⟨_, h.flushTo hf⟩

theorem Held.flushKeys (h : app.Held p sent mid) (keys : List String) :
    ∃ sent' mid', app.Held { p with ledger := keys.foldl (fun b key => b.flushFold app.policy key) p.ledger } sent' mid' := by
  induction keys generalizing p sent mid with
  | nil => exact ⟨sent, mid, h⟩
  | cons key keys ih =>
    obtain ⟨sent', mid', h'⟩ := h.flushFold key
    exact ih h'

/-- What makes the entry of an invocation's prediction: handles dealt earlier are not touched. -/
theorem Held.fresh (h : app.Held p sent mid) {i : Nat} (hi : i ∈ sent ∨ i ∈ waiting p.ledger) : i ≠ p.ledger.created := by
  have hpend : i ∈ p.ledger.pendingMutations := by
    rcases hi with hi | hi
    · exact ((h.gone i).mp hi).1
    · exact (h.pending hi).1
  have := h.live.lt i hpend
  omega

variable {name domain : String} {head : env.Contents} {touched : List String} {x : Footprint (Place K)}

/-- An invocation apart from every open fold is sent at once. -/
theorem Held.issue (h : app.Held p sent mid) {args : α}
    (hrun : Confined Env.look (app.stepOf name args domain x touched) p.head head)
    (hx : ∀ i ∈ waiting p.ledger, Apart (p.foot i) x) :
    ∃ sent' mid', app.Held
      { p with
        ledger := p.ledger.issue domain name args touched .invoked
        head := head
        foot := Function.update p.foot p.ledger.created x } sent' mid' := by
  let b' := p.ledger.issue domain name args touched .invoked
  let p' : Predictions env α := { p with ledger := b', head := head, foot := Function.update p.foot p.ledger.created x }
  have hbut : But p.ledger.created p p' := ⟨rfl, fun i hi => Function.update_of_ne hi _ _, fun i hi => Function.update_of_ne hi _ _⟩
  have hself : b'.entries p.ledger.created = ⟨some (p.ledger.nextMid domain), some (p.ledger.dealSeq + 1),
      name, args, domain, touched⟩ := Function.update_self _ _ _
  have hnew : app.entryStep p' p.ledger.created = app.stepOf name args domain x touched := by
    simp only [entryStep, p', hself, Function.update_self]
  have hsent : ∀ i ∈ sent, i ≠ p.ledger.created := fun i hi => h.fresh (.inl hi)
  have hwait : ∀ i ∈ waiting p.ledger, i ≠ p.ledger.created := fun i hi => h.fresh (.inr hi)
  obtain ⟨hrise, hdealt⟩ := h.rise (b := b') (i := p.ledger.created) (fun j hj => congrArg _ (hbut.entries j (hsent j hj)))
    (by rw [hself]) rfl
  obtain ⟨mid', hact, hchain⟩ := h.after.before Env.look_ext hrun (by
    intro c hc
    obtain ⟨i, hi, rfl⟩ := List.mem_map.mp hc
    exact hx i hi)
  refine ⟨sent ++ [p.ledger.created], mid', ⟨?_, ?_, hrise, hdealt, ?_, ?_, ?_, ?_, ?_⟩⟩
  · exact Backend.move_live (a := Backend.anything) (.issue p.ledger _ name args touched .invoked trivial (.inl rfl)) h.live
  · intro i
    show i ∈ sent ++ [p.ledger.created] ↔ i ∈ p.ledger.pendingMutations ++ [p.ledger.created] ∧ (b'.entries i).seq.isSome = true
    by_cases hi : i = p.ledger.created
    · subst hi
      simp [hself]
    · have hsame : b'.entries i = p.ledger.entries i := hbut.entries i hi
      simp [h.gone, hsame, hi]
  · show (p.ledger.pendingMutations ++ [p.ledger.created]).filter (fun i => (b'.entries i).seq.isNone) = waiting p.ledger
    rw [List.filter_append, List.filter_cons_of_neg (by simp [hself]), List.filter_nil, List.append_nil, ← h.waits]
    exact hbut.unsent fun i hi => Nat.ne_of_lt (h.live.lt i hi)
  · exact fun e he => (h.own e he).but hbut (hwait _ (List.mem_map.mpr ⟨e, he, rfl⟩))
  · show Executes ((sent ++ [p.ledger.created]).map (app.entryStep p')) p.base mid'
    rw [List.map_append, hbut.steps hsent]
    refine h.before.append (.cons ?_ (.nil _))
    rw [hnew]
    exact hact.acts
  · show Chain Env.look ((waiting p.ledger).map (app.entryStep p')) mid' head
    rw [hbut.steps hwait]
    exact hchain
  · exact hbut.apart hwait h.apart

/-- A folded invocation under a new key waits last. -/
theorem Held.openFold (h : app.Held p sent mid) {key : StableJson} {args : α}
    (hdomain : domain = resolveDomain app.policy name args) (hkey : p.ledger.folds.lookup (foldKey name key) = none)
    (hrun : Confined Env.look (app.stepOf name args domain x touched) p.head head)
    (hx : ∀ i ∈ waiting p.ledger, Apart (p.foot i) x) :
    app.Held
      { p with
        ledger := p.ledger.openFold (foldKey name key) name args domain touched false
        head := head
        foot := Function.update p.foot p.ledger.created x } sent mid := by
  let b' := p.ledger.openFold (foldKey name key) name args domain touched false
  let p' : Predictions env α := { p with ledger := b', head := head, foot := Function.update p.foot p.ledger.created x }
  have hbut : But p.ledger.created p p' := ⟨rfl, fun i hi => Function.update_of_ne hi _ _, fun i hi => Function.update_of_ne hi _ _⟩
  have hself : b'.entries p.ledger.created = ⟨none, none, name, args, domain, touched⟩ :=
    Function.update_self _ _ _
  have hnew : app.entryStep p' p.ledger.created = app.stepOf name args domain x touched := by
    simp only [entryStep, p', hself, Function.update_self]
  have hsent : ∀ i ∈ sent, i ≠ p.ledger.created := fun i hi => h.fresh (.inl hi)
  have hwait : ∀ i ∈ waiting p.ledger, i ≠ p.ledger.created := fun i hi => h.fresh (.inr hi)
  have hwaits' : waiting b' = waiting p.ledger ++ [p.ledger.created] := by simp [waiting, b', Backend.openFold]
  have hseqs : ∀ i ∈ sent, (b'.entries i).seq = (p.ledger.entries i).seq := fun i hi => congrArg _ (hbut.entries i (hsent i hi))
  refine ⟨?_, ?_, h.rank hseqs, fun i hi => (hseqs i hi).symm ▸ h.dealt i hi, ?_, ?_, ?_, ?_, ?_⟩
  · exact Backend.move_live (a := Backend.anything) (.opened p.ledger _ name args _ touched false hkey) h.live
  · intro i
    show i ∈ sent ↔ i ∈ p.ledger.pendingMutations ++ [p.ledger.created] ∧ (b'.entries i).seq.isSome = true
    by_cases hi : i = p.ledger.created
    · subst hi
      simpa [hself] using fun hin => hsent _ hin rfl
    · have hsame : b'.entries i = p.ledger.entries i := hbut.entries i hi
      simp [h.gone, hsame, hi]
  · show (p.ledger.pendingMutations ++ [p.ledger.created]).filter (fun i => (b'.entries i).seq.isNone) = waiting b'
    rw [hwaits', List.filter_append, List.filter_cons_of_pos (by simp [hself]), List.filter_nil, ← h.waits]
    exact congrArg (· ++ [p.ledger.created]) (hbut.unsent fun i hi => Nat.ne_of_lt (h.live.lt i hi))
  · intro e he
    rcases List.mem_append.mp he with he | he
    · exact (h.own e he).but hbut (hwait _ (List.mem_map.mpr ⟨e, he, rfl⟩))
    · obtain rfl := List.mem_singleton.mp he
      exact ⟨rfl, by rw [hself], by rw [hself]; exact hdomain, key, by rw [hself]⟩
  · show Executes (sent.map (app.entryStep p')) p.base mid
    rw [hbut.steps hsent]
    exact h.before
  · show Chain Env.look ((waiting b').map (app.entryStep p')) mid head
    rw [hwaits', List.map_append, hbut.steps hwait]
    refine h.after.append (.cons ?_ (.nil _))
    rw [hnew]
    exact hrun
  · show (waiting b').Pairwise fun i j => Apart (p'.foot i) (p'.foot j)
    rw [hwaits']
    refine List.pairwise_append.mpr ⟨hbut.apart hwait h.apart, List.pairwise_singleton _ _, ?_⟩
    intro i hi j hj
    rw [List.mem_singleton.mp hj]
    simpa only [p', Function.update_of_ne (hwait i hi), Function.update_self] using hx i hi

/-- A folded invocation under an open key that covers the last prediction takes its place. -/
theorem Held.refold (h : app.Held p sent mid) {key : StableJson} {f : Fold α} {args : α}
    (hdomain : domain = resolveDomain app.policy name args) (hf : p.ledger.folds.lookup (foldKey name key) = some f)
    (hrun : Confined Env.look (app.stepOf name args domain x touched) p.head head)
    (hx : ∀ e ∈ p.ledger.folds, e.1 ≠ foldKey name key → Apart (p.foot e.2.entry) x) (hcov : Covers x (p.foot f.entry)) :
    app.Held
      { p with
        ledger := p.ledger.refold (foldKey name key) f args domain touched
        head := head
        foot := Function.update p.foot f.entry x } sent mid := by
  let b' := p.ledger.refold (foldKey name key) f args domain touched
  let p' : Predictions env α := { p with ledger := b', head := head, foot := Function.update p.foot f.entry x }
  obtain ⟨l, m, hfolds, hrest, hout⟩ := split_folds h.live hf
  have hmem : (foldKey name key, f) ∈ p.ledger.folds := Backend.mem_of_lookup hf
  have hname : (p.ledger.entries f.entry).name = name := by
    obtain ⟨key', hkey'⟩ := (h.own _ hmem).key
    exact (foldKey_name hkey').symm
  obtain ⟨hpend, hseq, hnotin⟩ := h.pending (List.mem_map.mpr ⟨_, hmem, rfl⟩)
  have hbut : But f.entry p p' := ⟨rfl, fun i hi => Function.update_of_ne hi _ _, fun i hi => Function.update_of_ne hi _ _⟩
  have hself : b'.entries f.entry = { p.ledger.entries f.entry with
      args := args, touched := touched, domain := domain } := Function.update_self _ _ _
  have hname' : (b'.entries f.entry).name = name := by
    rw [hself]
    exact hname
  have hseqs : ∀ i, (b'.entries i).seq = (p.ledger.entries i).seq := by
    intro i
    by_cases hi : i = f.entry
    · subst hi
      rw [hself]
    · exact congrArg _ (hbut.entries i hi)
  have hnew : app.entryStep p' f.entry = app.stepOf name args domain x touched := by
    simp only [entryStep, p', hself, hname, Function.update_self]
  have hsent : ∀ i ∈ sent, i ≠ f.entry := fun i hi heq => hnotin (heq ▸ hi)
  have hl : ∀ i ∈ l.map (·.2.entry), i ≠ f.entry := by
    intro i hi heq
    exact hout (heq ▸ List.map_append ▸ List.mem_append_left _ hi)
  have hm : ∀ i ∈ m.map (·.2.entry), i ≠ f.entry := by
    intro i hi heq
    exact hout (heq ▸ List.map_append ▸ List.mem_append_right _ hi)
  have hrefolded : ∀ e ∈ p.ledger.folds, (if e.1 == foldKey name key then (foldKey name key, { f with args := args }) else e).2.entry =
      e.2.entry := by
    intro e he
    by_cases hk : e.1 = foldKey name key
    · have heq : e = (foldKey name key, f) := List.inj_on_of_nodup_map h.live.keys he hmem hk
      simp [heq]
    · simp [hk]
  have hwaits : waiting p.ledger = l.map (·.2.entry) ++ f.entry :: m.map (·.2.entry) := by simp [waiting, hfolds]
  have hwaits' : waiting b' = waiting p.ledger := by
    simp only [waiting, b', Backend.refold, List.map_map]
    exact List.map_congr_left fun e he => hrefolded e he
  have hpair := h.apart
  rw [hwaits] at hpair
  obtain ⟨hpl, hpm, hplm⟩ := List.pairwise_append.mp hpair
  obtain ⟨hfm, hmm⟩ := List.pairwise_cons.mp hpm
  have hxl : ∀ i ∈ l.map (·.2.entry) ++ m.map (·.2.entry), Apart (p.foot i) x := by
    intro i hi
    rw [← List.map_append] at hi
    obtain ⟨e, he, rfl⟩ := List.mem_map.mp hi
    have hin := List.mem_filter.mp (hrest ▸ he)
    exact hx e hin.1 (by simpa using hin.2)
  refine ⟨?_, ?_, h.rank fun i _ => hseqs i, fun i hi => (hseqs i).symm ▸ h.dealt i hi, ?_, ?_, ?_, ?_, ?_⟩
  · exact Backend.move_live (a := Backend.anything) (.refold p.ledger _ f args _ touched hf) h.live
  · intro i
    show i ∈ sent ↔ i ∈ p.ledger.pendingMutations ∧ (b'.entries i).seq.isSome = true
    rw [hseqs]
    exact h.gone i
  · show p.ledger.pendingMutations.filter (fun i => (b'.entries i).seq.isNone) = waiting b'
    simp only [hseqs]
    rw [hwaits', h.waits]
  · intro e he
    obtain ⟨e₀, he₀, rfl⟩ := List.mem_map.mp he
    by_cases hk : e₀.1 = foldKey name key
    · have heq : e₀ = (foldKey name key, f) := List.inj_on_of_nodup_map h.live.keys he₀ hmem hk
      subst heq
      simp only [beq_self_eq_true, if_true]
      refine ⟨(h.own _ hmem).drains, (congrArg PendingMutation.args hself).symm, ?_, key, congrArg (foldKey · key) hname'.symm⟩
      show (b'.entries f.entry).domain = resolveDomain app.policy (b'.entries f.entry).name (b'.entries f.entry).args
      rw [hname', hself]
      exact hdomain
    · have hbeq : (e₀.1 == foldKey name key) = false := by simpa using hk
      simp only [hbeq, Bool.false_eq_true, if_false]
      exact (h.own e₀ he₀).but hbut fun heq => hk (congrArg Prod.fst (h.live.fold_inj he₀ hmem heq))
  · show Executes (sent.map (app.entryStep p')) p.base mid
    rw [hbut.steps hsent]
    exact h.before
  · show Chain Env.look ((waiting b').map (app.entryStep p')) mid head
    have hchain := h.after
    rw [hwaits, List.map_append, List.map_cons] at hchain
    rw [hwaits', hwaits, List.map_append, List.map_cons, hbut.steps hl, hbut.steps hm, hnew]
    refine hchain.supersede Env.look_ext hrun hcov ?_ ?_
    · intro c hc
      obtain ⟨i, hi, rfl⟩ := List.mem_map.mp hc
      exact hfm i hi
    · intro c hc
      obtain ⟨i, hi, rfl⟩ := List.mem_map.mp hc
      exact (hxl i (List.mem_append_right _ hi)).symm
  · show (waiting b').Pairwise fun i j => Apart (p'.foot i) (p'.foot j)
    rw [hwaits', hwaits]
    refine List.pairwise_append.mpr ⟨hbut.apart hl hpl, List.pairwise_cons.mpr ⟨?_, hbut.apart hm hmm⟩, ?_⟩
    · intro i hi
      simpa only [p', Function.update_self, Function.update_of_ne (hm i hi)] using (hxl i (List.mem_append_right _ hi)).symm
    · intro i hi j hj
      rcases List.mem_cons.mp hj with hj | hj
      · subst hj
        simpa only [p', Function.update_self, Function.update_of_ne (hl i hi)] using hxl i (List.mem_append_left _ hi)
      · simpa only [p', Function.update_of_ne (hl i hi), Function.update_of_ne (hm j hj)] using hplm i hi j (List.mem_cons_of_mem _ hj)

/-! ## The cycle -/

/-- Re-invocations that go as they went leave what they left. -/
theorem replay_of_executes (order : List Nat) {rows last : env.Contents}
    (h : Executes (order.map (app.entryStep p)) rows last) :
    app.replay p.ledger order rows = (last, order.map fun i => (i, .ok (p.ledger.entries i).touched)) := by
  induction order generalizing rows with
  | nil =>
    cases h
    rfl
  | cons i order ih =>
    cases h with
    | cons hact hrest =>
      have hact' : app.attempt (p.ledger.entries i).name (p.ledger.entries i).args (p.ledger.entries i).domain false rows = .ok _ := hact
      rw [replay, hact']
      simp only
      rw [ih hrest]
      rfl

theorem lookup_map_self {β : Type} (order : List Nat) (f : Nat → β) {i : Nat} (hi : i ∈ order) :
    (order.map fun i => (i, f i)).lookup i = some (f i) := by
  induction order with
  | nil => cases hi
  | cons j order ih =>
    rw [List.map_cons, List.lookup_cons]
    by_cases hij : i = j
    · subst hij
      simp
    · rw [beq_false_of_ne hij]
      exact ih ((List.mem_cons.mp hi).resolve_left hij)

/-- A re-invocation that touched the tables of the last one leaves its entry as it was. -/
theorem touch_same (b : Backend α) (i : Nat) : b.touch i (b.entries i).touched = b := by
  have hnone : (b.entries i).touched.filter (fun t => !(b.entries i).touched.contains t) = [] := by
    refine List.filter_eq_nil_iff.mpr ?_
    intro t ht
    simp [ht]
  simp only [Backend.touch, hnone, List.append_nil, Backend.setEntry, Function.update_eq_self]

theorem reconcile_ledger (b : Backend α) (rerun : Nat → Ran) (h : ∀ i ∈ b.replayOrder, rerun i = .ok (b.entries i).touched) :
    b.runReconcileCycle rerun = b := by
  have key : ∀ order : List Nat, (∀ i ∈ order, rerun i = .ok (b.entries i).touched) →
      order.foldl (Backend.reinvoke rerun) (b, []) = (b, []) := by
    intro order
    induction order with
    | nil => intro _; rfl
    | cons i order ih =>
      intro ho
      have hstep : Backend.reinvoke rerun (b, []) i = (b, []) := by
        simp only [Backend.reinvoke, ho i List.mem_cons_self, touch_same]
      rw [List.foldl_cons, hstep]
      exact ih fun j hj => ho j (List.mem_cons_of_mem _ hj)
  simp [Backend.runReconcileCycle, key _ h]

theorem Held.reconcile (h : app.Held p sent mid) : app.reconcile p = p := by
  have horder := Backend.replayOrder_eq h.live.nodup h.gone h.rising h.waits
  have hruns : Executes (p.ledger.replayOrder.map (app.entryStep p)) p.base p.head := by
    rw [horder, List.map_append]
    exact h.before.append h.after.executes
  have hreplay := replay_of_executes p.ledger.replayOrder hruns
  have hledger := reconcile_ledger p.ledger
    (fun i => ((p.ledger.replayOrder.map fun i => (i, (.ok (p.ledger.entries i).touched : Ran))).lookup i).getD (.ok [])) (by
      intro i hi
      rw [lookup_map_self p.ledger.replayOrder _ hi]
      rfl)
  simp only [App.reconcile, hreplay, hledger]

/-! ## Runs -/

theorem flushKeys_created (b : Backend α) (policy : Policy α) (keys : List String) :
    (keys.foldl (fun b key => b.flushFold policy key) b).created = b.created := by
  induction keys generalizing b with
  | nil => rfl
  | cons key keys ih =>
    rw [List.foldl_cons, ih, Backend.flushFold_eq]
    cases b.folds.lookup key <;> rfl

theorem Held.step (h : app.Held p sent mid) {a : Act α} (hok : app.Meets p a x) :
    ∃ sent' mid', app.Held (app.step p a x) sent' mid' := by
  cases a with
  | invoke name args =>
    simp only [App.step, App.invoke]
    cases hrun : app.attempt name args (resolveDomain app.policy name args) false p.head with
    | error e => exact ⟨sent, mid, h⟩
    | ok out =>
      obtain ⟨head, touched⟩ := out
      obtain ⟨hconf, hx⟩ := hok head touched hrun
      simp only [Backend.invokeWith_ok, Option.getD_none]
      rw [Backend.drainOverlapping_eq] at hx ⊢
      obtain ⟨sent', mid', h'⟩ := h.flushKeys (p.ledger.drained touched)
      rw [← flushKeys_created p.ledger app.policy (p.ledger.drained touched)]
      refine h'.issue hconf ?_
      intro i hi
      obtain ⟨e, he, rfl⟩ := List.mem_map.mp hi
      exact hx e he
  | invokeFolded name key args due =>
    simp only [App.step, App.invokeFolded]
    cases hrun : app.attempt name args (resolveDomain app.policy name args) true p.head with
    | error e => exact ⟨sent, mid, h⟩
    | ok out =>
      obtain ⟨head, touched⟩ := out
      obtain ⟨hconf, hx, hcov⟩ := hok head touched hrun
      simp only [Backend.invokeFolded, slotOf]
      cases hf : p.ledger.folds.lookup (foldKey name key) with
      | some f =>
        have h' := h.refold rfl hf hconf hx (hcov f hf)
        cases due with
        | false => exact ⟨sent, mid, h'⟩
        | true => exact h'.flushFold (foldKey name key)
      | none =>
        have h' := h.openFold rfl hf hconf (by
          intro i hi
          obtain ⟨e, he, rfl⟩ := List.mem_map.mp hi
          refine hx e he ?_
          intro hk
          exact Backend.not_mem_keys_of_lookup hf (List.mem_map.mpr ⟨e, he, hk⟩))
        cases due with
        | false => exact ⟨sent, mid, h'⟩
        | true => exact h'.flushFold (foldKey name key)
  | flushFold foldKey => exact h.flushFold foldKey
  | flushFolds => exact h.flushKeys (p.ledger.folds.map (·.1))
  | reconcile =>
    rw [App.step, h.reconcile]
    exact ⟨sent, mid, h⟩

end App

end Rindle.Mutations
