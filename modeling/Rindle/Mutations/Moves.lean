/-
  Rindle.Mutations.Moves — what one event can do to the ledger, as a sequence of moves.

  Every event is a run of a few moves: a fold opened, overwritten or flushed, a mutation
  issued, an entry flipped to the daemon, a confirmation folded, the covered entries
  retired, an entry dropped whose re-invocation threw. `Allow` says which deals,
  confirmations and drops a run may make; an invariant is then one case a move.
-/

import Rindle.Mutations.Ledger
import Mathlib.Logic.Relation

namespace Rindle.Mutations

variable {α : Type}

namespace Backend

/-- A new entry under the domain's next mid, and its envelope. -/
def issue (b : Backend α) (domain name : String) (args : α) (touched : List String) (origin : Origin) : Backend α :=
  { b with
    entries := Function.update b.entries b.created ⟨some (b.nextMid domain), some (b.dealSeq + 1), name, args, domain, touched⟩
    created := b.created + 1
    pendingMutations := b.pendingMutations ++ [b.created]
    nextMid := Function.update b.nextMid domain (b.nextMid domain + 1)
    dealSeq := b.dealSeq + 1
    log := b.log ++ [.dealt domain (b.nextMid domain)] ++ [.sent domain ⟨b.nextMid domain, name, args⟩ origin] }

/-- The fold `f`, open under `foldKey`, flushed to the domain. -/
def flushTo (b : Backend α) (foldKey : String) (f : Fold α) (domain : String) : Backend α :=
  { b with
    entries := Function.update b.entries f.entry
      { b.entries f.entry with domain := domain, mid := some (b.nextMid domain), seq := some (b.dealSeq + 1) }
    folds := b.folds.filter (·.1 != foldKey)
    nextMid := Function.update b.nextMid domain (b.nextMid domain + 1)
    dealSeq := b.dealSeq + 1
    log := b.log ++ [.dealt domain (b.nextMid domain)] ++
      [.sent domain ⟨b.nextMid domain, (b.entries f.entry).name, f.args⟩ .flushed] }

theorem flushFold_eq (b : Backend α) (policy : Policy α) (foldKey : String) :
    b.flushFold policy foldKey = match b.folds.lookup foldKey with
      | none => b
      | some f => b.flushTo foldKey f (resolveDomain policy (b.entries f.entry).name f.args) := by
  unfold flushFold
  cases b.folds.lookup foldKey <;> rfl

theorem invokeWith_ok (b : Backend α) (policy : Policy α) (name : String) (args : α) (pin : Option String) (touched : List String)
    (origin : Origin) :
    b.invokeWith policy name args pin (.ok touched) origin =
      .ok ((b.drainOverlapping policy touched).issue (pin.getD (resolveDomain policy name args)) name args touched origin) := rfl

end Backend

/-- An output that only notes something. -/
def Output.IsNote : Output α → Prop
  | .heard _ _ _ | .resent _ _ | .rejected _ _ _ => True
  | _ => False

/-- What a run may do: drop pending entries, deal a domain's mid, fold a confirmation, act on outcomes. -/
structure Allow where
  lossy : Prop
  deal : String → Nat → Prop
  confirm : String → Nat → Prop
  outcomes : Prop

inductive Move (a : Allow) : Backend α → Backend α → Prop
  | again (b : Backend α) (domain : String) (e : MutationEnvelope α) : Move a b (b.record (.resent domain e))
  | note (b : Backend α) (o : Output α) (processed : String → List Nat) :
      o.IsNote → a.outcomes → Move a b { b with outcomesProcessed := processed, log := b.log ++ [o] }
  | touch (b : Backend α) (i : Nat) (touched : List String) : Move a b (b.setEntry i { b.entries i with touched := touched })
  | opened (b : Backend α) (foldKey name : String) (args : α) (domain : String) (touched : List String) (deferred : Bool) :
      b.folds.lookup foldKey = none → Move a b (b.openFold foldKey name args domain touched deferred)
  | refold (b : Backend α) (foldKey : String) (f : Fold α) (args : α) (domain : String) (touched : List String) :
      b.folds.lookup foldKey = some f → Move a b (b.refold foldKey f args domain touched)
  | issue (b : Backend α) (domain name : String) (args : α) (touched : List String) (origin : Origin) :
      a.deal domain (b.nextMid domain) → (origin = .invoked ∨ a.outcomes) → Move a b (b.issue domain name args touched origin)
  | flush (b : Backend α) (foldKey : String) (f : Fold α) (domain : String) :
      b.folds.lookup foldKey = some f → a.deal domain (b.nextMid domain) → Move a b (b.flushTo foldKey f domain)
  | flip (b : Backend α) (domain : String) (mid i : Nat) :
      b.find domain mid = some i → a.deal "daemon" (b.nextMid "daemon") → a.outcomes → Move a b (b.flip domain mid i)
  | confirm (b b' : Backend α) (domain : String) (lmid : Nat) :
      b.foldConfirm domain lmid = some b' → a.confirm domain lmid → Move a b b'
  | retire (b : Backend α) : Move a b b.confirmDrop
  | drop (b : Backend α) (keep : Nat → Bool) : a.lossy → Move a b { b with pendingMutations := b.pendingMutations.filter keep }

abbrev Moves (a : Allow) : Backend α → Backend α → Prop := Relation.ReflTransGen (Move a)

/-- What every move keeps, every run of moves keeps. -/
theorem Moves.keeps {a : Allow} {I : Backend α → Prop} (h : ∀ b b', Move a b b' → I b → I b') {b b' : Backend α} (hb : Moves a b b') :
    I b → I b' := by
  intro hi
  induction hb with
  | refl => exact hi
  | tail _ hm ih => exact h _ _ hm ih

namespace Backend

variable {a : Allow}

/-! ## Flushes -/

variable (b : Backend α) (rerun : Nat → Ran) (e : Policy α × Event α) (policy : Policy α) (foldKey : String) (domain : String)
  (tables : List String)

/-- The domain the fold `f` would be flushed to. -/
def foldDomain (f : Fold α) : String := resolveDomain policy (b.entries f.entry).name f.args

/-- The domains that flushing the folds under `keys` deals in. -/
def flushesInto (keys : List String) : List String :=
  (keys.filterMap fun key => b.folds.lookup key).map (b.foldDomain policy)

/-- The folds an invocation that touched `tables` flushes first. -/
def drained : List String :=
  (b.folds.filter fun e => !e.2.deferAcrossWrites && intersects (b.entries e.2.entry).touched tables).map (·.1)

/-- What flushes leave alone. -/
structure Flushed (b b' : Backend α) : Prop where
  name : ∀ i, (b'.entries i).name = (b.entries i).name
  touched : ∀ i, (b'.entries i).touched = (b.entries i).touched
  nextMid : ∀ d, b.nextMid d ≤ b'.nextMid d
  lookup : ∀ k f, b'.folds.lookup k = some f → b.folds.lookup k = some f

theorem Flushed.refl : Flushed b b := ⟨fun _ => rfl, fun _ => rfl, fun _ => Nat.le_refl _, fun _ _ h => h⟩

theorem Flushed.trans {b c d : Backend α} (h : Flushed b c) (h' : Flushed c d) : Flushed b d :=
  ⟨fun i => (h'.name i).trans (h.name i), fun i => (h'.touched i).trans (h.touched i),
    fun x => Nat.le_trans (h.nextMid x) (h'.nextMid x), fun k f hf => h.lookup k f (h'.lookup k f hf)⟩

theorem lookup_filter_ne {β : Type} (l : List (String × β)) (key k : String) :
    (l.filter (·.1 != key)).lookup k = if k = key then none else l.lookup k := by
  induction l with
  | nil => simp
  | cons e l ih =>
    obtain ⟨x, v⟩ := e
    by_cases hx : x = key
    · subst hx
      rw [List.filter_cons_of_neg (by simp), ih]
      by_cases hk : k = x
      · rw [if_pos hk, if_pos hk]
      · rw [if_neg hk, if_neg hk, List.lookup_cons, beq_false_of_ne hk]
    · rw [List.filter_cons_of_pos (by simpa using hx), List.lookup_cons, List.lookup_cons]
      by_cases hk : k = x
      · subst hk
        simp [hx]
      · rw [beq_false_of_ne hk]
        exact ih

theorem flushTo_flushed (f : Fold α) (domain : String) : Flushed b (b.flushTo foldKey f domain) := by
  refine ⟨?_, ?_, ?_, ?_⟩
  · intro i
    by_cases hi : i = f.entry
    · simp [flushTo, hi]
    · simp [flushTo, hi]
  · intro i
    by_cases hi : i = f.entry
    · simp [flushTo, hi]
    · simp [flushTo, hi]
  · intro d
    by_cases hd : d = domain
    · simp [flushTo, hd]
    · simp [flushTo, hd]
  · intro k g hg
    simp only [flushTo, lookup_filter_ne] at hg
    split at hg
    · cases hg
    · exact hg

theorem flushFold_flushed : Flushed b (b.flushFold policy foldKey) := by
  rw [flushFold_eq]
  split
  · exact .refl b
  · exact flushTo_flushed b foldKey _ _

theorem flushFold_moves
    (h : ∀ f, b.folds.lookup foldKey = some f → a.deal (b.foldDomain policy f) (b.nextMid (b.foldDomain policy f))) :
    Moves a b (b.flushFold policy foldKey) := by
  rw [flushFold_eq]
  cases hf : b.folds.lookup foldKey with
  | none => exact .refl
  | some f => exact .single (.flush b foldKey f _ hf (h f hf))

/-- Flushing fold after fold, each deal allowed by the state the flushes began in. -/
theorem flushKeys_moves {b : Backend α} (keys : List String)
    (h : ∀ d ∈ b.flushesInto policy keys, ∀ m, b.nextMid d ≤ m → a.deal d m) {c : Backend α} (hc : Flushed b c) :
    Moves a c (keys.foldl (fun b key => b.flushFold policy key) c) ∧
      Flushed b (keys.foldl (fun b key => b.flushFold policy key) c) := by
  induction keys generalizing c with
  | nil => exact ⟨.refl, hc⟩
  | cons key keys ih =>
    have hhead : Moves a c (c.flushFold policy key) := by
      refine flushFold_moves c policy key ?_
      intro f hf
      have hdom : c.foldDomain policy f = b.foldDomain policy f := by simp only [foldDomain, hc.name]
      rw [hdom]
      refine h _ ?_ _ (hc.nextMid _)
      refine List.mem_map.mpr ⟨f, List.mem_filterMap.mpr ⟨key, List.mem_cons_self, hc.lookup key f hf⟩, rfl⟩
    have htail : ∀ d ∈ b.flushesInto policy keys, ∀ m, b.nextMid d ≤ m → a.deal d m := by
      intro d hd
      obtain ⟨f, hf, hfd⟩ := List.mem_map.mp hd
      obtain ⟨k, hk, hkf⟩ := List.mem_filterMap.mp hf
      exact h d (List.mem_map.mpr ⟨f, List.mem_filterMap.mpr ⟨k, List.mem_cons_of_mem _ hk, hkf⟩, hfd⟩)
    obtain ⟨hm, hfl⟩ := ih htail (hc.trans (flushFold_flushed c policy key))
    exact ⟨hhead.trans hm, hfl⟩

/-- Draining is flushing the overlapping folds in turn: no flush changes what another fold touches. -/
theorem drainOverlapping_eq :
    b.drainOverlapping policy tables = (b.drained tables).foldl (fun b key => b.flushFold policy key) b := by
  have key : ∀ (l : List (String × Fold α)) (c : Backend α), Flushed b c →
      l.foldl (drainOne policy tables) c =
        ((l.filter fun e => !e.2.deferAcrossWrites && intersects (b.entries e.2.entry).touched tables).map (·.1)).foldl
          (fun b key => b.flushFold policy key) c := by
    intro l
    induction l with
    | nil => intro c _; rfl
    | cons e l ih =>
      intro c hc
      rw [List.foldl_cons, drainOne, hc.touched]
      by_cases hd : e.2.deferAcrossWrites = true
      · rw [if_pos hd, ih c hc, List.filter_cons_of_neg (by simp [hd])]
      · rw [if_neg hd]
        by_cases ht : intersects (b.entries e.2.entry).touched tables = true
        · rw [if_pos ht, List.filter_cons_of_pos (by simp [hd, ht]), ih _ (hc.trans (flushFold_flushed c policy e.1))]
          rfl
        · rw [if_neg ht, ih c hc, List.filter_cons_of_neg (by simp [ht])]
  exact key b.folds b (.refl b)

/-! ## Invocations -/

/-- The domains an invocation that touched `tables` deals in. -/
def invokesInto : List String :=
  b.flushesInto policy (b.drained tables) ++ [domain]

theorem invokeWith_moves {b b' : Backend α} {policy : Policy α} {name : String} {args : α} {pin : Option String} {ran : Ran}
    {origin : Origin} (hb : b.invokeWith policy name args pin ran origin = .ok b') (ho : origin = .invoked ∨ a.outcomes)
    (h : ∀ touched, ran = .ok touched → ∀ d ∈ b.invokesInto policy (pin.getD (resolveDomain policy name args)) touched,
      ∀ m, b.nextMid d ≤ m → a.deal d m) : Moves a b b' := by
  cases ran with
  | error e => cases hb
  | ok touched =>
    rw [invokeWith_ok] at hb
    obtain rfl := Except.ok.inj hb
    have hdeal := h touched rfl
    rw [drainOverlapping_eq]
    obtain ⟨hm, hf⟩ := flushKeys_moves policy (b.drained touched) (fun d hd => hdeal d (List.mem_append_left _ hd)) (.refl b)
    refine hm.tail (.issue _ _ _ _ _ _ ?_ ho)
    exact hdeal _ (List.mem_append_right _ (List.mem_singleton.mpr rfl)) _ (hf.nextMid _)

theorem lookup_overwrite {β : Type} (l : List (String × β)) (key : String) (v : β) :
    (l.map fun e => if e.1 == key then (key, v) else e).lookup key = (l.lookup key).map fun _ => v := by
  induction l with
  | nil => rfl
  | cons e l ih =>
    obtain ⟨x, w⟩ := e
    by_cases hx : x = key
    · subst hx
      simp
    · have hx' : (key == x) = false := beq_false_of_ne (Ne.symm hx)
      have hx'' : (x == key) = false := beq_false_of_ne hx
      simp only [List.map_cons, hx'', Bool.false_eq_true, if_false, List.lookup_cons, hx', ih]

/-- The domain a folded invocation deals in, when it is due. -/
def foldsInto (name foldKey : String) (args : α) : String :=
  match b.folds.lookup foldKey with
  | some f => resolveDomain policy (b.entries f.entry).name args
  | none => resolveDomain policy name args

theorem invokeFolded_moves (name foldKey : String) (args : α) (deferAcrossWrites due : Bool) (ran : Ran)
    (h : due = true → a.deal (b.foldsInto policy name foldKey args) (b.nextMid (b.foldsInto policy name foldKey args))) :
    Moves a b (b.invokeFolded policy name foldKey args deferAcrossWrites due ran) := by
  cases ran with
  | error e => exact .refl
  | ok touched =>
    simp only [invokeFolded]
    cases hf : b.folds.lookup foldKey with
    | some f =>
      have hm := Move.refold (a := a) b foldKey f args (resolveDomain policy name args) touched hf
      cases due with
      | false => exact .single hm
      | true =>
        refine .head hm (flushFold_moves _ policy foldKey ?_)
        intro g hg
        simp only [refold, lookup_overwrite, hf] at hg
        obtain rfl := Option.some.inj hg
        have h' := h rfl
        simp only [foldsInto, hf] at h'
        simpa [foldDomain, refold, setEntry] using h'
    | none =>
      have hm := Move.opened (a := a) b foldKey name args (resolveDomain policy name args) touched deferAcrossWrites hf
      cases due with
      | false => exact .single hm
      | true =>
        refine .head hm (flushFold_moves _ policy foldKey ?_)
        intro g hg
        simp only [openFold, List.lookup_append, hf, List.lookup_cons, beq_self_eq_true, Option.none_or] at hg
        obtain rfl := Option.some.inj hg
        have h' := h rfl
        simp only [foldsInto, hf] at h'
        simpa [foldDomain, openFold, enqueue, setEntry] using h'

/-! ## Outcomes and resyncs -/

theorem record_moves {o : Output α} (ho : o.IsNote) (ha : a.outcomes) : Moves a b (b.record o) :=
  .single (.note b o b.outcomesProcessed ho ha)

theorem reenqueue_moves (frame : MutationOutcomeFrame α) (ran : Ran)
    (h : ∀ d m, a.deal d m) (ha : a.outcomes) : Moves a b (b.reenqueue policy domain frame ran) := by
  unfold reenqueue
  split
  · rename_i i hi
    exact .single (.flip b domain frame.mid i hi (h _ _) ha)
  · split
    · exact .refl
    · split
      · rename_i hb
        exact invokeWith_moves hb (.inr ha) fun _ _ _ _ _ _ => h _ _
      · rename_i e _
        exact record_moves b (o := .rejected domain _ ("deopt re-invocation failed: " ++ e)) trivial ha

theorem markOutcomeProcessed_eq {b b' : Backend α} {domain : String} {mid : Nat} (h : b.markOutcomeProcessed domain mid = some b') :
    ∃ processed, b' = { b with outcomesProcessed := processed } := by
  unfold markOutcomeProcessed at h
  dsimp only at h
  split at h
  · cases h
  · exact ⟨_, (Option.some.inj h).symm⟩

theorem handleMutationOutcome_moves (frame : MutationOutcomeFrame α) (ran : Ran)
    (h : ∀ d m, a.deal d m) (ha : a.outcomes) : Moves a b (b.handleMutationOutcome policy domain frame ran) := by
  unfold handleMutationOutcome
  split
  · exact record_moves b (o := .heard domain frame.mid .foreign) trivial ha
  · cases hm : b.markOutcomeProcessed domain frame.mid with
    | none => exact record_moves b (o := .heard domain frame.mid .duplicate) trivial ha
    | some b' =>
      obtain ⟨processed, rfl⟩ := markOutcomeProcessed_eq hm
      refine .head (.note b (.heard domain frame.mid (.taken (b.find domain frame.mid).isSome)) processed trivial ha) ?_
      dsimp only
      cases frame.kind with
      | rejected => exact record_moves _ (o := .rejected domain _ _) trivial ha
      | deopt => exact reenqueue_moves _ policy domain frame ran h ha

theorem resendPending_moves : Moves a b (b.resendPending domain) := by
  unfold resendPending
  generalize b.unconfirmed domain = es
  induction es generalizing b with
  | nil => exact .refl
  | cons e es ih => exact .head (.again b domain e) (ih _)

/-! ## Releases -/

theorem foldConfirms_moves (confirms : List (String × Nat)) (h : ∀ c ∈ confirms, a.confirm c.1 c.2) :
    Moves a b (b.foldConfirms confirms).1 := by
  induction confirms generalizing b with
  | nil => exact .refl
  | cons c confirms ih =>
    simp only [foldConfirms]
    cases hc : b.foldConfirm c.1 c.2 with
    | none => exact .refl
    | some b' => exact .head (.confirm b b' c.1 c.2 hc (h c List.mem_cons_self)) (ih b' fun x hx => h x (List.mem_cons_of_mem _ hx))

/-- The re-invocations touch entries and collect the handles of those that threw. -/
theorem reinvoke_spec (order : List Nat) (s : Backend α × List Nat) :
    Moves a s.1 (order.foldl (reinvoke rerun) s).1 ∧
      (order.foldl (reinvoke rerun) s).2 = s.2 ++ order.filter fun i => !(rerun i).isOk := by
  induction order generalizing s with
  | nil => exact ⟨.refl, by simp⟩
  | cons i order ih =>
    rw [List.foldl_cons]
    cases hr : rerun i with
    | ok writes =>
      have hs : reinvoke rerun s i = (s.1.touch i writes, s.2) := by simp only [reinvoke, hr]
      rw [hs]
      refine ⟨.head (.touch s.1 i _) (ih (s.1.touch i writes, s.2)).1, ?_⟩
      rw [(ih _).2, List.filter_cons_of_neg (by simp [hr, Except.isOk, Except.toBool])]
    | error e =>
      have hs : reinvoke rerun s i = (s.1, s.2 ++ [i]) := by simp only [reinvoke, hr]
      rw [hs]
      refine ⟨(ih (s.1, s.2 ++ [i])).1, ?_⟩
      rw [(ih _).2, List.filter_cons_of_pos (by simp [hr, Except.isOk, Except.toBool]), List.append_assoc]
      rfl

/-- Every pending entry's re-invocation runs through. -/
def RunsThrough : Prop := ∀ i ∈ b.pendingMutations, (rerun i).isOk = true

theorem runReconcileCycle_moves (h : a.lossy ∨ b.RunsThrough rerun) :
    Moves a b (b.runReconcileCycle rerun) := by
  obtain ⟨hm, hd⟩ := reinvoke_spec (a := a) rerun b.replayOrder (b, [])
  unfold runReconcileCycle
  dsimp only
  split
  · exact hm
  · rename_i hne
    rcases h with h | h
    · exact hm.tail (.drop _ _ h)
    · refine absurd ?_ hne
      rw [hd, List.nil_append, List.filter_eq_nil_iff]
      intro i hi
      simp [h i ((List.mergeSort_perm _ _).mem_iff.mp hi)]

theorem applyRelease_moves (deltas : Bool) (rerun : Nat → Ran)
    (h : a.lossy ∨ (b.reconciles deltas = true → b.confirmDrop.RunsThrough rerun)) : Moves a b (b.applyRelease deltas rerun) := by
  unfold applyRelease
  refine .head (.retire b) ?_
  split
  · rename_i hr
    exact runReconcileCycle_moves _ rerun (h.imp_right fun h => h hr)
  · exact .refl

theorem outcomes_moves (outcomes : List (String × MutationOutcomeFrame α × Ran))
    (h : outcomes = [] ∨ (a.outcomes ∧ ∀ d m, a.deal d m)) :
    Moves a b (outcomes.foldl (fun b o => b.handleMutationOutcome policy o.1 o.2.1 o.2.2) b) := by
  rcases h with rfl | h
  · exact .refl
  · induction outcomes generalizing b with
    | nil => exact .refl
    | cons o outcomes ih => exact (handleMutationOutcome_moves b policy o.1 o.2.1 o.2.2 h.2 h.1).trans (ih _)

/-! ## One event -/

/-- Every re-invocation the event makes runs through. -/
def Sticks : Prop :=
  match e.2 with
  | .release r =>
    (b.computeRelease e.1 r).2 = true → (b.computeRelease e.1 r).1.reconciles r.deltas = true →
      (b.computeRelease e.1 r).1.confirmDrop.RunsThrough r.rerun
  | .collect rerun => b.RunsThrough rerun
  | _ => True

/-- The domains the event deals in, short of what an outcome brings. -/
def dealsIn : List String :=
  match e.2 with
  | .invoke name args (.ok touched) => b.invokesInto e.1 (resolveDomain e.1 name args) touched
  | .invokeFolded name foldKey args _ true _ => [b.foldsInto e.1 name foldKey args]
  | .flushFold foldKey => b.flushesInto e.1 [foldKey]
  | .flushFolds => b.flushesInto e.1 (b.folds.map (·.1))
  | _ => []

/-- No outcome comes in with the event. -/
def Plain (e : Event α) : Prop :=
  match e with
  | .outcome _ _ _ => False
  | .release r => r.outcomes = []
  | _ => True

/-- What the event confirms. -/
def confirmsOf (e : Event α) : List (String × Nat) :=
  match e with
  | .release r => r.confirms
  | _ => []

theorem step_moves (hlossy : a.lossy ∨ b.Sticks e)
    (hdeal : (Plain e.2 ∧ ∀ d ∈ b.dealsIn e, ∀ m, b.nextMid d ≤ m → a.deal d m) ∨ (a.outcomes ∧ ∀ d m, a.deal d m))
    (hconfirm : ∀ c ∈ confirmsOf e.2, a.confirm c.1 c.2) : Moves a b (b.step e) := by
  obtain ⟨policy, e⟩ := e
  have hin : ∀ d ∈ b.dealsIn (policy, e), ∀ m, b.nextMid d ≤ m → a.deal d m := by
    rcases hdeal with h | h
    · exact h.2
    · exact fun d _ m _ => h.2 d m
  cases e with
  | invoke name args ran =>
    simp only [step]
    cases hr : b.invokeWith policy name args none ran .invoked with
    | error e => exact .refl
    | ok b' =>
      refine invokeWith_moves hr (.inl rfl) ?_
      intro touched ht
      subst ht
      exact hin
  | invokeFolded name foldKey args deferAcrossWrites due ran =>
    refine invokeFolded_moves b policy name foldKey args deferAcrossWrites due ran ?_
    intro hd
    subst hd
    exact hin _ (List.mem_singleton.mpr rfl) _ (Nat.le_refl _)
  | flushFold foldKey => exact (flushKeys_moves policy [foldKey] hin (.refl b)).1
  | flushFolds => exact (flushKeys_moves policy _ hin (.refl b)).1
  | outcome domain frame ran =>
    rcases hdeal with h | h
    · exact h.1.elim
    · exact handleMutationOutcome_moves b policy domain frame ran h.2 h.1
  | resync domain => exact resendPending_moves b domain
  | release r =>
    have hc : Moves a b (b.computeRelease policy r).1 := by
      refine (outcomes_moves b policy r.outcomes (hdeal.imp_left (·.1))).trans (foldConfirms_moves _ _ hconfirm)
    simp only [step, release]
    split
    · rename_i hok
      exact hc.trans (applyRelease_moves _ _ _ (hlossy.imp_right fun h => h hok))
    · exact hc
  | collect rerun => exact runReconcileCycle_moves b rerun hlossy

end Backend

end Rindle.Mutations
