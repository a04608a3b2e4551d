/-
  Rindle.Mutations.Sound — what holds of the ledger in every run, throwing re-invocations and all.

  The handles in the stack are live and distinct, an open fold's entry has neither mid nor
  seq, no two pending entries of a domain share a mid, every mid in the stack has been dealt,
  each domain deals without a gap from its starting point and sends every mid it deals at
  once. `At d m i` says that the pending entry `i` awaits the mid `m` of `d`; what each
  move does to it carries the rest.
-/

import Rindle.Mutations.Moves
import Mathlib.Data.List.Induction

namespace Rindle.Mutations

variable {α : Type}

/-! ## Reading the log -/

variable (d : String) (log : List (Output α))

/-- The mid a domain deals next, after one more output; `none` where the output broke the numbering.
    An adoption is a new starting point, past all before it. -/
def follows (next : Nat) : Output α → Option Nat
  | .dealt d' m => if d' = d then (if m = next then some (next + 1) else none) else some next
  | .adopted d' start => if d' = d then (if next < start then some start else none) else some next
  | _ => some next

/-- The mid `d` deals next, where the log numbers its deals from 1 without a gap. -/
def numbering : Option Nat := log.foldlM (follows d) 1

/-- The mids `d` dealt. -/
def dealtIn : List Nat :=
  log.filterMap fun
    | .dealt d' m => if d' = d then some m else none
    | _ => none

/-- The mids `d` sent, resyncs apart. -/
def sentIn : List Nat :=
  log.filterMap fun
    | .sent d' e _ => if d' = d then some e.mid else none
    | _ => none

/-- The mids of `d` whose entries a deopt moved to the daemon. -/
def movedIn : List Nat :=
  log.filterMap fun
    | .flipped d' m => if d' = d then some m else none
    | _ => none

theorem numbering_append (log more : List (Output α)) :
    numbering d (log ++ more) = (numbering d log).bind fun n => more.foldlM (follows d) n := by
  exact List.foldlM_append

/-- A numbered log deals rising mids. -/
theorem rising_of_numbering {d : String} {log : List (Output α)} {next : Nat} (h : numbering d log = some next) :
    (dealtIn d log).Pairwise (· < ·) ∧ ∀ m ∈ dealtIn d log, m < next := by
  induction log using List.reverseRecOn generalizing next with
  | nil => simp [dealtIn]
  | append_singleton log o ih =>
    rw [numbering_append] at h
    obtain ⟨n, hn, ho⟩ := Option.bind_eq_some_iff.mp h
    obtain ⟨hp, hlt⟩ := ih hn
    simp only [List.foldlM_cons, List.foldlM_nil, bind_pure] at ho
    have hstay : follows d n o = some n → dealtIn d (log ++ [o]) = dealtIn d log →
        (dealtIn d (log ++ [o])).Pairwise (· < ·) ∧ ∀ m ∈ dealtIn d (log ++ [o]), m < next := by
      intro hf hd
      obtain rfl : n = next := by simpa [hf] using ho
      rw [hd]
      exact ⟨hp, hlt⟩
    cases o with
    | dealt d' m =>
      by_cases hd : d' = d
      · subst hd
        simp only [follows, if_true] at ho
        split at ho
        · rename_i hm
          obtain rfl := Option.some.inj ho
          subst hm
          have happ : dealtIn d' (log ++ [Output.dealt d' m]) = dealtIn d' log ++ [m] := by simp [dealtIn]
          rw [happ]
          refine ⟨List.pairwise_append.mpr ⟨hp, List.pairwise_singleton _ _, ?_⟩, ?_⟩
          · intro x hx y hy
            rw [List.mem_singleton.mp hy]
            exact hlt x hx
          · intro x hx
            rcases List.mem_append.mp hx with hx | hx
            · have := hlt x hx
              omega
            · have := List.mem_singleton.mp hx
              omega
        · cases ho
      · exact hstay (by simp [follows, hd]) (by simp [dealtIn, hd])
    | adopted d' start =>
      have happ : dealtIn d (log ++ [Output.adopted d' start]) = dealtIn d log := by simp [dealtIn]
      rw [happ]
      refine ⟨hp, ?_⟩
      intro x hx
      have := hlt x hx
      simp only [follows] at ho
      split at ho
      · split at ho
        · obtain rfl := Option.some.inj ho
          omega
        · cases ho
      · obtain rfl := Option.some.inj ho
        exact this
    | _ => exact hstay rfl (by simp [dealtIn])

namespace Backend

/-! ## Pending mids -/

/-- The pending entry `i` awaits the confirmation of `d`'s mid `m`. -/
def At (b : Backend α) (d : String) (m i : Nat) : Prop :=
  i ∈ b.pendingMutations ∧ (b.entries i).domain = d ∧ (b.entries i).mid = some m

/-- The objects: handles are live, and an open fold's entry has not been dealt for. -/
structure Live (b : Backend α) : Prop where
  lt : ∀ i ∈ b.pendingMutations, i < b.created
  nodup : b.pendingMutations.Nodup
  keys : (b.folds.map (·.1)).Nodup
  apart : (b.folds.map (·.2.entry)).Nodup
  undealt : ∀ e ∈ b.folds, e.2.entry < b.created ∧ (b.entries e.2.entry).mid = none ∧ (b.entries e.2.entry).seq = none

/-- The mids. -/
structure Sound (b : Backend α) : Prop where
  below : ∀ d m i, b.At d m i → m < b.nextMid d
  distinct : ∀ d m i j, b.At d m i → b.At d m j → i = j
  marked : ∀ d, b.watermark d < b.nextMid d
  numbered : ∀ d, numbering d b.log = some (b.nextMid d)
  sent : ∀ d, sentIn d b.log = dealtIn d b.log
  moved : ∀ d, ∀ m ∈ movedIn d b.log, m < b.nextMid d ∧ ∀ i, ¬ b.At d m i

variable (nothing : PendingMutation α)

theorem fresh_live : Live (fresh nothing) :=
  ⟨by simp [fresh], by simp [fresh], by simp [fresh], by simp [fresh], by simp [fresh]⟩

theorem mem_of_lookup {β : Type} {l : List (String × β)} {k : String} {v : β} (h : l.lookup k = some v) : (k, v) ∈ l := by
  induction l with
  | nil => cases h
  | cons e l ih =>
    obtain ⟨x, w⟩ := e
    rw [List.lookup_cons] at h
    split at h
    · rename_i hk
      obtain rfl := Option.some.inj h
      obtain rfl : k = x := by simpa using hk
      exact List.mem_cons_self
    · exact List.mem_cons_of_mem _ (ih h)

theorem not_mem_keys_of_lookup {β : Type} {l : List (String × β)} {k : String} (h : l.lookup k = none) : k ∉ l.map (·.1) := by
  induction l with
  | nil => simp
  | cons e l ih =>
    obtain ⟨x, w⟩ := e
    rw [List.lookup_cons] at h
    split at h
    · cases h
    · rename_i hk
      have hk' : k ≠ x := by simpa using hk
      simp only [List.map_cons, List.mem_cons, not_or]
      exact ⟨hk', ih h⟩

variable {a : Allow}

variable {m j : Nat} {d : String} {b : Backend α} {domain : String} {b b' : Backend α} {touched : List String}

/-- The entry of an open fold. -/
theorem Live.fold (h : Live b) {key : String} {f : Fold α} (hf : b.folds.lookup key = some f) :
    f.entry < b.created ∧ (b.entries f.entry).mid = none ∧ (b.entries f.entry).seq = none :=
  h.undealt (key, f) (mem_of_lookup hf)

/-- It has no mid yet. -/
theorem Live.dealt_ne (h : Live b) {key : String} {f : Fold α} {i m : Nat} (hf : b.folds.lookup key = some f)
    (hm : (b.entries i).mid = some m) : i ≠ f.entry := by
  intro hif
  rw [hif, (h.fold hf).2.1] at hm
  cases hm

/-- Two open folds with one entry are one. -/
theorem Live.fold_inj (h : Live b) {e e' : String × Fold α} (he : e ∈ b.folds) (he' : e' ∈ b.folds)
    (heq : e.2.entry = e'.2.entry) : e = e' := by
  exact List.inj_on_of_nodup_map h.apart he he' heq

theorem find_spec {m i : Nat} (h : b.find d m = some i) : b.At d m i := by
  have hp := List.find?_some h
  simp only [Bool.and_eq_true, beq_iff_eq] at hp
  exact ⟨List.mem_of_find?_eq_some h, hp.1, hp.2⟩

theorem foldConfirm_spec {lmid : Nat} (h : b.foldConfirm d lmid = some b') :
    b'.entries = b.entries ∧ b'.created = b.created ∧ b'.pendingMutations = b.pendingMutations ∧ b'.folds = b.folds ∧
      b'.dealSeq = b.dealSeq ∧ b'.outcomesProcessed = b.outcomesProcessed ∧
      b'.watermark = Function.update b.watermark d (max (b.watermark d) lmid) ∧
      ((lmid ≤ b.nextMid d - 1 ∧ b'.nextMid = b.nextMid ∧ b'.log = b.log ++ [Output.confirmed d lmid]) ∨
        (b.nextMid d - 1 < lmid ∧ (∀ m i, ¬ b.At d m i) ∧ b'.nextMid = Function.update b.nextMid d (lmid + 1) ∧
          b'.log = b.log ++ [Output.adopted d (lmid + 1)] ++ [Output.confirmed d lmid])) := by
  unfold foldConfirm at h
  dsimp only at h
  split at h
  · split at h
    · cases h
    · obtain rfl := Option.some.inj h
      refine ⟨rfl, rfl, rfl, rfl, rfl, rfl, rfl, ?_⟩
      refine .inr ⟨by assumption, ?_, rfl, rfl⟩
      intro m i hi
      rename_i hany
      apply hany
      exact List.any_eq_true.mpr ⟨i, hi.1, by simp [hi.2.1, hi.2.2]⟩
  · obtain rfl := Option.some.inj h
    exact ⟨rfl, rfl, rfl, rfl, rfl, rfl, rfl, .inl ⟨by omega, rfl, rfl⟩⟩

/-- A confirm turns nothing back. -/
theorem foldConfirm_le {lmid : Nat} (h : b.foldConfirm d lmid = some b') : b.watermark ≤ b'.watermark ∧ b.nextMid ≤ b'.nextMid := by
  obtain ⟨-, -, -, -, -, -, hw, hcase⟩ := foldConfirm_spec h
  refine ⟨by rw [hw]; exact le_update_self_iff.mpr (Nat.le_max_left _ _), ?_⟩
  rcases hcase with ⟨-, hn, -⟩ | ⟨hlt, -, hn, -⟩
  · exact hn.ge
  · rw [hn]
    exact le_update_self_iff.mpr (by omega)

/-! ## The objects -/

/-- An entry more. -/
theorem Live.queued (h : Live b) :
    (∀ i ∈ b.pendingMutations ++ [b.created], i < b.created + 1) ∧ (b.pendingMutations ++ [b.created]).Nodup := by
  refine ⟨fun i hi => ?_, List.nodup_append.mpr ⟨h.nodup, List.nodup_singleton _, fun i hi j hj hij => ?_⟩⟩
  · rcases List.mem_append.mp hi with hi | hi
    · exact Nat.lt_succ_of_lt (h.lt i hi)
    · exact Nat.lt_succ_of_le (List.mem_singleton.mp hi).le
  · have := h.lt i hi
    have := List.mem_singleton.mp hj
    omega

theorem move_live (hm : Move a b b') (h : Live b) : Live b' := by
  cases hm with
  | again domain e => exact ⟨h.lt, h.nodup, h.keys, h.apart, h.undealt⟩
  | note o processed ho ha => exact ⟨h.lt, h.nodup, h.keys, h.apart, h.undealt⟩
  | touch i touched =>
    refine ⟨h.lt, h.nodup, h.keys, h.apart, ?_⟩
    intro e he
    obtain ⟨h1, h2, h3⟩ := h.undealt e he
    by_cases hi : e.2.entry = i
    · subst hi
      simp [setEntry, h1, h2, h3]
    · simp [setEntry, hi, h1, h2, h3]
  | opened foldKey name args domain touched deferred hf =>
    have hne : b.created ∉ b.folds.map (·.2.entry) := by
      intro hc
      obtain ⟨e, he, hec⟩ := List.mem_map.mp hc
      have := (h.undealt e he).1
      omega
    refine ⟨h.queued.1, h.queued.2, ?_, ?_, ?_⟩
    · simp only [openFold, enqueue, setEntry, List.map_append, List.map_cons, List.map_nil]
      refine List.nodup_append.mpr ⟨h.keys, List.nodup_singleton _, ?_⟩
      intro k hk j hj hkj
      rw [hkj, List.mem_singleton.mp hj] at hk
      exact not_mem_keys_of_lookup hf hk
    · simp only [openFold, enqueue, setEntry, List.map_append, List.map_cons, List.map_nil]
      refine List.nodup_append.mpr ⟨h.apart, List.nodup_singleton _, ?_⟩
      intro i hi j hj hij
      rw [hij, List.mem_singleton.mp hj] at hi
      exact hne hi
    · intro e he
      rcases List.mem_append.mp he with he | he
      · obtain ⟨h1, h2, h3⟩ := h.undealt e he
        have hi : e.2.entry ≠ b.created := by omega
        refine ⟨?_, ?_, ?_⟩
        · simp only [openFold, enqueue]
          omega
        · simpa [openFold, enqueue, setEntry, hi] using h2
        · simpa [openFold, enqueue, setEntry, hi] using h3
      · rw [List.mem_singleton.mp he]
        simp [openFold, enqueue, setEntry]
  | refold foldKey f args domain touched hf =>
    obtain ⟨f1, f2, f3⟩ := h.fold hf
    have hmap : ∀ e ∈ b.folds, (if e.1 == foldKey then (foldKey, { f with args := args }) else e).1 = e.1 ∧
        (if e.1 == foldKey then (foldKey, { f with args := args }) else e).2.entry = e.2.entry := by
      intro e he
      by_cases hk : e.1 = foldKey
      · have : e = (foldKey, f) := List.inj_on_of_nodup_map h.keys he (mem_of_lookup hf) hk
        simp [this]
      · simp [hk]
    refine ⟨h.lt, h.nodup, ?_, ?_, ?_⟩
    · have : (b.refold foldKey f args domain touched).folds.map (·.1) = b.folds.map (·.1) := by
        simp only [refold, List.map_map]
        exact List.map_congr_left fun e he => (hmap e he).1
      rw [this]
      exact h.keys
    · have : (b.refold foldKey f args domain touched).folds.map (·.2.entry) = b.folds.map (·.2.entry) := by
        simp only [refold, List.map_map]
        exact List.map_congr_left fun e he => (hmap e he).2
      rw [this]
      exact h.apart
    · intro e' he'
      obtain ⟨e, he, rfl⟩ := List.mem_map.mp he'
      rw [(hmap e he).2]
      obtain ⟨h1, h2, h3⟩ := h.undealt e he
      by_cases hi : e.2.entry = f.entry
      · simp [refold, setEntry, hi, f1, f2, f3]
      · simp [refold, setEntry, hi, h1, h2, h3]
  | issue domain name args touched origin ha ho =>
    refine ⟨h.queued.1, h.queued.2, h.keys, h.apart, ?_⟩
    intro e he
    obtain ⟨h1, h2, h3⟩ := h.undealt e he
    have hi : e.2.entry ≠ b.created := by omega
    refine ⟨?_, ?_, ?_⟩
    · simp only [issue]
      omega
    · simpa [issue, hi] using h2
    · simpa [issue, hi] using h3
  | flush foldKey f domain hf ha =>
    refine ⟨h.lt, h.nodup, h.keys.sublist (List.filter_sublist.map _), h.apart.sublist (List.filter_sublist.map _), ?_⟩
    intro e he
    obtain ⟨he, hk⟩ := List.mem_filter.mp he
    have hk' : e.1 ≠ foldKey := by simpa using hk
    obtain ⟨h1, h2, h3⟩ := h.undealt e he
    have hi : e.2.entry ≠ f.entry := by
      intro hi
      exact hk' (congrArg Prod.fst (h.fold_inj he (mem_of_lookup hf) hi))
    simp [flushTo, hi, h1, h2, h3]
  | flip domain mid i hi ha ho =>
    refine ⟨h.lt, h.nodup, h.keys, h.apart, ?_⟩
    intro e he
    obtain ⟨h1, h2, h3⟩ := h.undealt e he
    have hne : e.2.entry ≠ i := by
      intro hei
      rw [hei, (find_spec hi).2.2] at h2
      cases h2
    simp [flip, record, dealMid, setEntry, hne, h1, h2, h3]
  | confirm _ domain lmid hc ha =>
    obtain ⟨he, hcr, hp, hf, -⟩ := foldConfirm_spec hc
    refine ⟨?_, ?_, ?_, ?_, ?_⟩
    · rw [hp, hcr]
      exact h.lt
    · rw [hp]
      exact h.nodup
    · rw [hf]
      exact h.keys
    · rw [hf]
      exact h.apart
    · rw [hf, he, hcr]
      exact h.undealt
  | retire => exact ⟨fun i hi => h.lt i (List.mem_filter.mp hi).1, h.nodup.filter _, h.keys, h.apart, h.undealt⟩
  | drop keep hl => exact ⟨fun i hi => h.lt i (List.mem_filter.mp hi).1, h.nodup.filter _, h.keys, h.apart, h.undealt⟩

/-! ## What a move makes an entry await -/

theorem touch_at {i : Nat}
    (h : (b.setEntry i { b.entries i with touched := touched }).At d m j) : b.At d m j := by
  obtain ⟨h1, h2, h3⟩ := h
  by_cases hji : j = i
  · subst hji
    simp only [setEntry, Function.update_self] at h2 h3
    exact ⟨h1, h2, h3⟩
  · simp only [setEntry, Function.update_of_ne hji] at h2 h3
    exact ⟨h1, h2, h3⟩

theorem openFold_at {foldKey name : String} {args : α} {deferred : Bool}
    (h : (b.openFold foldKey name args domain touched deferred).At d m j) : b.At d m j := by
  obtain ⟨h1, h2, h3⟩ := h
  by_cases hjc : j = b.created
  · subst hjc
    simp [openFold, enqueue, setEntry] at h3
  · simp only [openFold, enqueue, setEntry, Function.update_of_ne hjc] at h2 h3
    rcases List.mem_append.mp h1 with h1 | h1
    · exact ⟨h1, h2, h3⟩
    · exact absurd (List.mem_singleton.mp h1) hjc

theorem refold_at (hlive : Live b) {foldKey : String} {f : Fold α} (hf : b.folds.lookup foldKey = some f) {args : α}
    (h : (b.refold foldKey f args domain touched).At d m j) :
    b.At d m j := by
  obtain ⟨h1, h2, h3⟩ := h
  by_cases hjf : j = f.entry
  · subst hjf
    simp [refold, setEntry, (hlive.fold hf).2.1] at h3
  · simp only [refold, setEntry, Function.update_of_ne hjf] at h2 h3
    exact ⟨h1, h2, h3⟩

theorem issue_at {domain name : String} {args : α} {origin : Origin}
    (h : (b.issue domain name args touched origin).At d m j) : b.At d m j ∨ (d = domain ∧ m = b.nextMid domain ∧ j = b.created) := by
  obtain ⟨h1, h2, h3⟩ := h
  by_cases hjc : j = b.created
  · subst hjc
    simp only [issue, Function.update_self] at h2 h3
    exact .inr ⟨h2.symm, (Option.some.inj h3).symm, rfl⟩
  · simp only [issue, Function.update_of_ne hjc] at h2 h3
    rcases List.mem_append.mp h1 with h1 | h1
    · exact .inl ⟨h1, h2, h3⟩
    · exact absurd (List.mem_singleton.mp h1) hjc

theorem flushTo_at {foldKey : String} {f : Fold α}
    (h : (b.flushTo foldKey f domain).At d m j) : b.At d m j ∨ (d = domain ∧ m = b.nextMid domain ∧ j = f.entry) := by
  obtain ⟨h1, h2, h3⟩ := h
  by_cases hjf : j = f.entry
  · subst hjf
    simp only [flushTo, Function.update_self] at h2 h3
    exact .inr ⟨h2.symm, (Option.some.inj h3).symm, rfl⟩
  · simp only [flushTo, Function.update_of_ne hjf] at h2 h3
    exact .inl ⟨h1, h2, h3⟩

theorem flip_at {mid i : Nat} (h : (b.flip domain mid i).At d m j) :
    (b.At d m j ∧ j ≠ i) ∨ (d = "daemon" ∧ m = b.nextMid "daemon" ∧ j = i) := by
  obtain ⟨h1, h2, h3⟩ := h
  by_cases hji : j = i
  · subst hji
    simp only [flip, record, dealMid, setEntry, Function.update_self] at h2 h3
    exact .inr ⟨h2.symm, (Option.some.inj h3).symm, rfl⟩
  · simp only [flip, record, dealMid, setEntry, Function.update_of_ne hji] at h2 h3
    exact .inl ⟨⟨h1, h2, h3⟩, hji⟩

theorem confirmDrop_at {m i : Nat} (h : b.confirmDrop.At d m i) : b.At d m i ∧ b.watermark d < m := by
  obtain ⟨h1, h2, h3⟩ := h
  obtain ⟨hp, hc⟩ := List.mem_filter.mp h1
  have hd : (b.entries i).domain = d := h2
  have hm : (b.entries i).mid = some m := h3
  simp only [covered, hm, hd, Option.isNone_iff_eq_none, Option.filter_eq_none_iff, decide_eq_true_eq] at hc
  exact ⟨⟨hp, hd, hm⟩, Nat.lt_of_not_le (hc m rfl)⟩

/-- An entry comes to await a mid only as the mid is dealt. -/
theorem move_at (hm : Move a b b') (hlive : Live b) {m i : Nat} (h : b'.At d m i) :
    b.At d m i ∨ (m = b.nextMid d ∧ a.deal d m) := by
  cases hm with
  | again domain e => exact .inl h
  | note o processed ho ha => exact .inl h
  | touch j touched => exact .inl (touch_at h)
  | opened foldKey name args domain touched deferred hf => exact .inl (openFold_at h)
  | refold foldKey f args domain touched hf => exact .inl (refold_at hlive hf h)
  | issue domain name args touched origin ha ho =>
    rcases issue_at h with h | ⟨rfl, rfl, -⟩
    · exact .inl h
    · exact .inr ⟨rfl, ha⟩
  | flush foldKey f domain hf ha =>
    rcases flushTo_at h with h | ⟨rfl, rfl, -⟩
    · exact .inl h
    · exact .inr ⟨rfl, ha⟩
  | flip domain mid j hj ha ho =>
    rcases flip_at h with h | ⟨rfl, rfl, -⟩
    · exact .inl h.1
    · exact .inr ⟨rfl, ha⟩
  | confirm _ domain lmid hc ha =>
    obtain ⟨he, -, hp, -⟩ := foldConfirm_spec hc
    exact .inl (by simpa only [At, he, hp] using h)
  | retire => exact .inl (confirmDrop_at h).1
  | drop keep hl => exact .inl ⟨(List.mem_filter.mp h.1).1, h.2⟩

/-! ## The mids -/

theorem dealtIn_append (d : String) (log more : List (Output α)) : dealtIn d (log ++ more) = dealtIn d log ++ dealtIn d more := by
  exact List.filterMap_append

theorem sentIn_append (d : String) (log more : List (Output α)) : sentIn d (log ++ more) = sentIn d log ++ sentIn d more := by
  exact List.filterMap_append

theorem movedIn_append (d : String) (log more : List (Output α)) : movedIn d (log ++ more) = movedIn d log ++ movedIn d more := by
  exact List.filterMap_append

/-- Outputs that neither deal, send, move nor adopt. -/
def Quiet (more : List (Output α)) : Prop :=
  ∀ o ∈ more, o.IsNote ∨ (∃ d m, o = .retired d m) ∨ ∃ d m, o = .confirmed d m

theorem Quiet.spec {more : List (Output α)} (h : Quiet more) (d : String) :
    (∀ n, more.foldlM (follows d) n = some n) ∧ sentIn d more = [] ∧ dealtIn d more = [] ∧ movedIn d more = [] := by
  induction more with
  | nil => exact ⟨fun _ => rfl, rfl, rfl, rfl⟩
  | cons o more ih =>
    obtain ⟨h1, h2, h3, h4⟩ := ih fun x hx => h x (List.mem_cons_of_mem _ hx)
    have ho := h o List.mem_cons_self
    have hq : (∀ n, follows d n o = some n) ∧ sentIn d [o] = [] ∧ dealtIn d [o] = [] ∧ movedIn d [o] = [] := by
      rcases ho with ho | ⟨d', m, rfl⟩ | ⟨d', m, rfl⟩
      · cases o <;> first | exact ho.elim | exact ⟨fun _ => rfl, rfl, rfl, rfl⟩
      · exact ⟨fun _ => rfl, rfl, rfl, rfl⟩
      · exact ⟨fun _ => rfl, rfl, rfl, rfl⟩
    obtain ⟨q1, q2, q3, q4⟩ := hq
    rw [← List.singleton_append, sentIn_append, dealtIn_append, movedIn_append, q2, q3, q4]
    refine ⟨?_, h2, h3, h4⟩
    intro n
    simp [q1, h1]

/-- A move that deals nothing and makes no entry await a new mid. -/
theorem Sound.quiet (h : Sound b) (more : List (Output α)) (hq : Quiet more) (hl : b'.log = b.log ++ more)
    (hn : b'.nextMid = b.nextMid) (hw : b'.watermark = b.watermark) (hat : ∀ d m i, b'.At d m i → b.At d m i) : Sound b' := by
  refine ⟨?_, ?_, ?_, ?_, ?_, ?_⟩
  · intro d m i hi
    rw [hn]
    exact h.below d m i (hat d m i hi)
  · intro d m i j hi hj
    exact h.distinct d m i j (hat d m i hi) (hat d m j hj)
  · intro d
    rw [hn, hw]
    exact h.marked d
  · intro d
    rw [hl, numbering_append, h.numbered, hn, Option.bind_some, (hq.spec d).1]
  · intro d
    rw [hl, sentIn_append, dealtIn_append, (hq.spec d).2.1, (hq.spec d).2.2.1, h.sent]
  · intro d m hm
    rw [hl, movedIn_append, (hq.spec d).2.2.2, List.append_nil] at hm
    obtain ⟨h1, h2⟩ := h.moved d m hm
    rw [hn]
    exact ⟨h1, fun i hi => h2 i (hat d m i hi)⟩

/-- A move that deals the next mid of a domain to the entry `i₀`, which awaited no mid but one of those it `moves`, and sends it. -/
theorem Sound.deal (h : Sound b) {domain name : String} {args : α} {origin : Origin} (i₀ : Nat) (moves : List (Output α))
    (hmoves : ∀ d, (∀ n, moves.foldlM (follows d) n = some n) ∧ sentIn d moves = [] ∧ dealtIn d moves = [])
    (hmoved : ∀ d, ∀ m ∈ movedIn d moves, m < b.nextMid d ∧ ∀ i, ¬ b'.At d m i)
    (hl : b'.log = b.log ++ (moves ++ [Output.dealt domain (b.nextMid domain), .sent domain ⟨b.nextMid domain, name, args⟩ origin]))
    (hn : b'.nextMid = Function.update b.nextMid domain (b.nextMid domain + 1)) (hw : b'.watermark = b.watermark)
    (hat : ∀ d m i, b'.At d m i → b.At d m i ∨ (d = domain ∧ m = b.nextMid domain ∧ i = i₀)) : Sound b' := by
  have hmono : ∀ d, b.nextMid d ≤ b'.nextMid d := by
    rw [hn]
    exact le_update_self_iff.mpr (Nat.le_succ _)
  have hdom : b'.nextMid domain = b.nextMid domain + 1 := by
    rw [hn]
    simp
  refine ⟨?_, ?_, ?_, ?_, ?_, ?_⟩
  · intro d m i hi
    rcases hat d m i hi with hi | ⟨rfl, rfl, rfl⟩
    · have := h.below d m i hi
      have := hmono d
      omega
    · omega
  · intro d m i j hi hj
    rcases hat d m i hi with hi | ⟨rfl, rfl, rfl⟩
    · rcases hat d m j hj with hj | ⟨rfl, rfl, rfl⟩
      · exact h.distinct d m i j hi hj
      · have := h.below _ _ _ hi
        omega
    · rcases hat _ _ j hj with hj | ⟨-, -, rfl⟩
      · have := h.below _ _ _ hj
        omega
      · rfl
  · intro d
    have := h.marked d
    have := hmono d
    rw [hw]
    omega
  · intro d
    rw [hl, numbering_append, h.numbered, Option.bind_some, List.foldlM_append, (hmoves d).1, Option.bind_eq_bind, Option.bind_some, hn]
    by_cases hd : d = domain
    · subst hd
      simp [follows]
    · simp [follows, hd, Ne.symm hd]
  · intro d
    rw [hl, sentIn_append, sentIn_append, dealtIn_append, dealtIn_append, h.sent, (hmoves d).2.1, (hmoves d).2.2]
    by_cases hd : domain = d
    · simp [sentIn, dealtIn, hd]
    · simp [sentIn, dealtIn, hd]
  · intro d m hm
    have hm' : m ∈ movedIn d b.log ∨ m ∈ movedIn d moves := by simpa [hl, movedIn_append, movedIn] using hm
    rcases hm' with hm | hm
    · obtain ⟨h1, h2⟩ := h.moved d m hm
      refine ⟨Nat.lt_of_lt_of_le h1 (hmono d), ?_⟩
      intro i hi
      rcases hat d m i hi with hi | ⟨rfl, rfl, rfl⟩
      · exact h2 i hi
      · omega
    · exact ⟨Nat.lt_of_lt_of_le (hmoved d m hm).1 (hmono d), (hmoved d m hm).2⟩

theorem flip_log (b : Backend α) (domain : String) (mid i : Nat) :
    (b.flip domain mid i).log =
      b.log ++ [Output.flipped domain mid, .dealt "daemon" (b.nextMid "daemon"),
        .sent "daemon" ⟨b.nextMid "daemon", (b.entries i).name, (b.entries i).args⟩ (.deopt domain mid)] := by
  simp [flip, record, dealMid, setEntry]

theorem Sound.flip (h : Sound b) {mid i : Nat} (hi : b.At domain mid i) : Sound (b.flip domain mid i) := by
  refine h.deal i [.flipped domain mid] (fun _ => ⟨fun _ => rfl, rfl, rfl⟩) ?_ (b.flip_log domain mid i) rfl rfl ?_
  · intro d m hm
    have hmid : d = domain ∧ m = mid := by
      by_cases hd : domain = d
      · exact ⟨hd.symm, by simpa [movedIn, hd] using hm⟩
      · simp [movedIn, hd] at hm
    obtain ⟨rfl, rfl⟩ := hmid
    have hlt := h.below d m i hi
    refine ⟨hlt, fun j hj => ?_⟩
    rcases flip_at hj with ⟨hj, hne⟩ | ⟨rfl, rfl, rfl⟩
    · exact hne (h.distinct d m j i hj hi)
    · omega
  · intro d m j hj
    rcases flip_at hj with ⟨hj, -⟩ | hj
    · exact .inl hj
    · exact .inr hj

theorem Sound.confirm (h : Sound b) {lmid : Nat} (hc : b.foldConfirm domain lmid = some b') :
    Sound b' := by
  obtain ⟨he, -, hp, -, -, -, hw, hcase⟩ := foldConfirm_spec hc
  have hat : ∀ d m i, b'.At d m i ↔ b.At d m i := by
    intro d m i
    simp only [At, he, hp]
  rcases hcase with ⟨hle, hn, hl⟩ | ⟨hgt, hnone, hn, hl⟩
  · have hq : Quiet [Output.confirmed (α := α) domain lmid] := by
      intro o ho
      exact .inr (.inr ⟨_, _, List.mem_singleton.mp ho⟩)
    have hs : Sound { b' with watermark := b.watermark } := h.quiet _ hq hl hn rfl fun d m i hi => (hat d m i).mp hi
    refine ⟨hs.below, hs.distinct, ?_, hs.numbered, hs.sent, hs.moved⟩
    intro d
    have := h.marked d
    rw [hw, hn]
    by_cases hd : d = domain
    · subst hd
      simp only [Function.update_self]
      omega
    · simpa [hd] using this
  · have hmono := (foldConfirm_le hc).2
    refine ⟨?_, ?_, ?_, ?_, ?_, ?_⟩
    · intro d m i hi
      exact Nat.lt_of_lt_of_le (h.below d m i ((hat d m i).mp hi)) (hmono d)
    · intro d m i j hi hj
      exact h.distinct d m i j ((hat d m i).mp hi) ((hat d m j).mp hj)
    · intro d
      have := h.marked d
      rw [hw, hn]
      by_cases hd : d = domain
      · subst hd
        simp only [Function.update_self]
        omega
      · simpa [hd] using this
    · intro d
      have hm := h.marked d
      rw [hl, List.append_assoc, numbering_append, h.numbered, Option.bind_some, hn]
      by_cases hd : d = domain
      · subst hd
        have : b.nextMid d < lmid + 1 := by omega
        simp [follows, this]
      · simp [follows, hd, Ne.symm hd]
    · intro d
      rw [hl, List.append_assoc, sentIn_append, dealtIn_append, h.sent]
      simp [sentIn, dealtIn]
    · intro d m hm
      have hm' : m ∈ movedIn d b.log := by simpa [hl, movedIn_append, movedIn] using hm
      obtain ⟨h1, h2⟩ := h.moved d m hm'
      exact ⟨Nat.lt_of_lt_of_le h1 (hmono d), fun i hi => h2 i ((hat d m i).mp hi)⟩

theorem move_sound (hm : Move a b b') (hlive : Live b) (h : Sound b) : Sound b' := by
  have hnil : Quiet (α := α) [] := fun _ hx => nomatch hx
  have hnone : ∀ d, (∀ n, ([] : List (Output α)).foldlM (follows d) n = some n) ∧ sentIn d ([] : List (Output α)) = [] ∧
      dealtIn d ([] : List (Output α)) = [] := fun _ => ⟨fun _ => rfl, rfl, rfl⟩
  cases hm with
  | again domain e =>
    have hq : Quiet [Output.resent domain e] := by
      intro x hx
      rw [List.mem_singleton.mp hx]
      exact .inl trivial
    exact h.quiet _ hq rfl rfl rfl fun d m i hi => hi
  | note o processed ho ha =>
    have hq : Quiet [o] := by
      intro x hx
      rw [List.mem_singleton.mp hx]
      exact .inl ho
    exact h.quiet _ hq rfl rfl rfl fun d m i hi => hi
  | touch i touched => exact h.quiet [] hnil (List.append_nil _).symm rfl rfl fun d m j => touch_at
  | opened foldKey name args domain touched deferred hf =>
    exact h.quiet [] hnil (List.append_nil _).symm rfl rfl fun d m j => openFold_at
  | refold foldKey f args domain touched hf =>
    exact h.quiet [] hnil (List.append_nil _).symm rfl rfl fun d m j => refold_at hlive hf
  | issue domain name args touched origin ha ho => exact h.deal b.created [] hnone (fun _ _ hx => nomatch hx) (List.append_assoc _ _ _) rfl rfl fun d m j => issue_at
  | flush foldKey f domain hf ha => exact h.deal f.entry [] hnone (fun _ _ hx => nomatch hx) (List.append_assoc _ _ _) rfl rfl fun d m j => flushTo_at
  | flip domain mid i hi ha ho => exact h.flip (find_spec hi)
  | confirm _ domain lmid hc ha => exact h.confirm hc
  | retire =>
    refine h.quiet _ ?_ rfl rfl rfl fun d m i hi => (confirmDrop_at hi).1
    intro o ho
    obtain ⟨i, hi, hio⟩ := List.mem_filterMap.mp ho
    obtain ⟨m, hm, rfl⟩ := Option.map_eq_some_iff.mp hio
    exact .inr (.inl ⟨_, _, rfl⟩)
  | drop keep hl =>
    exact h.quiet [] hnil (List.append_nil _).symm rfl rfl fun d m i hi => ⟨(List.mem_filter.mp hi.1).1, hi.2⟩

/-- Whatever happens. -/
def anything : Allow := ⟨True, fun _ _ => True, fun _ _ => True, True⟩

end Backend

end Rindle.Mutations
