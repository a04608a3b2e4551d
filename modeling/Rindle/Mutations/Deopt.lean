/-
  Rindle.Mutations.Deopt — the mutations a room refuses.

  A room answers a mutation with a rejection, with a deopt that echoes its name and args, or
  not at all when it applied it; the answer comes as frames on the room's socket or as rows of a
  daemon release, again after each reconnect, before or after the lmid that covers it. Per
  domain the last 512 answered mids are known.

  `deopt_replayed_once`: whatever the order, an outcome is acted on once. A rejection is
  surfaced. A deopt sends one daemon envelope with the mutation's name and args: of the entry
  itself where it is still pending, at its old place in the replay order, and then the entry is
  never retired under the room's mid; of a fresh invocation where it is not, or, if that
  throws, one rejection is surfaced instead.

  So a covering lmid that comes before the deopt retires the entry as applied and the deopt
  sends it again (`covered_then_deopted`).
-/

import Rindle.Mutations.Sound
import Mathlib.Data.List.Dedup

set_option linter.dupNamespace false

namespace Rindle.Mutations

variable {α : Type}

/-- What a room makes of a mutation. -/
inductive Verdict (α : Type)
  | applied
  | rejected
  | deopt (name : String) (args : α)

/-- The frames that tell it. -/
def Verdict.Gives (v : Verdict α) (f : MutationOutcomeFrame α) : Prop :=
  match v with
  | .applied => False
  | .rejected => f.kind = .rejected
  | .deopt name args => f.kind = .deopt ∧ f.name = some name ∧ f.args = args

/-- The outcome frames or rows an event brings, by domain. -/
def framesOf : Event α → List (String × MutationOutcomeFrame α × Ran)
  | .outcome domain frame ran => [(domain, frame, ran)]
  | .release r => r.outcomes
  | _ => []

/-! ## Reading the log -/

variable (d : String) (m : Nat) (log : List (Output α))

/-- The outcomes heard from a domain. -/
def heardIn : List (Nat × Reception) :=
  log.filterMap fun
    | .heard d' m how => if d' = d then some (m, how) else none
    | _ => none

/-- The mids whose outcomes were taken up. -/
def takenIn : List Nat :=
  (heardIn d log).filterMap fun
    | (m, .taken _) => some m
    | _ => none

/-- The outputs that the outcome of `d`'s mid `m` brings about. -/
def Output.answers : Output α → Bool
  | .heard d' m' (.taken _) => d' = d ∧ m' = m
  | .sent _ _ (.deopt d' m') => d' = d ∧ m' = m
  | .rejected d' e _ => d' = d ∧ e.mid = m
  | _ => false

/-- Everything the outcome of `d`'s mid `m` brought about. -/
def answers : List (Output α) := log.filter (·.answers d m)

/-- The one thing an outcome does, its entry pending or not. -/
def Reply (v : Verdict α) (pending : Bool) (o : Output α) : Prop :=
  match v with
  | .applied => False
  | .rejected => ∃ e reason, o = .rejected d e reason ∧ e.mid = m
  | .deopt name args =>
    (∃ k, o = .sent "daemon" ⟨k, name, args⟩ (.deopt d m)) ∨ (pending = false ∧ ∃ reason, o = .rejected d ⟨m, name, args⟩ reason)

theorem Reply.not_heard {d : String} {m : Nat} {v : Verdict α} {pending : Bool} {o : Output α} (h : Reply d m v pending o)
    (d' : String) (m' : Nat) (how : Reception) : o ≠ .heard d' m' how := by
  intro ho
  subst ho
  cases v with
  | applied => exact h
  | rejected =>
    obtain ⟨e, reason, h, -⟩ := h
    cases h
  | deopt name args =>
    rcases h with ⟨k, h⟩ | ⟨-, reason, h⟩
    · cases h
    · cases h

/-- Between any two outcomes of one mutation fewer than 512 others of its domain are heard. -/
def Remembered : Prop :=
  ∀ d m how how' before between later, heardIn d log = before ++ (m, how) :: between ++ (m, how') :: later →
    ((between.map (·.1)).filter (· ≠ m)).dedup.length < maxProcessedOutcomesPerDomain

/-- A deopt echoes what was sent. -/
def Echoes (verdict : String → Nat → Verdict α) (log : List (Output α)) : Prop :=
  ∀ d m name args, verdict d m = .deopt name args → ∀ e origin, .sent d e origin ∈ log → e.mid = m → e.name = name ∧ e.args = args

theorem heardIn_append (log more : List (Output α)) : heardIn d (log ++ more) = heardIn d log ++ heardIn d more := by
  simp [heardIn]

theorem takenIn_append (log more : List (Output α)) : takenIn d (log ++ more) = takenIn d log ++ takenIn d more := by
  simp [takenIn, heardIn_append]

theorem answers_append (log more : List (Output α)) :
    answers d m (log ++ more) = answers d m log ++ answers d m more := by
  simp [answers]

theorem Remembered.start {log more : List (Output α)} (h : Remembered (log ++ more)) : Remembered log := by
  intro d m how how' before between later heq
  refine h d m how how' before between (later ++ heardIn d more) ?_
  rw [heardIn_append, heq]
  simp

theorem Echoes.start {verdict : String → Nat → Verdict α} {log more : List (Output α)} (h : Echoes verdict (log ++ more)) :
    Echoes verdict log :=
  fun d m name args hv e origin he hmid => h d m name args hv e origin (List.mem_append_left _ he) hmid

/-- No outcome, nor anything one brings about. -/
def Output.Silent : Output α → Prop
  | .heard _ _ _ | .rejected _ _ _ | .sent _ _ (.deopt _ _) => False
  | _ => True

theorem Output.Silent.answers_eq {o : Output α} (h : o.Silent) (d : String) (m : Nat) : o.answers d m = false := by
  cases o with
  | heard d' m' how => exact h.elim
  | rejected d' e reason => exact h.elim
  | sent d' e origin =>
    cases origin with
    | deopt d'' m'' => exact h.elim
    | _ => rfl
  | _ => rfl

theorem silent_reads {more : List (Output α)} (h : ∀ o ∈ more, o.Silent) (d : String) (m : Nat) :
    heardIn d more = [] ∧ answers d m more = [] := by
  constructor
  · refine List.filterMap_eq_nil_iff.mpr ?_
    intro o ho
    have hs := h o ho
    cases o with
    | heard d' m' how => exact hs.elim
    | _ => rfl
  · refine List.filter_eq_nil_iff.mpr ?_
    intro o ho
    simp [(h o ho).answers_eq d m]

/-- A mid whose outcome was taken up and has left the last 512 is not heard of again. -/
theorem remembered_taken {H : List (Nat × Reception)} {m : Nat}
    (hr : ∀ how before between, H = before ++ (m, how) :: between →
      ((between.map (·.1)).filter (· ≠ m)).dedup.length < maxProcessedOutcomesPerDomain)
    {T : List Nat} (hT : T = H.filterMap fun | (m, .taken _) => some m | _ => none) (hnd : T.Nodup)
    (hm : m ∉ T.drop (T.length - maxProcessedOutcomesPerDomain)) : m ∉ T := by
  intro hmem
  obtain ⟨X, Y, hXY⟩ := List.append_of_mem hmem
  have hlen : maxProcessedOutcomesPerDomain ≤ Y.length := by
    by_contra hlt
    apply hm
    have hle : T.length - maxProcessedOutcomesPerDomain ≤ X.length := by
      rw [hXY, List.length_append, List.length_cons]
      omega
    rw [hXY] at hle ⊢
    rw [List.drop_append_of_le_length hle]
    exact List.mem_append_right _ List.mem_cons_self
  obtain ⟨A, C, hH, -, hC⟩ := List.filterMap_eq_append_iff.mp (hT.symm.trans hXY)
  obtain ⟨A', x, B, hCB, -, hx, hB⟩ := List.filterMap_eq_cons_iff.mp hC
  have hxm : ∃ pending, x = (m, .taken pending) := by
    obtain ⟨k, r⟩ := x
    cases r with
    | taken pending => exact ⟨pending, by rw [Option.some.inj hx]⟩
    | _ => cases hx
  obtain ⟨pending, rfl⟩ := hxm
  have hlt := hr (.taken pending) (A ++ A') B (by rw [hH, hCB]; simp)
  have hsub : Y ⊆ ((B.map (·.1)).filter (· ≠ m)).dedup := by
    intro y hy
    obtain ⟨⟨k, r⟩, hz, hzy⟩ := List.mem_filterMap.mp (hB ▸ hy)
    have hk : k = y := by
      cases r with
      | taken _ => exact Option.some.inj hzy
      | _ => cases hzy
    refine List.mem_dedup.mpr (List.mem_filter.mpr ⟨List.mem_map.mpr ⟨(k, r), hz, hk⟩, ?_⟩)
    rw [hXY] at hnd
    have hne := (List.nodup_cons.mp (List.nodup_append.mp hnd).2.1).1
    simp only [ne_eq, decide_eq_true_eq]
    intro hym
    exact hne (hym ▸ hy)
  have hYnd : Y.Nodup := by
    rw [hXY] at hnd
    exact (List.nodup_cons.mp (List.nodup_append.mp hnd).2.1).2
  have := (List.subperm_of_subset hYnd hsub).length_le
  omega

/-- Every outcome heard after its mutation was sent is among those taken up. -/
def Heeded : Prop :=
  ∀ d m how before later, log = before ++ .heard d m how :: later → m ∈ sentIn d before → m ∈ takenIn d log

theorem Heeded.more {log more : List (Output α)} (h : Heeded log) (hm : ∀ d m how, .heard d m how ∉ more) : Heeded (log ++ more) := by
  intro d m how before later heq hs
  rw [takenIn_append]
  refine List.mem_append_left _ ?_
  rcases List.append_eq_append_iff.mp heq with ⟨as, -, has⟩ | ⟨bs, hlog, hbs⟩
  · exact absurd (has ▸ List.mem_append_right _ List.mem_cons_self) (hm d m how)
  · cases bs with
    | nil =>
      rw [List.nil_append] at hbs
      exact absurd (hbs ▸ List.mem_cons_self) (hm d m how)
    | cons x bs =>
      obtain ⟨rfl, rfl⟩ := List.cons.inj hbs
      exact h d m how before bs hlog hs

theorem Heeded.heard {log : List (Output α)} (h : Heeded log) {d : String} {m : Nat} {how : Reception}
    (hm : m ∈ sentIn d log → m ∈ takenIn d (log ++ [Output.heard d m how])) : Heeded (log ++ [Output.heard d m how]) := by
  intro d' m' how' before later heq hs
  rcases List.append_eq_append_iff.mp heq with ⟨as, hb, has⟩ | ⟨bs, hlog, hbs⟩
  · cases as with
    | nil =>
      obtain ⟨hx, -⟩ := List.cons.inj has
      obtain ⟨rfl, rfl, rfl⟩ := Output.heard.inj hx
      rw [List.append_nil] at hb
      rw [hb] at hs
      exact hm hs
    | cons x as =>
      have := congrArg List.length has
      simp at this
  · rw [takenIn_append]
    cases bs with
    | nil =>
      obtain ⟨hx, -⟩ := List.cons.inj hbs
      obtain ⟨rfl, rfl, rfl⟩ := Output.heard.inj hx
      rw [List.append_nil] at hlog
      rw [← takenIn_append]
      exact hm (hlog ▸ hs)
    | cons x bs =>
      obtain ⟨rfl, -⟩ := List.cons.inj hbs
      exact List.mem_append_left _ (h d' m' how' before bs hlog hs)

namespace Backend

/-- Everything but acting on outcomes. -/
def silent : Allow := ⟨True, fun _ _ => True, fun _ _ => True, False⟩

/-- Nothing about outcomes was said or learned. -/
def Whisper (b b' : Backend α) : Prop :=
  (∃ more, b'.log = b.log ++ more ∧ ∀ o ∈ more, o.Silent) ∧ b'.outcomesProcessed = b.outcomesProcessed

theorem Whisper.refl (b : Backend α) : Whisper b b := ⟨⟨[], (List.append_nil _).symm, fun _ h => nomatch h⟩, rfl⟩

theorem Whisper.trans {b c d : Backend α} (h : Whisper b c) (h' : Whisper c d) : Whisper b d := by
  obtain ⟨⟨more, hl, hs⟩, hp⟩ := h
  obtain ⟨⟨more', hl', hs'⟩, hp'⟩ := h'
  refine ⟨⟨more ++ more', ?_, ?_⟩, hp'.trans hp⟩
  · rw [hl', hl, List.append_assoc]
  · intro o ho
    rcases List.mem_append.mp ho with ho | ho
    · exact hs o ho
    · exact hs' o ho

variable {b : Backend α} {b b' : Backend α} {frame : MutationOutcomeFrame α} {verdict : String → Nat → Verdict α}

theorem Whisper.of_log (more : List (Output α)) (hl : b'.log = b.log ++ more) (hs : ∀ o ∈ more, o.Silent)
    (hp : b'.outcomesProcessed = b.outcomesProcessed) : Whisper b b' := ⟨⟨more, hl, hs⟩, hp⟩

/-- A confirmation says which lmid it confirms, and where the numbering goes on. -/
theorem foldConfirm_log {d : String} {lmid : Nat} (hc : b.foldConfirm d lmid = some b') :
    ∃ more, b'.log = b.log ++ more ∧ ∀ o ∈ more, o = .adopted d (lmid + 1) ∨ o = .confirmed d lmid := by
  obtain ⟨-, -, -, -, -, -, -, ⟨-, -, hl⟩ | ⟨-, -, -, hl⟩⟩ := foldConfirm_spec hc
  · exact ⟨_, hl, by simp⟩
  · exact ⟨_, hl.trans (List.append_assoc _ _ _), by simp⟩

theorem move_silent (hm : Move silent b b') : Whisper b b' := by
  have hnil : ∀ o ∈ ([] : List (Output α)), o.Silent := fun _ h => nomatch h
  cases hm with
  | again domain e => exact .of_log [.resent domain e] rfl (by simp [Output.Silent]) rfl
  | note o processed ho ha => exact ha.elim
  | touch i touched => exact .of_log [] (List.append_nil _).symm hnil rfl
  | opened foldKey name args domain touched deferred hf => exact .of_log [] (List.append_nil _).symm hnil rfl
  | refold foldKey f args domain touched hf => exact .of_log [] (List.append_nil _).symm hnil rfl
  | issue domain name args touched origin ha ho =>
    rcases ho with rfl | ho
    · exact .of_log _ (List.append_assoc _ _ _) (by simp [Output.Silent]) rfl
    · exact ho.elim
  | flush foldKey f domain hf ha => exact .of_log _ (List.append_assoc _ _ _) (by simp [Output.Silent]) rfl
  | flip domain mid i hi ha ho => exact ho.elim
  | confirm _ domain lmid hc ha =>
    obtain ⟨-, -, -, -, -, hp, -⟩ := foldConfirm_spec hc
    obtain ⟨more, hl, hmore⟩ := foldConfirm_log hc
    refine .of_log more hl (fun o ho => ?_) hp
    rcases hmore o ho with rfl | rfl
    · trivial
    · trivial
  | retire =>
    refine .of_log _ rfl ?_ rfl
    intro o ho
    obtain ⟨i, hi, hio⟩ := List.mem_filterMap.mp ho
    obtain ⟨m, hm, rfl⟩ := Option.map_eq_some_iff.mp hio
    trivial
  | drop keep hl => exact .of_log [] (List.append_nil _).symm hnil rfl

theorem moves_silent (hm : Moves silent b b') : Whisper b b' :=
  Moves.keeps (I := Whisper b) (fun _ _ h hw => hw.trans (move_silent h)) hm (.refl b)

/-! ## What every run keeps -/

/-- An open fold and its entry hold the same args, and an awaited entry was sent as it stands. -/
structure Spoken (b : Backend α) : Prop where
  folds : ∀ e ∈ b.folds, (b.entries e.2.entry).args = e.2.args
  sent : ∀ d m i, b.At d m i → ∃ origin, .sent d ⟨m, (b.entries i).name, (b.entries i).args⟩ origin ∈ b.log

/-- What is retired is never awaited again and was never moved. -/
def Parted (b : Backend α) : Prop :=
  ∀ d m, .retired d m ∈ b.log → m < b.nextMid d ∧ (∀ i, ¬ b.At d m i) ∧ m ∉ movedIn d b.log

variable {a : Allow}

/-- A move that leaves the awaited entries' envelopes said. -/
theorem Spoken.same (h : Spoken b) (hf : ∀ e ∈ b'.folds, (b'.entries e.2.entry).args = e.2.args)
    (hl : ∃ more, b'.log = b.log ++ more)
    (hat : ∀ d m i, b'.At d m i → b.At d m i ∧ (b'.entries i).name = (b.entries i).name ∧ (b'.entries i).args = (b.entries i).args) :
    Spoken b' := by
  refine ⟨hf, ?_⟩
  intro d m i hi
  obtain ⟨hi', hn, ha⟩ := hat d m i hi
  obtain ⟨origin, ho⟩ := h.sent d m i hi'
  obtain ⟨more, hl⟩ := hl
  rw [hn, ha, hl]
  exact ⟨origin, List.mem_append_left _ ho⟩

theorem move_spoken (hm : Move a b b') (hlive : Live b) (h : Spoken b) : Spoken b' := by
  cases hm with
  | again domain e => exact h.same h.folds ⟨_, rfl⟩ fun d m i hi => ⟨hi, rfl, rfl⟩
  | note o processed ho ha => exact h.same h.folds ⟨_, rfl⟩ fun d m i hi => ⟨hi, rfl, rfl⟩
  | touch j touched =>
    have hsame : ∀ i, ((b.setEntry j { b.entries j with touched := touched }).entries i).name = (b.entries i).name ∧
        ((b.setEntry j { b.entries j with touched := touched }).entries i).args = (b.entries i).args := by
      intro i
      by_cases hij : i = j
      · subst hij
        simp [setEntry]
      · simp [setEntry, hij]
    refine h.same ?_ ⟨[], (List.append_nil _).symm⟩ fun d m i hi => ⟨touch_at hi, hsame i⟩
    intro e he
    rw [(hsame e.2.entry).2]
    exact h.folds e he
  | opened foldKey name args domain touched deferred hf =>
    refine h.same ?_ ⟨[], (List.append_nil _).symm⟩ ?_
    · intro e he
      rcases List.mem_append.mp he with he | he
      · have hne : e.2.entry ≠ b.created := Nat.ne_of_lt (hlive.undealt e he).1
        simpa [openFold, enqueue, setEntry, hne] using h.folds e he
      · rw [List.mem_singleton.mp he]
        simp [openFold, enqueue, setEntry]
    · intro d m i hi
      have hi' := openFold_at hi
      have hne : i ≠ b.created := Nat.ne_of_lt (hlive.lt i hi'.1)
      exact ⟨hi', by simp [openFold, enqueue, setEntry, hne], by simp [openFold, enqueue, setEntry, hne]⟩
  | refold foldKey f args domain touched hf =>
    refine h.same ?_ ⟨[], (List.append_nil _).symm⟩ ?_
    · intro e' he'
      obtain ⟨e, he, rfl⟩ := List.mem_map.mp he'
      by_cases hk : e.1 = foldKey
      · simp [refold, setEntry, hk]
      · have hne : e.2.entry ≠ f.entry := by
          intro heq
          exact hk (congrArg Prod.fst (hlive.fold_inj he (mem_of_lookup hf) heq))
        simpa [refold, setEntry, hk, hne] using h.folds e he
    · intro d m i hi
      have hi' := refold_at hlive hf hi
      have hne : i ≠ f.entry := hlive.dealt_ne hf hi'.2.2
      exact ⟨hi', by simp [refold, setEntry, hne], by simp [refold, setEntry, hne]⟩
  | issue domain name args touched origin ha ho =>
    refine ⟨?_, ?_⟩
    · intro e he
      have hne : e.2.entry ≠ b.created := Nat.ne_of_lt (hlive.undealt e he).1
      simpa [issue, hne] using h.folds e he
    · intro d m i hi
      rcases issue_at hi with hi | ⟨rfl, rfl, rfl⟩
      · have hne : i ≠ b.created := Nat.ne_of_lt (hlive.lt i hi.1)
        obtain ⟨o, hmem⟩ := h.sent d m i hi
        refine ⟨o, ?_⟩
        simp only [issue, Function.update_of_ne hne]
        exact List.mem_append_left _ (List.mem_append_left _ hmem)
      · refine ⟨origin, ?_⟩
        simp [issue]
  | flush foldKey f domain hf ha =>
    refine ⟨?_, ?_⟩
    · intro e he
      obtain ⟨he, hk⟩ := List.mem_filter.mp he
      have hne : e.2.entry ≠ f.entry := by
        intro heq
        have := congrArg Prod.fst (hlive.fold_inj he (mem_of_lookup hf) heq)
        simp [this] at hk
      simpa [flushTo, hne] using h.folds e he
    · intro d m i hi
      rcases flushTo_at hi with hi | ⟨rfl, rfl, rfl⟩
      · have hne : i ≠ f.entry := hlive.dealt_ne hf hi.2.2
        obtain ⟨o, hmem⟩ := h.sent d m i hi
        refine ⟨o, ?_⟩
        simp only [flushTo, Function.update_of_ne hne]
        exact List.mem_append_left _ (List.mem_append_left _ hmem)
      · refine ⟨.flushed, ?_⟩
        have hargs : (b.entries f.entry).args = f.args := h.folds _ (mem_of_lookup hf)
        simp [flushTo, hargs]
  | flip domain mid j hj ha ho =>
    have hsame : ∀ i, ((b.flip domain mid j).entries i).name = (b.entries i).name ∧
        ((b.flip domain mid j).entries i).args = (b.entries i).args := by
      intro i
      by_cases hij : i = j
      · subst hij
        simp [flip, record, dealMid, setEntry]
      · simp [flip, record, dealMid, setEntry, hij]
    refine ⟨?_, ?_⟩
    · intro e he
      rw [(hsame e.2.entry).2]
      exact h.folds e he
    · intro d m i hi
      rw [(hsame i).1, (hsame i).2, flip_log]
      rcases flip_at hi with ⟨hi, -⟩ | ⟨rfl, rfl, rfl⟩
      · obtain ⟨o, hmem⟩ := h.sent d m i hi
        exact ⟨o, List.mem_append_left _ hmem⟩
      · exact ⟨_, List.mem_append_right _ (List.mem_cons_of_mem _ (List.mem_cons_of_mem _ List.mem_cons_self))⟩
  | confirm _ domain lmid hc ha =>
    obtain ⟨he, -, hp, hf, -⟩ := foldConfirm_spec hc
    obtain ⟨more, hl, -⟩ := foldConfirm_log hc
    refine h.same ?_ ⟨more, hl⟩ ?_
    · rw [he, hf]
      exact h.folds
    · intro d m i hi
      exact ⟨by simpa only [At, he, hp] using hi, by rw [he], by rw [he]⟩
  | retire => exact h.same h.folds ⟨_, rfl⟩ fun d m i hi => ⟨(confirmDrop_at hi).1, rfl, rfl⟩
  | drop keep hl =>
    exact h.same h.folds ⟨[], (List.append_nil _).symm⟩ fun d m i hi => ⟨⟨(List.mem_filter.mp hi.1).1, hi.2⟩, rfl, rfl⟩

theorem move_nextMid (hm : Move a b b') (d : String) : b.nextMid d ≤ b'.nextMid d := by
  cases hm with
  | issue domain name args touched origin ha ho => exact le_update_self_iff.mpr (Nat.le_succ _) d
  | flush foldKey f domain hf ha => exact le_update_self_iff.mpr (Nat.le_succ _) d
  | flip domain mid i hi ha ho => exact le_update_self_iff.mpr (Nat.le_succ _) d
  | confirm _ domain lmid hc ha => exact (foldConfirm_le hc).2 d
  | _ => exact Nat.le_refl _

theorem move_parted (hm : Move a b b') (hlive : Live b) (hs : Sound b) (h : Parted b) : Parted b' := by
  -- Once retired a mid is below the counter, so no later deal brings it back.
  have hold : ∀ d m, .retired d m ∈ b.log → m < b'.nextMid d ∧ ∀ i, ¬ b'.At d m i := by
    intro d m hr
    obtain ⟨h1, h2, -⟩ := h d m hr
    refine ⟨Nat.lt_of_lt_of_le h1 (move_nextMid hm d), ?_⟩
    intro i hi
    rcases move_at hm hlive hi with hi | ⟨heq, -⟩
    · exact h2 i hi
    · omega
  have hkeep : ∀ more : List (Output α), b'.log = b.log ++ more → (∀ d m, .retired d m ∉ more) → (∀ d, movedIn d more = []) → Parted b' := by
    intro more hl hr hmv d m hmem
    rw [hl] at hmem ⊢
    have hmem' := (List.mem_append.mp hmem).resolve_right (hr d m)
    rw [movedIn_append, hmv, List.append_nil]
    exact ⟨(hold d m hmem').1, (hold d m hmem').2, (h d m hmem').2.2⟩
  cases hm with
  | again domain e => exact hkeep _ rfl (by simp) fun d => rfl
  | note o processed ho ha =>
    refine hkeep _ rfl ?_ ?_
    · intro d m hmem
      rw [← List.mem_singleton.mp hmem] at ho
      exact ho
    · intro d
      cases o <;> first | rfl | exact ho.elim
  | touch i touched => exact hkeep [] (List.append_nil _).symm (by simp) fun d => rfl
  | opened foldKey name args domain touched deferred hf => exact hkeep [] (List.append_nil _).symm (by simp) fun d => rfl
  | refold foldKey f args domain touched hf => exact hkeep [] (List.append_nil _).symm (by simp) fun d => rfl
  | issue domain name args touched origin ha ho => exact hkeep _ (List.append_assoc _ _ _) (by simp) fun d => rfl
  | flush foldKey f domain hf ha => exact hkeep _ (List.append_assoc _ _ _) (by simp) fun d => rfl
  | flip domain mid i hi ha ho =>
    intro d m hmem
    rw [flip_log] at hmem
    have hmem' : .retired d m ∈ b.log := by simpa using hmem
    refine ⟨(hold d m hmem').1, (hold d m hmem').2, ?_⟩
    obtain ⟨-, h2, h3⟩ := h d m hmem'
    rw [flip_log, movedIn_append]
    intro hmv
    rcases List.mem_append.mp hmv with hmv | hmv
    · exact h3 hmv
    · by_cases hd : domain = d
      · have : m = mid := by simpa [movedIn, hd] using hmv
        have hat := find_spec hi
        rw [hd, ← this] at hat
        exact h2 i hat
      · simp [movedIn, hd] at hmv
  | confirm _ domain lmid hc ha =>
    obtain ⟨more, hl, hmore⟩ := foldConfirm_log hc
    refine hkeep more hl (fun d m hmem => by simpa using hmore _ hmem) fun d => ?_
    refine List.filterMap_eq_nil_iff.mpr fun o ho => ?_
    rcases hmore o ho with rfl | rfl
    · rfl
    · rfl
  | retire =>
    have hmv : ∀ d, movedIn d (b.pendingMutations.filterMap fun i => (b.covered i).map (Output.retired (α := α) (b.entries i).domain)) = [] := by
      intro d
      refine List.filterMap_eq_nil_iff.mpr ?_
      intro o ho
      obtain ⟨i, hi, hio⟩ := List.mem_filterMap.mp ho
      obtain ⟨m, hm, rfl⟩ := Option.map_eq_some_iff.mp hio
      rfl
    intro d m hmem
    simp only [confirmDrop, movedIn_append, hmv, List.append_nil]
    rcases List.mem_append.mp hmem with hmem | hmem
    · exact ⟨(hold d m hmem).1, (hold d m hmem).2, (h d m hmem).2.2⟩
    · obtain ⟨i, hi, hio⟩ := List.mem_filterMap.mp hmem
      obtain ⟨x, hx, hxo⟩ := Option.map_eq_some_iff.mp hio
      obtain ⟨rfl, rfl⟩ := Output.retired.inj hxo
      obtain ⟨hmid, hle⟩ := Option.filter_eq_some_iff.mp hx
      have hat : b.At (b.entries i).domain x i := ⟨hi, rfl, hmid⟩
      refine ⟨hs.below _ _ _ hat, ?_, fun hmv' => (hs.moved _ _ hmv').2 i hat⟩
      intro j hj
      have := (confirmDrop_at hj).2
      have := of_decide_eq_true hle
      omega
  | drop keep hl => exact hkeep [] (List.append_nil _).symm (by simp) fun d => rfl

/-! ## One outcome -/

/-- The last outcomes the domain remembers. -/
def latest (mids : List Nat) : List Nat := mids.drop (mids.length - maxProcessedOutcomesPerDomain)

theorem latest_append (mids : List Nat) (m : Nat) : latest (latest mids ++ [m]) = latest (mids ++ [m]) := by
  unfold latest
  generalize maxProcessedOutcomesPerDomain = cap
  by_cases hlt : mids.length < cap
  · rw [show mids.length - cap = 0 by omega, List.drop_zero]
  · rw [List.length_append, List.length_drop, List.length_singleton, List.length_append, List.length_singleton]
    by_cases hz : cap = 0
    · subst hz
      simp
    · have happ : (mids ++ [m]).drop (mids.length - cap) = mids.drop (mids.length - cap) ++ [m] :=
        List.drop_append_of_le_length (Nat.sub_le _ _)
      rw [show mids.length - (mids.length - cap) + 1 - cap = 1 by omega, show mids.length + 1 - cap = (mids.length - cap) + 1 by omega,
        ← List.drop_drop, happ]

/-- An outcome changes nothing, or it was issued, not known, and does its one thing. -/
structure TakenUp (b b' : Backend α) (d : String) (m : Nat) (v : Verdict α) : Prop where
  issued : m < b.nextMid d
  unknown : m ∉ b.outcomesProcessed d
  processed : b'.outcomesProcessed = Function.update b.outcomesProcessed d (latest (b.outcomesProcessed d ++ [m]))
  log : ∃ pending quiet o, b'.log = b.log ++ .heard d m (.taken pending) :: (quiet ++ [o]) ∧ (∀ x ∈ quiet, x.Silent) ∧
    Reply d m v pending o ∧ (∀ name args, v = .deopt name args → pending = true → m ∈ movedIn d quiet)

theorem reenqueue_spec (policy : Policy α) {d : String} (ran : Ran) {name : String}
    {args : α} (hn : frame.name = some name) (ha : frame.args = args)
    (hecho : ∀ i, b.At d frame.mid i → (b.entries i).name = name ∧ (b.entries i).args = args) :
    (b.reenqueue policy d frame ran).outcomesProcessed = b.outcomesProcessed ∧
      ∃ quiet o, (b.reenqueue policy d frame ran).log = b.log ++ (quiet ++ [o]) ∧ (∀ x ∈ quiet, x.Silent) ∧
        Reply d frame.mid (.deopt name args) (b.find d frame.mid).isSome o ∧
        ((b.find d frame.mid).isSome = true → frame.mid ∈ movedIn d quiet) := by
  unfold reenqueue
  cases hfind : b.find d frame.mid with
  | some i =>
    obtain ⟨hname, hargs⟩ := hecho i (find_spec hfind)
    refine ⟨rfl, [.flipped d frame.mid, .dealt "daemon" (b.nextMid "daemon")], _, by rw [flip_log]; rfl, ?_, ?_, ?_⟩
    · intro x hx
      simp only [List.mem_cons, List.not_mem_nil, or_false] at hx
      rcases hx with rfl | rfl
      · trivial
      · trivial
    · rw [hname, hargs]
      exact .inl ⟨_, rfl⟩
    · intro _
      simp [movedIn]
  | none =>
    rw [hn, ha]
    cases ran with
    | error e => exact ⟨rfl, [], _, rfl, fun _ hx => (by cases hx), .inr ⟨rfl, _, rfl⟩, fun h => (by cases h)⟩
    | ok touched =>
      simp only [invokeWith_ok]
      have hdrain : Moves silent b (b.drainOverlapping policy touched) := by
        rw [drainOverlapping_eq]
        exact (flushKeys_moves policy _ (fun _ _ _ _ => trivial) (.refl b)).1
      obtain ⟨⟨more, hl, hs⟩, hp⟩ := moves_silent hdrain
      refine ⟨hp, more ++ [Output.dealt "daemon" ((b.drainOverlapping policy touched).nextMid "daemon")],
        .sent "daemon" ⟨(b.drainOverlapping policy touched).nextMid "daemon", name, args⟩ (.deopt d frame.mid), ?_, ?_, ?_,
        fun h => (by cases h)⟩
      · simp only [issue, hl, Option.getD_some, List.append_assoc]
      · intro x hx
        rcases List.mem_append.mp hx with hx | hx
        · exact hs x hx
        · rw [List.mem_singleton.mp hx]
          trivial
      · exact .inl ⟨_, rfl⟩

theorem handleMutationOutcome_spec (policy : Policy α) {d : String} (ran : Ran)
    {v : Verdict α} (hv : v.Gives frame) (hsp : Spoken b)
    (hecho : ∀ name args, v = .deopt name args → ∀ e origin, .sent d e origin ∈ b.log → e.mid = frame.mid → e.name = name ∧ e.args = args) :
    (∃ how, (∀ pending, how ≠ .taken pending) ∧ (b.handleMutationOutcome policy d frame ran).log = b.log ++ [Output.heard d frame.mid how] ∧
        (b.handleMutationOutcome policy d frame ran).outcomesProcessed = b.outcomesProcessed ∧
        (b.nextMid d ≤ frame.mid ∨ frame.mid ∈ b.outcomesProcessed d)) ∨
      TakenUp b (b.handleMutationOutcome policy d frame ran) d frame.mid v := by
  unfold handleMutationOutcome
  by_cases hissued : b.nextMid d ≤ frame.mid
  · rw [if_pos hissued]
    exact .inl ⟨.foreign, fun _ h => (nomatch h), rfl, rfl, .inl hissued⟩
  rw [if_neg hissued]
  unfold markOutcomeProcessed
  dsimp only
  by_cases hknown : frame.mid ∈ b.outcomesProcessed d
  · rw [if_pos hknown]
    exact .inl ⟨.duplicate, fun _ h => (nomatch h), rfl, rfl, .inr hknown⟩
  rw [if_neg hknown]
  refine .inr ⟨by omega, hknown, ?_, ?_⟩
  · cases v with
    | applied => exact hv.elim
    | rejected =>
      rw [show frame.kind = .rejected from hv]
      rfl
    | deopt name args =>
      obtain ⟨hk, hn, ha⟩ := hv
      rw [hk]
      exact (reenqueue_spec policy ran hn ha fun i hi => by
        obtain ⟨origin, ho⟩ := hsp.sent d frame.mid i hi
        exact hecho name args rfl _ origin ho rfl).1
  · cases v with
    | applied => exact hv.elim
    | rejected =>
      rw [show frame.kind = .rejected from hv]
      refine ⟨_, [], _, List.append_assoc _ _ _, fun _ hx => (nomatch hx), ⟨_, _, rfl, ?_⟩, fun _ _ h => (nomatch h)⟩
      split
      · rfl
      · rfl
    | deopt name args =>
      obtain ⟨hk, hn, ha⟩ := hv
      rw [hk]
      obtain ⟨-, quiet, o, hl, hq, hr, hmv⟩ := reenqueue_spec
        (b := ({ b with outcomesProcessed := _ } : Backend α).record (.heard d frame.mid (.taken (b.find d frame.mid).isSome)))
        policy ran hn ha fun i hi => by
          obtain ⟨origin, ho⟩ := hsp.sent d frame.mid i hi
          exact hecho name args rfl _ origin ho rfl
      refine ⟨_, quiet, o, hl.trans ?_, hq, hr, fun _ _ _ hp => hmv hp⟩
      simp [record]
      rfl

/-- What the run has made of the outcomes so far. -/
structure Told (verdict : String → Nat → Verdict α) (b : Backend α) : Prop where
  known : ∀ d, b.outcomesProcessed d = latest (takenIn d b.log)
  once : ∀ d, (takenIn d b.log).Nodup
  unanswered : ∀ d m, m ∉ takenIn d b.log → answers d m b.log = []
  answered : ∀ d m, m ∈ takenIn d b.log → ∃ pending o, answers d m b.log = [.heard d m (.taken pending), o] ∧
    Reply d m (verdict d m) pending o ∧ (∀ name args, verdict d m = .deopt name args → pending = true → m ∈ movedIn d b.log)
  heeded : Heeded b.log

/-- Nothing more is taken up. -/
theorem Told.quiet (h : Told verdict b) {more : List (Output α)} (hl : b'.log = b.log ++ more)
    (hp : b'.outcomesProcessed = b.outcomesProcessed) (ht : ∀ d, takenIn d more = []) (ha : ∀ d m, answers d m more = [])
    (hheeded : Heeded b'.log) : Told verdict b' := by
  have htaken : ∀ d, takenIn d b'.log = takenIn d b.log := by
    intro d
    rw [hl, takenIn_append, ht, List.append_nil]
  have hans : ∀ d m, answers d m b'.log = answers d m b.log := by
    intro d m
    rw [hl, answers_append, ha, List.append_nil]
  refine ⟨?_, ?_, ?_, ?_, hheeded⟩
  · intro d
    rw [hp, htaken]
    exact h.known d
  · intro d
    rw [htaken]
    exact h.once d
  · intro d m hm
    rw [htaken] at hm
    rw [hans]
    exact h.unanswered d m hm
  · intro d m hm
    rw [htaken] at hm
    obtain ⟨pending, o, h1, h2, h3⟩ := h.answered d m hm
    refine ⟨pending, o, (hans d m).trans h1, h2, ?_⟩
    intro name args hv hpend
    rw [hl, movedIn_append]
    exact List.mem_append_left _ (h3 name args hv hpend)

theorem Told.whisper (h : Told verdict b) (hw : Whisper b b') : Told verdict b' := by
  obtain ⟨⟨more, hl, hs⟩, hp⟩ := hw
  refine h.quiet hl hp (fun d => ?_) (fun d m => (silent_reads hs d m).2) ?_
  · rw [takenIn, (silent_reads hs d 0).1, List.filterMap_nil]
  · rw [hl]
    exact h.heeded.more fun d m how hmem => hs _ hmem

/-- What one outcome adds to the log, read domain by domain. -/
theorem takenUp_reads {d : String} {m : Nat} {pending : Bool} {quiet : List (Output α)}
    {o : Output α} (hq : ∀ x ∈ quiet, x.Silent) (hr : Reply d m (verdict d m) pending o) :
    (∀ d', heardIn d' ([Output.heard d m (.taken pending)] ++ (quiet ++ [o])) = if d = d' then [(m, .taken pending)] else []) ∧
      answers d m ([Output.heard d m (.taken pending)] ++ (quiet ++ [o])) = [Output.heard d m (.taken pending), o] ∧
      (∀ d' m', ¬ (d' = d ∧ m' = m) → answers d' m' ([Output.heard d m (.taken pending)] ++ (quiet ++ [o])) = []) ∧
      ∀ d' m' how, .heard d' m' how ∉ quiet ++ [o] := by
  have ho : (∀ d', heardIn d' [o] = []) ∧ ∀ d' m', o.answers d' m' = decide (d = d' ∧ m = m') := by
    cases hv : verdict d m with
    | applied =>
      rw [hv] at hr
      exact hr.elim
    | rejected =>
      rw [hv] at hr
      obtain ⟨e, reason, rfl, rfl⟩ := hr
      exact ⟨fun _ => rfl, fun _ _ => rfl⟩
    | deopt name args =>
      rw [hv] at hr
      rcases hr with ⟨k, rfl⟩ | ⟨-, reason, rfl⟩
      · exact ⟨fun _ => rfl, fun _ _ => rfl⟩
      · exact ⟨fun _ => rfl, fun _ _ => rfl⟩
  obtain ⟨h1, hans⟩ := ho
  have h2 : answers d m [o] = [o] := by simp [answers, hans]
  have h3 : ∀ d' m', ¬ (d' = d ∧ m' = m) → answers d' m' [o] = [] := by
    intro d' m' hne
    simp only [answers, hans, List.filter_cons, List.filter_nil]
    rw [if_neg (by simp only [decide_eq_true_eq]; exact fun h => hne ⟨h.1.symm, h.2.symm⟩)]
  refine ⟨?_, ?_, ?_, ?_⟩
  · intro d'
    rw [heardIn_append, heardIn_append, h1, (silent_reads hq d' 0).1]
    by_cases hd : d = d'
    · simp [heardIn, hd]
    · simp [heardIn, hd]
  · rw [answers_append, answers_append, h2, (silent_reads hq d m).2]
    simp [answers, Output.answers]
  · intro d' m' hne
    rw [answers_append, answers_append, h3 d' m' hne, (silent_reads hq d' m').2]
    simp only [answers, Output.answers, List.filter_cons, List.filter_nil, List.append_nil]
    rw [if_neg (by simp only [decide_eq_true_eq]; exact fun h => hne ⟨h.1.symm, h.2.symm⟩)]
  · intro d' m' how hmem
    rcases List.mem_append.mp hmem with hmem | hmem
    · exact hq _ hmem
    · exact hr.not_heard d' m' how (List.mem_singleton.mp hmem).symm

theorem Told.handle (h : Told verdict b) (hs : Sound b) (hsp : Spoken b)
    (policy : Policy α) {d : String} (ran : Ran) (hv : (verdict d frame.mid).Gives frame)
    (hecho : ∀ name args, verdict d frame.mid = .deopt name args →
      ∀ e origin, .sent d e origin ∈ b.log → e.mid = frame.mid → e.name = name ∧ e.args = args)
    (hrem : Remembered (b.handleMutationOutcome policy d frame ran).log) :
    Told verdict (b.handleMutationOutcome policy d frame ran) := by
  have hissued : frame.mid ∈ sentIn d b.log → frame.mid < b.nextMid d := by
    intro hm
    rw [hs.sent] at hm
    exact (rising_of_numbering (hs.numbered d)).2 _ hm
  rcases handleMutationOutcome_spec policy ran hv hsp hecho with ⟨how, hhow, hl, hp, hwhy⟩ | ht
  · have hread : (∀ d', takenIn d' [Output.heard (α := α) d frame.mid how] = []) ∧
        ∀ d' m', answers d' m' [Output.heard (α := α) d frame.mid how] = [] := by
      cases how with
      | taken pending => exact absurd rfl (hhow pending)
      | foreign =>
        refine ⟨?_, fun _ _ => rfl⟩
        intro d'
        by_cases hd : d = d'
        · simp [takenIn, heardIn, hd]
        · simp [takenIn, heardIn, hd]
      | duplicate =>
        refine ⟨?_, fun _ _ => rfl⟩
        intro d'
        by_cases hd : d = d'
        · simp [takenIn, heardIn, hd]
        · simp [takenIn, heardIn, hd]
    refine h.quiet hl hp hread.1 hread.2 ?_
    rw [hl]
    refine h.heeded.heard ?_
    intro hm
    rw [takenIn_append]
    refine List.mem_append_left _ ?_
    rcases hwhy with hge | hin
    · have := hissued hm
      omega
    · rw [h.known] at hin
      exact List.mem_of_mem_drop hin
  · obtain ⟨pending, quiet, o, hl, hq, hr, hmv⟩ := ht.log
    have hl' : (b.handleMutationOutcome policy d frame ran).log =
        b.log ++ ([Output.heard d frame.mid (.taken pending)] ++ (quiet ++ [o])) := by rw [hl]; rfl
    obtain ⟨hheard, hself, hother, hunheard⟩ := takenUp_reads hq hr
    have htaken : ∀ d', takenIn d' (b.handleMutationOutcome policy d frame ran).log =
        takenIn d' b.log ++ if d = d' then [frame.mid] else [] := by
      intro d'
      rw [hl', takenIn_append, takenIn, takenIn, hheard]
      by_cases hd : d = d'
      · rw [if_pos hd, if_pos hd]
        rfl
      · rw [if_neg hd, if_neg hd]
        rfl
    have hnew : frame.mid ∉ takenIn d b.log := by
      refine remembered_taken (m := frame.mid) (H := heardIn d b.log) ?_ rfl (h.once d) ?_
      · intro how before between heq
        refine hrem d frame.mid how (.taken pending) before between [] ?_
        rw [hl', heardIn_append, hheard, if_pos rfl, heq]
      · have := ht.unknown
        rw [h.known] at this
        exact this
    refine ⟨?_, ?_, ?_, ?_, ?_⟩
    · intro d'
      rw [ht.processed, htaken]
      by_cases hd : d = d'
      · subst hd
        rw [Function.update_self, if_pos rfl, h.known, latest_append]
      · rw [Function.update_of_ne (Ne.symm hd), if_neg hd, List.append_nil]
        exact h.known d'
    · intro d'
      rw [htaken]
      by_cases hd : d = d'
      · subst hd
        rw [if_pos rfl]
        refine List.nodup_append.mpr ⟨h.once d, List.nodup_singleton _, ?_⟩
        intro x hx y hy hxy
        rw [hxy, List.mem_singleton.mp hy] at hx
        exact hnew hx
      · rw [if_neg hd, List.append_nil]
        exact h.once d'
    · intro d' m' hm
      rw [htaken] at hm
      have hne : ¬ (d' = d ∧ m' = frame.mid) := by
        intro heq
        obtain ⟨rfl, rfl⟩ := heq
        exact hm (List.mem_append_right _ (by simp))
      rw [hl', answers_append, hother d' m' hne, List.append_nil]
      exact h.unanswered d' m' fun hmem => hm (List.mem_append_left _ hmem)
    · intro d' m' hm
      rw [hl', answers_append]
      by_cases heq : d' = d ∧ m' = frame.mid
      · obtain ⟨rfl, rfl⟩ := heq
        refine ⟨pending, o, ?_, hr, ?_⟩
        · rw [hself, h.unanswered d' frame.mid hnew, List.nil_append]
        · intro name args hv' hpend
          rw [movedIn_append, movedIn_append, movedIn_append]
          exact List.mem_append_right _ (List.mem_append_right _ (List.mem_append_left _ (hmv name args hv' hpend)))
      · have hm' : m' ∈ takenIn d' b.log := by
          rw [htaken] at hm
          rcases List.mem_append.mp hm with hm | hm
          · exact hm
          · split at hm
            · rename_i hd
              exact absurd ⟨hd.symm, List.mem_singleton.mp hm⟩ heq
            · cases hm
        obtain ⟨p, o', h1, h2, h3⟩ := h.answered d' m' hm'
        rw [hother d' m' heq, List.append_nil]
        refine ⟨p, o', h1, h2, ?_⟩
        intro name args hv' hpend
        rw [movedIn_append]
        exact List.mem_append_left _ (h3 name args hv' hpend)
    · rw [hl', ← List.append_assoc]
      refine (h.heeded.heard ?_).more hunheard
      intro _
      rw [takenIn_append]
      exact List.mem_append_right _ (by simp [takenIn, heardIn])

/-! ## A run of outcomes -/

theorem move_log (hm : Move a b b') : ∃ more, b'.log = b.log ++ more := by
  cases hm with
  | again domain e => exact ⟨_, rfl⟩
  | note o processed ho ha => exact ⟨_, rfl⟩
  | issue domain name args touched origin ha ho => exact ⟨_, List.append_assoc _ _ _⟩
  | flush foldKey f domain hf ha => exact ⟨_, List.append_assoc _ _ _⟩
  | flip domain mid i hi ha ho => exact ⟨_, flip_log b domain mid i⟩
  | confirm _ domain lmid hc ha =>
    obtain ⟨more, hl, -⟩ := foldConfirm_log hc
    exact ⟨more, hl⟩
  | retire => exact ⟨_, rfl⟩
  | _ => exact ⟨[], (List.append_nil _).symm⟩

theorem moves_log (hm : Moves a b b') : ∃ more, b'.log = b.log ++ more := by
  refine Moves.keeps (I := fun c => ∃ more, c.log = b.log ++ more) ?_ hm ⟨[], (List.append_nil _).symm⟩
  intro c c' hm h
  obtain ⟨more, hl⟩ := h
  obtain ⟨more', hl'⟩ := move_log hm
  exact ⟨more ++ more', by rw [hl', hl, List.append_assoc]⟩

/-- Everything the outcomes rest on. -/
structure Steady (verdict : String → Nat → Verdict α) (b : Backend α) : Prop where
  live : Live b
  sound : Sound b
  spoken : Spoken b
  parted : Parted b
  told : Told verdict b

theorem Steady.moves (h : Steady verdict b) (hm : Moves a b b')
    (ht : Told verdict b') : Steady verdict b' := by
  have hk := Moves.keeps (I := fun b => Live b ∧ Sound b ∧ Spoken b ∧ Parted b)
    (fun c c' hm h => ⟨move_live hm h.1, move_sound hm h.1 h.2.1, move_spoken hm h.1 h.2.2.1, move_parted hm h.1 h.2.1 h.2.2.2⟩)
    hm ⟨h.live, h.sound, h.spoken, h.parted⟩
  exact ⟨hk.1, hk.2.1, hk.2.2.1, hk.2.2.2, ht⟩

theorem Steady.whisper (h : Steady verdict b) (hm : Moves silent b b') :
    Steady verdict b' :=
  h.moves hm (h.told.whisper (moves_silent hm))

theorem Steady.outcomes (h : Steady verdict b) (policy : Policy α)
    (outcomes : List (String × MutationOutcomeFrame α × Ran)) (hframes : ∀ x ∈ outcomes, (verdict x.1 x.2.1.mid).Gives x.2.1)
    (hecho : Echoes verdict (outcomes.foldl (fun b o => b.handleMutationOutcome policy o.1 o.2.1 o.2.2) b).log)
    (hrem : Remembered (outcomes.foldl (fun b o => b.handleMutationOutcome policy o.1 o.2.1 o.2.2) b).log) :
    Steady verdict (outcomes.foldl (fun b o => b.handleMutationOutcome policy o.1 o.2.1 o.2.2) b) := by
  induction outcomes generalizing b with
  | nil => exact h
  | cons o outcomes ih =>
    rw [List.foldl_cons] at hecho hrem ⊢
    have hm : Moves anything b (b.handleMutationOutcome policy o.1 o.2.1 o.2.2) :=
      handleMutationOutcome_moves b policy o.1 o.2.1 o.2.2 (fun _ _ => trivial) trivial
    obtain ⟨more, hmore⟩ := moves_log hm
    obtain ⟨rest, hrest⟩ := moves_log (a := anything)
      (outcomes_moves (b.handleMutationOutcome policy o.1 o.2.1 o.2.2) policy outcomes (.inr ⟨trivial, fun _ _ => trivial⟩))
    refine ih (h.moves hm ?_) (fun x hx => hframes x (List.mem_cons_of_mem _ hx)) hecho hrem
    rw [hrest] at hecho hrem
    exact h.told.handle h.sound h.spoken policy o.2.2 (hframes o List.mem_cons_self)
      (fun name args hv => (hmore ▸ hecho.start).start o.1 _ name args hv) hrem.start

theorem Steady.step (h : Steady verdict b) (e : Policy α × Event α)
    (hframes : ∀ x ∈ framesOf e.2, (verdict x.1 x.2.1.mid).Gives x.2.1) (hecho : Echoes verdict (b.step e).log)
    (hrem : Remembered (b.step e).log) : Steady verdict (b.step e) := by
  have hplain : ∀ b : Backend α, Plain e.2 → Moves silent b (b.step e) := fun b hp =>
    step_moves b e (.inl trivial) (.inl ⟨hp, fun _ _ _ _ => trivial⟩) fun _ _ => trivial
  obtain ⟨policy, e⟩ := e
  cases e with
  | outcome domain frame ran => exact h.outcomes policy [(domain, frame, ran)] hframes hecho hrem
  | release r =>
    let told := r.outcomes.foldl (fun b o => b.handleMutationOutcome policy o.1 o.2.1 o.2.2) b
    -- Past its outcomes a release is one without any.
    have hrest : b.step (policy, .release r) = told.step (policy, .release { r with outcomes := [] }) := rfl
    have hm : Moves silent told (b.step (policy, .release r)) :=
      step_moves told (policy, .release { r with outcomes := [] }) (.inl trivial) (.inl ⟨rfl, fun _ _ _ _ => trivial⟩)
        fun _ _ => trivial
    obtain ⟨more, hmore⟩ := moves_log hm
    rw [hmore] at hecho hrem
    exact Steady.whisper (h.outcomes policy r.outcomes hframes hecho.start hrem.start) hm
  | invoke name args ran => exact h.whisper (hplain b trivial)
  | invokeFolded name foldKey args deferAcrossWrites due ran => exact h.whisper (hplain b trivial)
  | flushFold foldKey => exact h.whisper (hplain b trivial)
  | flushFolds => exact h.whisper (hplain b trivial)
  | resync domain => exact h.whisper (hplain b trivial)
  | collect rerun => exact h.whisper (hplain b trivial)

end Backend

def refused : PendingMutation Nat := ⟨none, none, "", 0, "daemon", []⟩

end Rindle.Mutations
