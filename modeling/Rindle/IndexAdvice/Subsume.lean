/-
  Rindle.IndexAdvice.Subsume — index suggestions merged, and the advisories of what is left
  (`rindle-index-advice/src/lib.rs`, `subsume`, `covers`, `check`).

  A suggestion is dropped into the widest one that has its columns as a prefix. Nothing is
  lost by that as far as columns and reasons go: `subsume_covers`, `subsume_apart`,
  `subsume_reasons`. What a merged need is worth is another matter. `check` derives it from the
  one kind the survivor has, its own unless that was a filter. An unlimited sort that takes in
  a correlation is worth a hint where the correlation alone was a warning, and a sort or a
  correlation whose own critical prefix is served hides a need whose prefix is not.

  `subsume_exact`: no advisory is lost or weakened exactly where, for each need reported on its
  own, some survivor over it is loud for the kind it ends up with (`Heard`).
-/

import Mathlib.Data.List.Lex
import Mathlib.Data.List.Sort
import Mathlib.Data.Prod.Lex
import Mathlib.Data.String.Basic
import Rindle.Lib.Cover

namespace Rindle.IndexAdvice

structure IndexCol where
  name : String
  desc : Bool
  deriving DecidableEq

inductive NeedKind where
  | correlation (corr : Nat)
  | rootOrder (limited : Bool) (sort : Nat)
  | filter
  deriving DecidableEq

/-- `critical`: how many leading columns are required. -/
def NeedKind.critical (kind : NeedKind) (total : Nat) : Nat :=
  match kind with
  | .correlation corr => min corr total
  | .rootOrder _ sort => min sort total
  | .filter => total

structure Suggestion where
  table : String
  cols : List IndexCol
  reasons : List String
  kind : NeedKind
  deriving DecidableEq

/-- `covers`: does the index `wide` serve what `narrow` does? -/
def covers (wide narrow : List IndexCol) : Bool :=
  if wide.length < narrow.length then false
  else if narrow.length = 1 then (wide.head?.map (·.name)) == (narrow.head?.map (·.name))
  else narrow == wide.take narrow.length

/-! ## Subsumption -/

/-- Same table, and served by it. -/
def takesIn (k s : Suggestion) : Bool := k.table == s.table && covers k.cols s.cols

/-- What a survivor becomes. -/
def mergeInto (k s : Suggestion) : Suggestion :=
  { k with reasons := s.reasons.foldl (fun reasons r => if reasons.contains r then reasons else reasons ++ [r]) k.reasons,
           kind := if k.kind = .filter ∧ s.kind ≠ .filter then s.kind else k.kind }

/-- By table, the widest first. -/
def widerFirst (a b : Suggestion) : Prop := a.table < b.table ∨ (a.table = b.table ∧ b.cols.length ≤ a.cols.length)

instance : DecidableRel widerFirst := fun _ _ => inferInstanceAs (Decidable (_ ∨ _))

variable (existing : Existing) (g : Suggestion × List Suggestion) (raw : List Suggestion)

def widestFirst : List Suggestion := raw.insertionSort widerFirst

/-- The order of columns: by name, ascending before descending. -/
def colKey (cols : List IndexCol) : List (String ×ₗ Bool) := cols.map fun c => toLex (c.name, c.desc)

def byTableAndCols (a b : Suggestion) : Prop := a.table < b.table ∨ (a.table = b.table ∧ colKey a.cols ≤ colKey b.cols)

instance : DecidableRel byTableAndCols := fun _ _ => inferInstanceAs (Decidable (_ ∨ _))

def subsume : List Suggestion :=
  ((widestFirst raw).foldl (fun kept s => Cover.absorb takesIn mergeInto s kept) []).insertionSort byTableAndCols

/-! ## Advisories -/

inductive Severity where
  | consider
  | degraded
  deriving DecidableEq

def Severity.rank : Severity → Nat
  | .consider => 0
  | .degraded => 1

structure Advisory where
  table : String
  cols : List IndexCol
  severity : Severity
  reason : String
  /-- `partial`. -/
  isPartial : Bool
  deriving DecidableEq

def advisory (need : Suggestion) (severity : Severity) (isPartial : Bool) : Advisory :=
  { table := need.table, cols := need.cols, severity, reason := need.reasons.head?.getD "", isPartial }

/-- The live indexes of a table, as their key columns. -/
abbrev Existing : Type := String → List (List IndexCol)

/-- The prefix an index has to lead with. -/
def crit (kind : NeedKind) (cols : List IndexCol) : List IndexCol := cols.take (max (kind.critical cols.length) 1)

/-- The body of `check`'s loop. -/
def checkNeed (need : Suggestion) : Option Advisory :=
  if need.cols.isEmpty then none
  else
    let idxs := existing need.table
    if idxs.any fun e => covers e (crit need.kind need.cols) then
      match need.kind with
      | .rootOrder _ _ => none
      | .filter => none
      | .correlation _ => if idxs.any fun e => covers e need.cols then none else some (advisory need .consider true)
    else
      let severity := match need.kind with
        | .filter => .consider
        | .rootOrder false _ => .consider
        | .rootOrder true _ => .degraded
        | .correlation _ => .degraded
      some (advisory need severity false)

def check (needs : List Suggestion) (existing : Existing) : List Advisory := needs.filterMap (checkNeed existing)

/-! ## Covering -/

theorem covers_refl (cols : List IndexCol) : covers cols cols = true := by
  unfold covers
  rw [if_neg (Nat.lt_irrefl _)]
  split
  · simp
  · simp

theorem covers_iff {wide narrow : List IndexCol} : covers wide narrow = true ↔
    narrow.length ≤ wide.length ∧
      (narrow = wide.take narrow.length ∨ ∃ c d rest, narrow = [c] ∧ wide = d :: rest ∧ c.name = d.name) := by
  unfold covers
  by_cases hlen : wide.length < narrow.length
  · rw [if_pos hlen]
    constructor
    · intro h
      cases h
    · intro h
      omega
  · rw [if_neg hlen]
    by_cases hone : narrow.length = 1
    · rw [if_pos hone]
      obtain ⟨c, rfl⟩ := List.length_eq_one_iff.mp hone
      cases wide with
      | nil => simp at hlen
      | cons d rest =>
        simp only [List.head?_cons, Option.map_some, beq_iff_eq, Option.some.injEq, List.length_cons, List.length_nil, Nat.zero_add,
          List.take_succ_cons, List.take_zero, List.cons.injEq, and_true, Nat.le_add_left, true_and]
        constructor
        · intro h
          exact Or.inr ⟨c, d, rest, rfl, ⟨rfl, rfl⟩, h.symm⟩
        · intro h
          rcases h with rfl | ⟨c', d', rest', rfl, ⟨rfl, rfl⟩, h⟩
          · rfl
          · exact h.symm
    · rw [if_neg hone, beq_iff_eq]
      constructor
      · exact fun h => ⟨Nat.le_of_not_lt hlen, Or.inl h⟩
      · intro h
        rcases h.2 with h | ⟨c, d, rest, rfl, -, -⟩
        · exact h
        · exact absurd rfl hone

theorem covers_length {wide narrow : List IndexCol} (h : covers wide narrow = true) : narrow.length ≤ wide.length := (covers_iff.mp h).1

/-- An index that serves a need serves its left edge. -/
theorem covers_take {wide narrow : List IndexCol} (h : covers wide narrow = true) {n : Nat} (hn : 0 < n) :
    covers wide (narrow.take n) = true := by
  obtain ⟨hlen, heq⟩ := covers_iff.mp h
  rcases heq with heq | ⟨c, d, rest, rfl, rfl, hname⟩
  · refine covers_iff.mpr ⟨Nat.le_trans (List.length_take_le' _ _) hlen, Or.inl ?_⟩
    rw [List.length_take]
    conv => lhs; rw [heq]
    rw [List.take_take]
  · rw [List.take_of_length_le (show [c].length ≤ n from hn)]
    exact h

theorem covers_trans {a b c : List IndexCol} (hab : covers a b = true) (hbc : covers b c = true) : covers a c = true := by
  obtain ⟨hlen, heq⟩ := covers_iff.mp hbc
  rcases heq with heq | ⟨x, y, rest, rfl, rfl, hname⟩
  · rw [heq]
    cases c with
    | nil => simp [covers]
    | cons x c => exact covers_take hab (by simp)
  · obtain ⟨hlen', heq'⟩ := covers_iff.mp hab
    rcases heq' with heq' | ⟨y', z, rest', hy, rfl, hname'⟩
    · cases a with
      | nil => simp at hlen'
      | cons z a =>
        rw [List.length_cons, List.take_succ_cons, List.cons.injEq] at heq'
        exact covers_iff.mpr ⟨by simp, Or.inr ⟨x, z, a, rfl, rfl, hname.trans (congrArg _ heq'.1)⟩⟩
    · obtain ⟨rfl, -⟩ := List.cons.inj hy
      exact covers_iff.mpr ⟨by simp, Or.inr ⟨x, z, rest', rfl, rfl, hname.trans hname'⟩⟩

/-- Of two needs of one width each covers the other or neither. -/
theorem covers_symm {a b : List IndexCol} (h : covers a b = true) (hlen : a.length ≤ b.length) : covers b a = true := by
  obtain ⟨hle, heq⟩ := covers_iff.mp h
  have hsame : b.length = a.length := Nat.le_antisymm hle hlen
  rcases heq with heq | ⟨c, d, rest, rfl, rfl, hname⟩
  · rw [hsame, List.take_length] at heq
    rw [heq]
    exact covers_refl a
  · obtain rfl : rest = [] := by simpa using hsame
    exact covers_iff.mpr ⟨Nat.le_refl _, Or.inr ⟨d, c, [], rfl, rfl, hname.symm⟩⟩

/-! ## What is kept -/

theorem takesIn_merge (k s : Suggestion) : takesIn (mergeInto k s) = takesIn k := rfl

theorem takesIn_iff {k s : Suggestion} : takesIn k s = true ↔ k.table = s.table ∧ covers k.cols s.cols = true := by
  rw [takesIn, Bool.and_eq_true, beq_iff_eq]

theorem takesIn_refl (s : Suggestion) : takesIn s s = true := takesIn_iff.mpr ⟨rfl, covers_refl _⟩

/-- A survivor with what it takes in. -/
def merged : Suggestion := g.2.foldl mergeInto g.1

/-- The survivors: the widest need first, then the widest it does not cover, and so on. -/
def survivors : List (Suggestion × List Suggestion) := Cover.groups takesIn (widestFirst raw)

theorem subsume_eq : subsume raw = ((survivors raw).map merged).insertionSort byTableAndCols := by
  rw [subsume, Cover.foldl_absorb takesIn_merge]
  rfl

theorem mem_subsume {raw : List Suggestion} {k : Suggestion} : k ∈ subsume raw ↔ ∃ g ∈ survivors raw, merged g = k := by
  rw [subsume_eq, List.mem_insertionSort, List.mem_map]

theorem foldl_fields (k : Suggestion) (taken : List Suggestion) :
    (taken.foldl mergeInto k).table = k.table ∧ (taken.foldl mergeInto k).cols = k.cols := by
  induction taken generalizing k with
  | nil => exact ⟨rfl, rfl⟩
  | cons s taken ih => exact ih (mergeInto k s)

theorem merged_fields : (merged g).table = g.1.table ∧ (merged g).cols = g.1.cols :=
  foldl_fields g.1 g.2

/-- The first kind that is not a filter, or a filter. -/
def firstKind : List NeedKind → NeedKind
  | [] => .filter
  | .filter :: kinds => firstKind kinds
  | kind :: _ => kind

theorem merged_kind : (merged g).kind = firstKind (g.1.kind :: g.2.map (·.kind)) := by
  obtain ⟨k, taken⟩ := g
  show (taken.foldl mergeInto k).kind = firstKind (k.kind :: taken.map (·.kind))
  induction taken generalizing k with
  | nil =>
    cases hk : k.kind <;> simp [firstKind, hk]
  | cons s taken ih =>
    rw [List.foldl_cons, ih, List.map_cons]
    cases hk : k.kind with
    | filter =>
      cases hs : s.kind <;> simp [mergeInto, hk, hs, firstKind]
    | correlation corr => simp [mergeInto, hk, firstKind]
    | rootOrder limited sort => simp [mergeInto, hk, firstKind]

/-- A survivor keeps its reasons and takes those of what it takes in. -/
theorem merged_reasons :
    (∀ r ∈ g.1.reasons, r ∈ (merged g).reasons) ∧ ∀ s ∈ g.2, ∀ r ∈ s.reasons, r ∈ (merged g).reasons := by
  have hadd : ∀ (more reasons : List String), (∀ r ∈ reasons, r ∈ more.foldl (fun reasons r => if reasons.contains r then reasons
      else reasons ++ [r]) reasons) ∧ ∀ r ∈ more, r ∈ more.foldl (fun reasons r => if reasons.contains r then reasons
      else reasons ++ [r]) reasons := by
    intro more
    induction more with
    | nil => exact fun reasons => ⟨fun r hr => hr, fun r hr => by cases hr⟩
    | cons x more ih =>
      intro reasons
      rw [List.foldl_cons]
      obtain ⟨hkept, hnew⟩ := ih (if reasons.contains x then reasons else reasons ++ [x])
      have hx : x ∈ (if reasons.contains x then reasons else reasons ++ [x]) := by
        split
        · rename_i h
          simpa using h
        · simp
      have hold : ∀ r ∈ reasons, r ∈ (if reasons.contains x then reasons else reasons ++ [x]) := by
        intro r hr
        split
        · exact hr
        · exact List.mem_append_left _ hr
      refine ⟨fun r hr => hkept r (hold r hr), fun r hr => ?_⟩
      rcases List.mem_cons.mp hr with rfl | hr
      · exact hkept _ hx
      · exact hnew r hr
  obtain ⟨k, taken⟩ := g
  show (∀ r ∈ k.reasons, r ∈ (taken.foldl mergeInto k).reasons) ∧ ∀ s ∈ taken, ∀ r ∈ s.reasons, r ∈ (taken.foldl mergeInto k).reasons
  induction taken generalizing k with
  | nil => exact ⟨fun r hr => hr, fun s hs => by cases hs⟩
  | cons s taken ih =>
    obtain ⟨hkept, hnew⟩ := ih (mergeInto k s)
    obtain ⟨hold, hmine⟩ := hadd s.reasons k.reasons
    refine ⟨fun r hr => hkept r (hold r hr), fun t ht r hr => ?_⟩
    rcases List.mem_cons.mp ht with rfl | ht
    · exact hkept r (hmine r hr)
    · exact hnew t ht r hr

theorem mem_widestFirst {raw : List Suggestion} {s : Suggestion} : s ∈ widestFirst raw ↔ s ∈ raw := List.mem_insertionSort _

/-- Every need is in the group of a survivor that covers it. -/
theorem survivor_of {raw : List Suggestion} {s : Suggestion} (h : s ∈ raw) :
    ∃ g ∈ survivors raw, takesIn g.1 s = true ∧ (g.1 = s ∨ s ∈ g.2) :=
  Cover.mem_groups takesIn_refl (mem_widestFirst.mpr h)

/-- In one table the widest come first. -/
theorem widestFirst_sorted : (widestFirst raw).Pairwise widerFirst := by
  have htot : Std.Total widerFirst := ⟨fun a b => by
    unfold widerFirst
    rcases lt_trichotomy a.table b.table with h | h | h
    · exact Or.inl (Or.inl h)
    · rcases Nat.le_total b.cols.length a.cols.length with hl | hl
      · exact Or.inl (Or.inr ⟨h, hl⟩)
      · exact Or.inr (Or.inr ⟨h.symm, hl⟩)
    · exact Or.inr (Or.inl h)⟩
  have htrans : IsTrans Suggestion widerFirst := ⟨fun a b c hab hbc => by
    unfold widerFirst at *
    rcases hab with hab | ⟨hab, hl⟩
    · rcases hbc with hbc | ⟨hbc, -⟩
      · exact Or.inl (lt_trans hab hbc)
      · exact Or.inl (hbc ▸ hab)
    · rcases hbc with hbc | ⟨hbc, hl'⟩
      · exact Or.inl (hab ▸ hbc)
      · exact Or.inr ⟨hab.trans hbc, Nat.le_trans hl' hl⟩⟩
  exact List.pairwise_insertionSort widerFirst raw

/-- No survivor covers another of its table. -/
theorem survivors_apart :
    (survivors raw).Pairwise fun g g' => takesIn g.1 g'.1 = false ∧ takesIn g'.1 g.1 = false := by
  have hwide : ((survivors raw).map (·.1)).Pairwise widerFirst := (widestFirst_sorted raw).sublist (Cover.leaders_sublist _)
  refine ((Cover.leaders_apart (widestFirst raw)).and (List.pairwise_map.mp hwide)).imp fun {g g'} h => ⟨h.1, ?_⟩
  rw [Bool.eq_false_iff]
  intro hback
  obtain ⟨htable, hcov⟩ := takesIn_iff.mp hback
  rcases h.2 with hlt | ⟨-, hlen⟩
  · rw [htable] at hlt
    exact lt_irrefl _ hlt
  · have hforth := takesIn_iff.mpr ⟨htable.symm, covers_symm hcov hlen⟩
    rw [h.1] at hforth
    cases hforth

/-! ## What is reported -/

/-- A miss of this kind is a warning. -/
def NeedKind.loud : NeedKind → Bool
  | .correlation _ => true
  | .rootOrder limited _ => limited
  | .filter => false

def NeedKind.isRootOrder : NeedKind → Bool
  | .rootOrder _ _ => true
  | _ => false

/-- Some index of the table leads with the critical prefix. -/
def critServed (table : String) (kind : NeedKind) (cols : List IndexCol) : Bool :=
  (existing table).any fun e => covers e (crit kind cols)

/-- Columns no index serves are reported, for a need of this kind, at this severity at least. -/
def Heard (table : String) (cols : List IndexCol) (kind : NeedKind) : Severity → Prop
  | .consider => ¬ (kind.isRootOrder = true ∧ critServed existing table kind cols = true)
  | .degraded => kind.loud = true ∧ critServed existing table kind cols = false

section
variable {existing : Existing} {s k : Suggestion} {adv : Advisory}

theorem checkNeed_fields (h : checkNeed existing s = some adv) : adv.table = s.table ∧ adv.cols = s.cols := by
  unfold checkNeed at h
  simp only at h
  split at h
  · cases h
  · split at h
    · split at h
      · cases h
      · cases h
      · split at h
        · cases h
        · rw [← Option.some.inj h]
          exact ⟨rfl, rfl⟩
    · rw [← Option.some.inj h]
      exact ⟨rfl, rfl⟩

/-- A filter needs all its columns. -/
theorem crit_filter {cols : List IndexCol} (h : cols ≠ []) : crit .filter cols = cols := by
  have hpos := List.length_pos_iff.mpr h
  rw [crit, NeedKind.critical, Nat.max_eq_left hpos, List.take_length]

/-- A need that is reported has columns, and no index serves them all. -/
theorem unserved_of_reported (h : checkNeed existing s = some adv) :
    s.cols ≠ [] ∧ ∀ e ∈ existing s.table, covers e s.cols = false := by
  unfold checkNeed at h
  simp only at h
  split at h
  · cases h
  rename_i hne
  have hcols : s.cols ≠ [] := fun hnil => hne (by rw [hnil]; rfl)
  refine ⟨hcols, fun e he => ?_⟩
  rw [Bool.eq_false_iff]
  intro hcov
  have hserved : ((existing s.table).any fun e => covers e s.cols) = true := List.any_eq_true.mpr ⟨e, he, hcov⟩
  have hcrit : ((existing s.table).any fun e => covers e (crit s.kind s.cols)) = true :=
    List.any_eq_true.mpr ⟨e, he, covers_take hcov (by omega)⟩
  rw [if_pos hcrit] at h
  split at h
  · cases h
  · cases h
  · rw [if_pos hserved] at h
    cases h

/-- What becomes of a need that is reported on its own, in one that covers it. -/
theorem heard_iff {sev : Severity} (htake : takesIn k s = true) (hs : s.cols ≠ [])
    (hun : ∀ e ∈ existing s.table, covers e s.cols = false) :
    (∃ adv', checkNeed existing k = some adv' ∧ sev.rank ≤ adv'.severity.rank) ↔ Heard existing k.table k.cols k.kind sev := by
  obtain ⟨htable, hcov⟩ := takesIn_iff.mp htake
  have hne : k.cols ≠ [] := by
    intro hnil
    have hlen := covers_length hcov
    rw [hnil] at hlen
    exact hs (List.length_eq_zero_iff.mp (Nat.le_zero.mp hlen))
  have hfull : ((existing k.table).any fun e => covers e k.cols) = false := by
    rw [List.any_eq_false]
    intro e he hcovk
    have hno := hun e (htable ▸ he)
    rw [covers_trans hcovk hcov] at hno
    cases hno
  have hisEmpty : k.cols.isEmpty = false := by simpa using hne
  unfold checkNeed
  simp only [hisEmpty, Bool.false_eq_true, if_false]
  by_cases hcrit : critServed existing k.table k.kind k.cols = true
  · rw [show ((existing k.table).any fun e => covers e (crit k.kind k.cols)) = true from hcrit, if_pos rfl]
    cases hk : k.kind with
    | filter =>
      rw [hk, critServed, crit_filter hne, hfull] at hcrit
      cases hcrit
    | rootOrder limited sort =>
      rw [hk] at hcrit
      cases sev <;> simp [Heard, NeedKind.isRootOrder, hcrit]
    | correlation corr =>
      rw [hk] at hcrit
      simp only [hfull, Bool.false_eq_true, if_false, Option.some.injEq, exists_eq_left']
      cases sev <;> simp [Heard, NeedKind.isRootOrder, hcrit, advisory, Severity.rank]
  · rw [Bool.not_eq_true] at hcrit
    rw [show ((existing k.table).any fun e => covers e (crit k.kind k.cols)) = false from hcrit, if_neg Bool.false_ne_true]
    simp only [Option.some.injEq, exists_eq_left']
    rcases hk : k.kind with corr | ⟨limited, sort⟩ | _
    · rw [hk] at hcrit
      cases sev <;> simp [Heard, NeedKind.isRootOrder, NeedKind.loud, hcrit, advisory, Severity.rank]
    · rw [hk] at hcrit
      cases limited <;> cases sev <;> simp [Heard, NeedKind.loud, hcrit, advisory, Severity.rank]
    · rw [hk] at hcrit
      cases sev <;> simp [Heard, NeedKind.isRootOrder, NeedKind.loud, advisory, Severity.rank]

end

theorem check_singleton {s : Suggestion} {existing : Existing} {adv : Advisory} :
    check [s] existing = [adv] ↔ checkNeed existing s = some adv := by
  unfold check
  cases h : checkNeed existing s with
  | none => simp [h]
  | some a => simp [h]

/-- Columns and reasons are kept, each by a survivor over its need, and no survivor covers another; and no
    advisory is lost or weakened exactly if each need reported alone is heard in some survivor over it. -/
theorem subsume_exact (raw : List Suggestion) (existing : Existing) :
    (∀ s ∈ raw, ∃ k ∈ subsume raw, takesIn k s = true ∧ ∀ r ∈ s.reasons, r ∈ k.reasons) ∧
    (subsume raw).Pairwise (fun a b => takesIn a b = false ∧ takesIn b a = false) ∧
    ((∀ s ∈ raw, ∀ adv, check [s] existing = [adv] → ∃ adv' ∈ check (subsume raw) existing,
        adv'.table = s.table ∧ covers adv'.cols s.cols = true ∧ adv.severity.rank ≤ adv'.severity.rank) ↔
      ∀ s ∈ raw, ∀ adv, check [s] existing = [adv] → ∃ g ∈ survivors raw, takesIn g.1 s = true ∧
        Heard existing g.1.table g.1.cols (firstKind (g.1.kind :: g.2.map (·.kind))) adv.severity) := by
  refine ⟨fun s hs => ?_, ?_, ?_⟩
  · obtain ⟨g, hg, htake, hin⟩ := survivor_of hs
    refine ⟨merged g, mem_subsume.mpr ⟨g, hg, rfl⟩, ?_, fun r hr => ?_⟩
    · obtain ⟨htable, hcov⟩ := takesIn_iff.mp htake
      obtain ⟨ht, hc⟩ := merged_fields g
      exact takesIn_iff.mpr ⟨ht.trans htable, hc ▸ hcov⟩
    · obtain ⟨hkept, hnew⟩ := merged_reasons g
      rcases hin with rfl | hin
      · exact hkept r hr
      · exact hnew s hin r hr
  · have hsymm : ∀ {a b : Suggestion}, takesIn a b = false ∧ takesIn b a = false → takesIn b a = false ∧ takesIn a b = false :=
      fun {a b} h => ⟨h.2, h.1⟩
    rw [subsume_eq, (List.perm_insertionSort _ _).pairwise_iff hsymm, List.pairwise_map]
    refine (survivors_apart raw).imp fun {g g'} h => ?_
    have htake : ∀ g g' : Suggestion × List Suggestion, takesIn (merged g) (merged g') = takesIn g.1 g'.1 := by
      intro g g'
      rw [takesIn, takesIn, (merged_fields g).1, (merged_fields g).2, (merged_fields g').1, (merged_fields g').2]
    rw [htake, htake]
    exact h
  · -- need by need, survivor by survivor
    refine forall_congr' fun s => forall_congr' fun hs => forall_congr' fun adv => forall_congr' fun halone => ?_
    obtain ⟨hne, hun⟩ := unserved_of_reported (check_singleton.mp halone)
    have hheard : ∀ g : Suggestion × List Suggestion, takesIn g.1 s = true →
        ((∃ adv', checkNeed existing (merged g) = some adv' ∧ adv.severity.rank ≤ adv'.severity.rank) ↔
          Heard existing g.1.table g.1.cols (firstKind (g.1.kind :: g.2.map (·.kind))) adv.severity) := by
      intro g htake
      obtain ⟨ht, hc⟩ := merged_fields g
      have htake' : takesIn (merged g) s = true := by
        rw [takesIn, ht, hc]
        exact htake
      have h := @heard_iff existing s (merged g) adv.severity htake' hne hun
      rwa [ht, hc, merged_kind] at h
    constructor
    · intro h
      obtain ⟨adv', hadv', htable, hcov, hsev⟩ := h
      obtain ⟨k, hk, hcheck⟩ := List.mem_filterMap.mp hadv'
      obtain ⟨g, hg, rfl⟩ := mem_subsume.mp hk
      obtain ⟨ht, hc⟩ := checkNeed_fields hcheck
      obtain ⟨ht', hc'⟩ := merged_fields g
      have htake : takesIn g.1 s = true := by
        refine takesIn_iff.mpr ⟨?_, ?_⟩
        · rw [← ht', ← ht, htable]
        · rw [← hc', ← hc]
          exact hcov
      exact ⟨g, hg, htake, (hheard g htake).mp ⟨adv', hcheck, hsev⟩⟩
    · intro h
      obtain ⟨g, hg, htake, hg'⟩ := h
      obtain ⟨adv', hcheck, hsev⟩ := (hheard g htake).mpr hg'
      obtain ⟨ht, hc⟩ := checkNeed_fields hcheck
      obtain ⟨ht', hc'⟩ := merged_fields g
      obtain ⟨htable, hcov⟩ := takesIn_iff.mp htake
      refine ⟨adv', List.mem_filterMap.mpr ⟨merged g, mem_subsume.mpr ⟨g, hg, rfl⟩, hcheck⟩, ?_, ?_, hsev⟩
      · rw [ht, ht', htable]
      · rw [hc, hc']
        exact hcov

/-! ## A sort over a correlation -/

/-- `issue` ordered by its owner without a limit, and the issues of each user. -/
def ownerNeeds : List Suggestion :=
  [⟨"issue", [⟨"ownerId", false⟩, ⟨"id", false⟩], ["feed: R3"], .rootOrder false 1⟩, ⟨"issue", [⟨"ownerId", false⟩], ["users: R1"], .correlation 1⟩]

/-- Without an index the correlation alone is a warning; of the sort that takes it in only a hint is left. -/
theorem correlation_hushed :
    ¬ ∀ s ∈ ownerNeeds, ∀ adv, check [s] (fun _ => []) = [adv] → ∃ adv' ∈ check (subsume ownerNeeds) (fun _ => []),
      adv'.table = s.table ∧ covers adv'.cols s.cols = true ∧ adv.severity.rank ≤ adv'.severity.rank := by
  intro h
  obtain ⟨adv', hadv', -, -, hsev⟩ := h ⟨"issue", [⟨"ownerId", false⟩], ["users: R1"], .correlation 1⟩ (by decide)
    ⟨"issue", [⟨"ownerId", false⟩], .degraded, "users: R1", false⟩ (by decide)
  have hhint : ∀ a ∈ check (subsume ownerNeeds) (fun _ => []), a.severity = .consider := by decide
  rw [hhint adv' hadv'] at hsev
  exact absurd hsev (by decide)

end Rindle.IndexAdvice
