/-
  Rindle.Source.Feed — what an operator on a connection sees of a push.

  A push reaches the connection with the fan-out at its slot: what it is sent is the change cut
  to its filter (`Feeds.deliver`), and a fetch it makes then, for a request the change settles
  in, returns the rows as they will be (`Feeds.fetch_inFlight`). The rows of a connection are
  the table's that its filter accepts; what is sent is a valid change of them (`filterPush_some`).
-/

import Rindle.Source.InFlight

set_option linter.dupNamespace false

namespace Rindle.MemorySource

/-- The slots visited when the fan-out is at `slot`, or all if it is none of them. -/
def upTo (slot : Nat) (slots : List Nat) : List Nat := slots.takeWhile (· != slot) ++ if slot ∈ slots then [slot] else []

/-- The source when a push reaches a connection, and what the connection is sent. -/
def deliver (s : MemorySource) (change : SourceChange Row) (reads : Reads) (id : ConnId) :
    Option (MemorySource × Option (SourceChange Row)) := do
  let (s, sent) ← fanOut change s.nextEpoch.epoch reads (upTo id.idx (s.conns.index.pushCandidates change)) s.nextEpoch
  some (s, (sent.find? fun d => d.1 == id.idx).map (·.2))

/-- `conn`, up to its stamp, is live and wired, and a push that its filter lets through visits it. -/
structure Feeds (s : MemorySource) (id : ConnId) (conn : Connection) : Prop where
  live : ∃ epoch, s.conns.live id = some { conn with lastPushedEpoch := epoch }
  output : conn.output = true
  plain : conn.pkConstraint = none
  reach : ∀ change, (filterPush change (conn.filters.map fun f => f.predicate)).isSome = true →
    id.idx ∈ s.conns.index.pushCandidates change

/-- The rows a filter accepts. -/
def selectRows (p : Row → Bool) (R : Set Row) : Set Row := {r | r ∈ R ∧ p r = true}

/-- The rows of a connection. -/
def connRows (conn : Connection) (R : Set Row) : Set Row := {r | r ∈ R ∧ conn.accepts r = true}

/-! ## What is sent -/

section
variable {pk : List Nat} {R : Set Row} {conn : Connection} {change δ : SourceChange Row}

theorem ValidChange.keyUnique (hu : KeyUnique pk R) (hv : ValidChange pk R change) : KeyUnique pk (applyChange R change) := by
  have hnew : ∀ a b, (Overlays.ofChange change).add = some a → b ∈ R → (Overlays.ofChange change).remove ≠ some b →
      keyCmp pk b a ≠ .eq := by
    intro a b ha hb hne hk
    rw [ValidChange.added hv ha hb hk] at hne
    exact hne rfl
  intro a ha b hb hk
  rw [mem_applyChange] at ha hb
  rcases ha with ha | ⟨ha, ham⟩
  · rcases hb with hb | ⟨hb, hbm⟩
    · exact Option.some.inj (ha.symm.trans hb)
    · exact absurd (SList.eq_comm.mp hk) (hnew a b ha hb hbm)
  · rcases hb with hb | ⟨hb, hbm⟩
    · exact absurd hk (hnew b a hb ha ham)
    · exact hu a ha b hb hk

theorem KeyUnique.connRows (hu : KeyUnique pk R) : KeyUnique pk (connRows conn R) := fun a ha b hb => hu a ha.1 b hb.1

theorem filterPush_accepts (conn : Connection) (change : SourceChange Row) :
    filterPush change (conn.filters.map fun f => f.predicate) = filterPush change (some conn.accepts) := by
  unfold Connection.accepts
  cases conn.filters with
  | none => cases change <;> simp [filterPush]
  | some f => rfl

/-- What passes a filter is a valid change of the rows it accepts, to those it accepts after the change. -/
theorem selectRows_some {p : Row → Bool} (hv : ValidChange pk R change) (hδ : filterPush change (some p) = some δ) :
    ValidChange pk (selectRows p R) δ ∧ applyChange (selectRows p R) δ = selectRows p (applyChange R change) := by
  cases change with
  | add r =>
    simp only [filterPush] at hδ
    split at hδ
    · rename_i hr
      obtain rfl := Option.some.inj hδ
      refine ⟨fun x hx => hv x hx.1, ?_⟩
      ext x
      simp only [applyChange, selectRows, Set.mem_insert_iff, Set.mem_ofPred_eq]
      by_cases hx : x = r <;> simp [hx, hr]
    · cases hδ
  | remove r =>
    simp only [filterPush] at hδ
    split at hδ
    · rename_i hr
      obtain rfl := Option.some.inj hδ
      refine ⟨⟨hv, hr⟩, ?_⟩
      ext x
      simp only [applyChange, selectRows, Set.mem_sdiff, Set.mem_ofPred_eq]
      tauto
    · cases hδ
  | edit old row =>
    obtain ⟨hold, hnew⟩ := hv
    -- the filter accepts both rows, the old one only, or the new one only
    have hother : ∀ x ∈ R, x ≠ old → keyCmp pk x row ≠ .eq := hnew
    simp only [filterPush] at hδ
    split at hδ
    · rename_i hboth
      simp only [Bool.and_eq_true] at hboth
      obtain rfl := Option.some.inj hδ
      refine ⟨⟨⟨hold, hboth.1⟩, fun x hx => hother x hx.1⟩, ?_⟩
      ext x
      simp only [applyChange, selectRows, Set.mem_insert_iff, Set.mem_sdiff, Set.mem_singleton_iff, Set.mem_ofPred_eq]
      by_cases hx : x = row <;> simp [hx, hboth.2, and_right_comm]
    · rename_i hnot
      split at hδ
      · rename_i hpold
        have hprow : p row ≠ true := fun h => hnot (by simp [hpold, h])
        obtain rfl := Option.some.inj hδ
        refine ⟨⟨hold, hpold⟩, ?_⟩
        ext x
        simp only [applyChange, selectRows, Set.mem_insert_iff, Set.mem_sdiff, Set.mem_singleton_iff, Set.mem_ofPred_eq]
        by_cases hx : x = row <;> simp [hx, hprow, and_right_comm]
      · rename_i hpold
        split at hδ
        · rename_i hprow
          obtain rfl := Option.some.inj hδ
          refine ⟨fun x hx => hother x hx.1 fun h => hpold (h ▸ hx.2), ?_⟩
          ext x
          have hne : p x = true → x ≠ old := fun hx h => hpold (h ▸ hx)
          simp only [applyChange, selectRows, Set.mem_insert_iff, Set.mem_sdiff, Set.mem_singleton_iff, Set.mem_ofPred_eq]
          by_cases hx : x = row
          · simp [hx, hprow]
          · simp only [hx, false_or]
            tauto
        · cases hδ

/-- A change that does not pass leaves the rows accepted alone. -/
theorem selectRows_none {p : Row → Bool} (hδ : filterPush change (some p) = none) :
    selectRows p (applyChange R change) = selectRows p R := by
  ext x
  cases change with
  | add r =>
    have hr : p r ≠ true := by simpa [filterPush] using hδ
    simp only [applyChange, selectRows, Set.mem_insert_iff, Set.mem_ofPred_eq]
    constructor
    · rintro ⟨rfl | h, hx⟩
      · exact absurd hx hr
      · exact ⟨h, hx⟩
    · intro h
      exact ⟨Or.inr h.1, h.2⟩
  | remove r =>
    have hr : p r ≠ true := by simpa [filterPush] using hδ
    simp only [applyChange, selectRows, Set.mem_sdiff, Set.mem_singleton_iff, Set.mem_ofPred_eq]
    constructor
    · intro h
      exact ⟨h.1.1, h.2⟩
    · intro h
      exact ⟨⟨h.1, fun e => hr (e ▸ h.2)⟩, h.2⟩
  | edit old row =>
    have hboth : p old ≠ true ∧ p row ≠ true := by
      simp only [filterPush] at hδ
      split at hδ
      · cases hδ
      · split at hδ
        · cases hδ
        · split at hδ
          · cases hδ
          · rename_i h1 h2
            exact ⟨h1, h2⟩
    simp only [applyChange, selectRows, Set.mem_insert_iff, Set.mem_sdiff, Set.mem_singleton_iff, Set.mem_ofPred_eq]
    constructor
    · rintro ⟨rfl | h, hx⟩
      · exact absurd hx hboth.2
      · exact ⟨h.1, hx⟩
    · intro h
      exact ⟨Or.inr ⟨h.1, fun e => hboth.1 (e ▸ h.2)⟩, h.2⟩

/-- What a connection is sent is a valid change of its rows, to its rows after the push. -/
theorem filterPush_some (hv : ValidChange pk R change)
    (hδ : filterPush change (conn.filters.map fun f => f.predicate) = some δ) :
    ValidChange pk (connRows conn R) δ ∧ applyChange (connRows conn R) δ = connRows conn (applyChange R change) := by
  rw [filterPush_accepts] at hδ
  exact selectRows_some hv hδ

/-- A change it is not sent leaves its rows alone. -/
theorem filterPush_none (hδ : filterPush change (conn.filters.map fun f => f.predicate) = none) :
    connRows conn (applyChange R change) = connRows conn R := by
  rw [filterPush_accepts] at hδ
  exact selectRows_none hδ

end

/-! ## The fan-out at the connection -/

section
variable {s : MemorySource} {R : Set Row} {id : ConnId} {conn : Connection} {change : SourceChange Row} {reads : Reads}

theorem find_deliveries (s : MemorySource) (change : SourceChange Row) (slot : Nat) (slots : List Nat) :
    ((s.deliveries change slots).find? fun d => d.1 == slot).map (·.2) = if slot ∈ slots then s.sentTo change slot else none := by
  induction slots with
  | nil => rfl
  | cons x slots ih =>
    have hcons : s.deliveries change (x :: slots) = ((s.sentTo change x).map fun sc => (x, sc)).toList ++ s.deliveries change slots := by
      simp only [MemorySource.deliveries, List.filterMap_cons]
      cases s.sentTo change x <;> rfl
    rw [hcons]
    by_cases hx : x = slot
    · subst hx
      cases hsent : s.sentTo change x with
      | none =>
        rw [hsent, ite_self] at ih
        simpa using ih
      | some sc => simp
    · have hmem : slot ∈ x :: slots ↔ slot ∈ slots := by simp [Ne.symm hx]
      rw [if_congr hmem rfl rfl, ← ih]
      cases s.sentTo change x <;> simp [hx]

theorem mem_upTo {slot i : Nat} {slots : List Nat} (h : i ∈ upTo slot slots) : i ∈ slots := by
  rcases List.mem_append.mp h with h | h
  · exact (List.takeWhile_sublist _).subset h
  · split at h
    · rename_i hs
      exact List.mem_singleton.mp h ▸ hs
    · cases h

theorem self_mem_upTo {slot : Nat} {slots : List Nat} : slot ∈ upTo slot slots ↔ slot ∈ slots := by
  refine ⟨mem_upTo, fun h => List.mem_append_right _ ?_⟩
  rw [if_pos h]
  exact List.mem_singleton_self slot

/-- The slot of the connection. -/
theorem Feeds.slot (hf : s.Feeds id conn) : ∃ epoch, s.conns.conns[id.idx]? = some { conn with lastPushedEpoch := epoch } := by
  obtain ⟨epoch, hlive⟩ := hf.live
  refine ⟨epoch, ?_⟩
  unfold ConnTable.live ConnTable.liveIx at hlive
  split at hlive
  · exact hlive
  · cases hlive

/-- The connection is sent the change cut to its filter, and stands reached by the push. -/
theorem Feeds.deliver (h : s.Ok (same R)) (hf : s.Feeds id conn) (hr : s.ReadsLive reads) (change : SourceChange Row) :
    ∃ s1, s.deliver change reads id = some (s1, filterPush change (conn.filters.map fun f => f.predicate)) ∧ s1.Ok (same R) ∧
      Visited change s.nextEpoch.epoch (upTo id.idx (s.conns.index.pushCandidates change)) s.nextEpoch s1 := by
  obtain ⟨epoch, hslot⟩ := hf.slot
  obtain ⟨s1, sent, hfan, hok1, hvis1, -, hsent⟩ := Ok.fanOut change s.nextEpoch.epoch
    (upTo id.idx (s.conns.index.pushCandidates change)) h.nextEpoch hr
    fun i hi => PushIndex.pushCandidates_below h.conns.index change i (mem_upTo hi)
  refine ⟨s1, ?_, hok1, hvis1⟩
  have hto : s.nextEpoch.sentTo change id.idx = filterPush change (conn.filters.map fun f => f.predicate) := by
    have hslot' : s.nextEpoch.conns.conns[id.idx]? = some { conn with lastPushedEpoch := epoch } := hslot
    simp [MemorySource.sentTo, hslot', hf.output]
  have hfind := find_deliveries s.nextEpoch change id.idx (upTo id.idx (s.conns.index.pushCandidates change))
  have hwhole : (if id.idx ∈ upTo id.idx (s.conns.index.pushCandidates change) then s.nextEpoch.sentTo change id.idx else none) =
      filterPush change (conn.filters.map fun f => f.predicate) := by
    rw [if_congr self_mem_upTo rfl rfl, hto]
    by_cases hc : id.idx ∈ s.conns.index.pushCandidates change
    · rw [if_pos hc]
    · rw [if_neg hc]
      cases hfp : filterPush change (conn.filters.map fun f => f.predicate) with
      | none => rfl
      | some δ => exact absurd (hf.reach change (by rw [hfp]; rfl)) hc
  rw [hwhole] at hfind
  simp only [MemorySource.deliver, hfan, Option.bind_eq_bind, Option.bind_some, hsent, hfind]

/-! ## What a fetch returns meanwhile -/

/-- A change settles in every request without a start row, and in one that starts at a row of its own
    constraint if the connection has some row within it. -/
theorem settles_within {pk : List Nat} {req : FetchRequest} (hplain : conn.pkConstraint = none) (hu : KeyUnique pk R)
    (hcov : SortSpec.Covers conn.sort pk) (hv : ValidChange pk R change)
    (hstart : ∀ start, req.start = some start → constraintHolds req.constraint start.row = true ∧
      ∃ x ∈ connRows conn R, constraintHolds req.constraint x = true) (rest : Row → Bool) :
    Settles pk conn req rest change := by
  have hcut : ∀ r, constraintHolds req.constraint r = true → pastStart conn req r = true → pastStartRow pk conn req r = true := by
    intro r hr hpast
    unfold pastStartRow
    unfold pastStart at hpast
    cases hs : req.start with
    | none => rfl
    | some start =>
      rw [hs, Option.all_some] at hpast
      rw [Option.all_some, Overlays.notBefore, bne_iff_ne]
      rcases request_orders pk hplain req with hsame | ⟨-, htie⟩
      · rw [hsame r start.row hr (hstart start hs).1]
        intro hlt
        unfold startReached at hpast
        cases hb : start.basis <;> simp [hb, hlt] at hpast
      · rw [htie r start.row hr (hstart start hs).1]
        decide
  have hkeeps : ∀ r, CutKeeps pk conn req rest r := by
    intro r _ hw
    simp only [wanted, Bool.and_eq_true] at hw
    exact hcut r hw.2.1 hw.1
  cases change with
  | add r => exact hkeeps r
  | remove r => exact hkeeps r
  | edit old row =>
    refine Or.inr ⟨hkeeps old, hkeeps row, fun _ hrow hopen => ?_⟩
    simp only [opensFor, Bool.and_eq_true, bne_iff_ne, ne_eq, Bool.not_eq_true'] at hopen
    obtain ⟨⟨⟨hold, hpast⟩, hover⟩, hle⟩ := hopen
    have hrowc := within_of_overlaid hrow
    rcases request_orders pk hplain req with hsame | ⟨-, htie⟩
    · rw [hsame row old hrowc hold] at hle
      exact pastStart_mono (SList.not_gt_of_not_lt hle) hpast
    · cases hs : req.start with
      | none => simp [pastStart, hs]
      | some start =>
        -- one row at most is within the constraint, so the old row is the one the filter accepts
        obtain ⟨x, ⟨hxR, hxa⟩, hx⟩ := (hstart start hs).2
        have hkey := (fetchIndexSort_covers hcov (fetchOrPk conn req)).key_tie (SList.dirCmp_eq_eq.mp (htie x old hx hold))
        obtain rfl := hu x hxR old hv.1 hkey
        simp [overlaid, hcut x hx hpast, hx, hxa] at hover

/-- A connection the push has reached sees the rows as they will be. -/
theorem Feeds.fetch_inFlight (h : s.Ok (same R)) (hf : s.Feeds id conn) (hv : ValidChange s.primaryKey R change)
    {s1 : MemorySource} (hok1 : s1.Ok (same R))
    (hvis : Visited change s.nextEpoch.epoch (upTo id.idx (s.conns.index.pushCandidates change)) s.nextEpoch s1)
    (hreach : id.idx ∈ s.conns.index.pushCandidates change) {req : FetchRequest} (hreq : batches req = [])
    (hset : Settles s.primaryKey conn req (fun _ => true) change) :
    ∃ rows s2, s1.fetch id req = some (rows, s2) ∧ SList.Sorted (compareRowsRev conn.sort req.reverse) rows ∧
      ∀ r, r ∈ rows ↔ r ∈ applyChange R change ∧ wanted conn req r = true := by
  obtain ⟨epoch, hlive⟩ := hf.live
  obtain ⟨epoch', hslot⟩ := hf.slot
  have hup := self_mem_upTo.mpr hreach
  have hlive1 : s1.conns.live id = some { conn with lastPushedEpoch := s.nextEpoch.epoch } := by
    rw [hvis.live, show s.nextEpoch.conns.live id = some { conn with lastPushedEpoch := epoch } from hlive, Option.map_some,
      stampIf, if_pos ⟨hup, hf.output⟩]
  have hover : s1.overlay = some ⟨s.nextEpoch.epoch, change⟩ := by
    rw [hvis.overlay, if_pos]
    refine List.any_eq_true.mpr ⟨id.idx, hup, ?_⟩
    show (s.conns.conns[id.idx]?.any fun c => c.output) = true
    rw [hslot]
    exact hf.output
  have hkey1 : s1.primaryKey = s.primaryKey := hvis.key
  obtain ⟨rows, s2, hfetch, hrows, -, hcov⟩ := hok1.fetch_live hlive1 req
  rw [hkey1, hover] at hrows
  rw [hkey1] at hcov
  unfold FetchedOn at hrows
  rw [hreq] at hrows
  have hrows : Fetched s.primaryKey (same R) _ { conn with lastPushedEpoch := s.nextEpoch.epoch } req rows := hrows
  have hplain : ({ conn with lastPushedEpoch := s.nextEpoch.epoch } : Connection).pkConstraint = none := hf.plain
  obtain ⟨hrise, hnodup, hmem⟩ := hrows.pending hplain h.holds.unique hcov hv (seen_reached rfl)
  have hmem' : ∀ r, r ∈ rows ↔ r ∈ applyChange R change ∧ wanted conn req r = true := fun r =>
    (hmem r).trans ((settles_iff hv _).mpr hset r rfl)
  refine ⟨rows, s2, hfetch, hrise.sorted ?_, hmem'⟩
  have hu' : KeyUnique s.primaryKey (applyChange R change) := ValidChange.keyUnique h.holds.unique hv
  refine (List.Pairwise.imp_of_mem (R := (· ≠ ·)) (S := _) (fun {a b} ha hb hne htie => hne ?_) hnodup)
  exact hu' a ((hmem' a).mp ha).1 b ((hmem' b).mp hb).1 (hcov.key_tie (SList.dirCmp_eq_eq.mp htie))

end

end Rindle.MemorySource
