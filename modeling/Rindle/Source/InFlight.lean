/-
  Rindle.Source.InFlight — one request made before a push, in the middle of it, and after.

  `aroundPush` makes the request on a source at rest, then with the fan-out at some
  candidate, then with the change written. A connection the fan-out has passed is to see the
  table as it will be, any other one the table as it was. The second always holds; the first
  holds exactly where the change settles in the request (`overlay_fetch_exact`). It fails for
  a start row whose constrained cells sort after the constraint's (`overlay_fetch_misses_add`).
-/

import Rindle.Source.Overlay
import Rindle.Source.Runs

namespace Rindle.MemorySource

/-- At rest: no change in flight, no connection ahead of the epoch. -/
structure Quiet (s : MemorySource) : Prop where
  overlay : s.overlay = none
  stamps : ∀ c ∈ s.conns.conns, c.lastPushedEpoch ≤ s.epoch

/-- A request before a push, after the push has visited `done`, and after the push. -/
def aroundPush (s : MemorySource) (change : SourceChange Row) (reads : Reads) (strict : Bool) (done : List Nat) (id : ConnId)
    (req : FetchRequest) : Option (List Row × List Row × List Row) := do
  let before ← s.fetch id req
  let inFlight ← fanOut change s.nextEpoch.epoch reads done s.nextEpoch
  let pending ← inFlight.1.fetch id req
  let pushed ← s.pushOnce change reads strict
  let post ← pushed.source.fetch id req
  some (before.1, pending.1, post.1)

section
variable {pk : List Nat} {conn : Connection} {req : FetchRequest} {R : Set Row}

/-- The rows of a fetch are determined by the table and by what the connection sees in flight. -/
theorem Fetched.unique {C : SortSpec → Set Row} {overlay overlay' : Option Overlay} {rows rows' : List Row}
    (h : Fetched pk C overlay conn req rows) (h' : Fetched pk C overlay' conn req rows')
    (hseen : seen conn overlay = seen conn overlay') : rows = rows' := by
  obtain ⟨L, hL, rfl⟩ := h
  obtain ⟨L', hL', rfl⟩ := h'
  have hLL : L = L' := hL.sorted.ext hL'.sorted fun r => (hL.mem r).trans (hL'.mem r).symm
  rw [fetchStream_eq, fetchStream_eq, hseen, hLL]

theorem FetchedOn.unique {C : SortSpec → Set Row} {overlay overlay' : Option Overlay} {rows rows' : List Row}
    (h : FetchedOn pk C overlay conn req rows) (h' : FetchedOn pk C overlay' conn req rows')
    (hseen : seen conn overlay = seen conn overlay') : rows = rows' := by
  unfold FetchedOn at h h'
  split at h
  · rename_i hb
    rw [hb] at h'
    exact h.unique h' hseen
  rename_i primary rest hb
  rw [hb] at h'
  obtain ⟨streams, hf, rfl⟩ := h
  obtain ⟨streams', hf', rfl⟩ := h'
  have hst : streams = streams' := by
    clear hb
    induction hf generalizing streams' with
    | nil => cases hf'; rfl
    | cons hc _ ih =>
      cases hf' with
      | cons hc' hf' => rw [hc.unique hc' hseen, ih _ hf']
  rw [hst]

/-- A change in flight that has not reached the connection. -/
theorem seen_unreached {overlay : Option Overlay} (h : ∀ o, overlay = some o → conn.lastPushedEpoch < o.epoch) :
    seen conn overlay = {} := by
  unfold seen
  cases overlay with
  | none => rfl
  | some o =>
    have hlt := h o rfl
    rw [Option.filter_some, if_neg (by simpa using hlt)]
    rfl

theorem seen_reached {change : SourceChange Row} {epoch : Nat} (h : conn.lastPushedEpoch = epoch) :
    seen conn (some ⟨epoch, change⟩) = Overlays.ofChange change := by
  unfold seen
  rw [Option.filter_some, if_pos (by simp [h])]
  rfl

/-- The stamp has no part in what a request asks for. -/
theorem settles_stamp (epoch : Nat) (rest : Row → Bool) (change : SourceChange Row) :
    Settles pk { conn with lastPushedEpoch := epoch } req rest change ↔ Settles pk conn req rest change := by
  cases change <;> exact Iff.rfl

end

variable {s : MemorySource} {R : Set Row} {change : SourceChange Row}

/-! ## Rest -/

/-- A push leaves the source at rest, one epoch on. -/
theorem Quiet.pushOnce (h : s.Ok (same R)) (hq : s.Quiet) (hepoch : s.epoch + 1 < 2 ^ 32) {reads : Reads} (hr : s.ReadsLive reads)
    (hv : ValidChange s.primaryKey R change) {strict : Bool} {p : Pushed} (hp : s.pushOnce change reads strict = some p) :
    p.source.Quiet ∧ p.source.epoch = s.epoch + 1 := by
  have hnext : s.nextEpoch.epoch = s.epoch + 1 := Nat.mod_eq_of_lt hepoch
  obtain ⟨s', sent, hpush, -, hvis, -⟩ := h.pushOnce hr (ValidChange.accepted h.holds hv strict)
  rw [hpush] at hp
  obtain rfl := Option.some.inj hp
  have hcounter : s'.epoch = s.epoch + 1 := hvis.counter.trans hnext
  refine ⟨⟨rfl, fun c hc => ?_⟩, hcounter⟩
  obtain ⟨i, hi⟩ := List.getElem?_of_mem hc
  have hget : s'.conns.conns[i]? = some c := hi
  rw [hvis.conns i] at hget
  obtain ⟨d, hd, rfl⟩ := Option.map_eq_some_iff.mp hget
  show _ ≤ s'.epoch
  rw [hcounter]
  have hold := hq.stamps d (List.mem_of_getElem? hd)
  unfold stampIf
  split
  · exact Nat.le_of_eq hnext
  · exact Nat.le_succ_of_le hold

theorem Quiet.tryPush (h : s.Ok (same R)) (hq : s.Quiet) (hepoch : s.epoch + 2 < 2 ^ 32) {reads : Reads} (hr : s.ReadsLive reads)
    (hv : ValidChange s.primaryKey R change) {strict : Bool} {p : Pushed} (hp : s.tryPush change reads strict = some p) :
    p.source.Quiet ∧ p.source.epoch ≤ s.epoch + 2 := by
  cases h.comes hr hv strict with
  | whole push =>
    obtain ⟨hq', he⟩ := Quiet.pushOnce h hq (by omega) hr hv (push.symm.trans hp)
    exact ⟨hq', by omega⟩
  | halves old row q1 q2 edit split remove removed ok key live add added push =>
    obtain ⟨hq1, he1⟩ := Quiet.pushOnce h hq (by omega) hr remove removed
    obtain ⟨hq2, he2⟩ := Quiet.pushOnce ok hq1 (by omega) live add added
    rw [← Option.some.inj (push.symm.trans hp)]
    exact ⟨hq2, by show q2.source.epoch ≤ _; omega⟩

theorem Quiet.grown (hq : s.Quiet) {s' : MemorySource} (hg : Grown s s') : s'.Quiet ∧ s'.epoch = s.epoch := by
  obtain ⟨more, rfl⟩ := hg
  exact ⟨⟨hq.overlay, hq.stamps⟩, rfl⟩

/-- An operation leaves the source at rest; a push takes two epochs at most. -/
theorem Quiet.step (h : s.Ok (same R)) (hq : s.Quiet) (hepoch : s.epoch + 2 < 2 ^ 32) {op : Op} (hf : op.Fits s R)
    {s' : MemorySource} (hs : op.run s = some s') : s'.Quiet ∧ s'.epoch ≤ s.epoch + 2 * (pushed [op]).length := by
  have htable : s.conns.Ok fun c => c.lastPushedEpoch ≤ s.epoch :=
    ⟨h.conns.gens, h.conns.free, h.conns.index, hq.stamps⟩
  cases op with
  | push change reads strict =>
    obtain ⟨p, hp, rfl⟩ := Option.map_eq_some_iff.mp hs
    exact Quiet.tryPush h hq hepoch hf.2 hf.1 hp
  | ensureIndex sort =>
    obtain ⟨s1, heq, -, hg, -⟩ := h.holds.ensureIndex (orderingIncludesPk_iff.mp hf)
    obtain rfl : s1 = s' := Option.some.inj (heq.symm.trans hs)
    obtain ⟨hq', he⟩ := hq.grown hg
    exact ⟨hq', he.le⟩
  | connect sort filters keys =>
    obtain ⟨r, hr, rfl⟩ := Option.map_eq_some_iff.mp hs
    unfold MemorySource.connect at hr
    split at hr
    · rw [← Option.some.inj hr]
      refine ⟨⟨hq.overlay, ?_⟩, Nat.le_refl _⟩
      exact (htable.connect (Nat.zero_le _)).good
    · cases hr
  | setConnOutput id =>
    obtain ⟨t, ht, hok⟩ := htable.setOutput (fun _ hc => hc) hf
    have hs1 : some { s with conns := t } = some s' := by rw [← hs]; simp [Op.run, MemorySource.setConnOutput, ht]
    rw [← Option.some.inj hs1]
    exact ⟨⟨hq.overlay, hok.good⟩, Nat.le_refl _⟩
  | fetch id req =>
    obtain ⟨-, rows, s1, -, -, heq, -, hg, -⟩ := h.fetch hf req
    have hs1 : some s1 = some s' := by rw [← hs]; simp [Op.run, heq]
    obtain rfl := Option.some.inj hs1
    obtain ⟨hq', he⟩ := hq.grown hg
    exact ⟨hq', he.le⟩
  | destroy id =>
    rw [← Option.some.inj hs]
    exact ⟨⟨hq.overlay, (htable.destroy (fun _ hc => hc) id).good⟩, Nat.le_refl _⟩

/-- A fetch on a connection that is there. -/
theorem Ok.fetch_live {C : SortSpec → Set Row} (h : s.Ok C) {id : ConnId} {conn : Connection} (hlive : s.conns.live id = some conn)
    (req : FetchRequest) :
    ∃ rows s', s.fetch id req = some (rows, s') ∧ FetchedOn s.primaryKey C s.overlay conn req rows ∧
      s.conns.conns[id.idx]? = some conn ∧ SortSpec.Covers conn.sort s.primaryKey := by
  have hid : (s.conns.liveIx id).isSome = true := by
    unfold ConnTable.live at hlive
    cases hix : s.conns.liveIx id with
    | none => rw [hix] at hlive; cases hlive
    | some i => rfl
  obtain ⟨conn', rows, s', hget, hlive', hfetch, -, -, -, hf⟩ := h.fetch hid req
  obtain rfl : conn' = conn := Option.some.inj (hlive'.symm.trans hlive)
  exact ⟨rows, s', hfetch, hf, hget, h.conns.good _ (List.mem_of_getElem? hget)⟩

/-- What the three requests are made of, and where the one in the middle agrees with which other. -/
theorem aroundPush_fetched (h : s.Ok (same R)) (hq : s.Quiet) (hepoch : s.epoch + 1 < 2 ^ 32)
    (hv : ValidChange s.primaryKey R change) {reads : Reads} (hr : s.ReadsLive reads) (strict : Bool) {done ahead : List Nat}
    (hcand : s.conns.index.pushCandidates change = done ++ ahead) {id : ConnId} {conn : Connection}
    (hlive : s.conns.live id = some conn) (hpk : conn.pkConstraint = none) (req : FetchRequest) :
    ∃ before pending post, s.aroundPush change reads strict done id req = some (before, pending, post) ∧
      FetchedOn s.primaryKey (same R) none conn req before ∧
      (∃ epoch, FetchedOn s.primaryKey (same (applyChange R change)) none { conn with lastPushedEpoch := epoch } req post) ∧
      SortSpec.Covers conn.sort s.primaryKey ∧ KeyUnique s.primaryKey (applyChange R change) ∧
      (id.idx ∈ done → conn.output = true →
        (pending = post ↔ ∀ e ∈ entries req, Settles s.primaryKey conn e (matchesEach (others req)) change)) ∧
      (¬ (id.idx ∈ done ∧ conn.output = true) → pending = before) := by
  have hnext : s.nextEpoch.epoch = s.epoch + 1 := Nat.mod_eq_of_lt hepoch
  have hbelow := PushIndex.pushCandidates_below h.conns.index change
  obtain ⟨before, sb, hbefore, hfb, hget, hcov⟩ := h.fetch_live hlive req
  -- the fan-out over `done`
  obtain ⟨s1, sent, hfan, hok1, hvis1, -⟩ := Ok.fanOut change s.nextEpoch.epoch done h.nextEpoch hr
    fun i hi => hbelow i (hcand ▸ List.mem_append_left _ hi)
  have hlive1 : s1.conns.live id = some (stampIf done s.nextEpoch.epoch id.idx conn) := by
    rw [hvis1.live, show s.nextEpoch.conns.live id = some conn from hlive]
    rfl
  obtain ⟨pending, sp, hpending, hfp, -⟩ := hok1.fetch_live hlive1 req
  have hkey1 : s1.primaryKey = s.primaryKey := hvis1.key
  rw [hkey1] at hfp
  -- the whole push
  obtain ⟨s2, sent2, hpush, hok2, hvis2, -⟩ := h.pushOnce hr (ValidChange.accepted h.holds hv strict)
  have hkey2 : s2.primaryKey = s.primaryKey := hvis2.key
  have hok3 := hok2.written (hkey2 ▸ hv)
  have hlive3 : ({ s2 with overlay := none }.writeChange change).conns.live id =
      some (stampIf (done ++ ahead) s.nextEpoch.epoch id.idx conn) := by
    show s2.conns.live id = _
    rw [hvis2.live, show s.nextEpoch.conns.live id = some conn from hlive, hcand]
    rfl
  obtain ⟨post, sq, hpost, hfq, -⟩ := hok3.fetch_live hlive3 req
  have hkey3 : ({ s2 with overlay := none }.writeChange change).primaryKey = s.primaryKey := hkey2
  rw [hkey3] at hfq
  have hfb' : FetchedOn s.primaryKey (same R) none conn req before := hq.overlay ▸ hfb
  have hu' : KeyUnique s.primaryKey (applyChange R change) := hkey3 ▸ hok3.holds.unique
  have hfq' : ∃ epoch, FetchedOn s.primaryKey (same (applyChange R change)) none { conn with lastPushedEpoch := epoch } req post := by
    unfold stampIf at hfq
    split at hfq
    · exact ⟨_, hfq⟩
    · exact ⟨conn.lastPushedEpoch, hfq⟩
  refine ⟨before, pending, post, ?_, hfb', hfq', hcov, hu', fun hdone hout => ?_, fun hnot => ?_⟩
  · simp only [aroundPush, hbefore, hfan, hpending, hpush, hpost, Option.bind_eq_bind, Option.bind_some]
  · -- reached: stamped with the push's epoch, so the overlay shows
    have hst1 : stampIf done s.nextEpoch.epoch id.idx conn = { conn with lastPushedEpoch := s.nextEpoch.epoch } := by
      rw [stampIf, if_pos ⟨hdone, hout⟩]
    have hst3 : stampIf (done ++ ahead) s.nextEpoch.epoch id.idx conn = { conn with lastPushedEpoch := s.nextEpoch.epoch } := by
      rw [stampIf, if_pos ⟨List.mem_append_left _ hdone, hout⟩]
    have hwired : s.nextEpoch.anyWired done = true := by
      refine List.any_eq_true.mpr ⟨id.idx, hdone, ?_⟩
      show (s.conns.conns[id.idx]?.any fun c => c.output) = true
      rw [hget]
      exact hout
    have hover : s1.overlay = some ⟨s.nextEpoch.epoch, change⟩ := by rw [hvis1.overlay, if_pos hwired]
    rw [hst1, hover] at hfp
    rw [hst3] at hfq
    have hu : KeyUnique s.primaryKey R := h.holds.unique
    have hpk' : ({ conn with lastPushedEpoch := s.nextEpoch.epoch } : Connection).pkConstraint = none := hpk
    have hiff := FetchedOn.pending_eq_iff hpk' hu hu' hcov hv (seen_reached rfl) rfl hfp hfq
    simpa only [settles_stamp] using hiff
  · -- not reached: its stamp is of an earlier push
    have hst1 : stampIf done s.nextEpoch.epoch id.idx conn = conn := by rw [stampIf, if_neg hnot]
    rw [hst1] at hfp
    refine hfp.unique hfb ?_
    have hstamp : conn.lastPushedEpoch < s.nextEpoch.epoch := by
      rw [hnext]
      exact Nat.lt_succ_of_le (hq.stamps conn (List.mem_of_getElem? hget))
    rw [seen_unreached, seen_unreached]
    · intro o ho
      rw [hq.overlay] at ho
      cases ho
    · intro o ho
      rw [hvis1.overlay] at ho
      split at ho
      · rw [← Option.some.inj ho]
        exact hstamp
      · rw [show s.nextEpoch.overlay = none from hq.overlay] at ho
        cases ho

/-- Before a push reaches it a connection sees the table as it was; from then on it sees the table as
    it will be, exactly if the change settles in the requests its fetch is made of. -/
theorem overlay_fetch_exact (h : s.Ok (same R)) (hq : s.Quiet) (hepoch : s.epoch + 1 < 2 ^ 32)
    (hv : ValidChange s.primaryKey R change) {reads : Reads} (hr : s.ReadsLive reads) (strict : Bool) {done ahead : List Nat}
    (hcand : s.conns.index.pushCandidates change = done ++ ahead) {id : ConnId} {conn : Connection}
    (hlive : s.conns.live id = some conn) (hpk : conn.pkConstraint = none) (req : FetchRequest) :
    ∃ before pending post, s.aroundPush change reads strict done id req = some (before, pending, post) ∧
      (id.idx ∈ done → conn.output = true →
        (pending = post ↔ ∀ e ∈ entries req, Settles s.primaryKey conn e (matchesEach (others req)) change)) ∧
      (¬ (id.idx ∈ done ∧ conn.output = true) → pending = before) := by
  obtain ⟨before, pending, post, heq, -, -, -, -, hreached, hunreached⟩ :=
    aroundPush_fetched h hq hepoch hv hr strict hcand hlive hpk req
  exact ⟨before, pending, post, heq, hreached, hunreached⟩

/-- One row `(id, group)`, one wired connection ordered by `id`. -/
theorem one_group_ok : ∃ s0 s, tryNew 2 [0] [[.int 1, .int 1]] = .ok s0 ∧
    [Op.connect (some [(0, true)]) none [], .setConnOutput ⟨0, 0⟩].foldlM Op.run s0 = some s ∧
    s.Ok (same {r | r ∈ [[Value.int 1, .int 1]]}) ∧ s.Quiet ∧ s.epoch = 0 ∧ s.primaryKey = [0] ∧
    s.conns.index.pushCandidates (.add [.int 5, .int 1]) = [0] ∧
    s.conns.live ⟨0, 0⟩ = some { sort := [(0, true)], output := true } := by
  obtain ⟨s0, hnew⟩ : ∃ s0, tryNew 2 [0] [[.int 1, .int 1]] = .ok s0 := ⟨_, rfl⟩
  obtain ⟨s, hrun, hok, hkey, hover, hepoch, hconns⟩ := connect_new [(0, true)] [] hnew (by decide) (by decide)
  refine ⟨s0, s, hnew, hrun, hok, ⟨hover, fun c hc => ?_⟩, hepoch, hkey, ?_, ?_⟩
  · rw [hconns] at hc
    rw [List.mem_singleton.mp hc]
    exact Nat.zero_le _
  · rw [hconns]
    decide
  · rw [hconns]
    rfl

/-- A row added in group 1 is missing from a request for group 1 whose start row is of group 2,
    though it is past the start row and will be there once written. -/
theorem overlay_fetch_misses_add : ∃ s0 s, tryNew 2 [0] [[.int 1, .int 1]] = .ok s0 ∧
    [Op.connect (some [(0, true)]) none [], .setConnOutput ⟨0, 0⟩].foldlM Op.run s0 = some s ∧
    ValidChange s.primaryKey {r | r ∈ [[Value.int 1, .int 1]]} (.add [.int 5, .int 1]) ∧
    s.conns.index.pushCandidates (.add [.int 5, .int 1]) = [0] ∧
    s.aroundPush (.add [.int 5, .int 1]) (fun _ _ => []) true [0] ⟨0, 0⟩
      { constraint := some [(1, .int 1)], start := some ⟨[.int 0, .int 2], .atRow⟩ } =
      some ([[.int 1, .int 1]], [[.int 1, .int 1]], [[.int 1, .int 1], [.int 5, .int 1]]) := by
  obtain ⟨s0, s, hnew, hrun, -, -, -, hkey, hcand, -⟩ := one_group_ok
  refine ⟨s0, s, hnew, hrun, ?_, hcand, ?_⟩
  · intro x hx
    rw [hkey, List.mem_singleton.mp hx]
    decide +kernel
  · rw [← Except.ok.inj hnew] at hrun
    rw [← Option.some.inj hrun]
    decide +kernel

/-- The same row and request with a start row of group 1. -/
theorem overlay_fetch_exact_add : ∃ s0 s before pending post, tryNew 2 [0] [[.int 1, .int 1]] = .ok s0 ∧
    [Op.connect (some [(0, true)]) none [], .setConnOutput ⟨0, 0⟩].foldlM Op.run s0 = some s ∧
    s.aroundPush (.add [.int 5, .int 1]) (fun _ _ => []) true [0] ⟨0, 0⟩
      { constraint := some [(1, .int 1)], start := some ⟨[.int 0, .int 1], .atRow⟩ } = some (before, pending, post) ∧
    pending = post := by
  obtain ⟨s0, s, hnew, hrun, hok, hq, hepoch, hkey, hcand, hlive⟩ := one_group_ok
  have hv : ValidChange s.primaryKey {r | r ∈ [[Value.int 1, .int 1]]} (.add [.int 5, .int 1]) := by
    intro x hx
    rw [hkey, List.mem_singleton.mp hx]
    decide +kernel
  have hreads : s.ReadsLive fun _ _ => [] := fun _ _ r hr => by cases hr
  obtain ⟨before, pending, post, heq, hiff, -⟩ := overlay_fetch_exact hok hq (by rw [hepoch]; decide) hv hreads true
    (show s.conns.index.pushCandidates (.add [.int 5, .int 1]) = [0] ++ [] from hcand) hlive rfl
    { constraint := some [(1, .int 1)], start := some ⟨[.int 0, .int 1], .atRow⟩ }
  refine ⟨s0, s, before, pending, post, hnew, hrun, heq, (hiff List.mem_cons_self rfl).mpr fun e he => ?_⟩
  rw [List.mem_singleton.mp he, hkey]
  exact fun _ _ => by decide +kernel

end Rindle.MemorySource
