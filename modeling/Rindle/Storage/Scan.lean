/-
  Rindle.Storage.Scan — operator storage in memory and in SQLite, and their prefix scans
  (`rust/src/storage.rs`, `rindle-sqlite/src/storage.rs`).

  Both keep entries in key order; a key is its UTF-8 bytes, which is how both compare it. The
  in-memory scan is one list. The SQLite one reads pages of `scanPage` rows, each strictly after the
  last key of the one before, while its caller may write. Whatever is written during a drain, keys
  come in ascending order, and one not written to is neither skipped nor read differently; an
  undisturbed drain is the in-memory scan (`paged_scan_exact`).
-/

import Rindle.Lib.Paging
import Rindle.Storage.CodecExact

set_option linter.dupNamespace false

namespace Rindle.Storage

open SList (Sorted)

abbrev Key := List UInt8

def byKey {ν : Type} (a b : Key × ν) : Ordering := compare a.1 b.1

instance {ν : Type} : Std.TransCmp (byKey : Key × ν → Key × ν → Ordering) := SList.transCmp_comap compare Prod.fst

/-- `starts_with`. -/
def startsWith (keyPrefix key : Key) : Bool := keyPrefix.isPrefixOf key

/-! ## In memory -/

structure MemoryStorage where
  data : List (Key × StorageValue)

namespace MemoryStorage

def set (m : MemoryStorage) (key : Key) (value : StorageValue) : MemoryStorage := ⟨SList.insert byKey (key, value) m.data⟩

def del (m : MemoryStorage) (key : Key) : MemoryStorage := ⟨m.data.filter fun e => e.1 ≠ key⟩

def scan (m : MemoryStorage) (keyPrefix : Key) : List (Key × StorageValue) :=
  (m.data.dropWhile fun e => compare e.1 keyPrefix == .lt).takeWhile fun e => startsWith keyPrefix e.1

end MemoryStorage

/-! ## In SQLite -/

/-- The rows of one operator, and the first error parked. -/
structure OpStorage where
  rows : List (Key × List UInt8)
  errorSink : Option String := none

namespace OpStorage

/-- Set if empty. -/
def park (s : OpStorage) (err : String) : OpStorage := { s with errorSink := s.errorSink.or (some err) }

/-- The upsert; a value that cannot be written panics. -/
def set (s : OpStorage) (key : Key) (value : StorageValue) : Option OpStorage := do
  let bytes ← encodeStorageValue value
  some { s with rows := SList.insert byKey (key, bytes) s.rows }

def del (s : OpStorage) (key : Key) : OpStorage := { s with rows := s.rows.filter fun r => r.1 ≠ key }

end OpStorage

def scanPage : Nat := 1024

/-- A page, whether the scan is finished with it, and an error to park. -/
structure Page where
  pairs : List (Key × StorageValue)
  finished : Bool
  parked : Option String

structure ScanCursor where
  keyPrefix : Key
  seek : Option Key
  page : List (Key × StorageValue)
  done : Bool

namespace ScanCursor

def new (keyPrefix : Key) : ScanCursor := ⟨keyPrefix, none, [], false⟩

/-- The loop over the rows of a page; a row past the prefix ends the scan, and so does one that
    does not decode. -/
def readRows (keyPrefix : Key) : List (Key × List UInt8) → Option Page
  | [] => some ⟨[], false, none⟩
  | (key, bytes) :: rows =>
    if !startsWith keyPrefix key then some ⟨[], true, none⟩
    else
      match decodeStorageValue bytes with
      | .panic => none
      | .error msg => some ⟨[], true, some ("decode operator storage scan value: " ++ msg)⟩
      | .ok value => (readRows keyPrefix rows).map fun p => { p with pairs := (key, value) :: p.pairs }

/-- The `WHERE` of the first page, and of the later ones. -/
@[grind] def past (keyPrefix : Key) (seek : Option Key) (key : Key) : Bool :=
  match seek with
  | none => compare key keyPrefix != .lt
  | some last => compare key last == .gt

/-- `query_page`: the rows past the bound, in key order, at most `scanPage` of them. -/
def queryPage (s : OpStorage) (keyPrefix : Key) (seek : Option Key) : Option Page := do
  let rows := (s.rows.filter fun r => past keyPrefix seek r.1).take scanPage
  let p ← readRows keyPrefix rows
  some { p with finished := p.finished || decide (rows.length < scanPage) }

def fetchPage (c : ScanCursor) (s : OpStorage) : Option (ScanCursor × OpStorage) := do
  let p ← queryPage s c.keyPrefix c.seek
  let seek := (p.pairs.getLast?.map (·.1)).or c.seek
  some ({ c with seek := seek, page := p.pairs, done := c.done || p.finished },
    p.parked.elim s s.park)

/-- `next`, with fuel for its loop. -/
def next : Nat → ScanCursor → OpStorage → Option (Option (Key × StorageValue) × ScanCursor × OpStorage)
  | 0, _, _ => none
  | fuel + 1, c, s =>
    match c.page with
    | pair :: page => some (some pair, { c with page := page }, s)
    | [] =>
      if c.done then some (none, c, s)
      else do
        let (c, s) ← c.fetchPage s
        next fuel c s

end ScanCursor

/-! ## A drain -/

/-- What happens during a drain: a write, or the cursor's next pair is asked for. -/
inductive Act where
  | set (key : Key) (value : StorageValue)
  | del (key : Key)
  | next

/-- What an act writes can be written, and is one of these entries. -/
def Act.Sets (sets : Set (Key × StorageValue)) : Act → Prop
  | .set key value => value.WellFormed ∧ (key, value) ∈ sets
  | _ => True

/-- A scan under way, with what it has yielded, the keys written to since it began, and whether it
    has said that it is at its end. -/
structure Drain where
  store : OpStorage
  cursor : ScanCursor
  yielded : List (Key × StorageValue)
  touched : List Key
  ended : Bool

namespace Drain

def start (s : OpStorage) (keyPrefix : Key) : Drain := ⟨s, .new keyPrefix, [], [], false⟩

def step (d : Drain) : Act → Option Drain
  | .set key value => do
    let s ← d.store.set key value
    some { d with store := s, touched := key :: d.touched }
  | .del key => some { d with store := d.store.del key, touched := key :: d.touched }
  | .next => do
    let (pair, c, s) ← d.cursor.next 2 d.store
    some { d with store := s, cursor := c, yielded := d.yielded ++ pair.toList, ended := d.ended || pair.isNone }

end Drain

/-- A row holds an entry: its value, encoded. -/
def Encodes (r : Key × List UInt8) (e : Key × StorageValue) : Prop :=
  r.1 = e.1 ∧ e.2.WellFormed ∧ encodeStorageValue e.2 = some r.2

/-- The rows hold these entries, in key order. -/
structure OpStorage.Holds (s : OpStorage) (m : MemoryStorage) : Prop where
  rows : List.Forall₂ Encodes s.rows m.data
  sorted : Sorted byKey m.data

/-! ## The rows of the entries -/

def inside (keyPrefix : Key) (e : Key × StorageValue) : Bool := startsWith keyPrefix e.1

def above (keyPrefix : Key) (seek : Option Key) (e : Key × StorageValue) : Bool := ScanCursor.past keyPrefix seek e.1

section
variable {s s' : OpStorage} {m : MemoryStorage} {keyPrefix : Key} {seek : Option Key}

theorem encodes_filter {rows : List (Key × List UInt8)} {es : List (Key × StorageValue)} (h : List.Forall₂ Encodes rows es)
    (f : Key → Bool) : List.Forall₂ Encodes (rows.filter fun r => f r.1) (es.filter fun e => f e.1) :=
  List.rel_filter (fun {r e} hr => by simp only [hr.1]) h

theorem OpStorage.Holds.set (h : s.Holds m) {key : Key} {value : StorageValue} (hv : value.WellFormed) :
    ∃ s', s.set key value = some s' ∧ s'.Holds (m.set key value) ∧ s'.errorSink = s.errorSink := by
  obtain ⟨-, hsome⟩ := value.wellFormed_iff.mp hv
  obtain ⟨bytes, hbytes⟩ := Option.isSome_iff_exists.mp hsome
  refine ⟨{ s with rows := SList.insert byKey (key, bytes) s.rows }, by rw [OpStorage.set, hbytes]; rfl,
    ⟨?_, SList.sorted_insert h.sorted⟩, rfl⟩
  have hrow : Encodes (key, bytes) (key, value) := ⟨rfl, hv, hbytes⟩
  show List.Forall₂ Encodes (SList.insert byKey (key, bytes) s.rows) (SList.insert byKey (key, value) m.data)
  have hrows := h.rows
  generalize s.rows = rows at hrows
  generalize m.data = es at hrows
  induction hrows with
  | nil => exact .cons hrow .nil
  | @cons r e rows es hr hrs ih =>
    have hcmp : byKey r (key, bytes) = byKey e (key, value) := by rw [byKey, byKey, hr.1]
    rw [SList.insert_cons, SList.insert_cons, hcmp]
    split
    · exact .cons hr ih
    · exact .cons hrow hrs
    · exact .cons hrow (.cons hr hrs)

theorem OpStorage.Holds.del (h : s.Holds m) (key : Key) : (s.del key).Holds (m.del key) :=
  ⟨encodes_filter h.rows fun k => k ≠ key, h.sorted.sublist List.filter_sublist⟩

theorem readRows_eq {rows : List (Key × List UInt8)} {es : List (Key × StorageValue)} (h : List.Forall₂ Encodes rows es) :
    ScanCursor.readRows keyPrefix rows =
      some ⟨es.takeWhile (inside keyPrefix), es.any fun e => !inside keyPrefix e, none⟩ := by
  induction h with
  | nil => rfl
  | @cons r e rows es hr _ ih =>
    obtain ⟨key, bytes⟩ := r
    obtain ⟨key', value⟩ := e
    obtain ⟨hkey, hv, hbytes⟩ := hr
    obtain rfl : key = key' := hkey
    have hdecode : decodeStorageValue bytes = .ok value := decode_eq_ok.mpr ⟨hv.rowsBuilt, hbytes⟩
    rw [ScanCursor.readRows]
    cases hin : startsWith keyPrefix key with
    | false => simp [inside, hin]
    | true => simp [inside, hin, hdecode, ih]

/-- A page of the rows is a page of the entries. -/
theorem queryPage_eq (h : s.Holds m) : ScanCursor.queryPage s keyPrefix seek =
    some ⟨Paging.page scanPage (above keyPrefix seek) (inside keyPrefix) m.data,
      Paging.finished scanPage (above keyPrefix seek) (inside keyPrefix) m.data, none⟩ := by
  have hrows : List.Forall₂ Encodes ((s.rows.filter fun r => ScanCursor.past keyPrefix seek r.1).take scanPage)
      (Paging.fetched scanPage (above keyPrefix seek) m.data) := List.forall₂_take scanPage (encodes_filter h.rows _)
  rw [ScanCursor.queryPage, readRows_eq hrows, Option.bind_eq_bind, Option.bind_some, hrows.length_eq]
  rfl

end

/-! ## What a drain keeps -/

/-- The scan of a drain that began with the entries `m₀`, now that they are `m`. -/
structure Drain.Kept (keyPrefix : Key) (m₀ m : MemoryStorage) (sets : Set (Key × StorageValue)) (d : Drain) : Prop where
  holds : d.store.Holds m
  scans : d.cursor.keyPrefix = keyPrefix
  ascending : Sorted byKey (d.yielded ++ d.cursor.page)
  matching : ∀ e ∈ d.yielded ++ d.cursor.page, inside keyPrefix e = true
  /-- The next page starts past everything read, and not before the prefix. -/
  resume : ∀ last, d.cursor.seek = some last →
    compare last keyPrefix ≠ .lt ∧ ∀ e ∈ d.yielded ++ d.cursor.page, compare e.1 last ≠ .gt
  fresh : d.cursor.seek = none → d.yielded ++ d.cursor.page = []
  untouched : ∀ e : Key × StorageValue, e.1 ∉ d.touched → (e ∈ m.data ↔ e ∈ m₀.data)
  /-- What was not written to has been read, or is still ahead. -/
  ahead : ∀ e ∈ m.data, e.1 ∉ d.touched → inside keyPrefix e = true →
    e ∈ d.yielded ++ d.cursor.page ∨ (d.cursor.done = false ∧ above keyPrefix d.cursor.seek e = true)
  origin : ∀ e, e ∈ m.data ∨ e ∈ d.yielded ++ d.cursor.page → e ∈ m₀.data ∨ e ∈ sets
  ended : d.ended = true → d.cursor.done = true ∧ d.cursor.page = []

theorem startsWith_iff {keyPrefix key : Key} : startsWith keyPrefix key = true ↔ keyPrefix <+: key := by
  rw [startsWith, List.isPrefixOf_iff_prefix]

theorem above_none {keyPrefix : Key} {e : Key × StorageValue} (h : inside keyPrefix e = true) : above keyPrefix none e = true := by
  have hle := Paging.not_lt_of_prefix (startsWith_iff.mp h)
  simpa [above, ScanCursor.past] using hle

/-- Past the bound and outside, nothing later is inside. -/
theorem leaves {keyPrefix : Key} {seek : Option Key} (hseek : ∀ last, seek = some last → compare last keyPrefix ≠ .lt)
    (a b : Key × StorageValue) (hp : above keyPrefix seek a = true) (hi : inside keyPrefix a = false) (hab : byKey a b = .lt) :
    inside keyPrefix b = false := by
  have hle : compare keyPrefix a.1 ≠ .gt := by
    rw [Ne, Std.OrientedCmp.gt_iff_lt]
    cases seek with
    | none => simpa [above, ScanCursor.past] using hp
    | some last =>
      have hgt : compare a.1 last = .gt := by simpa [above, ScanCursor.past] using hp
      intro hlt
      exact hseek last rfl (Std.TransCmp.lt_trans (Std.OrientedCmp.gt_iff_lt.mp hgt) hlt)
  have hout := Paging.prefix_left hle (fun h => by rw [inside, startsWith_iff.mpr h] at hi; cases hi) hab
  rw [← Bool.not_eq_true, inside, startsWith_iff]
  exact hout

namespace Drain

variable {keyPrefix : Key} {m₀ m : MemoryStorage} {sets : Set (Key × StorageValue)} {d : Drain}

theorem kept_start {s : OpStorage} (h : s.Holds m) (keyPrefix : Key) : Kept keyPrefix m m sets (start s keyPrefix) := by
  refine ⟨h, rfl, SList.sorted_nil, fun e he => (by cases he), fun last hl => (by cases hl), fun _ => rfl, fun _ _ => Iff.rfl, ?_,
    ?_, fun he => (by cases he)⟩
  · intro e _ _ hin
    exact Or.inr ⟨rfl, above_none hin⟩
  · intro e he
    rcases he with he | he
    · exact Or.inl he
    · cases he

theorem lt_of_seek {a b : Key × StorageValue} {last : Key} (ha : compare a.1 last ≠ .gt) (hb : compare b.1 last = .gt) :
    byKey a b = .lt := by
  have hlt : compare last b.1 = .lt := Std.OrientedCmp.gt_iff_lt.mp hb
  have hle : (compare a.1 last).isLE := Ordering.isLE_iff_ne_gt.mpr ha
  show compare a.1 b.1 = .lt
  exact Std.TransCmp.lt_of_isLE_of_lt hle hlt

theorem getLast_seek {P : List (Key × StorageValue)} {seek : Option Key} {last : Key}
    (h : (P.getLast?.map (·.1)).or seek = some last) :
    (∃ e, P.getLast? = some e ∧ e.1 = last) ∨ (P = [] ∧ seek = some last) := by
  cases hP : P.getLast? with
  | none =>
    rw [hP] at h
    exact Or.inr ⟨List.getLast?_eq_none_iff.mp hP, h⟩
  | some e =>
    rw [hP] at h
    exact Or.inl ⟨e, rfl, Option.some.inj h⟩

/-- A page is fetched: more is read, and the scan goes on past it or is finished. -/
theorem Kept.fetchPage (h : Kept keyPrefix m₀ m sets d) (hpage : d.cursor.page = []) (hdone : d.cursor.done = false) :
    ∃ c, d.cursor.fetchPage d.store = some (c, d.store) ∧ Kept keyPrefix m₀ m sets { d with cursor := c } ∧
      (c.page = [] → c.done = true) := by
  obtain ⟨hholds, hscans, hasc, hmatch, hresume, hfresh, huntouched, hahead, horigin, hended⟩ := h
  rw [hpage, List.append_nil] at hasc hmatch hfresh
  simp only [hpage, List.append_nil] at hresume hahead horigin
  let P := Paging.page scanPage (above keyPrefix d.cursor.seek) (inside keyPrefix) m.data
  let fin := Paging.finished scanPage (above keyPrefix d.cursor.seek) (inside keyPrefix) m.data
  have hP : Sorted byKey P := hholds.sorted.sublist Paging.page_sublist
  have hbetween : ∀ a ∈ d.yielded, ∀ b ∈ P, byKey a b = .lt := by
    intro a ha b hb
    obtain ⟨-, hp, -⟩ := Paging.mem_page hb
    cases hseek : d.cursor.seek with
    | none =>
      rw [hfresh hseek] at ha
      cases ha
    | some last =>
      have hgt : compare b.1 last = .gt := by simpa [hseek, above, ScanCursor.past] using hp
      exact lt_of_seek ((hresume last hseek).2 a ha) hgt
  refine ⟨⟨keyPrefix, (P.getLast?.map (·.1)).or d.cursor.seek, P, fin⟩, ?_, ?_, ?_⟩
  · rw [ScanCursor.fetchPage, hscans, queryPage_eq hholds, hdone]
    rfl
  · have hlast : ∀ e ∈ P, ∀ f, P.getLast? = some f → compare e.1 f.1 ≠ .gt := by
      intro e he f hf hgt
      obtain ⟨Q, hQ⟩ := List.getLast?_eq_some_iff.mp hf
      rw [hQ] at hP he
      rcases List.mem_append.mp he with he | he
      · have hlt : compare e.1 f.1 = .lt := (SList.sorted_append.mp hP).2.2 e he f List.mem_cons_self
        rw [hlt] at hgt
        cases hgt
      · have hself : compare f.1 f.1 = .eq := Std.ReflCmp.compare_self
        rw [List.mem_singleton.mp he, hself] at hgt
        cases hgt
    refine ⟨hholds, rfl, SList.sorted_append.mpr ⟨hasc, hP, hbetween⟩, ?_, ?_, ?_, huntouched, ?_, ?_, ?_⟩
    · intro e he
      rcases List.mem_append.mp he with he | he
      · exact hmatch e he
      · exact (Paging.mem_page he).2.2
    · intro last hl
      rcases getLast_seek hl with ⟨f, hf, rfl⟩ | ⟨hempty, hl⟩
      · have hfP : f ∈ P := List.mem_of_getLast? hf
        refine ⟨Paging.not_lt_of_prefix (startsWith_iff.mp (Paging.mem_page hfP).2.2), ?_⟩
        intro e he
        rcases List.mem_append.mp he with he | he
        · have hlt : compare e.1 f.1 = .lt := hbetween e he f hfP
          rw [hlt]
          decide
        · exact hlast e he f hf
      · refine ⟨(hresume last hl).1, ?_⟩
        show ∀ e ∈ d.yielded ++ P, _
        rw [hempty, List.append_nil]
        exact (hresume last hl).2
    · intro hnone
      obtain ⟨hP, hseek⟩ := Option.or_eq_none_iff.mp hnone
      rw [Option.map_eq_none_iff, List.getLast?_eq_none_iff] at hP
      show d.yielded ++ P = []
      rw [hP, hfresh hseek]
      rfl
    · intro e he htouched hin
      rcases hahead e he htouched hin with hread | ⟨-, hp⟩
      · exact Or.inl (List.mem_append_left _ hread)
      rcases Paging.page_complete (n := scanPage) hholds.sorted (leaves fun last hl => (hresume last hl).1) he hp hin with
        hmem | ⟨hfin, hbefore⟩
      · exact Or.inl (List.mem_append_right _ hmem)
      · refine Or.inr ⟨hfin, ?_⟩
        have hne : P ≠ [] := by
          intro hempty
          have hlen := Paging.length_page hfin
          rw [show Paging.page scanPage (above keyPrefix d.cursor.seek) (inside keyPrefix) m.data = [] from hempty] at hlen
          cases hlen
        have hf := List.getLast?_eq_some_getLast hne
        have hlt : compare (P.getLast hne).1 e.1 = .lt := hbefore _ (List.getLast_mem hne)
        simp only [hf, Option.map_some, Option.some_or, above, ScanCursor.past, Std.OrientedCmp.gt_iff_lt.mpr hlt, BEq.rfl]
    · intro e he
      rcases he with he | he
      · exact horigin e (Or.inl he)
      · rcases List.mem_append.mp he with he | he
        · exact horigin e (Or.inr he)
        · exact horigin e (Or.inl (Paging.mem_page he).1)
    · intro he
      rw [hdone] at hended
      cases (hended he).1
  · intro hempty
    by_contra hfin
    have hlen := Paging.length_page (show fin = false by simpa using hfin)
    rw [show Paging.page scanPage (above keyPrefix d.cursor.seek) (inside keyPrefix) m.data = [] from hempty] at hlen
    cases hlen

/-- The cursor's `next`: a pair read, or the end. -/
theorem Kept.next (h : Kept keyPrefix m₀ m sets d) : ∃ d', d.step .next = some d' ∧ Kept keyPrefix m₀ m sets d' ∧
    d'.touched = d.touched ∧ ((d.ended = false ∧ d'.yielded.length = d.yielded.length + 1) ∨ d'.ended = true) := by
  -- a pair of the page, whatever fuel is left
  have hpair : ∀ {c : ScanCursor} {pair page} (fuel : Nat), c.page = pair :: page →
      Kept keyPrefix m₀ m sets { d with cursor := c } →
      c.next (fuel + 1) d.store = some (some pair, { c with page := page }, d.store) ∧
        Kept keyPrefix m₀ m sets { d with cursor := { c with page := page }, yielded := d.yielded ++ [pair], ended := false } := by
    intro c pair page fuel hc hk
    obtain ⟨hholds, hscans, hasc, hmatch, hresume, hfresh, huntouched, hahead, horigin, -⟩ := hk
    have hout : d.yielded ++ c.page = (d.yielded ++ [pair]) ++ page := by rw [hc, List.append_assoc]; rfl
    simp only [hout] at hasc hmatch hresume hfresh hahead horigin
    exact ⟨by rw [ScanCursor.next, hc], hholds, hscans, hasc, hmatch, hresume, hfresh, huntouched, hahead, horigin, nofun⟩
  have hended : ∀ pair page, d.cursor.page = pair :: page → d.ended = false := by
    intro pair page hc
    by_contra hn
    have hempty := (h.ended (by simpa using hn)).2
    rw [hc] at hempty
    cases hempty
  -- the end: nothing left of the page, and no further one
  have hstop : ∀ {c : ScanCursor}, c.page = [] → c.done = true → Kept keyPrefix m₀ m sets { d with cursor := c } →
      Kept keyPrefix m₀ m sets { d with cursor := c, yielded := d.yielded ++ [], ended := true } := by
    intro c hc hd hk
    rw [List.append_nil]
    exact { hk with ended := fun _ => ⟨hd, hc⟩ }
  cases hc : d.cursor.page with
  | cons pair page =>
    obtain ⟨hnext, hk⟩ := hpair 1 hc h
    refine ⟨_, ?_, hk, rfl, Or.inl ⟨hended pair page hc, List.length_append⟩⟩
    rw [step, hnext, hended pair page hc]
    rfl
  | nil =>
    cases hd : d.cursor.done with
    | true =>
      refine ⟨_, ?_, hstop hc hd h, rfl, Or.inr rfl⟩
      rw [step, ScanCursor.next, hc]
      simp only [hd, if_true, Option.bind_eq_bind, Option.bind_some, Option.isNone_none, Bool.or_true, Option.toList_none]
    | false =>
      obtain ⟨c, hfetch, hk, hfin⟩ := h.fetchPage hc hd
      have hfirst : d.cursor.next 2 d.store = c.next 1 d.store := by
        rw [ScanCursor.next, hc]
        simp only [hd, Bool.false_eq_true, if_false, hfetch, Option.bind_eq_bind, Option.bind_some]
      have hnot : d.ended = false := by
        by_contra hn
        rw [(h.ended (by simpa using hn)).1] at hd
        cases hd
      cases hpage : c.page with
      | cons pair page =>
        obtain ⟨hnext, hk'⟩ := hpair 0 hpage hk
        refine ⟨_, ?_, hk', rfl, Or.inl ⟨hnot, List.length_append⟩⟩
        rw [step, hfirst, hnext, hnot]
        rfl
      | nil =>
        refine ⟨_, ?_, hstop hpage (hfin hpage) hk, rfl, Or.inr rfl⟩
        rw [step, hfirst, ScanCursor.next, hpage]
        simp only [hfin hpage, if_true, Option.bind_eq_bind, Option.bind_some, Option.isNone_none, Bool.or_true, Option.toList_none]

/-- The key of a write is no longer untouched; the scan has not moved. -/
theorem Kept.write (h : Kept keyPrefix m₀ m sets d) {s' : OpStorage} {m' : MemoryStorage} {key : Key} (hholds : s'.Holds m')
    (hkeep : ∀ e, e.1 ≠ key → (e ∈ m'.data ↔ e ∈ m.data)) (horigin : ∀ e ∈ m'.data, e ∈ m.data ∨ e ∈ sets) :
    Kept keyPrefix m₀ m' sets { d with store := s', touched := key :: d.touched } := by
  have hsplit : ∀ {k : Key}, k ∉ key :: d.touched → k ≠ key ∧ k ∉ d.touched := by
    intro k hk
    simpa using hk
  refine ⟨hholds, h.scans, h.ascending, h.matching, h.resume, h.fresh, ?_, ?_, ?_, h.ended⟩
  · intro e he
    obtain ⟨hne, he⟩ := hsplit he
    rw [hkeep e hne, h.untouched e he]
  · intro e he htouched hin
    obtain ⟨hne, htouched⟩ := hsplit htouched
    exact h.ahead e ((hkeep e hne).mp he) htouched hin
  · intro e he
    rcases he with he | he
    · rcases horigin e he with he | he
      · exact h.origin e (Or.inl he)
      · exact Or.inr he
    · exact h.origin e (Or.inr he)

theorem byKey_eq {e f : Key × StorageValue} : byKey e f = .eq ↔ e.1 = f.1 := by
  show compare e.1 f.1 = .eq ↔ _
  exact Std.LawfulEqOrd.compare_eq_iff_eq

theorem Kept.step (h : Kept keyPrefix m₀ m sets d) {act : Act} (hf : act.Sets sets) :
    ∃ d' m', d.step act = some d' ∧ Kept keyPrefix m₀ m' sets d' := by
  cases act with
  | set key value =>
    obtain ⟨s', hset, hholds, -⟩ := @OpStorage.Holds.set _ _ h.holds key value hf.1
    refine ⟨{ d with store := s', touched := key :: d.touched }, m.set key value, by rw [Drain.step, hset]; rfl,
      h.write hholds ?_ ?_⟩
    · intro e hne
      rw [MemoryStorage.set, SList.mem_insert h.holds.sorted, Ne, byKey_eq]
      refine ⟨fun he => ?_, fun he => Or.inr ⟨he, hne⟩⟩
      rcases he with rfl | he
      · exact absurd rfl hne
      · exact he.1
    · intro e he
      rcases (SList.mem_insert h.holds.sorted).mp he with rfl | he
      · exact Or.inr hf.2
      · exact Or.inl he.1
  | del key =>
    refine ⟨{ d with store := d.store.del key, touched := key :: d.touched }, m.del key, rfl, h.write (h.holds.del key) ?_ ?_⟩
    · intro e hne
      rw [MemoryStorage.del, List.mem_filter]
      exact ⟨And.left, fun he => ⟨he, by simpa using hne⟩⟩
    · intro e he
      exact Or.inl (List.mem_filter.mp he).1
  | next =>
    obtain ⟨d', hstep, hk, -⟩ := h.next
    exact ⟨d', m, hstep, hk⟩

theorem Kept.run (acts : List Act) : ∀ {m : MemoryStorage} {d : Drain}, Kept keyPrefix m₀ m sets d →
    (∀ act ∈ acts, act.Sets sets) → ∃ d' m', acts.foldlM Drain.step d = some d' ∧ Kept keyPrefix m₀ m' sets d' := by
  induction acts with
  | nil => exact fun {m d} h _ => ⟨d, m, rfl, h⟩
  | cons act acts ih =>
    intro m d h hf
    obtain ⟨d₁, m₁, h₁, hk₁⟩ := h.step (hf act List.mem_cons_self)
    obtain ⟨d₂, m₂, h₂, hk₂⟩ := ih hk₁ fun a ha => hf a (List.mem_cons_of_mem _ ha)
    exact ⟨d₂, m₂, by rw [List.foldlM_cons, h₁]; exact h₂, hk₂⟩

/-- Asked time after time, a scan comes to its end, or has yielded every time. -/
theorem Kept.nexts (n : Nat) : ∀ {d : Drain}, Kept keyPrefix m₀ m sets d →
    ∃ d', (List.replicate n Act.next).foldlM Drain.step d = some d' ∧ Kept keyPrefix m₀ m sets d' ∧
      d'.touched = d.touched ∧ (d.ended = true → d'.ended = true) ∧
      (d'.ended = true ∨ d'.yielded.length = d.yielded.length + n) := by
  induction n with
  | zero => exact fun {d} h => ⟨d, rfl, h, rfl, id, Or.inr rfl⟩
  | succ n ih =>
    intro d h
    obtain ⟨d₁, h₁, hk₁, ht₁, hmore⟩ := h.next
    obtain ⟨d₂, h₂, hk₂, ht₂, hkeep, hlen⟩ := ih hk₁
    refine ⟨d₂, by rw [List.replicate_succ, List.foldlM_cons, h₁]; exact h₂, hk₂, ht₂.trans ht₁, ?_, ?_⟩
    · intro he
      rcases hmore with ⟨hnot, -⟩ | hend
      · rw [he] at hnot
        cases hnot
      · exact hkeep hend
    · rcases hmore with ⟨-, hone⟩ | hend
      · rcases hlen with hend | hlen
        · exact Or.inl hend
        · exact Or.inr (by omega)
      · exact Or.inl (hkeep hend)

/-- At its end a scan has yielded whatever matches and was not written to. -/
theorem Kept.complete (h : Kept keyPrefix m₀ m sets d) (hend : d.ended = true) {e : Key × StorageValue} (he : e ∈ m₀.data)
    (hin : inside keyPrefix e = true) (htouched : e.1 ∉ d.touched) : e ∈ d.yielded := by
  obtain ⟨hdone, hpage⟩ := h.ended hend
  rcases h.ahead e ((h.untouched e htouched).mpr he) htouched hin with hread | ⟨hnot, -⟩
  · rwa [hpage, List.append_nil] at hread
  · rw [hdone] at hnot
    cases hnot

end Drain

/-! ## The in-memory scan -/

theorem takeWhile_inside {keyPrefix : Key} {l : List (Key × StorageValue)} (h : Sorted byKey l)
    (hge : ∀ e ∈ l, above keyPrefix none e = true) : l.takeWhile (inside keyPrefix) = l.filter (inside keyPrefix) := by
  induction l with
  | nil => rfl
  | cons e l ih =>
    obtain ⟨hlt, hl⟩ := SList.sorted_cons.mp h
    cases hin : inside keyPrefix e with
    | true =>
      rw [List.takeWhile_cons_of_pos hin, List.filter_cons_of_pos hin, ih hl fun f hf => hge f (List.mem_cons_of_mem _ hf)]
    | false =>
      have hnone : ∀ f ∈ l, ¬inside keyPrefix f = true := by
        intro f hf
        have hseek : ∀ last, (none : Option Key) = some last → compare last keyPrefix ≠ .lt := fun _ hl => by cases hl
        rw [leaves hseek e f (hge e List.mem_cons_self) hin (hlt f hf)]
        decide
      rw [List.takeWhile_cons_of_neg (by simp [hin]), List.filter_cons_of_neg (by simp [hin]), List.filter_eq_nil_iff.mpr hnone]

/-- The in-memory scan, by its entries. -/
theorem MemoryStorage.scan_eq {m : MemoryStorage} (h : Sorted byKey m.data) (keyPrefix : Key) :
    m.scan keyPrefix = m.data.filter (inside keyPrefix) := by
  unfold scan
  generalize m.data = l at h
  induction l with
  | nil => rfl
  | cons e l ih =>
    obtain ⟨hlt, hl⟩ := SList.sorted_cons.mp h
    by_cases he : compare e.1 keyPrefix = .lt
    · have hout : ¬inside keyPrefix e = true := fun hin => Paging.not_lt_of_prefix (startsWith_iff.mp hin) he
      rw [List.dropWhile_cons_of_pos (by simp [he]), List.filter_cons_of_neg hout, ih hl]
    · have hge : ∀ f ∈ e :: l, above keyPrefix none f = true := by
        intro f hf
        rcases List.mem_cons.mp hf with rfl | hf
        · simpa [above, ScanCursor.past] using he
        · have hle : (compare keyPrefix e.1).isLE := by
            rw [Ordering.isLE_iff_ne_gt, Std.OrientedCmp.gt_iff_lt]
            exact he
          have hgt : compare keyPrefix f.1 = .lt := Std.TransCmp.lt_of_isLE_of_lt hle (hlt f hf)
          simp [above, ScanCursor.past, Std.OrientedCmp.gt_iff_lt.mpr hgt]
      rw [List.dropWhile_cons_of_neg (by simpa using he)]
      exact takeWhile_inside h hge

/-! ## The paged scan -/

/-- Undisturbed, the paged scan yields the in-memory one and then says it is at its end. Whatever is
    written during it, it never panics, yields keys that match, each after the one before, each entry
    one that was there or was set; and at its end it has yielded every matching entry whose key was not
    written to. -/
theorem paged_scan_exact {s : OpStorage} {m : MemoryStorage} (h : s.Holds m) (keyPrefix : Key) :
    (∃ d, (List.replicate (m.data.length + 1) Act.next).foldlM Drain.step (.start s keyPrefix) = some d ∧
      d.yielded = m.scan keyPrefix ∧ d.ended = true) ∧
    ∀ acts : List Act, (∀ key value, Act.set key value ∈ acts → value.WellFormed) →
      ∃ d, acts.foldlM Drain.step (.start s keyPrefix) = some d ∧ Sorted byKey d.yielded ∧
        (∀ e ∈ d.yielded, keyPrefix <+: e.1 ∧ (e ∈ m.data ∨ .set e.1 e.2 ∈ acts)) ∧
        (d.ended = true → ∀ e ∈ m.data, keyPrefix <+: e.1 → e.1 ∉ d.touched → e ∈ d.yielded) := by
  constructor
  · have hstart : Drain.Kept keyPrefix m m ∅ (Drain.start s keyPrefix) := Drain.kept_start h keyPrefix
    obtain ⟨d, hrun, hk, htouched, -, hend⟩ := hstart.nexts (m.data.length + 1)
    have hsub : ∀ e ∈ d.yielded, e ∈ m.data ∧ inside keyPrefix e = true := by
      intro e he
      have hout := List.mem_append_left d.cursor.page he
      exact ⟨(hk.origin e (Or.inr hout)).resolve_right fun hn => hn, hk.matching e hout⟩
    have hsorted : Sorted byKey d.yielded := (SList.sorted_append.mp hk.ascending).1
    have hlen : d.yielded.length ≤ m.data.length := (List.subperm_of_subset hsorted.nodup fun e he => (hsub e he).1).length_le
    have hended : d.ended = true := by
      rcases hend with hend | hend
      · exact hend
      · have hzero : (Drain.start s keyPrefix).yielded.length = 0 := rfl
        omega
    refine ⟨d, hrun, ?_, hended⟩
    rw [MemoryStorage.scan_eq h.sorted]
    refine hsorted.ext (h.sorted.sublist List.filter_sublist) fun e => ?_
    rw [List.mem_filter]
    refine ⟨hsub e, fun he => hk.complete hended he.1 he.2 ?_⟩
    rw [htouched]
    exact List.not_mem_nil
  · intro acts hwell
    have hsets : ∀ act ∈ acts, act.Sets {e | .set e.1 e.2 ∈ acts} := by
      intro act hact
      cases act with
      | set key value => exact ⟨hwell key value hact, hact⟩
      | del key => trivial
      | next => trivial
    obtain ⟨d, m', hrun, hk⟩ := (Drain.kept_start h keyPrefix).run acts hsets
    refine ⟨d, hrun, (SList.sorted_append.mp hk.ascending).1, ?_, ?_⟩
    · intro e he
      have hout := List.mem_append_left d.cursor.page he
      exact ⟨startsWith_iff.mp (hk.matching e hout), hk.origin e (Or.inr hout)⟩
    · intro hend e he hin htouched
      exact hk.complete hend he (startsWith_iff.mpr hin) htouched

/-- Two of three keys start with the prefix, the first of them the prefix itself. -/
theorem paged_scan_exact_two : ∃ (s : OpStorage) (d : Drain),
    s.rows = [([97], [3, 3, 0, 0, 0, 0, 0, 0, 0, 0]), ([97, 98], [3, 3, 1, 0, 0, 0, 0, 0, 0, 0]),
      ([98], [3, 3, 2, 0, 0, 0, 0, 0, 0, 0])] ∧
    (List.replicate 4 Act.next).foldlM Drain.step (.start s [97]) = some d ∧
      d.yielded = [([97], .cap 0 []), ([97, 98], .cap 1 [])] ∧ d.ended = true := by
  have hwell : ∀ size, (StorageValue.cap size []).WellFormed := fun _ => ⟨by decide, fun _ hpk => by cases hpk⟩
  have hholds : OpStorage.Holds ⟨[([97], [3, 3, 0, 0, 0, 0, 0, 0, 0, 0]), ([97, 98], [3, 3, 1, 0, 0, 0, 0, 0, 0, 0]),
      ([98], [3, 3, 2, 0, 0, 0, 0, 0, 0, 0])], none⟩ ⟨[([97], .cap 0 []), ([97, 98], .cap 1 []), ([98], .cap 2 [])]⟩ := by
    refine ⟨.cons ⟨rfl, hwell 0, rfl⟩ (.cons ⟨rfl, hwell 1, rfl⟩ (.cons ⟨rfl, hwell 2, rfl⟩ .nil)), ?_⟩
    simp only [SList.sorted_cons, SList.sorted_nil, List.mem_cons, List.not_mem_nil, or_false, and_true, forall_eq_or_imp,
      forall_eq]
    exact ⟨by decide, by decide, fun _ hr => hr.elim⟩
  obtain ⟨⟨d, hrun, hyielded, hended⟩, -⟩ := paged_scan_exact hholds [97]
  exact ⟨_, d, rfl, hrun, hyielded, hended⟩

end Rindle.Storage
