/-
  Rindle.Lib.JsonText — JSON trees as texts, with nothing between the tokens.

  Texts are UTF-16 code units. A string is quoted character by character: what must be escaped is,
  and so is a surrogate without its partner. A number is any text of number characters
  (`NumberToken`). A text is read in one way only, whatever follows it, as long as a number is not
  followed by more of one: `print_inj`.
-/

import Rindle.Lib.Decimal
import Rindle.Lib.Utf16

namespace Rindle.JsonText

open Utf16 (isHigh isLow)

/-- The units of an ASCII text. -/
def ascii (s : List Char) : List Nat := s.map Char.toNat

/-! ## Strings -/

/-- A character of a string: one unit, or a surrogate pair. -/
inductive Symbol where
  | unit (u : Nat)
  | pair (u v : Nat)

/-- `StringToCodePoints`. -/
def symbols : List Nat → List Symbol
  | [] => []
  | [u] => [.unit u]
  | u :: v :: rest => if isHigh u && isLow v then .pair u v :: symbols rest else .unit u :: symbols (v :: rest)

def hexDigit (d : Nat) : Nat := if d < 10 then 48 + d else 87 + d

/-- `UnicodeEscape`. -/
def unicodeEscape (u : Nat) : List Nat :=
  [92, 117, hexDigit (u / 4096 % 16), hexDigit (u / 256 % 16), hexDigit (u / 16 % 16), hexDigit (u % 16)]

def escapeUnit (u : Nat) : List Nat :=
  if u = 8 then [92, 98]
  else if u = 9 then [92, 116]
  else if u = 10 then [92, 110]
  else if u = 12 then [92, 102]
  else if u = 13 then [92, 114]
  else if u = 34 then [92, 34]
  else if u = 92 then [92, 92]
  else if u < 32 ∨ isHigh u = true ∨ isLow u = true then unicodeEscape u
  else [u]

def escape : Symbol → List Nat
  | .unit u => escapeUnit u
  | .pair u v => [u, v]

/-- `QuoteJSONString`. -/
def quote (s : List Nat) : List Nat := 34 :: ((symbols s).flatMap escape ++ [34])

/-! ## Trees -/

/-- The text of a number. -/
structure NumberToken where
  text : List Nat
  chars : ∀ u ∈ text, (48 ≤ u ∧ u ≤ 57) ∨ u = 46 ∨ u = 101 ∨ u = 43 ∨ u = 45
  head : ∃ u rest, text = u :: rest ∧ ((48 ≤ u ∧ u ≤ 57) ∨ u = 45)

inductive Json where
  | null
  | bool (b : Bool)
  | num (t : NumberToken)
  | str (s : List Nat)
  | arr (elems : List Json)
  | obj (members : List (List Nat × Json))

/-- `join(",")`. -/
def join : List (List Nat) → List Nat
  | [] => []
  | [t] => t
  | t :: ts => t ++ 44 :: join ts

/-- A member, its value printed. -/
def printMember (key value : List Nat) : List Nat := quote key ++ 58 :: value

mutual

def print : Json → List Nat
  | .null => ascii "null".toList
  | .bool true => ascii "true".toList
  | .bool false => ascii "false".toList
  | .num t => t.text
  | .str s => quote s
  | .arr elems => 91 :: (join (printAll elems) ++ [93])
  | .obj members => 123 :: (join (printMembers members) ++ [125])

def printAll : List Json → List (List Nat)
  | [] => []
  | v :: l => print v :: printAll l

def printMembers : List (List Nat × Json) → List (List Nat)
  | [] => []
  | (k, v) :: l => printMember k (print v) :: printMembers l

end

/-! ## Strings are read in one way -/

/-- What an escape stands for. -/
def unescape (e : Nat) : Nat :=
  if e = 98 then 8 else if e = 116 then 9 else if e = 110 then 10 else if e = 102 then 12 else if e = 114 then 13 else e

def unhex (h : Nat) : Nat := if h < 58 then h - 48 else h - 87

/-- The unit at the head of a text, and what is behind it. -/
def readUnit : List Nat → Nat × List Nat
  | 92 :: 117 :: a :: b :: c :: d :: rest => (unhex a * 4096 + unhex b * 256 + unhex c * 16 + unhex d, rest)
  | 92 :: e :: rest => (unescape e, rest)
  | u :: rest => (u, rest)
  | [] => (0, [])

theorem unhex_hexDigit {d : Nat} (h : d < 16) : unhex (hexDigit d) = d := by
  unfold unhex hexDigit
  split <;> split <;> omega

theorem readUnit_escape (u : Nat) (x : List Nat) : readUnit (escapeUnit u ++ x) = (u, x) := by
  have hshort {k e : Nat} {r : List Nat} (hk : readUnit (92 :: e :: x) = (k, x)) (h : u ≠ k → readUnit (r ++ x) = (u, x)) :
      readUnit ((if u = k then [92, e] else r) ++ x) = (u, x) := by
    split
    · subst u; exact hk
    · exact h ‹_›
  refine hshort rfl fun _ => hshort rfl fun _ => hshort rfl fun _ => hshort rfl fun _ => hshort rfl fun _ => hshort rfl fun _ =>
    hshort rfl fun hu => ?_
  split
  · rename_i h
    have hu : u < 65536 := by
      simp only [isHigh, isLow, Bool.and_eq_true, decide_eq_true_eq] at h
      omega
    have hval : u / 4096 % 16 * 4096 + u / 256 % 16 * 256 + u / 16 % 16 * 16 + u % 16 = u := by omega
    show (unhex _ * 4096 + unhex _ * 256 + unhex _ * 16 + unhex _, x) = (u, x)
    rw [unhex_hexDigit (by omega), unhex_hexDigit (by omega), unhex_hexDigit (by omega), unhex_hexDigit (by omega), hval]
  · rw [List.singleton_append, readUnit]
    · exact fun _ _ _ _ _ heq _ => hu heq
    · exact fun _ _ heq _ => hu heq

/-- An escaped unit starts with a backslash or, a unit of its own, is none of a pair's and no quote. -/
theorem escapeUnit_head (u : Nat) (x : List Nat) : ∃ c t, escapeUnit u ++ x = c :: t ∧ isHigh c = false ∧ c ≠ 34 := by
  have hslash {c : Prop} [Decidable c] {t r : List Nat} (h : ¬c → ∃ d t, r ++ x = d :: t ∧ isHigh d = false ∧ d ≠ 34) :
      ∃ d t', (if c then 92 :: t else r) ++ x = d :: t' ∧ isHigh d = false ∧ d ≠ 34 := by
    split
    · exact ⟨92, t ++ x, rfl, by decide, by decide⟩
    · exact h ‹_›
  -- every branch but the last is an escape
  refine hslash fun _ => hslash fun _ => hslash fun _ => hslash fun _ => hslash fun _ => hslash fun hq => hslash fun _ =>
    hslash fun hs => ?_
  exact ⟨u, x, rfl, Bool.eq_false_iff.mpr fun h => hs (.inr (.inl h)), hq⟩

/-- The pairs of a string are surrogates. -/
def Symbol.Valid : Symbol → Prop
  | .unit _ => True
  | .pair u _ => isHigh u = true

theorem symbols_valid (s : List Nat) : ∀ c ∈ symbols s, c.Valid := by
  fun_induction symbols s with
  | case1 => simp
  | case2 u => simp [Symbol.Valid]
  | case3 u v rest h ih =>
    intro c hc
    rcases List.mem_cons.mp hc with rfl | hc
    · exact (Bool.and_eq_true_iff.mp h).1
    · exact ih c hc
  | case4 u v rest h ih =>
    intro c hc
    rcases List.mem_cons.mp hc with rfl | hc
    · trivial
    · exact ih c hc

/-- The units of a symbol. -/
def Symbol.units : Symbol → List Nat
  | .unit u => [u]
  | .pair u v => [u, v]

theorem symbols_units (s : List Nat) : (symbols s).flatMap Symbol.units = s := by
  fun_induction symbols s with
  | case1 => rfl
  | case2 u => rfl
  | case3 u v rest h ih => rw [List.flatMap_cons, ih]; rfl
  | case4 u v rest h ih => rw [List.flatMap_cons, ih]; rfl

theorem escape_head {c : Symbol} (hc : c.Valid) (x : List Nat) : ∃ u t, escape c ++ x = u :: t ∧ u ≠ 34 := by
  cases c with
  | unit u =>
    obtain ⟨d, t, ht, -, hd⟩ := escapeUnit_head u x
    exact ⟨d, t, ht, hd⟩
  | pair u v =>
    refine ⟨u, v :: x, rfl, ?_⟩
    rintro rfl
    exact absurd (show isHigh 34 = true from hc) (by decide)

theorem escape_inj {c d : Symbol} (hc : c.Valid) (hd : d.Valid) {x y : List Nat} (h : escape c ++ x = escape d ++ y) :
    c = d ∧ x = y := by
  cases c with
  | unit u =>
    cases d with
    | unit v =>
      have hread := congrArg readUnit h
      simp only [escape, readUnit_escape, Prod.mk.injEq] at hread
      exact ⟨by rw [hread.1], hread.2⟩
    | pair v w =>
      obtain ⟨e, t, ht, hlow, -⟩ := escapeUnit_head u x
      simp only [escape] at h
      rw [ht] at h
      have he : e = v := (List.cons.inj h).1
      rw [he, show isHigh v = true from hd] at hlow
      cases hlow
  | pair u w =>
    cases d with
    | unit v =>
      obtain ⟨e, t, ht, hlow, -⟩ := escapeUnit_head v y
      simp only [escape] at h
      rw [ht] at h
      have he : u = e := (List.cons.inj h).1
      rw [← he, show isHigh u = true from hc] at hlow
      cases hlow
    | pair v w' =>
      obtain ⟨rfl, htail⟩ := List.cons.inj h
      obtain ⟨rfl, hrest⟩ := List.cons.inj htail
      exact ⟨rfl, hrest⟩

/-- A run of code words is read in one way up to a stop that starts none of them. -/
theorem words_inj {α β : Type} {code : α → List β} {valid : α → Prop} {stop : β}
    (hword : ∀ {a b : α}, valid a → valid b → ∀ {x y : List β}, code a ++ x = code b ++ y → a = b ∧ x = y)
    (hstop : ∀ {a : α}, valid a → ∀ x : List β, ∃ c t, code a ++ x = c :: t ∧ c ≠ stop) (l : List α) :
    ∀ {m : List α} {r s : List β}, (∀ a ∈ l, valid a) → (∀ a ∈ m, valid a) →
      l.flatMap code ++ stop :: r = m.flatMap code ++ stop :: s → l = m ∧ r = s := by
  induction l with
  | nil =>
    intro m r s _ hm h
    cases m with
    | nil => exact ⟨rfl, (List.cons.inj h).2⟩
    | cons b m =>
      rw [List.flatMap_cons, List.append_assoc] at h
      obtain ⟨c, t, hc, hne⟩ := hstop (hm b List.mem_cons_self) (m.flatMap code ++ stop :: s)
      rw [hc] at h
      exact absurd (List.cons.inj h).1.symm hne
  | cons a l ih =>
    intro m r s hl hm h
    rw [List.flatMap_cons, List.append_assoc] at h
    cases m with
    | nil =>
      obtain ⟨c, t, hc, hne⟩ := hstop (hl a List.mem_cons_self) (l.flatMap code ++ stop :: r)
      rw [hc] at h
      exact absurd (List.cons.inj h).1 hne
    | cons b m =>
      rw [List.flatMap_cons, List.append_assoc] at h
      obtain ⟨rfl, hrest⟩ := hword (hl a List.mem_cons_self) (hm b List.mem_cons_self) h
      obtain ⟨rfl, hend⟩ := ih (fun c hc => hl c (List.mem_cons_of_mem _ hc)) (fun c hc => hm c (List.mem_cons_of_mem _ hc)) hrest
      exact ⟨rfl, hend⟩

theorem quote_inj {s t r r' : List Nat} (h : quote s ++ r = quote t ++ r') : s = t ∧ r = r' := by
  simp only [quote, List.cons_append, List.append_assoc, List.nil_append] at h
  obtain ⟨hsym, hrest⟩ := words_inj escape_inj escape_head (symbols s) (symbols_valid s) (symbols_valid t) (List.cons.inj h).2
  exact ⟨by rw [← symbols_units s, hsym, symbols_units], hrest⟩

/-! ## Trees are read in one way -/

/-- What a value starts with, by its kind. -/
def leadKind (u : Nat) : Nat :=
  if u = 110 then 0 else if u = 116 then 1 else if u = 102 then 2
  else if u = 34 then 4 else if u = 91 then 5 else if u = 123 then 6 else 3

def Json.kind : Json → Nat
  | .null => 0
  | .bool true => 1
  | .bool false => 2
  | .num _ => 3
  | .str _ => 4
  | .arr _ => 5
  | .obj _ => 6

theorem print_lead (v : Json) (x : List Nat) : ∃ u t, print v ++ x = u :: t ∧ leadKind u = v.kind ∧ u ≠ 93 ∧ u ≠ 125 := by
  cases v with
  | null => exact ⟨_, _, rfl, by decide⟩
  | bool b => cases b <;> exact ⟨_, _, rfl, by decide⟩
  | num t =>
    obtain ⟨u, rest, htext, hhead⟩ := t.head
    refine ⟨u, rest ++ x, by rw [print, htext]; rfl, ?_, by omega, by omega⟩
    unfold leadKind Json.kind
    simp only [show u ≠ 110 by omega, show u ≠ 116 by omega, show u ≠ 102 by omega, show u ≠ 34 by omega, show u ≠ 91 by omega,
      show u ≠ 123 by omega, if_false]
  | str s => exact ⟨34, _, rfl, rfl, by decide, by decide⟩
  | arr l => exact ⟨91, _, rfl, rfl, by decide, by decide⟩
  | obj l => exact ⟨123, _, rfl, rfl, by decide, by decide⟩

/-- What may follow a value: nothing, or the next token of a list or an object. -/
def Stop (r : List Nat) : Prop := ∀ u ∈ r.head?, u = 44 ∨ u = 93 ∨ u = 125

theorem number_inj {a b : NumberToken} {r s : List Nat} (hr : Stop r) (hs : Stop s) (h : a.text ++ r = b.text ++ s) :
    a = b ∧ r = s := by
  have hstop : ∀ {l : List Nat}, Stop l → ∀ u ∈ l.head?, decide ((48 ≤ u ∧ u ≤ 57) ∨ u = 46 ∨ u = 101 ∨ u = 43 ∨ u = 45) = false := by
    intro l hl u hu
    have hkind := hl u hu
    exact decide_eq_false (by omega)
  obtain ⟨htext, hrest⟩ := run_append_inj (fun u => decide ((48 ≤ u ∧ u ≤ 57) ∨ u = 46 ∨ u = 101 ∨ u = 43 ∨ u = 45))
    (fun u hu => decide_eq_true (a.chars u hu)) (fun u hu => decide_eq_true (b.chars u hu)) (hstop hr) (hstop hs) h
  refine ⟨?_, hrest⟩
  obtain ⟨a, _, _⟩ := a
  obtain ⟨b, _, _⟩ := b
  obtain rfl : a = b := htext
  rfl

/-- The rest of a list behind one of its members. -/
def more (close : Nat) (r : List Nat) : List (List Nat) → List Nat
  | [] => close :: r
  | t :: ts => 44 :: (join (t :: ts) ++ close :: r)

theorem join_more (close : Nat) (r t : List Nat) (ts : List (List Nat)) : join (t :: ts) ++ close :: r = t ++ more close r ts := by
  cases ts with
  | nil => rfl
  | cons t' ts => simp only [join, more, List.append_assoc, List.cons_append]

theorem more_stop {close : Nat} (hclose : close = 93 ∨ close = 125) (r : List Nat) (ts : List (List Nat)) :
    Stop (more close r ts) := by
  intro u hu
  cases ts with
  | nil => rw [← Option.mem_some.mp hu]; omega
  | cons t ts => exact Or.inl (Option.mem_some.mp hu).symm

/-- Where two rests agree, so does what is left of the lists. -/
theorem more_inj {close : Nat} (hclose : close ≠ 44) {r s : List Nat} {ts us : List (List Nat)}
    (h : more close r ts = more close s us) : join ts ++ close :: r = join us ++ close :: s := by
  cases ts with
  | nil =>
    cases us with
    | nil => exact h
    | cons u us => exact absurd (List.cons.inj h).1 hclose
  | cons t ts =>
    cases us with
    | nil => exact absurd (List.cons.inj h).1.symm hclose
    | cons u us => exact (List.cons.inj h).2

theorem print_kind {v w : Json} {r s : List Nat} (h : print v ++ r = print w ++ s) : v.kind = w.kind := by
  obtain ⟨u, t, hu, hv, -⟩ := print_lead v r
  obtain ⟨u', t', hu', hw, -⟩ := print_lead w s
  rw [hu, hu'] at h
  rw [← hv, ← hw, (List.cons.inj h).1]

/-- A list of no texts and one of some are told apart where no text starts with the bracket. -/
theorem join_nil {close : Nat} {r s t : List Nat} {ts : List (List Nat)} (ht : ∀ x :
    List Nat, ∃ u rest, t ++ x = u :: rest ∧ u ≠ close)
    (h : close :: r = join (t :: ts) ++ close :: s) : False := by
  rw [join_more] at h
  obtain ⟨u, rest, hu, hne⟩ := ht (more close s ts)
  rw [hu] at h
  exact hne (List.cons.inj h).1.symm

theorem printMember_lead (k value : List Nat) (x : List Nat) : ∃ u rest, printMember k value ++ x = u :: rest ∧ u ≠ 125 :=
  ⟨34, _, rfl, by decide⟩

mutual

/-- A value is told from its text, whatever follows it. -/
theorem print_inj : ∀ (v w : Json) {r s : List Nat}, Stop r → Stop s → print v ++ r = print w ++ s → v = w ∧ r = s
  | .null, w, _, _, _, _, h => by
    have hkind := print_kind h
    cases w with
    | null => exact ⟨rfl, List.append_cancel_left h⟩
    | bool b => cases b <;> cases hkind
    | _ => cases hkind
  | .bool b, w, _, _, _, _, h => by
    have hkind := print_kind h
    cases w with
    | bool c =>
      cases b <;> cases c
      · exact ⟨rfl, List.append_cancel_left h⟩
      · cases hkind
      · cases hkind
      · exact ⟨rfl, List.append_cancel_left h⟩
    | _ => cases b <;> cases hkind
  | .num a, w, _, _, hr, hs, h => by
    have hkind := print_kind h
    cases w with
    | num b =>
      obtain ⟨rfl, hrest⟩ := number_inj hr hs h
      exact ⟨rfl, hrest⟩
    | bool c => cases c <;> cases hkind
    | _ => cases hkind
  | .str a, w, _, _, _, _, h => by
    have hkind := print_kind h
    cases w with
    | str b =>
      obtain ⟨rfl, hrest⟩ := quote_inj h
      exact ⟨rfl, hrest⟩
    | bool c => cases c <;> cases hkind
    | _ => cases hkind
  | .arr l, w, r, s, _, _, h => by
    have hkind := print_kind h
    cases w with
    | arr m =>
      simp only [print, List.cons_append, List.append_assoc, List.nil_append] at h
      obtain ⟨rfl, hrest⟩ := printAll_inj l m (List.cons.inj h).2
      exact ⟨rfl, hrest⟩
    | bool c => cases c <;> cases hkind
    | _ => cases hkind
  | .obj l, w, r, s, _, _, h => by
    have hkind := print_kind h
    cases w with
    | obj m =>
      simp only [print, List.cons_append, List.append_assoc, List.nil_append] at h
      obtain ⟨rfl, hrest⟩ := printMembers_inj l m (List.cons.inj h).2
      exact ⟨rfl, hrest⟩
    | bool c => cases c <;> cases hkind
    | _ => cases hkind

theorem printAll_inj : ∀ (l m : List Json) {r s : List Nat},
    join (printAll l) ++ 93 :: r = join (printAll m) ++ 93 :: s → l = m ∧ r = s
  | [], [], _, _, h => ⟨rfl, (List.cons.inj h).2⟩
  | [], w :: m, _, _, h => by
    refine (join_nil (fun x => ?_) h).elim
    obtain ⟨u, rest, hu, -, hne, -⟩ := print_lead w x
    exact ⟨u, rest, hu, hne⟩
  | v :: l, [], _, _, h => by
    refine (join_nil (fun x => ?_) h.symm).elim
    obtain ⟨u, rest, hu, -, hne, -⟩ := print_lead v x
    exact ⟨u, rest, hu, hne⟩
  | v :: l, w :: m, r, s, h => by
    rw [printAll, printAll, join_more, join_more] at h
    obtain ⟨rfl, hmore⟩ := print_inj v w (more_stop (Or.inl rfl) r _) (more_stop (Or.inl rfl) s _) h
    obtain ⟨rfl, hrest⟩ := printAll_inj l m (more_inj (by decide) hmore)
    exact ⟨rfl, hrest⟩

theorem printMembers_inj : ∀ (l m : List (List Nat × Json)) {r s : List Nat},
    join (printMembers l) ++ 125 :: r = join (printMembers m) ++ 125 :: s → l = m ∧ r = s
  | [], [], _, _, h => ⟨rfl, (List.cons.inj h).2⟩
  | [], (k, w) :: m, _, _, h => (join_nil (printMember_lead k (print w)) h).elim
  | (k, v) :: l, [], _, _, h => (join_nil (printMember_lead k (print v)) h.symm).elim
  | (k, v) :: l, (k', w) :: m, r, s, h => by
    rw [printMembers, printMembers, join_more, join_more, printMember, printMember, List.append_assoc, List.append_assoc,
      List.cons_append, List.cons_append] at h
    obtain ⟨rfl, hvalue⟩ := quote_inj h
    obtain ⟨rfl, hmore⟩ := print_inj v w (more_stop (Or.inr rfl) r _) (more_stop (Or.inr rfl) s _) (List.cons.inj hvalue).2
    obtain ⟨rfl, hrest⟩ := printMembers_inj l m (more_inj (by decide) hmore)
    exact ⟨rfl, hrest⟩

end

end Rindle.JsonText
