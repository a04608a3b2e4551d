/-
  Rindle.Predicate.Like — the compiled LIKE pattern (`rust/src/predicate.rs`, `LikeMatcher`).

  A pattern is compiled to runs of literal bytes, single bytes and wildcards, and matched by a
  walk that keeps one restart point: the place of the last wildcard. `matches_iff` says the walk
  ends and accepts exactly the language of the compiled tokens, `compile_lang` that this is the
  language of the pattern read byte by byte.
-/

import Rindle.Lib.Glob

set_option linter.dupNamespace false

namespace Rindle

open Glob

inductive LikeTok where
  | lit (run : List UInt8)
  | one
  | any
  deriving DecidableEq

structure LikeMatcher where
  toks : List LikeTok
  caseInsensitive : Bool

namespace LikeMatcher

/-! ## Compiling -/

def flush (lit : List UInt8) (toks : List LikeTok) : List LikeTok := if lit.isEmpty then toks else toks ++ [.lit lit]

variable (b : UInt8) (ci : Bool) (pattern : List UInt8)

/-- `%`, `_` and the escape itself. -/
def isSpecial : Bool := b == 37 || b == 95 || b == 92

/-- The loop of `compile_with_case`, with the run collected so far. -/
def compileLoop : List UInt8 → List UInt8 → List LikeTok → List LikeTok
  | [], lit, toks => flush lit toks
  | b :: pattern, lit, toks =>
    if b = 92 then
      match pattern with
      | n :: pattern => if isSpecial n then compileLoop pattern (lit ++ [n]) toks else compileLoop pattern (lit ++ [92, n]) toks
      | [] => flush (lit ++ [92]) toks
    else if b = 37 then
      let toks := flush lit toks
      compileLoop pattern [] (if toks.getLast? = some .any then toks else toks ++ [.any])
    else if b = 95 then compileLoop pattern [] (flush lit toks ++ [.one])
    else compileLoop pattern (lit ++ [b]) toks

/-- `compile_with_case`. -/
def compileWithCase (caseInsensitive : Bool) : LikeMatcher :=
  ⟨compileLoop pattern [] [], caseInsensitive⟩

/-- `LikeMatcher::compile`. -/
def compile : LikeMatcher := compileWithCase pattern false

def compileCaseInsensitive : LikeMatcher := compileWithCase pattern true

/-! ## Matching -/

/-- `lit_matches`. -/
def litMatches (m : LikeMatcher) (text : List UInt8) (start : Nat) (run : List UInt8) : Bool :=
  if start + run.length > text.length then false
  else if m.caseInsensitive then ((text.drop start).take run.length).map asciiLower == run.map asciiLower
  else run.isPrefixOf (text.drop start)

/-- The loop of `matches` at token `ti` and byte `si`; `star` is the token after the last wildcard and
    the byte it was last tried at. -/
def matchLoop (m : LikeMatcher) (text : List UInt8) : Nat → Nat → Nat → Option (Nat × Nat) → Option Bool
  | 0, _, _, _ => none
  | fuel + 1, ti, si, star =>
    let retry : Option Bool :=
      match star with
      | some (st, ss) => if ss + 1 > text.length then some false else matchLoop m text fuel st (ss + 1) (some (st, ss + 1))
      | none => some false
    match m.toks[ti]? with
    | some (.lit run) => if m.litMatches text si run then matchLoop m text fuel (ti + 1) (si + run.length) star else retry
    | some .one => if si < text.length then matchLoop m text fuel (ti + 1) (si + 1) star else retry
    | some .any => matchLoop m text fuel (ti + 1) si (some (ti + 1, si))
    | none => if si = text.length then some true else retry

/-- Steps enough for the walk: each restart moves on by a byte, and between two restarts each step by a
    token. -/
def matchFuel (m : LikeMatcher) (text : List UInt8) : Nat := (text.length + 3) * (m.toks.length + 1)

/-- `LikeMatcher::matches`. -/
def matches? (m : LikeMatcher) (text : List UInt8) : Bool := (m.matchLoop text (m.matchFuel text) 0 0 none).getD false

/-! ## What the tokens denote -/

/-- One byte of a pattern against one byte of the text. -/
def test (caseInsensitive : Bool) (c a : UInt8) : Bool :=
  if caseInsensitive then asciiLower c == asciiLower a else c == a

@[grind] def piece (caseInsensitive : Bool) : LikeTok → Piece UInt8
  | .lit run => .seg (run.map (test caseInsensitive))
  | .one => .seg [fun _ => true]
  | .any => .any

/-- The texts the compiled pattern is to match. -/
def denotes (m : LikeMatcher) : Language UInt8 := lang (m.toks.map (piece m.caseInsensitive))

theorem accepts_test {ci : Bool} {run text : List UInt8} :
    Accepts (run.map (test ci)) text ↔
      if ci then run.map asciiLower = text.map asciiLower else run = text := by
  have hrel : ∀ (f : UInt8 → UInt8) (run text : List UInt8),
      List.Forall₂ (fun a b => f a = f b) run text ↔ run.map f = text.map f := by
    intro f run text
    rw [← List.forall₂_eq_eq_eq, List.forall₂_map_left_iff, List.forall₂_map_right_iff]
  rw [Accepts, List.forall₂_map_left_iff]
  cases ci with
  | true => simpa [test] using hrel asciiLower run text
  | false => simp [test]

theorem litMatches_iff (m : LikeMatcher) {text : List UInt8} {start : Nat} (hstart : start ≤ text.length) (run : List UInt8) :
    m.litMatches text start run = true ↔
      Accepts (run.map (test m.caseInsensitive)) ((text.drop start).take run.length) := by
  have hlen : ((text.drop start).take run.length).length = min run.length (text.length - start) := by simp
  rw [accepts_test, litMatches]
  by_cases hlong : start + run.length > text.length
  · rw [if_pos hlong]
    simp only [Bool.false_eq_true, false_iff]
    intro h
    have hsame : run.length = ((text.drop start).take run.length).length := by
      split at h
      · simpa using congrArg List.length h
      · exact congrArg List.length h
    omega
  · rw [if_neg hlong]
    cases m.caseInsensitive with
    | true =>
      simp only [if_true, beq_iff_eq]
      exact eq_comm
    | false =>
      simp only [Bool.false_eq_true, if_false, List.isPrefixOf_iff_prefix]
      constructor
      · intro h
        exact List.prefix_iff_eq_take.mp h
      · intro h
        exact List.prefix_iff_eq_take.mpr h

/-! ## The walk -/

/-- The text from `si` on matches the tokens from `ti` on. -/
def Reach (m : LikeMatcher) (text : List UInt8) (ti si : Nat) : Prop :=
  text.drop si ∈ lang ((m.toks.drop ti).map (piece m.caseInsensitive))

/-- It does from a later restart. -/
def Later (m : LikeMatcher) (text : List UInt8) (star : Option (Nat × Nat)) : Prop :=
  ∃ st ss k, star = some (st, ss) ∧ ss < k ∧ k ≤ text.length ∧ m.Reach text st k

/-- A state of the walk: since the restart only tokens of fixed width were taken. -/
structure Walk (m : LikeMatcher) (text : List UInt8) (ti si : Nat) (star : Option (Nat × Nat)) : Prop where
  token : ti ≤ m.toks.length
  byte : si ≤ text.length
  star : ∀ st ss, star = some (st, ss) → st ≤ ti ∧
    ∃ w, width (((m.toks.take ti).drop st).map (piece m.caseInsensitive)) = some w ∧ si = ss + w

/-- Steps left: restarts still to come, then tokens. -/
def stepsLeft (m : LikeMatcher) (text : List UInt8) (ti : Nat) (star : Option (Nat × Nat)) : Nat :=
  (text.length + 2 - star.elim 0 (·.2 + 1)) * (m.toks.length + 1) + (m.toks.length - ti)

section
variable {m : LikeMatcher} {text : List UInt8} {ti si : Nat} {star : Option (Nat × Nat)}

theorem drop_token {tok : LikeTok} (h : m.toks[ti]? = some tok) : m.toks.drop ti = tok :: m.toks.drop (ti + 1) := by
  obtain ⟨hlt, rfl⟩ := List.getElem?_eq_some_iff.mp h
  exact List.drop_eq_getElem_cons hlt

theorem Reach.done (h : m.toks[ti]? = none) (hsi : si ≤ text.length) : m.Reach text ti si ↔ si = text.length := by
  rw [Reach, List.drop_eq_nil_of_le (List.getElem?_eq_none_iff.mp h), List.map_nil, lang_nil, Language.mem_one,
    List.drop_eq_nil_iff]
  omega

theorem Reach.lit {run : List UInt8} (h : m.toks[ti]? = some (.lit run)) (hsi : si ≤ text.length) :
    m.Reach text ti si ↔ m.litMatches text si run = true ∧ m.Reach text (ti + 1) (si + run.length) := by
  rw [Reach, drop_token h, List.map_cons, lang_cons, piece, mem_seg_mul, List.length_map, litMatches_iff m hsi, List.drop_drop]
  rfl

theorem Reach.one (h : m.toks[ti]? = some .one) :
    m.Reach text ti si ↔ si < text.length ∧ m.Reach text (ti + 1) (si + 1) := by
  rw [Reach, drop_token h, List.map_cons, lang_cons, piece, mem_seg_mul, List.length_singleton, List.drop_drop]
  refine and_congr ?_ Iff.rfl
  cases hd : text.drop si with
  | nil =>
    have hlen := List.drop_eq_nil_iff.mp hd
    simp only [List.take_nil, Accepts, List.forall₂_nil_right_iff, reduceCtorEq, false_iff]
    omega
  | cons a rest =>
    have hlen : (text.drop si).length = rest.length + 1 := by rw [hd]; rfl
    rw [List.length_drop] at hlen
    simp only [List.take_succ_cons, List.take_zero, Accepts, List.forall₂_cons, List.forall₂_nil_left_iff, and_true, true_iff]
    omega

theorem Reach.any (h : m.toks[ti]? = some .any) (hsi : si ≤ text.length) :
    m.Reach text ti si ↔ ∃ k, si ≤ k ∧ k ≤ text.length ∧ m.Reach text (ti + 1) k := by
  rw [Reach, drop_token h, List.map_cons, lang_cons, piece, mem_any_mul, List.length_drop]
  simp only [List.drop_drop]
  constructor
  · intro hk
    obtain ⟨k, hk, hmem⟩ := hk
    exact ⟨si + k, by omega, by omega, hmem⟩
  · intro hk
    obtain ⟨k, hle, hlen, hmem⟩ := hk
    refine ⟨k - si, by omega, ?_⟩
    rw [show si + (k - si) = k by omega]
    exact hmem

theorem later_some {st ss : Nat} : m.Later text (some (st, ss)) ↔ ∃ k, ss < k ∧ k ≤ text.length ∧ m.Reach text st k := by
  constructor
  · intro h
    obtain ⟨st', ss', k, heq, hk⟩ := h
    cases heq
    exact ⟨k, hk⟩
  · intro h
    obtain ⟨k, hk⟩ := h
    exact ⟨st, ss, k, rfl, hk⟩

/-- A token of fixed width keeps the restart. -/
theorem Walk.fixed (h : m.Walk text ti si star) {tok : LikeTok} (htok : m.toks[ti]? = some tok) {tests : List (UInt8 → Bool)}
    (hp : piece m.caseInsensitive tok = .seg tests) (hin : si + tests.length ≤ text.length) :
    m.Walk text (ti + 1) (si + tests.length) star := by
  obtain ⟨hlt, hget⟩ := List.getElem?_eq_some_iff.mp htok
  refine ⟨hlt, hin, fun st ss heq => ?_⟩
  obtain ⟨hst, w, hw, rfl⟩ := h.star st ss heq
  refine ⟨by omega, w + tests.length, ?_, by omega⟩
  rw [List.take_add_one, htok, Option.toList_some, List.drop_append_of_le_length (by rw [List.length_take]; omega), List.map_append,
    List.map_cons, List.map_nil, hp]
  exact width_append_seg hw

/-- A wildcard becomes the restart. -/
theorem Walk.wild (h : m.Walk text ti si star) (htok : m.toks[ti]? = some .any) : m.Walk text (ti + 1) si (some (ti + 1, si)) := by
  obtain ⟨hlt, -⟩ := List.getElem?_eq_some_iff.mp htok
  refine ⟨hlt, h.byte, fun st ss heq => ?_⟩
  cases heq
  refine ⟨Nat.le_refl _, 0, ?_, rfl⟩
  rw [List.drop_eq_nil_of_le (by rw [List.length_take]; omega)]
  rfl

theorem Walk.retry {st ss : Nat} (h : m.Walk text ti si (some (st, ss))) (hss : ss + 1 ≤ text.length) :
    m.Walk text st (ss + 1) (some (st, ss + 1)) := by
  obtain ⟨hst, -⟩ := h.star st ss rfl
  refine ⟨hst.trans h.token, hss, fun st' ss' heq => ?_⟩
  cases heq
  refine ⟨Nat.le_refl _, 0, ?_, rfl⟩
  rw [List.drop_eq_nil_of_le (by rw [List.length_take]; omega)]
  rfl

/-- What an earlier wildcard could still reach, this one reaches. -/
theorem Walk.forget (h : m.Walk text ti si star) (htok : m.toks[ti]? = some .any) (hl : m.Later text star) :
    m.Reach text ti si := by
  obtain ⟨st, ss, k, rfl, hk, -, hreach⟩ := hl
  obtain ⟨hst, w, hw, rfl⟩ := h.star st ss rfl
  have hsplit : m.toks.drop st = (m.toks.take ti).drop st ++ LikeTok.any :: m.toks.drop (ti + 1) := by
    rw [← drop_token htok]
    conv_lhs => rw [← List.take_append_drop ti m.toks]
    rw [List.drop_append_of_le_length]
    rw [List.length_take]
    have := h.token
    omega
  rw [Reach, hsplit, List.map_append, List.map_cons, piece] at hreach
  rw [Reach, drop_token htok, List.map_cons, piece]
  exact Glob.forget hw (by omega) hreach

/-- The walk ends, with the right answer. -/
theorem matchLoop_spec (fuel : Nat) : ∀ {ti si : Nat} {star : Option (Nat × Nat)}, m.Walk text ti si star →
    m.stepsLeft text ti star < fuel →
    ∃ b, m.matchLoop text fuel ti si star = some b ∧ (b = true ↔ m.Reach text ti si ∨ m.Later text star) := by
  induction fuel with
  | zero => intro ti si star _ h; omega
  | succ fuel ih =>
    intro ti si star hwalk hfuel
    -- after a mismatch only the later restarts count
    have hretry : ¬ m.Reach text ti si → ∃ b,
        (match star with
          | some (st, ss) => if ss + 1 > text.length then some false else m.matchLoop text fuel st (ss + 1) (some (st, ss + 1))
          | none => some false) = some b ∧ (b = true ↔ m.Reach text ti si ∨ m.Later text star) := by
      intro hno
      cases star with
      | none =>
        refine ⟨false, rfl, ?_⟩
        simp only [Bool.false_eq_true, hno, false_or, false_iff]
        intro hl
        obtain ⟨_, _, _, heq, -⟩ := hl
        cases heq
      | some s =>
        obtain ⟨st, ss⟩ := s
        rw [later_some]
        by_cases hend : ss + 1 > text.length
        · refine ⟨false, by simp [hend], ?_⟩
          simp only [Bool.false_eq_true, hno, false_or, false_iff]
          intro hl
          obtain ⟨k, hk, hlen, -⟩ := hl
          omega
        · have hstep : m.stepsLeft text st (some (st, ss + 1)) < fuel := by
            have hlt := hfuel
            simp only [stepsLeft, Option.elim_some] at hlt ⊢
            obtain ⟨r, hr⟩ : ∃ r, text.length + 2 - (ss + 1) = r + 1 := ⟨text.length + 2 - (ss + 1) - 1, by omega⟩
            rw [show text.length + 2 - (ss + 1 + 1) = r by omega]
            rw [hr, Nat.succ_mul] at hlt
            omega
          obtain ⟨b, hb, hiff⟩ := ih (hwalk.retry (by omega)) hstep
          refine ⟨b, by simp [hend, hb], ?_⟩
          rw [hiff, later_some]
          simp only [hno, false_or]
          constructor
          · intro h
            rcases h with h | ⟨k, hk, hrest⟩
            · exact ⟨ss + 1, by omega, by omega, h⟩
            · exact ⟨k, by omega, hrest⟩
          · intro h
            obtain ⟨k, hk, hlen, hreach⟩ := h
            rcases Nat.lt_or_eq_of_le hk with hk | rfl
            · exact Or.inr ⟨k, hk, hlen, hreach⟩
            · exact Or.inl hreach
    have hnext : ∀ {si' : Nat}, m.toks[ti]?.isSome = true → m.Walk text (ti + 1) si' star →
        ∃ b, m.matchLoop text fuel (ti + 1) si' star = some b ∧ (b = true ↔ m.Reach text (ti + 1) si' ∨ m.Later text star) := by
      intro si' htok hwalk'
      refine ih hwalk' ?_
      have hlt := hfuel
      have hti : ti < m.toks.length := by simpa using htok
      simp only [stepsLeft] at hlt ⊢
      omega
    unfold matchLoop
    cases htok : m.toks[ti]? with
    | none =>
      have hdone := Reach.done htok hwalk.byte
      by_cases hend : si = text.length
      · refine ⟨true, by simp [hend], ?_⟩
        exact ⟨fun _ => Or.inl (hdone.mpr hend), fun _ => rfl⟩
      · simp only [if_neg hend]
        exact hretry (fun h => hend (hdone.mp h))
    | some tok =>
      rw [htok] at hnext
      cases tok with
      | lit run =>
        have hlit := Reach.lit htok hwalk.byte
        by_cases hm : m.litMatches text si run = true
        · have hin : si + run.length ≤ text.length := by
            unfold litMatches at hm
            split at hm
            · cases hm
            · omega
          have hw := hwalk.fixed htok rfl (by rw [List.length_map]; exact hin)
          rw [List.length_map] at hw
          obtain ⟨b, hb, hiff⟩ := hnext rfl hw
          exact ⟨b, by simp [hm, hb], by rw [hiff, hlit]; simp [hm]⟩
        · simp only [if_neg hm]
          exact hretry (fun h => hm (hlit.mp h).1)
      | one =>
        have hone := @Reach.one m text ti si htok
        by_cases hin : si < text.length
        · obtain ⟨b, hb, hiff⟩ := hnext rfl (hwalk.fixed htok rfl (show si + 1 ≤ text.length from hin))
          exact ⟨b, by simp [hin]; exact hb, by rw [hiff, hone]; simp [hin]⟩
        · simp only [if_neg hin]
          exact hretry (fun h => hin (hone.mp h).1)
      | any =>
        have hti : ti < m.toks.length := (List.getElem?_eq_some_iff.mp htok).1
        have hstep : m.stepsLeft text (ti + 1) (some (ti + 1, si)) < fuel := by
          have hlt := hfuel
          have hbase : star.elim 0 (·.2 + 1) ≤ si + 1 := by
            cases star with
            | none => exact Nat.zero_le _
            | some s =>
              obtain ⟨-, w, -, hsi⟩ := hwalk.star s.1 s.2 rfl
              show s.2 + 1 ≤ si + 1
              omega
          have hmul : (text.length + 2 - (si + 1)) * (m.toks.length + 1) ≤
              (text.length + 2 - star.elim 0 (·.2 + 1)) * (m.toks.length + 1) := Nat.mul_le_mul_right _ (by omega)
          simp only [stepsLeft, Option.elim_some] at hlt ⊢
          omega
        obtain ⟨b, hb, hiff⟩ := ih (hwalk.wild htok) hstep
        refine ⟨b, hb, ?_⟩
        rw [hiff, later_some]
        have hany := Reach.any htok hwalk.byte
        constructor
        · intro h
          refine Or.inl (hany.mpr ?_)
          rcases h with h | ⟨k, hk, hlen, hreach⟩
          · exact ⟨si, Nat.le_refl _, hwalk.byte, h⟩
          · exact ⟨k, by omega, hlen, hreach⟩
        · intro h
          have hreach : m.Reach text ti si := h.elim id (hwalk.forget htok)
          obtain ⟨k, hle, hlen, hk⟩ := hany.mp hreach
          rcases Nat.lt_or_eq_of_le hle with hlt | rfl
          · exact Or.inr ⟨k, hlt, hlen, hk⟩
          · exact Or.inl hk

/-- From the start the walk ends, and answers whether the text is one the tokens denote. -/
theorem walk_ends (m : LikeMatcher) (text : List UInt8) :
    ∃ b, (b = true ↔ text ∈ m.denotes) ∧ ∀ fuel, m.matchFuel text ≤ fuel → m.matchLoop text fuel 0 0 none = some b := by
  classical
  have hstart : m.Walk text 0 0 none := ⟨Nat.zero_le _, Nat.zero_le _, fun _ _ h => by cases h⟩
  have hsteps : m.stepsLeft text 0 none < m.matchFuel text := by
    have hmul : (text.length + 3) * (m.toks.length + 1) = (text.length + 2) * (m.toks.length + 1) + (m.toks.length + 1) :=
      Nat.succ_mul _ _
    simp only [stepsLeft, matchFuel, Option.elim_none, Nat.sub_zero]
    omega
  have hnone : ¬ m.Later text none := by
    intro hl
    obtain ⟨_, _, _, heq, -⟩ := hl
    cases heq
  refine ⟨decide (text ∈ m.denotes), decide_eq_true_iff, fun fuel hfuel => ?_⟩
  obtain ⟨b, hb, hiff⟩ := matchLoop_spec fuel hstart (by omega)
  rw [hb, Option.some.injEq, Bool.eq_iff_iff, hiff, decide_eq_true_iff]
  simp only [hnone, or_false]
  rfl

/-- The walk accepts exactly what the compiled tokens denote. -/
theorem matches_iff (m : LikeMatcher) (text : List UInt8) : m.matches? text = true ↔ text ∈ m.denotes := by
  obtain ⟨b, hiff, hwalk⟩ := m.walk_ends text
  rw [matches?, hwalk _ (Nat.le_refl _), Option.getD_some, hiff]

end

/-! ## The pattern, byte by byte -/

/-- The pattern as the loop reads it: an escaped special byte is itself, any other escape two bytes. -/
@[grind] def reading (caseInsensitive : Bool) : List UInt8 → List (Piece UInt8)
  | [] => []
  | b :: pattern =>
    if b = 92 then
      match pattern with
      | n :: pattern =>
        if isSpecial n then .seg [test caseInsensitive n] :: reading caseInsensitive pattern
        else .seg [test caseInsensitive 92, test caseInsensitive n] :: reading caseInsensitive pattern
      | [] => [.seg [test caseInsensitive 92]]
    else if b = 37 then .any :: reading caseInsensitive pattern
    else if b = 95 then .seg [fun _ => true] :: reading caseInsensitive pattern
    else .seg [test caseInsensitive b] :: reading caseInsensitive pattern

theorem reading_cons {b : UInt8} (h : b ≠ 92) : reading ci (b :: pattern) =
    (if b = 37 then .any else if b = 95 then .seg [fun _ => true] else .seg [test ci b]) :: reading ci pattern := by
  cases pattern <;> simp only [reading, if_neg h] <;> split <;> first | rfl | (split <;> rfl)

theorem flush_lang (lit : List UInt8) (toks : List LikeTok) :
    lang ((flush lit toks).map (piece ci)) = lang (toks.map (piece ci)) * (Piece.seg (lit.map (test ci))).lang := by
  cases lit with
  | nil => rw [List.map_nil, seg_nil, mul_one]; rfl
  | cons b lit =>
    show lang ((toks ++ [LikeTok.lit (b :: lit)]).map (piece ci)) = _
    rw [List.map_append, lang_append, List.map_cons, List.map_nil, lang_cons, lang_nil, mul_one, piece]

/-- A second wildcard in a row is dropped. -/
theorem any_lang (toks : List LikeTok) :
    lang ((if toks.getLast? = some .any then toks else toks ++ [LikeTok.any]).map (piece ci)) =
      lang (toks.map (piece ci)) * Piece.any.lang := by
  split
  · rename_i hlast
    obtain ⟨front, rfl⟩ := List.getLast?_eq_some_iff.mp hlast
    rw [List.map_append, lang_append, List.map_cons, List.map_nil, lang_cons, lang_nil, mul_one, piece, mul_assoc, any_mul_any]
  · rw [List.map_append, lang_append, List.map_cons, List.map_nil, lang_cons, lang_nil, mul_one, piece]

/-- The loop: the tokens so far, then the run, then what is left of the pattern. -/
theorem compileLoop_lang (pattern lit : List UInt8) (toks : List LikeTok) :
    lang ((compileLoop pattern lit toks).map (piece ci)) =
      lang (toks.map (piece ci)) * (Piece.seg (lit.map (test ci))).lang * lang (reading ci pattern) := by
  have hrun : ∀ (lit more : List UInt8) (rest : Language UInt8),
      (Piece.seg ((lit ++ more).map (test ci))).lang * rest =
        (Piece.seg (lit.map (test ci))).lang * ((Piece.seg (more.map (test ci))).lang * rest) := by
    intro lit more rest
    rw [List.map_append, seg_append, mul_assoc]
  fun_induction compileLoop pattern lit toks with
  | case1 lit toks => rw [flush_lang, reading, lang_nil, mul_one]
  | case2 lit toks n pattern hn ih =>
    rw [ih, reading, if_pos rfl]
    simp only [hn, if_true, lang_cons]
    rw [mul_assoc, hrun, ← mul_assoc]
    rfl
  | case3 lit toks n pattern hn ih =>
    rw [ih, reading, if_pos rfl]
    simp only [hn]
    rw [mul_assoc, hrun, ← mul_assoc]
    rfl
  | case4 lit toks =>
    rw [flush_lang, reading, if_pos rfl, lang_cons, lang_nil, mul_one, List.map_append, seg_append, mul_assoc]
    rfl
  | case5 pattern lit toks toks' hesc ih =>
    rw [ih, reading_cons ci pattern (by decide), if_pos rfl, lang_cons, any_lang, flush_lang, List.map_nil, seg_nil, mul_one]
    simp only [mul_assoc]
  | case6 pattern lit toks hesc hany ih =>
    rw [ih, reading_cons ci pattern hesc, if_neg hany, if_pos rfl, lang_cons, List.map_append, lang_append, flush_lang, List.map_nil, seg_nil,
      mul_one, List.map_cons, List.map_nil, lang_cons, lang_nil, mul_one, piece]
    simp only [mul_assoc]
  | case7 b pattern lit toks hesc hany hone ih =>
    rw [ih, reading_cons ci pattern hesc, if_neg hany, if_neg hone, lang_cons, mul_assoc, hrun, ← mul_assoc]
    rfl

/-- Compiling keeps the meaning of the pattern. -/
theorem compile_lang (ci : Bool) : (compileWithCase pattern ci).denotes = lang (reading ci pattern) := by
  show lang ((compileLoop pattern [] []).map (piece ci)) = _
  rw [compileLoop_lang, List.map_nil, lang_nil, List.map_nil, seg_nil, one_mul, one_mul]

/-- The compiled matcher accepts the texts of the pattern. -/
theorem compile_matches_iff (pattern text : List UInt8) (ci : Bool) :
    (compileWithCase pattern ci).matches? text = true ↔ text ∈ lang (reading ci pattern) := by
  rw [matches_iff, compile_lang]

/-- The texts a pattern stands for, one byte or escape of the pattern at a time. -/
inductive Denotes (caseInsensitive : Bool) : List UInt8 → List UInt8 → Prop
  | nil : Denotes caseInsensitive [] []
  | any {pattern text : List UInt8} (skipped : List UInt8) : Denotes caseInsensitive pattern text →
      Denotes caseInsensitive (37 :: pattern) (skipped ++ text)
  | one {pattern text : List UInt8} (a : UInt8) : Denotes caseInsensitive pattern text →
      Denotes caseInsensitive (95 :: pattern) (a :: text)
  | escaped {pattern text : List UInt8} {n a : UInt8} : isSpecial n = true → test caseInsensitive n a = true →
      Denotes caseInsensitive pattern text → Denotes caseInsensitive (92 :: n :: pattern) (a :: text)
  | backslash {pattern text : List UInt8} {n a : UInt8} : isSpecial n = false → test caseInsensitive 92 a = true →
      Denotes caseInsensitive (n :: pattern) text → Denotes caseInsensitive (92 :: n :: pattern) (a :: text)
  | trailing {a : UInt8} : test caseInsensitive 92 a = true → Denotes caseInsensitive [92] [a]
  | byte {pattern text : List UInt8} {b a : UInt8} : isSpecial b = false → test caseInsensitive b a = true →
      Denotes caseInsensitive pattern text → Denotes caseInsensitive (b :: pattern) (a :: text)

theorem mem_seg_one_mul {f : UInt8 → Bool} {L : Language UInt8} {text : List UInt8} :
    text ∈ (Piece.seg [f]).lang * L ↔ ∃ a rest, text = a :: rest ∧ f a = true ∧ rest ∈ L := by
  rw [mem_seg_mul]
  cases text with
  | nil => simp [Accepts]
  | cons a rest => simp [Accepts]

theorem mem_any_cons {L : Language UInt8} {text : List UInt8} :
    text ∈ Piece.any.lang * L ↔ ∃ skipped rest, text = skipped ++ rest ∧ rest ∈ L := by
  rw [mem_any_mul]
  constructor
  · intro h
    obtain ⟨k, -, hk⟩ := h
    exact ⟨text.take k, text.drop k, (List.take_append_drop k text).symm, hk⟩
  · intro h
    obtain ⟨skipped, rest, rfl, hrest⟩ := h
    exact ⟨skipped.length, by simp, by rwa [List.drop_left]⟩

theorem isSpecial_iff : isSpecial b = true ↔ b = 37 ∨ b = 95 ∨ b = 92 := by
  simp [isSpecial, or_assoc]

/-- What is read byte by byte is what the pattern stands for. -/
theorem denotes_iff (pattern text : List UInt8) : Denotes ci pattern text ↔ text ∈ lang (reading ci pattern) := by
  fun_induction reading ci pattern generalizing text with
  | case1 =>
    rw [lang_nil, Language.mem_one]
    constructor
    · intro h
      cases h
      rfl
    · rintro rfl
      exact .nil
  | case2 n pattern hn ih =>
    rw [lang_cons, mem_seg_one_mul]
    constructor
    · intro h
      cases h with
      | escaped _ ha hrest => exact ⟨_, _, rfl, ha, (ih _).mp hrest⟩
      | backslash hnot => rw [hn] at hnot; cases hnot
      | byte hnot => cases hnot
    · intro h
      obtain ⟨a, rest, rfl, ha, hrest⟩ := h
      exact .escaped hn ha ((ih _).mpr hrest)
  | case3 n pattern hn ih =>
    have hn : isSpecial n = false := Bool.eq_false_iff.mpr hn
    rw [show Piece.seg [test ci 92, test ci n] = Piece.seg ([test ci 92] ++ [test ci n]) from rfl, lang_cons, seg_append, mul_assoc,
      mem_seg_one_mul]
    simp only [mem_seg_one_mul]
    constructor
    · intro h
      cases h with
      | escaped hnot => rw [hn] at hnot; cases hnot
      | backslash _ ha hrest =>
        cases hrest with
        | any => cases hn
        | one => cases hn
        | escaped => cases hn
        | backslash => cases hn
        | trailing => cases hn
        | byte _ hb hrest => exact ⟨_, _, rfl, ha, _, _, rfl, hb, (ih _).mp hrest⟩
      | byte hnot => cases hnot
    · intro h
      obtain ⟨a, _, rfl, ha, b, rest, rfl, hb, hrest⟩ := h
      exact .backslash hn ha (.byte hn hb ((ih _).mpr hrest))
  | case4 =>
    rw [lang_cons, mem_seg_one_mul]
    constructor
    · intro h
      cases h with
      | trailing ha => exact ⟨_, _, rfl, ha, rfl⟩
      | byte hnot => cases hnot
    · intro h
      obtain ⟨a, rest, rfl, ha, rfl⟩ := h
      exact .trailing ha
  | case5 pattern hesc ih =>
    rw [lang_cons, mem_any_cons]
    constructor
    · intro h
      cases h with
      | any skipped hrest => exact ⟨skipped, _, rfl, (ih _).mp hrest⟩
      | byte hnot => cases hnot
    · intro h
      obtain ⟨skipped, rest, rfl, hrest⟩ := h
      exact .any skipped ((ih _).mpr hrest)
  | case6 pattern hesc hany ih =>
    rw [lang_cons, mem_seg_one_mul]
    constructor
    · intro h
      cases h with
      | one a hrest => exact ⟨a, _, rfl, rfl, (ih _).mp hrest⟩
      | byte hnot => cases hnot
    · intro h
      obtain ⟨a, rest, rfl, -, hrest⟩ := h
      exact .one a ((ih _).mpr hrest)
  | case7 b pattern hesc hany hone ih =>
    have hb : isSpecial b = false := by
      rw [Bool.eq_false_iff, ne_eq, isSpecial_iff]
      rintro (h | h | h)
      · exact hany h
      · exact hone h
      · exact hesc h
    rw [lang_cons, mem_seg_one_mul]
    constructor
    · intro h
      cases h with
      | any => exact absurd rfl hany
      | one => exact absurd rfl hone
      | escaped => exact absurd rfl hesc
      | backslash => exact absurd rfl hesc
      | trailing => exact absurd rfl hesc
      | byte _ ha hrest => exact ⟨_, _, rfl, ha, (ih _).mp hrest⟩
    · intro h
      obtain ⟨a, rest, rfl, ha, hrest⟩ := h
      exact .byte hb ha ((ih _).mpr hrest)

/-- The walk ends on every text, and answers whether the pattern stands for it. -/
theorem like_exact (pattern text : List UInt8) (ci : Bool) :
    ((compileWithCase pattern ci).matches? text = true ↔ Denotes ci pattern text) ∧
      ∀ fuel, (compileWithCase pattern ci).matchFuel text ≤ fuel →
        (compileWithCase pattern ci).matchLoop text fuel 0 0 none = some ((compileWithCase pattern ci).matches? text) := by
  refine ⟨by rw [compile_matches_iff, denotes_iff], fun fuel hfuel => ?_⟩
  obtain ⟨b, -, hwalk⟩ := (compileWithCase pattern ci).walk_ends text
  rw [matches?, hwalk _ (Nat.le_refl _), Option.getD_some]
  exact hwalk fuel hfuel

/-! ## Folding the case -/

theorem asciiLower_special : (asciiLower b = 92 ↔ b = 92) ∧ (asciiLower b = 37 ↔ b = 37) ∧ (asciiLower b = 95 ↔ b = 95) :=
  ⟨asciiLower_eq_iff (by decide) (by decide), asciiLower_eq_iff (by decide) (by decide), asciiLower_eq_iff (by decide) (by decide)⟩

theorem isSpecial_asciiLower : isSpecial (asciiLower b) = isSpecial b := by
  obtain ⟨hesc, hany, hone⟩ := asciiLower_special b
  rw [Bool.eq_iff_iff]
  simp [isSpecial, hesc, hany, hone]

/-- A folded pattern matches the folded text. -/
theorem reading_fold :
    reading true pattern = (reading false (pattern.map asciiLower)).map (Piece.comap asciiLower) := by
  have hesc : asciiLower 92 = 92 := by decide
  fun_induction reading true pattern with
  | case1 => rfl
  | case2 n pattern hn ih =>
    rw [List.map_cons, List.map_cons, hesc, reading, if_pos rfl]
    simp only [isSpecial_asciiLower, hn, if_true, List.map_cons]
    rw [ih]
    rfl
  | case3 n pattern hn ih =>
    rw [List.map_cons, List.map_cons, hesc, reading, if_pos rfl]
    simp only [isSpecial_asciiLower, hn]
    rw [ih]
    rfl
  | case4 => rfl
  | case5 pattern h92 ih =>
    rw [List.map_cons, reading_cons false _ (by decide), if_pos (by decide), List.map_cons, ih]
    rfl
  | case6 pattern h92 h37 ih =>
    rw [List.map_cons, reading_cons false _ (by decide), if_neg (by decide), if_pos (by decide), List.map_cons, ih]
    rfl
  | case7 b pattern h92 h37 h95 ih =>
    obtain ⟨hesc, hany, hone⟩ := asciiLower_special b
    rw [List.map_cons, reading_cons false _ (mt hesc.mp h92), if_neg (mt hany.mp h37), if_neg (mt hone.mp h95), List.map_cons, ih]
    rfl

theorem fold_matches_iff {pattern text : List UInt8} :
    text ∈ lang (reading true pattern) ↔ text.map asciiLower ∈ lang (reading false (pattern.map asciiLower)) := by
  rw [reading_fold, mem_lang_comap]

end LikeMatcher

end Rindle
