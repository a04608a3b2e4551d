/-
  Rindle.Row.Buffer — rows as one buffer (`rust/src/value.rs`).

  A row is a count, a directory of nine bytes a cell (a tag and eight bytes of payload), and the
  text of its text cells one after the other; a text cell's payload is its text's place in the
  buffer. `RowWriter` fills a buffer of the exact size in place; offsets are 32-bit, and a row
  too large for them is a panic. `none` is a panic everywhere.

  What a complete writer leaves is `layout`, and every cell is read back from it
  (`col_layout`).
-/

import Mathlib.Data.List.Range
import Rindle.Lib.Utf8
import Rindle.Lib.Wire
import Rindle.Row

set_option linter.dupNamespace false

namespace Rindle

/-- `u32::MAX`. -/
def u32Max : Nat := 2 ^ 32 - 1

structure OwnedRow where
  buf : List UInt8

namespace OwnedRow

def rowHdr : Nat := 4
def cellStride : Nat := 9

def tagAbsent : UInt8 := 0
def tagNull : UInt8 := 1
def tagBool : UInt8 := 2
def tagInt : UInt8 := 3
def tagFloat : UInt8 := 4
def tagStr : UInt8 := 5
def tagJson : UInt8 := 6

/-- `buf[off..off + len]`. -/
def slice (buf : List UInt8) (off len : Nat) : Option (List UInt8) :=
  if off + len ≤ buf.length then some ((buf.drop off).take len) else none

variable (r : OwnedRow)

def len : Option Nat := (slice r.buf 0 4).map leNat

def cellRaw (c : Nat) : Option (UInt8 × List UInt8) := do
  let n ← r.len
  if n ≤ c then none
  else
    let cell ← slice r.buf (rowHdr + c * cellStride) cellStride
    cell.head?.map fun tag => (tag, cell.tail)

def decodeCell (tag : UInt8) (payload : List UInt8) : Option Value :=
  if tag = tagAbsent then some .absent
  else if tag = tagNull then some .null
  else if tag = tagBool then some (.bool (payload.headD 0 != 0))
  else if tag = tagInt then some (.int (Int64.ofBitVec (leWord 8 payload)))
  else if tag = tagFloat then some (.float (F64.ofBits (leNat payload)))
  else if tag = tagStr ∨ tag = tagJson then do
    let off := leNat (payload.take 4)
    let len := leNat ((payload.drop 4).take 4)
    let bytes ← slice r.buf off len
    some (if tag = tagStr then .str bytes else .json bytes)
  else none

def col (c : Nat) : Option Value := do
  let (tag, payload) ← r.cellRaw c
  r.decodeCell tag payload

/-- `get`: the outer option is the panic. -/
def get (c : Nat) : Option (Option Value) := do
  let n ← r.len
  if c < n then (r.col c).map some else some none

/-- `cells`, `to_value_vec`. -/
def cells : Option (List Value) := do
  let n ← r.len
  (List.range n).mapM r.col

end OwnedRow

/-! ## Writing -/

/-- A row under construction; bytes not written yet are `none`. -/
structure RowWriter where
  buf : List (Option UInt8)
  cell : Nat
  n : Nat
  textAt : Nat

namespace RowWriter

open OwnedRow

def writeAt (w : RowWriter) (off : Nat) (bytes : List UInt8) : Option RowWriter :=
  if off + bytes.length ≤ w.buf.length then
    some { w with buf := w.buf.take off ++ bytes.map some ++ w.buf.drop (off + bytes.length) }
  else none

def new (n textBytes : Nat) : Option RowWriter :=
  let dirEnd := rowHdr + n * cellStride
  let size := dirEnd + textBytes
  if n ≤ u32Max ∧ size ≤ u32Max then
    writeAt { buf := List.replicate size none, cell := 0, n := n, textAt := dirEnd } 0 (leBytes 4 n)
  else none

/-- The tag and payload of a cell whose text, if it has one, is written at `off`. -/
def entry (off : Nat) : Value → UInt8 × List UInt8
  | .absent => (tagAbsent, List.replicate 8 0)
  | .null => (tagNull, List.replicate 8 0)
  | .bool b => (tagBool, (if b then 1 else 0) :: List.replicate 7 0)
  | .int i => (tagInt, leBytes 8 i.toBitVec.toNat)
  | .float f => (tagFloat, leBytes 8 f.toBits)
  | .str b => (tagStr, leBytes 4 off ++ leBytes 4 b.length)
  | .json b => (tagJson, leBytes 4 off ++ leBytes 4 b.length)

/-- The text arm of `push`. -/
def pushText (w : RowWriter) : Value → Option RowWriter
  | .str b => (w.writeAt w.textAt b).map fun w => { w with textAt := w.textAt + b.length }
  | .json b => (w.writeAt w.textAt b).map fun w => { w with textAt := w.textAt + b.length }
  | _ => some w

def push (w : RowWriter) (v : Value) : Option RowWriter := do
  let base := rowHdr + w.cell * cellStride
  let (tag, payload) := entry w.textAt v
  let w ← { w with cell := w.cell + 1 }.pushText v
  let w ← w.writeAt base [tag]
  w.writeAt (base + 1) payload

/-- `finish`; to assume an unwritten byte initialised is undefined behaviour, here `none` too. -/
def finish (w : RowWriter) : Option OwnedRow :=
  if w.cell = w.n ∧ w.textAt = w.buf.length then (w.buf.mapM id).map OwnedRow.mk else none

end RowWriter

/-- An InvalidUtf8 error, with its `value_type`. -/
structure InvalidUtf8 where
  valueType : String

namespace OwnedRow

/-- The length of a cell's text. -/
def textLen (v : Value) : Nat := v.text.length

def fromOwnedCells (cells : List Value) : Option OwnedRow := do
  let w ← RowWriter.new cells.length (cells.map textLen).sum
  let w ← cells.foldlM RowWriter.push w
  w.finish

/-- One cell of the first pass: its text is checked, and counted. -/
def checkCell (text : Nat) : Value → Except InvalidUtf8 Nat
  | .str b => if Utf8.valid b then .ok (text + b.length) else .error ⟨"TEXT"⟩
  | .json b => if Utf8.valid b then .ok (text + b.length) else .error ⟨"JSON"⟩
  | _ => .ok text

/-- `try_from_row_ref` on the cells of a borrowed row. -/
def tryFromRowRef (r : List Value) : Outcome InvalidUtf8 OwnedRow :=
  match r.foldlM checkCell 0 with
  | .error e => .error e
  | .ok text =>
    match (RowWriter.new r.length text).bind fun w => (r.foldlM RowWriter.push w).bind RowWriter.finish with
    | none => .panic
    | some row => .ok row

/-! ## Comparing -/

/-- `compare_cell`: integers and floats are decided from the raw cells. -/
def compareCell (a b : OwnedRow) (c : Nat) : Option Ordering := do
  let (ta, pa) ← a.cellRaw c
  let (tb, pb) ← b.cellRaw c
  if ta = tb ∧ ta = tagInt then
    some (compare (Int64.ofBitVec (leWord 8 pa)) (Int64.ofBitVec (leWord 8 pb)))
  else if ta = tb ∧ ta = tagFloat then
    some (F64.totalCmp (F64.ofBits (leNat pa)) (F64.ofBits (leNat pb)))
  else
    let x ← a.decodeCell ta pa
    let y ← b.decodeCell tb pb
    compareValues x y

/-- The loop of `compare_rows`. -/
def compareRowsLoop (a b : OwnedRow) : SortSpec → Option Ordering
  | [] => some .eq
  | (c, asc) :: sort => do
    let r := applyDir (← compareCell a b c) asc
    if r ≠ .eq then some r else compareRowsLoop a b sort

/-- `compare_rows`: sorts of one and two columns are unrolled. -/
def compareRows (sort : SortSpec) (a b : OwnedRow) : Option Ordering :=
  match sort with
  | [] => some .eq
  | [(c0, asc0)] => do some (applyDir (← compareCell a b c0) asc0)
  | [(c0, asc0), (c1, asc1)] => do
    let r := applyDir (← compareCell a b c0) asc0
    if r ≠ .eq then some r else some (applyDir (← compareCell a b c1) asc1)
  | sort => compareRowsLoop a b sort

end OwnedRow

/-! ## The layout -/

namespace OwnedRow

variable (cells : List Value)

/-- The bytes a row takes. -/
def layoutSize : Nat := rowHdr + cells.length * cellStride + (cells.map textLen).sum

def cellBytes (off : Nat) (v : Value) : List UInt8 := (RowWriter.entry off v).1 :: (RowWriter.entry off v).2

/-- The directory of cells whose text starts at `off`. -/
@[grind] def directory : Nat → List Value → List UInt8
  | _, [] => []
  | off, v :: cells => cellBytes off v ++ directory (off + textLen v) cells

def texts : List UInt8 := cells.flatMap Value.text

def layout : List UInt8 :=
  leBytes 4 cells.length ++ (directory (rowHdr + cells.length * cellStride) cells ++ texts cells)

@[simp] theorem entry_length (off : Nat) (v : Value) : (RowWriter.entry off v).2.length = 8 := by
  cases v <;> simp [RowWriter.entry]

@[simp] theorem cellBytes_length (off : Nat) (v : Value) : (cellBytes off v).length = cellStride := by
  simp [cellBytes, cellStride]

@[simp] theorem directory_length : ∀ off, (directory off cells).length = cells.length * cellStride := by
  induction cells with
  | nil => intro off; simp [directory]
  | cons v cells ih =>
    intro off
    simp only [directory, List.length_append, cellBytes_length, ih, List.length_cons, Nat.succ_mul]
    omega

theorem directory_append (pre post : List Value) : ∀ off,
    directory off (pre ++ post) = directory off pre ++ directory (off + (pre.map textLen).sum) post := by
  induction pre with
  | nil => intro off; simp [directory]
  | cons v pre ih =>
    intro off
    simp only [List.cons_append, directory, ih, List.append_assoc, List.map_cons, List.sum_cons, Nat.add_assoc]

@[simp] theorem texts_length : (texts cells).length = (cells.map textLen).sum := by
  simp only [texts, List.length_flatMap]
  rfl

theorem texts_append (pre post : List Value) : texts (pre ++ post) = texts pre ++ texts post := List.flatMap_append

@[simp] theorem layout_length : (layout cells).length = layoutSize cells := by
  simp only [layout, layoutSize, List.length_append, leBytes_length, directory_length, texts_length, rowHdr, Nat.add_assoc]

/-- A slice between two parts of known length. -/
theorem slice_append {a b c : List UInt8} {off len : Nat} (ha : a.length = off) (hb : b.length = len) :
    slice (a ++ (b ++ c)) off len = some b := by
  subst ha
  subst hb
  rw [slice, if_pos (by simp only [List.length_append]; omega), List.drop_left, List.take_left]

/-! ## What the writer leaves -/

end OwnedRow

namespace RowWriter

open OwnedRow

/-- The cells of `done` are written, those of `rest` are not. -/
structure Written (w : RowWriter) (done rest : List Value) : Prop where
  cell : w.cell = done.length
  n : w.n = done.length + rest.length
  textAt : w.textAt = rowHdr + w.n * cellStride + (done.map textLen).sum
  buf : w.buf = (leBytes 4 w.n ++ directory (rowHdr + w.n * cellStride) done).map some ++
    (List.replicate (rest.length * cellStride) none ++ ((texts done).map some ++ List.replicate (rest.map textLen).sum none))

theorem writeAt_append {w : RowWriter} {a b c : List (Option UInt8)} {off : Nat} {bytes : List UInt8}
    (hbuf : w.buf = a ++ (b ++ c)) (ha : a.length = off) (hb : b.length = bytes.length) :
    w.writeAt off bytes = some { w with buf := a ++ (bytes.map some ++ c) } := by
  subst ha
  rw [writeAt, if_pos (by rw [hbuf]; simp only [List.length_append]; omega), hbuf, List.take_left, ← hb, ← List.append_assoc a b c,
    ← List.length_append, List.drop_left, List.append_assoc]

theorem new_written {cells : List Value} (h : layoutSize cells ≤ u32Max) :
    ∃ w, new cells.length (cells.map textLen).sum = some w ∧ Written w [] cells := by
  have hn : cells.length ≤ u32Max := by
    unfold layoutSize cellStride at h
    omega
  have hsize : rowHdr + cells.length * cellStride + (cells.map textLen).sum =
      4 + (cells.length * cellStride + (cells.map textLen).sum) := by
    simp only [rowHdr, Nat.add_assoc]
  let room : List (Option UInt8) := List.replicate (cells.length * cellStride + (cells.map textLen).sum) none
  refine ⟨⟨(leBytes 4 cells.length).map some ++ room, 0, cells.length, rowHdr + cells.length * cellStride⟩, ?_, ?_⟩
  · simp only [new]
    rw [if_pos ⟨hn, h⟩, hsize, List.replicate_add]
    exact writeAt_append (a := []) (b := List.replicate 4 none) (c := room) rfl rfl (by simp)
  · refine ⟨rfl, (Nat.zero_add _).symm, by simp, ?_⟩
    simp only [directory, texts, room, List.replicate_add, List.append_nil, List.flatMap_nil, List.map_nil, List.nil_append]

theorem new_eq_none {cells : List Value} (h : ¬layoutSize cells ≤ u32Max) : new cells.length (cells.map textLen).sum = none := by
  simp only [new]
  rw [if_neg fun hfits => h hfits.2]

/-- The text of a cell, written behind the texts before it. -/
theorem pushText_append {w : RowWriter} {v : Value} {a : List (Option UInt8)} {more : Nat} (ha : a.length = w.textAt)
    (hbuf : w.buf = a ++ List.replicate (textLen v + more) none) :
    w.pushText v = some { w with buf := a ++ (v.text.map some ++ List.replicate more none), textAt := w.textAt + textLen v } := by
  rw [List.replicate_add] at hbuf
  have hwrite : ∀ b, textLen v = b.length → w.writeAt w.textAt b = some { w with buf := a ++ (b.map some ++ List.replicate more none) } :=
    fun b hb => writeAt_append hbuf ha (by rw [List.length_replicate, hb])
  have hnone : v.text = [] →
      some w = some { w with buf := a ++ (v.text.map some ++ List.replicate more none), textAt := w.textAt + textLen v } := by
    intro hv
    have hbuf' : w.buf = a ++ List.replicate more none := by
      rw [hbuf, textLen, hv]
      rfl
    rw [textLen, hv, List.map_nil, List.nil_append, ← hbuf']
    rfl
  cases v with
  | str b => exact congrArg (Option.map _) (hwrite b rfl)
  | json b => exact congrArg (Option.map _) (hwrite b rfl)
  | absent => exact hnone rfl
  | null => exact hnone rfl
  | bool b => exact hnone rfl
  | int i => exact hnone rfl
  | float f => exact hnone rfl

/-- One cell: its text first, then its directory entry. -/
theorem Written.push {w : RowWriter} {done rest : List Value} {v : Value} (h : Written w done (v :: rest)) :
    ∃ w', w.push v = some w' ∧ Written w' (done ++ [v]) rest := by
  obtain ⟨hcell, hn, hat, hbuf⟩ := h
  -- the buffer: what is before the cell's entry, the entry, the entries to come, the texts, the room for texts
  let head := (leBytes 4 w.n ++ directory (rowHdr + w.n * cellStride) done).map some
  let gap : List (Option UInt8) := List.replicate (rest.length * cellStride) none
  let text := (texts done).map some
  have hhead : head.length = rowHdr + w.cell * cellStride := by
    simp only [head, List.length_map, List.length_append, leBytes_length, directory_length, hcell, rowHdr]
  have hgap : List.replicate ((v :: rest).length * cellStride) none = List.replicate cellStride none ++ gap := by
    rw [List.length_cons, Nat.succ_mul, Nat.add_comm, List.replicate_add]
  have hbuf' : w.buf = (head ++ (List.replicate cellStride none ++ (gap ++ text))) ++
      List.replicate (textLen v + (rest.map textLen).sum) none := by
    rw [hbuf, hgap]
    simp only [head, text, List.map_cons, List.sum_cons, List.append_assoc]
  have hlen : (head ++ (List.replicate cellStride none ++ (gap ++ text))).length = w.textAt := by
    simp only [List.length_append, hhead, List.length_replicate, gap, text, List.length_map, texts_length, hat, hn, hcell,
      List.length_cons]
    ring
  have htext := pushText_append (w := { w with cell := w.cell + 1 }) (v := v) hlen hbuf'
  let tail := gap ++ (text ++ (v.text.map some ++ List.replicate (rest.map textLen).sum none))
  let w1 : RowWriter := ⟨head ++ (List.replicate 1 none ++ (List.replicate 8 none ++ tail)), w.cell + 1, w.n, w.textAt + textLen v⟩
  let w2 : RowWriter := { w1 with buf := head ++ ([some (entry w.textAt v).1] ++ (List.replicate 8 none ++ tail)) }
  let w3 : RowWriter :=
    { w2 with buf := (head ++ [some (entry w.textAt v).1]) ++ ((entry w.textAt v).2.map some ++ tail) }
  have hw1 : ({ w with cell := w.cell + 1 } : RowWriter).pushText v = some w1 := by
    rw [htext]
    simp only [w1, tail, List.append_assoc]
    rfl
  have hw2 : w1.writeAt (rowHdr + w.cell * cellStride) [(entry w.textAt v).1] = some w2 :=
    writeAt_append rfl hhead rfl
  have hw3 : w2.writeAt (rowHdr + w.cell * cellStride + 1) (entry w.textAt v).2 = some w3 :=
    writeAt_append (a := head ++ [some (entry w.textAt v).1]) (b := List.replicate 8 none) (c := tail)
      (by simp only [w2, List.append_assoc]) (by rw [List.length_append, hhead]; rfl) (by simp)
  refine ⟨w3, ?_, ?_⟩
  · show (({ w with cell := w.cell + 1 } : RowWriter).pushText v).bind (fun w' => (w'.writeAt (rowHdr + w.cell * cellStride)
      [(entry w.textAt v).1]).bind fun w' => w'.writeAt (rowHdr + w.cell * cellStride + 1) (entry w.textAt v).2) = some w3
    rw [hw1, Option.bind_some, hw2, Option.bind_some, hw3]
  · have hdir : directory (rowHdr + w.n * cellStride) (done ++ [v]) =
        directory (rowHdr + w.n * cellStride) done ++ cellBytes w.textAt v := by
      rw [directory_append, ← hat, directory, directory, List.append_nil]
    refine ⟨?_, ?_, ?_, ?_⟩
    · simp only [w3, w2, w1, hcell, List.length_append, List.length_singleton]
    · simp only [w3, w2, w1, hn, List.length_append, List.length_cons, List.length_nil]
      omega
    · simp only [w3, w2, w1, hat, List.map_append, List.sum_append, List.map_cons, List.map_nil, List.sum_cons, List.sum_nil]
      omega
    · show w3.buf = (leBytes 4 w.n ++ directory (rowHdr + w.n * cellStride) (done ++ [v])).map some ++ _
      rw [hdir, texts_append]
      simp only [w3, tail, head, gap, text, cellBytes, texts, List.map_append, List.map_cons, List.append_assoc,
        List.flatMap_cons, List.flatMap_nil, List.append_nil, List.cons_append, List.nil_append]

theorem Written.foldlM {cells : List Value} : ∀ {w : RowWriter} {done : List Value}, Written w done cells →
    ∃ w', cells.foldlM RowWriter.push w = some w' ∧ Written w' (done ++ cells) [] := by
  induction cells with
  | nil =>
    intro w done h
    exact ⟨w, rfl, (List.append_nil done).symm ▸ h⟩
  | cons v cells ih =>
    intro w done h
    obtain ⟨w1, hw1, h1⟩ := h.push
    obtain ⟨w2, hw2, h2⟩ := ih h1
    refine ⟨w2, ?_, ?_⟩
    · rw [List.foldlM_cons, hw1]
      exact hw2
    · rwa [List.append_assoc, List.singleton_append] at h2

/-- A complete writer has written every byte. -/
theorem Written.finish {w : RowWriter} {cells : List Value} (h : Written w cells []) : w.finish = some ⟨layout cells⟩ := by
  obtain ⟨hcell, hn, hat, hbuf⟩ := h
  have hn' : w.n = cells.length := hn
  have hfull : w.buf = (layout cells).map some := by
    rw [hbuf, hn', layout]
    simp [List.append_assoc]
  have hall : ∀ l : List UInt8, (l.map some).mapM (id : Option UInt8 → Option UInt8) = some l := by
    intro l
    induction l with
    | nil => rfl
    | cons b l ih => simp [List.mapM_cons, ih]
  have hend : w.textAt = w.buf.length := by
    rw [hat, hfull, hn', List.length_map, layout_length, layoutSize]
  rw [RowWriter.finish, if_pos ⟨hcell.trans hn'.symm, hend⟩, hfull, hall]
  rfl

end RowWriter

namespace OwnedRow

/-- Building a row panics exactly when its layout outgrows 32 bits. -/
theorem fromOwnedCells_eq (cells : List Value) :
    fromOwnedCells cells = if layoutSize cells ≤ u32Max then some ⟨layout cells⟩ else none := by
  unfold fromOwnedCells
  by_cases h : layoutSize cells ≤ u32Max
  · rw [if_pos h]
    obtain ⟨w, hw, hnew⟩ := RowWriter.new_written h
    obtain ⟨w', hw', hdone⟩ := hnew.foldlM
    rw [hw, Option.bind_eq_bind, Option.bind_some, hw', Option.bind_some]
    exact hdone.finish
  · rw [if_neg h, RowWriter.new_eq_none h]
    rfl

/-! ## Reading back -/

theorem len_layout {cells : List Value} (h : cells.length ≤ u32Max) : len ⟨layout cells⟩ = some cells.length := by
  have hlt : cells.length < 256 ^ 4 := Nat.lt_of_le_of_lt h (by decide)
  have hslice : slice (layout cells) 0 4 = some (leBytes 4 cells.length) := slice_append (a := []) rfl (leBytes_length _ _)
  rw [len, hslice, Option.map_some, leNat_leBytes, Nat.mod_eq_of_lt hlt]

theorem length_le_layoutSize (cells : List Value) : cells.length ≤ layoutSize cells := by
  unfold layoutSize cellStride
  omega

theorem cellRaw_layout {pre post : List Value} {v : Value} (h : layoutSize (pre ++ v :: post) ≤ u32Max) :
    cellRaw ⟨layout (pre ++ v :: post)⟩ pre.length =
      some (RowWriter.entry (rowHdr + (pre ++ v :: post).length * cellStride + (pre.map textLen).sum) v) := by
  have hlen := len_layout (Nat.le_trans (length_le_layoutSize _) h)
  have hslice : slice (layout (pre ++ v :: post)) (rowHdr + pre.length * cellStride) cellStride =
      some (cellBytes (rowHdr + (pre ++ v :: post).length * cellStride + (pre.map textLen).sum) v) := by
    rw [layout, directory_append, directory, List.append_assoc, ← List.append_assoc (leBytes 4 _), List.append_assoc (cellBytes _ _)]
    exact slice_append (by rw [List.length_append, leBytes_length, directory_length]; rfl) (cellBytes_length _ _)
  have hlt : ¬(pre ++ v :: post).length ≤ pre.length := by
    rw [List.length_append, List.length_cons]
    omega
  simp only [cellRaw, hlen, Option.bind_eq_bind, Option.bind_some, if_neg hlt, hslice]
  rfl

theorem slice_text (pre post : List Value) (v : Value) :
    slice (layout (pre ++ v :: post)) (rowHdr + (pre ++ v :: post).length * cellStride + (pre.map textLen).sum) (textLen v) =
      some v.text := by
  have htexts : texts (v :: post) = v.text ++ texts post := List.flatMap_cons
  rw [layout, texts_append, htexts, ← List.append_assoc, ← List.append_assoc]
  refine slice_append ?_ rfl
  simp only [List.length_append, leBytes_length, directory_length, texts_length, rowHdr]

/-- An entry is decoded to its cell, if its text is where it says. -/
theorem decodeCell_entry {r : OwnedRow} {off : Nat} {v : Value} (htext : slice r.buf off (textLen v) = some v.text)
    (hoff : off ≤ u32Max) (hlen : textLen v ≤ u32Max) :
    r.decodeCell (RowWriter.entry off v).1 (RowWriter.entry off v).2 = some v := by
  have hfits : ∀ n, n ≤ u32Max → leNat (leBytes 4 n) = n := by
    intro n hn
    rw [leNat_leBytes, Nat.mod_eq_of_lt (Nat.lt_of_le_of_lt hn (by decide))]
  have hfirst : ∀ m, leNat ((leBytes 4 off ++ leBytes 4 m).take 4) = off := by
    intro m
    rw [List.take_left' (leBytes_length 4 off), hfits off hoff]
  have hsecond : ∀ m, m ≤ u32Max → leNat (((leBytes 4 off ++ leBytes 4 m).drop 4).take 4) = m := by
    intro m hm
    rw [List.drop_left' (leBytes_length 4 off), List.take_of_length_le (Nat.le_of_eq (leBytes_length 4 m)), hfits m hm]
  cases v with
  | absent => rfl
  | null => rfl
  | bool b => cases b <;> rfl
  | int i => exact congrArg (fun x => some (Value.int (Int64.ofBitVec x))) (leWord_leBytes 8 i.toBitVec)
  | float f =>
    have hbits : leNat (leBytes 8 f.toBits) = f.toBits := by
      rw [leNat_leBytes, Nat.mod_eq_of_lt (Nat.lt_of_lt_of_eq f.toBits_lt (by decide))]
    show some (Value.float (F64.ofBits (leNat (leBytes 8 f.toBits)))) = _
    rw [hbits, F64.ofBits_toBits]
  | str b =>
    show (slice r.buf (leNat ((leBytes 4 off ++ leBytes 4 b.length).take 4))
      (leNat (((leBytes 4 off ++ leBytes 4 b.length).drop 4).take 4))).bind (fun bytes => some (Value.str bytes)) = _
    rw [hfirst, hsecond b.length hlen, show slice r.buf off b.length = some b from htext]
    rfl
  | json b =>
    show (slice r.buf (leNat ((leBytes 4 off ++ leBytes 4 b.length).take 4))
      (leNat (((leBytes 4 off ++ leBytes 4 b.length).drop 4).take 4))).bind (fun bytes => some (Value.json bytes)) = _
    rw [hfirst, hsecond b.length hlen, show slice r.buf off b.length = some b from htext]
    rfl

/-- Every cell is read back; a column past the end panics. -/
theorem col_layout {cells : List Value} (h : layoutSize cells ≤ u32Max) (c : Nat) : col ⟨layout cells⟩ c = cells[c]? := by
  by_cases hc : c < cells.length
  · obtain ⟨pre, v, post, rfl, rfl⟩ : ∃ pre v post, cells = pre ++ v :: post ∧ c = pre.length :=
      ⟨cells.take c, cells[c], cells.drop (c + 1), by simp, by rw [List.length_take]; omega⟩
    have hsize : layoutSize (pre ++ v :: post) = rowHdr + (pre ++ v :: post).length * cellStride + (pre.map textLen).sum +
        (textLen v + (post.map textLen).sum) := by
      simp only [layoutSize, List.map_append, List.sum_append, List.map_cons, List.sum_cons, Nat.add_assoc]
    have hdecode := decodeCell_entry (r := ⟨layout (pre ++ v :: post)⟩) (slice_text pre post v) (by omega) (by omega)
    rw [col, cellRaw_layout h, List.getElem?_append_right (Nat.le_refl _), Nat.sub_self, List.getElem?_cons_zero]
    exact hdecode
  · have hlen := len_layout (Nat.le_trans (length_le_layoutSize _) h)
    rw [List.getElem?_eq_none (Nat.le_of_not_lt hc)]
    simp only [col, cellRaw, hlen, Option.bind_eq_bind, Option.bind_some, if_pos (Nat.le_of_not_lt hc), Option.bind_none]

theorem get_layout {cells : List Value} (h : layoutSize cells ≤ u32Max) (c : Nat) : get ⟨layout cells⟩ c = some cells[c]? := by
  have hlen := len_layout (Nat.le_trans (length_le_layoutSize _) h)
  simp only [get, hlen, Option.bind_eq_bind, Option.bind_some, col_layout h]
  by_cases hc : c < cells.length
  · rw [if_pos hc, List.getElem?_eq_getElem hc]
    rfl
  · rw [if_neg hc, List.getElem?_eq_none (Nat.le_of_not_lt hc)]

theorem cells_layout {cells : List Value} (h : layoutSize cells ≤ u32Max) : OwnedRow.cells ⟨layout cells⟩ = some cells := by
  have hlen := len_layout (Nat.le_trans (length_le_layoutSize _) h)
  have hread : ∀ n, n ≤ cells.length → (List.range n).mapM (col ⟨layout cells⟩) = some (cells.take n) := by
    intro n hn
    induction n with
    | zero => rfl
    | succ n ih =>
      rw [List.range_succ, List.mapM_append, ih (by omega), List.take_add_one]
      simp [col_layout h, List.getElem?_eq_getElem (show n < cells.length by omega)]
  rw [OwnedRow.cells, hlen]
  exact (hread _ (Nat.le_refl _)).trans (by rw [List.take_length])

/-! ## Comparing -/

/-- `compare_values` on the decoded cells, column by column. -/
def compareDecoded (x y : Row) : SortSpec → Option Ordering
  | [] => some .eq
  | (c, asc) :: sort => do
    let r := applyDir (← compareValues (← x[c]?) (← y[c]?)) asc
    if r ≠ .eq then some r else compareDecoded x y sort

/-- The raw comparison of two cells is that of their values, in any two buffers. -/
theorem compareCell_eq_col (a b : OwnedRow) (c : Nat) :
    compareCell a b c = (do compareValues (← a.col c) (← b.col c)) := by
  unfold compareCell col
  cases ha : a.cellRaw c with
  | none => rfl
  | some p =>
    obtain ⟨ta, pa⟩ := p
    cases hb : b.cellRaw c with
    | none => cases hx : a.decodeCell ta pa <;> simp [hx]
    | some q =>
      obtain ⟨tb, pb⟩ := q
      simp only [Option.bind_eq_bind, Option.bind_some]
      by_cases hint : ta = tb ∧ ta = tagInt
      · obtain ⟨rfl, rfl⟩ := hint
        rfl
      · rw [if_neg hint]
        by_cases hfloat : ta = tb ∧ ta = tagFloat
        · obtain ⟨rfl, rfl⟩ := hfloat
          rfl
        · rw [if_neg hfloat]

/-- The unrolled sorts are the loop. -/
theorem compareRows_loop (sort : SortSpec) (a b : OwnedRow) : compareRows sort a b = compareRowsLoop a b sort := by
  have hlast : ∀ (x : Option Ordering) (asc : Bool), (do some (applyDir (← x) asc)) = (do
      let r := applyDir (← x) asc
      if r ≠ .eq then some r else some .eq : Option Ordering) := by
    intro x asc
    cases x with
    | none => rfl
    | some o => cases o <;> cases asc <;> rfl
  match sort with
  | [] => rfl
  | [(c0, asc0)] => exact hlast _ _
  | [(c0, asc0), (c1, asc1)] =>
    simp only [compareRows, compareRowsLoop]
    rw [hlast]
  | _ :: _ :: _ :: _ => rfl

theorem compareCell_layout {x y : List Value} (hx : layoutSize x ≤ u32Max) (hy : layoutSize y ≤ u32Max) (c : Nat) :
    compareCell ⟨layout x⟩ ⟨layout y⟩ c = (do compareValues (← x[c]?) (← y[c]?)) := by
  rw [compareCell_eq_col, col_layout hx, col_layout hy]

theorem compareRows_layout {x y : List Value} (hx : layoutSize x ≤ u32Max) (hy : layoutSize y ≤ u32Max) (sort : SortSpec) :
    compareRows sort ⟨layout x⟩ ⟨layout y⟩ = compareDecoded x y sort := by
  rw [compareRows_loop]
  induction sort with
  | nil => rfl
  | cons p sort ih =>
    obtain ⟨c, asc⟩ := p
    simp only [compareRowsLoop, compareDecoded, compareCell_layout hx hy, ih]
    cases x[c]? with
    | none => rfl
    | some v => cases y[c]? <;> rfl

/-- The comparator of the rows everything else is built on. -/
theorem compareDecoded_eq (x y : Row) (sort : SortSpec) : compareDecoded x y sort = Rindle.compareRows sort x y := by
  have hcell : ∀ c, Rindle.compareCell x y c = (do compareValues (← x[c]?) (← y[c]?)) := by
    intro c
    unfold Rindle.compareCell
    cases x[c]? with
    | none => rfl
    | some v => cases y[c]? with
      | none => cases v <;> rfl
      | some w => cases v <;> cases w <;> rfl
  induction sort with
  | nil => rfl
  | cons p sort ih =>
    obtain ⟨c, asc⟩ := p
    rw [compareDecoded, Rindle.compareRows, hcell, ih]
    cases x[c]? with
    | none => rfl
    | some v => cases y[c]? with
      | none => rfl
      | some w =>
        simp only [Option.bind_eq_bind, Option.bind_some]
        cases compareValues v w with
        | none => rfl
        | some o =>
          simp only [Option.bind_some]
          by_cases ho : applyDir o asc = .eq <;> simp [ho]

/-! ## Borrowed rows -/

/-- A text cell that is not UTF-8. -/
def BadText (v : Value) : Prop := ∃ b, (v = .str b ∨ v = .json b) ∧ Utf8.valid b = false

theorem checkCell_eq (text : Nat) (v : Value) :
    (BadText v ∧ ∃ e, checkCell text v = .error e) ∨ (¬BadText v ∧ checkCell text v = .ok (text + textLen v)) := by
  have hplain : (∀ b, v ≠ .str b ∧ v ≠ .json b) → ¬BadText v := by
    intro h hbad
    obtain ⟨b, hb, -⟩ := hbad
    rcases hb with hb | hb
    · exact (h b).1 hb
    · exact (h b).2 hb
  cases v with
  | str b =>
    cases hv : Utf8.valid b with
    | false => exact Or.inl ⟨⟨b, Or.inl rfl, hv⟩, ⟨"TEXT"⟩, by simp [checkCell, hv]⟩
    | true =>
      refine Or.inr ⟨?_, by simp [checkCell, hv, textLen, Value.text]⟩
      rintro ⟨b', hb', hbad⟩
      rcases hb' with h | h
      · rw [← Value.str.inj h, hv] at hbad
        cases hbad
      · cases h
  | json b =>
    cases hv : Utf8.valid b with
    | false => exact Or.inl ⟨⟨b, Or.inr rfl, hv⟩, ⟨"JSON"⟩, by simp [checkCell, hv]⟩
    | true =>
      refine Or.inr ⟨?_, by simp [checkCell, hv, textLen, Value.text]⟩
      rintro ⟨b', hb', hbad⟩
      rcases hb' with h | h
      · cases h
      · rw [← Value.json.inj h, hv] at hbad
        cases hbad
  | absent => exact Or.inr ⟨hplain (by simp), rfl⟩
  | null => exact Or.inr ⟨hplain (by simp), rfl⟩
  | bool b => exact Or.inr ⟨hplain (by simp), rfl⟩
  | int i => exact Or.inr ⟨hplain (by simp), rfl⟩
  | float f => exact Or.inr ⟨hplain (by simp), rfl⟩

/-- The first pass counts the texts, or stops at one that is not UTF-8. -/
theorem checkCell_foldlM (r : List Value) : ∀ text,
    ((∃ v ∈ r, BadText v) ∧ ∃ e, r.foldlM checkCell text = .error e) ∨
      ((∀ v ∈ r, ¬BadText v) ∧ r.foldlM checkCell text = .ok (text + (r.map textLen).sum)) := by
  induction r with
  | nil => exact fun text => Or.inr ⟨fun v hv => (by cases hv), rfl⟩
  | cons v r ih =>
    intro text
    rw [List.foldlM_cons]
    rcases checkCell_eq text v with ⟨hbad, e, he⟩ | ⟨hgood, hok⟩
    · exact Or.inl ⟨⟨v, List.mem_cons_self, hbad⟩, e, by rw [he]; rfl⟩
    · rw [hok]
      rcases ih (text + textLen v) with ⟨⟨w, hw, hbad⟩, e, he⟩ | ⟨hall, hrest⟩
      · exact Or.inl ⟨⟨w, List.mem_cons_of_mem _ hw, hbad⟩, e, he⟩
      · refine Or.inr ⟨?_, ?_⟩
        · intro w hw
          rcases List.mem_cons.mp hw with rfl | hw
          · exact hgood
          · exact hall w hw
        · rw [List.map_cons, List.sum_cons, ← Nat.add_assoc]
          exact hrest

/-- An error for a text that is not UTF-8, else the row of these cells. -/
theorem tryFromRowRef_eq (r : List Value) :
    ((∃ v ∈ r, BadText v) ∧ ∃ e, tryFromRowRef r = .error e) ∨
      ((∀ v ∈ r, ¬BadText v) ∧ tryFromRowRef r = if layoutSize r ≤ u32Max then .ok ⟨layout r⟩ else .panic) := by
  rcases checkCell_foldlM r 0 with ⟨hbad, e, he⟩ | ⟨hgood, hok⟩
  · exact Or.inl ⟨hbad, e, by rw [tryFromRowRef, he]⟩
  · refine Or.inr ⟨hgood, ?_⟩
    have hbuild : (RowWriter.new r.length (r.map textLen).sum).bind (fun w => (r.foldlM RowWriter.push w).bind RowWriter.finish) =
        fromOwnedCells r := rfl
    rw [Nat.zero_add] at hok
    rw [tryFromRowRef, hok]
    simp only [hbuild, fromOwnedCells_eq]
    by_cases h : layoutSize r ≤ u32Max
    · rw [if_pos h, if_pos h]
    · rw [if_neg h, if_neg h]

/-! ## The codec -/

theorem fromOwnedCells_some {cells : List Value} {row : OwnedRow} (h : fromOwnedCells cells = some row) :
    layoutSize cells ≤ u32Max ∧ row = ⟨layout cells⟩ := by
  rw [fromOwnedCells_eq] at h
  split at h
  · rename_i hsize
    exact ⟨hsize, (Option.some.inj h).symm⟩
  · cases h

/-- Built rows compare as the rows of their cells. -/
theorem compareRows_built {x y : Row} {a b : OwnedRow} (ha : fromOwnedCells x = some a) (hb : fromOwnedCells y = some b)
    (sort : SortSpec) : compareRows sort a b = Rindle.compareRows sort x y := by
  obtain ⟨hx, rfl⟩ := fromOwnedCells_some ha
  obtain ⟨hy, rfl⟩ := fromOwnedCells_some hb
  rw [compareRows_layout hx hy, compareDecoded_eq]

/-- A row whose layout fits 32 bits is read back cell by cell; rows compare as their cells do, under
    every sort; and reading a borrowed row is an error exactly for a text that is not UTF-8. -/
theorem flat_row_codec :
    (∀ cells, layoutSize cells ≤ u32Max → ∃ row, fromOwnedCells cells = some row ∧ row.len = some cells.length ∧
      (∀ c, row.col c = cells[c]?) ∧ (∀ c, row.get c = some cells[c]?) ∧ row.cells = some cells) ∧
    (∀ x y a b, fromOwnedCells x = some a → fromOwnedCells y = some b →
      (∀ c, compareCell a b c = (do compareValues (← x[c]?) (← y[c]?))) ∧ ∀ sort, compareRows sort a b = compareDecoded x y sort) ∧
    ∀ r, ((∃ e, tryFromRowRef r = .error e) ↔ ∃ v ∈ r, BadText v) ∧
      ∀ row, tryFromRowRef r = .ok row → row.cells = some r := by
  refine ⟨?_, ?_, ?_⟩
  · intro cells h
    exact ⟨⟨layout cells⟩, by rw [fromOwnedCells_eq, if_pos h], len_layout (Nat.le_trans (length_le_layoutSize _) h), col_layout h,
      get_layout h, cells_layout h⟩
  · intro x y a b ha hb
    obtain ⟨hx, rfl⟩ := fromOwnedCells_some ha
    obtain ⟨hy, rfl⟩ := fromOwnedCells_some hb
    exact ⟨compareCell_layout hx hy, compareRows_layout hx hy⟩
  · intro r
    rcases tryFromRowRef_eq r with ⟨hbad, e, he⟩ | ⟨hgood, hok⟩
    · refine ⟨⟨fun _ => hbad, fun _ => ⟨e, he⟩⟩, ?_⟩
      intro row hrow
      rw [he] at hrow
      cases hrow
    · refine ⟨⟨?_, ?_⟩, ?_⟩
      · intro herr
        obtain ⟨e, he⟩ := herr
        rw [hok] at he
        split at he
        · cases he
        · cases he
      · intro hbad
        obtain ⟨v, hv, hb⟩ := hbad
        exact absurd hb (hgood v hv)
      · intro row hrow
        rw [hok] at hrow
        split at hrow
        · rename_i h
          obtain rfl := Outcome.ok.inj hrow
          exact cells_layout h
        · cases hrow

/-- Four cells, two of them text, compared on the text descending and then on the integer. -/
theorem flat_row_codec_four : ∃ a b,
    fromOwnedCells [.int 1, .str [97, 98], .null, .json [123, 125]] = some a ∧
    fromOwnedCells [.int 2, .str [97, 98], .bool true, .json []] = some b ∧
    a.cells = some [.int 1, .str [97, 98], .null, .json [123, 125]] ∧
    compareRows [(1, false), (0, true)] a b = compareDecoded [.int 1, .str [97, 98], .null, .json [123, 125]]
      [.int 2, .str [97, 98], .bool true, .json []] [(1, false), (0, true)] := by
  obtain ⟨hbuild, hcompare, -⟩ := flat_row_codec
  obtain ⟨a, ha, -, -, -, hcells⟩ := hbuild [.int 1, .str [97, 98], .null, .json [123, 125]] (by decide)
  obtain ⟨b, hb, -⟩ := hbuild [.int 2, .str [97, 98], .bool true, .json []] (by decide)
  exact ⟨a, b, ha, hb, hcells, (hcompare _ _ a b ha hb).2 _⟩

/-- So many cells take 2^32 bytes. -/
theorem nulls_oversized : ¬layoutSize (List.replicate 477218588 .null) ≤ u32Max := by
  have hsum : ((List.replicate 477218588 Value.null).map textLen).sum = 0 := by
    rw [List.map_replicate, List.sum_replicate_nat]
    rfl
  rw [layoutSize, hsum, List.length_replicate]
  decide

/-- Not every list of cells makes a row: with 2^32 bytes of layout the constructor panics. -/
theorem oversized_row_panics : ¬∀ cells, ∃ row, fromOwnedCells cells = some row ∧ row.cells = some cells := by
  intro h
  obtain ⟨row, hrow, -⟩ := h (List.replicate 477218588 .null)
  rw [fromOwnedCells_eq, if_neg nulls_oversized] at hrow
  cases hrow

end OwnedRow

end Rindle
