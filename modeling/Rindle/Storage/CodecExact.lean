/-
  Rindle.Storage.CodecExact — the operator-state codec's decoder undoes its encoder.

  Each part of the decoder is the inverse of the part of the encoder it reads, up to the whole
  (`inverse_storageValue`). Only `owned_row` can panic, and does exactly on a row whose cells are
  read completely and take more than 32 bits of layout (`storage_codec_exact`).
-/

import Mathlib.Algebra.Order.BigOperators.Group.List
import Rindle.Storage.Codec

set_option linter.dupNamespace false

namespace Rindle.Storage

open Codec (Reader Inverse NoPanic putLen putList)
open Framing (cat concat cat_eq_some)
open OwnedRow (BadText layoutSize fromOwnedCells)

/-- A row as its constructors make it. -/
def Built (row : OwnedRow) : Prop := ∃ cells, (∀ v ∈ cells, ¬BadText v) ∧ fromOwnedCells cells = some row

/-- Rows are built, and lists and texts have lengths of 32 bits. -/
def StorageValue.WellFormed : StorageValue → Prop
  | .take _ b => ∀ row ∈ b, Built row
  | .bound row => Built row
  | .cap _ pks => pks.length < 2 ^ 32 ∧ ∀ pk ∈ pks, (Utf8.encode pk).length < 2 ^ 32
  | .reduce _ accs => accs.length < 2 ^ 32

/-- A row, and its layout outgrows 32 bits. -/
def OversizedRow (l : List UInt8) : Prop :=
  ∃ cells x r, (∀ v ∈ cells, ¬BadText v) ∧ putList putValue cells = some x ∧ l = x ++ r ∧ ¬layoutSize cells ≤ u32Max

/-- The bytes go up to such a row as a value's do: a bare bound, or the bound of a take. -/
def Oversized (bytes : List UInt8) : Prop :=
  (∃ l, bytes = storageFormatVersion :: 2 :: l ∧ OversizedRow l) ∨
    ∃ (size : UInt32) (l : List UInt8), bytes = storageFormatVersion :: 1 :: (leBytes 4 size.toBitVec.toNat ++ 1 :: l) ∧ OversizedRow l

/-! ## Words -/

theorem inverse_u8 : Inverse (fun _ : UInt8 => True) (fun b => some [b]) Decoder.u8 := by
  refine (Inverse.word _ 1).map UInt8.toBitVec ?_ ?_
  · intro b _
    refine ⟨trivial, ?_, fun l => rfl⟩
    show some [b] = some [UInt8.ofNat b.toNat]
    rw [UInt8.ofNat_toNat]
  · intro w l b r _ h
    obtain ⟨rfl, rfl⟩ := Prod.mk.inj (Outcome.ok.inj h)
    exact ⟨trivial, rfl, rfl⟩

theorem inverse_u32 : Inverse (fun _ : UInt32 => True) putU32 Decoder.u32 := by
  refine (Inverse.word _ 4).map UInt32.toBitVec (fun n _ => ⟨trivial, rfl, fun l => rfl⟩) ?_
  intro w l n r _ h
  obtain ⟨rfl, rfl⟩ := Prod.mk.inj (Outcome.ok.inj h)
  exact ⟨trivial, rfl, rfl⟩

theorem inverse_i64 : Inverse (fun _ : Int64 => True) putI64 Decoder.i64 := by
  refine (Inverse.word _ 8).map Int64.toBitVec (fun n _ => ⟨trivial, rfl, fun l => rfl⟩) ?_
  intro w l n r _ h
  obtain ⟨rfl, rfl⟩ := Prod.mk.inj (Outcome.ok.inj h)
  exact ⟨trivial, rfl, rfl⟩

theorem inverse_i128 : Inverse (fun _ : BitVec 128 => True) putI128 Decoder.i128 := Inverse.word _ 16

theorem inverse_f64 : Inverse (fun _ : F64 => True) putF64 Decoder.f64 := by
  refine (Inverse.word _ 8).map (fun f => BitVec.ofNat 64 f.toBits) ?_ ?_
  · intro f _
    have hbits : (BitVec.ofNat 64 f.toBits).toNat = f.toBits := by
      rw [BitVec.toNat_ofNat, Nat.mod_eq_of_lt f.toBits_lt]
    refine ⟨trivial, by rw [putF64, hbits], fun l => ?_⟩
    show Outcome.ok (F64.ofBits (BitVec.ofNat 64 f.toBits).toNat, l) = _
    rw [hbits, F64.ofBits_toBits]
  · intro w l f r _ h
    obtain ⟨rfl, rfl⟩ := Prod.mk.inj (Outcome.ok.inj h)
    refine ⟨trivial, ?_, rfl⟩
    rw [F64.toBits_ofBits w.isLt]
    exact BitVec.ofNat_toNat 64 w

/-! ## Texts -/

theorem inverse_bytes : Inverse (fun _ : List UInt8 => True) putBytes Decoder.bytes :=
  .counted _ List.length fun n => (Inverse.take _ n).congr (fun _ => by simp) fun _ _ => rfl

theorem inverse_string : Inverse (fun _ : String => True) (fun s => putBytes (Utf8.encode s)) Decoder.string := by
  refine inverse_bytes.map Utf8.encode ?_ ?_
  · intro s _
    refine ⟨trivial, rfl, fun l => ?_⟩
    rw [Utf8.decode_encode]
    rfl
  · intro b l s r _ h
    cases hb : Utf8.decode b with
    | none =>
      rw [hb] at h
      cases h
    | some s' =>
      rw [hb] at h
      obtain ⟨rfl, rfl⟩ := Prod.mk.inj (Outcome.ok.inj h)
      exact ⟨trivial, Utf8.encode_of_decode hb, rfl⟩

/-! ## Cells -/

def tagOf : Value → UInt8
  | .null => 0
  | .bool _ => 1
  | .int _ => 2
  | .float _ => 3
  | .str _ => 4
  | .json _ => 5
  | .absent => 6

/-- What is written of a cell after its tag. -/
def payload : Value → Option (List UInt8)
  | .absent => some []
  | .null => some []
  | .bool b => some [if b then 1 else 0]
  | .int i => putI64 i
  | .float f => putF64 f
  | .str s => putBytes s
  | .json s => putBytes s

theorem putValue_eq (v : Value) : putValue v = cat (some [tagOf v]) (payload v) := by
  cases v <;> rfl

theorem badText_str {b : List UInt8} : BadText (.str b) ↔ Utf8.valid b = false := by
  constructor
  · intro h
    obtain ⟨b', hb, hv⟩ := h
    rcases hb with hb | hb
    · rwa [Value.str.inj hb]
    · cases hb
  · exact fun h => ⟨b, Or.inl rfl, h⟩

theorem badText_json {b : List UInt8} : BadText (.json b) ↔ Utf8.valid b = false := by
  constructor
  · intro h
    obtain ⟨b', hb, hv⟩ := h
    rcases hb with hb | hb
    · cases hb
    · rwa [Value.json.inj hb]
  · exact fun h => ⟨b, Or.inr rfl, h⟩

theorem not_badText {v : Value} (h : v.text = []) : ¬BadText v := by
  intro hbad
  obtain ⟨b, hb, hv⟩ := hbad
  have hempty : Utf8.valid [] = true := Utf8.valid_encode ""
  rcases hb with rfl | rfl
  · rw [show b = [] from h, hempty] at hv
    cases hv
  · rw [show b = [] from h, hempty] at hv
    cases hv

theorem inverse_bool : Inverse (fun v => ¬BadText v ∧ tagOf v = 1) payload (do
    match ← Decoder.u8 with
    | 0 => pure (.bool false)
    | 1 => pure (.bool true)
    | _ => Codec.fail "invalid bool tag" : Decoder Value) := by
  refine inverse_u8.map (fun v => if v = .bool true then 1 else 0) ?_ ?_
  · intro v hv
    cases v with
    | bool b => cases b <;> exact ⟨trivial, rfl, fun l => rfl⟩
    | _ => cases hv.2
  · intro b l v r _ h
    split at h
    · obtain ⟨rfl, rfl⟩ := Prod.mk.inj (Outcome.ok.inj h)
      exact ⟨⟨not_badText rfl, rfl⟩, rfl, rfl⟩
    · obtain ⟨rfl, rfl⟩ := Prod.mk.inj (Outcome.ok.inj h)
      exact ⟨⟨not_badText rfl, rfl⟩, rfl, rfl⟩
    · cases h

/-- The text cells that are UTF-8 are made of strings. -/
theorem text_iff {mk : List UInt8 → Value} {tag : UInt8} (hbad : ∀ b, BadText (mk b) ↔ Utf8.valid b = false)
    (htag : ∀ v, tagOf v = tag ↔ ∃ b, v = mk b) (v : Value) :
    (¬BadText v ∧ tagOf v = tag) ↔ ∃ s, True ∧ mk (Utf8.encode s) = v := by
  rw [htag]
  constructor
  · intro h
    obtain ⟨hgood, b, rfl⟩ := h
    rw [hbad, Bool.not_eq_false] at hgood
    obtain ⟨s, rfl⟩ := Utf8.valid_iff.mp hgood
    exact ⟨s, trivial, rfl⟩
  · intro h
    obtain ⟨s, -, rfl⟩ := h
    exact ⟨by rw [hbad, Utf8.valid_encode]; decide, _, rfl⟩

theorem inverse_value : Inverse (fun v => ¬BadText v) putValue Decoder.value := by
  have hcell : ∀ {w : Value} {tag : UInt8}, w.text = [] → payload w = some [] → (∀ v, tagOf v = tag ↔ v = w) →
      Inverse (fun v => ¬BadText v ∧ tagOf v = tag) payload (pure w : Decoder Value) := by
    intro w tag hw hpay htag
    refine (Inverse.just w).congr (fun v => ?_) fun v hv => by rw [hv, hpay]
    rw [htag]
    exact ⟨And.right, fun hv => ⟨hv ▸ not_badText hw, hv⟩⟩
  refine (inverse_u8.field tagOf fun tag => ?_).congr (fun _ => Iff.rfl) fun v _ => putValue_eq v
  split
  · exact hcell rfl rfl fun v => by cases v <;> simp [tagOf]
  · exact inverse_bool
  · refine (inverse_i64.image Value.int fun _ _ => rfl).congr (fun v => ⟨fun hv => ?_, fun hv => ?_⟩) fun _ _ => rfl
    · cases v with
      | int i => exact ⟨i, trivial, rfl⟩
      | _ => cases hv.2
    · obtain ⟨i, -, rfl⟩ := hv
      exact ⟨not_badText rfl, rfl⟩
  · refine (inverse_f64.image Value.float fun _ _ => rfl).congr (fun v => ⟨fun hv => ?_, fun hv => ?_⟩) fun _ _ => rfl
    · cases v with
      | float f => exact ⟨f, trivial, rfl⟩
      | _ => cases hv.2
    · obtain ⟨f, -, rfl⟩ := hv
      exact ⟨not_badText rfl, rfl⟩
  · refine (inverse_string.image (fun s => Value.str (Utf8.encode s)) fun _ _ => rfl).congr (fun v => ?_) fun _ _ => rfl
    exact text_iff (fun _ => badText_str) (fun v => by cases v <;> simp [tagOf]) v
  · refine (inverse_string.image (fun s => Value.json (Utf8.encode s)) fun _ _ => rfl).congr (fun v => ?_) fun _ _ => rfl
    exact text_iff (fun _ => badText_json) (fun v => by cases v <;> simp [tagOf]) v
  · exact hcell rfl rfl fun v => by cases v <;> simp [tagOf]
  · refine .fail _ fun v hv => ?_
    obtain ⟨-, rfl⟩ := hv
    cases v <;> contradiction

/-! ## Rows -/

theorem putRow_eq {cells : List Value} {row : OwnedRow} (h : fromOwnedCells cells = some row) :
    putRow row = putList putValue cells ∧ row.cells = some cells := by
  rw [OwnedRow.fromOwnedCells_eq] at h
  split at h
  · rename_i hfits
    obtain rfl := Option.some.inj h
    have hcells := OwnedRow.cells_layout hfits
    have hlen := OwnedRow.len_layout (Nat.le_trans (OwnedRow.length_le_layoutSize cells) hfits)
    exact ⟨by simp only [putRow, hcells, hlen, putList, Option.bind_eq_bind, Option.bind_some], hcells⟩
  · cases h

theorem inverse_row : Inverse Built putRow Decoder.row := by
  refine (Inverse.list _ inverse_value).map (fun row => row.cells.getD []) ?_ ?_
  · intro row hrow
    obtain ⟨cells, hgood, hbuilt⟩ := hrow
    obtain ⟨hput, hcells⟩ := putRow_eq hbuilt
    rw [hcells, Option.getD_some]
    exact ⟨hgood, hput, fun l => by rw [hbuilt]; rfl⟩
  · intro cells l row r hgood h
    cases hbuilt : fromOwnedCells cells with
    | none =>
      rw [hbuilt] at h
      cases h
    | some row' =>
      rw [hbuilt] at h
      obtain ⟨rfl, rfl⟩ := Prod.mk.inj (Outcome.ok.inj h)
      exact ⟨⟨cells, hgood, hbuilt⟩, by rw [(putRow_eq hbuilt).2, Option.getD_some], rfl⟩

theorem inverse_acc : Inverse (fun _ : ReduceAcc => True) putAcc Decoder.acc := by
  have hlast : ∀ (i : BitVec 128) (f : F64) (n : Int64),
      Inverse (fun acc : ReduceAcc => ((True ∧ acc.intSum = i) ∧ acc.floatSum = f) ∧ acc.nonNull = n)
        (fun acc => putI64 acc.floatCount) (do let c ← Decoder.i64; pure ⟨i, f, n, c⟩) := by
    intro i f n
    refine inverse_i64.map ReduceAcc.floatCount ?_ ?_
    · rintro acc ⟨⟨⟨-, rfl⟩, rfl⟩, rfl⟩
      exact ⟨trivial, rfl, fun l => rfl⟩
    · intro c l acc r _ h
      obtain ⟨rfl, rfl⟩ := Prod.mk.inj (Outcome.ok.inj h)
      exact ⟨⟨⟨⟨trivial, rfl⟩, rfl⟩, rfl⟩, rfl, rfl⟩
  exact inverse_i128.field ReduceAcc.intSum fun i => inverse_f64.field ReduceAcc.floatSum fun f =>
    inverse_i64.field ReduceAcc.nonNull fun n => hlast i f n

/-! ## Values -/

def boundTag : Option OwnedRow → UInt8
  | none => 0
  | some _ => 1

/-- The tag of a take's bound and its row. -/
def putBound (b : Option OwnedRow) : Option (List UInt8) := cat (some [boundTag b]) (b.elim (some []) putRow)

theorem inverse_bound : Inverse (fun b => ∀ row ∈ b, Built row) putBound Decoder.bound := by
  refine inverse_u8.field boundTag fun tag => ?_
  split
  · refine (Inverse.just none).congr (fun b => ?_) fun b hb => by rw [hb]; rfl
    cases b <;> simp [boundTag]
  · refine (inverse_row.image some fun _ _ => rfl).congr (fun b => ?_) fun _ _ => rfl
    cases b <;> simp [boundTag]
  · refine .fail _ fun b hb => ?_
    obtain ⟨-, rfl⟩ := hb
    cases b <;> contradiction

namespace StorageValue

def tag : StorageValue → UInt8
  | .take .. => 1
  | .bound .. => 2
  | .cap .. => 3
  | .reduce .. => 4

/-- What is written of a value after its tag. -/
def fields : StorageValue → Option (List UInt8)
  | .take size b => cat (putU32 size) (putBound b)
  | .bound row => putRow row
  | .cap size pks => cat (putU32 size) (putList (fun pk => putBytes (Utf8.encode pk)) pks)
  | .reduce count accs => cat (putI64 count) (putList putAcc accs)

theorem encode_eq (value : StorageValue) :
    encodeStorageValue value = cat (some [storageFormatVersion]) (cat (some [value.tag]) value.fields) := by
  cases value with
  | take size b => cases b <;> rfl
  | _ => rfl

/-- The rows of a value are built. -/
def RowsBuilt : StorageValue → Prop
  | .take _ b => ∀ row ∈ b, Built row
  | .bound row => Built row
  | _ => True

end StorageValue

open Storage.StorageValue

theorem inverse_storageValue :
    Inverse RowsBuilt (fun value => cat (some [value.tag]) value.fields) Decoder.storageValue := by
  refine inverse_u8.field StorageValue.tag fun tag => ?_
  split
  · refine (inverse_u32.image₂ inverse_bound StorageValue.take fun _ _ _ _ => rfl).congr (fun value => ?_) fun _ _ => rfl
    cases value <;> simp [RowsBuilt, StorageValue.tag]
  · refine (inverse_row.image StorageValue.bound fun _ _ => rfl).congr (fun value => ?_) fun _ _ => rfl
    cases value <;> simp [RowsBuilt, StorageValue.tag]
  · refine (inverse_u32.image₂ (.list _ inverse_string) StorageValue.cap fun _ _ _ _ => rfl).congr (fun value => ?_) fun _ _ => rfl
    cases value <;> simp [RowsBuilt, StorageValue.tag]
  · refine (inverse_i64.image₂ (.list _ inverse_acc) StorageValue.reduce fun _ _ _ _ => rfl).congr (fun value => ?_) fun _ _ => rfl
    cases value <;> simp [RowsBuilt, StorageValue.tag]
  · refine .fail _ fun value hvalue => ?_
    obtain ⟨-, rfl⟩ := hvalue
    cases value <;> contradiction

/-! ## What is written -/

theorem putLen_fits {n : Nat} (h : n < 2 ^ 32) : (putLen n).isSome := by
  rw [putLen, if_pos h]
  rfl

theorem putList_isSome {α : Type} {code : α → Option (List UInt8)} {as : List α} (hlen : as.length < 2 ^ 32)
    (h : ∀ a ∈ as, (code a).isSome) : (putList code as).isSome :=
  Framing.cat_isSome (putLen_fits hlen) (Framing.concat_isSome h)

theorem putBytes_isSome {b : List UInt8} (h : b.length < 2 ^ 32) : (putBytes b).isSome :=
  Framing.cat_isSome (putLen_fits h) rfl

theorem putCells_isSome {cells : List Value} (h : layoutSize cells ≤ u32Max) : (putList putValue cells).isSome := by
  have hlen : cells.length < 2 ^ 32 := Nat.lt_of_le_of_lt (Nat.le_trans (OwnedRow.length_le_layoutSize cells) h) (by decide)
  refine putList_isSome hlen fun v hv => ?_
  have htext : v.text.length ≤ u32Max := by
    have hsum : OwnedRow.textLen v ≤ (cells.map OwnedRow.textLen).sum :=
      List.single_le_sum (fun _ _ => Nat.zero_le _) _ (List.mem_map_of_mem hv)
    have hle : (cells.map OwnedRow.textLen).sum ≤ layoutSize cells := Nat.le_add_left _ _
    exact Nat.le_trans hsum (Nat.le_trans hle h)
  have hbytes : (putBytes v.text).isSome := putBytes_isSome (Nat.lt_of_le_of_lt htext (by decide))
  rw [putValue_eq]
  refine Framing.cat_isSome rfl ?_
  cases v with
  | str b => exact hbytes
  | json b => exact hbytes
  | _ => rfl

theorem Built.putRow_isSome {row : OwnedRow} (h : Built row) : (putRow row).isSome := by
  obtain ⟨cells, -, hbuilt⟩ := h
  rw [(putRow_eq hbuilt).1]
  rw [OwnedRow.fromOwnedCells_eq] at hbuilt
  split at hbuilt
  · rename_i hfits
    exact putCells_isSome hfits
  · cases hbuilt

namespace StorageValue

theorem WellFormed.rowsBuilt {value : StorageValue} (h : value.WellFormed) : value.RowsBuilt := by
  cases value with
  | take size b => exact h
  | bound row => exact h
  | cap size pks => trivial
  | reduce count accs => trivial

/-- What is well formed is written without a panic, and nothing else with built rows is. -/
theorem wellFormed_iff (value : StorageValue) : value.WellFormed ↔ value.RowsBuilt ∧ (encodeStorageValue value).isSome := by
  rw [encode_eq]
  constructor
  · intro h
    refine ⟨h.rowsBuilt, Framing.cat_isSome rfl (Framing.cat_isSome rfl ?_)⟩
    cases value with
    | take size b =>
      refine Framing.cat_isSome rfl (Framing.cat_isSome rfl ?_)
      cases b with
      | none => rfl
      | some row => exact Built.putRow_isSome (h row rfl)
    | bound row => exact Built.putRow_isSome h
    | cap size pks => exact Framing.cat_isSome rfl (putList_isSome h.1 fun pk hpk => putBytes_isSome (h.2 pk hpk))
    | reduce count accs => exact Framing.cat_isSome rfl (putList_isSome h fun acc _ => rfl)
  · intro h
    obtain ⟨hrows, hsome⟩ := h
    obtain ⟨x, hx⟩ := Option.isSome_iff_exists.mp hsome
    obtain ⟨_, _, -, hx, -⟩ := cat_eq_some.mp hx
    obtain ⟨_, _, -, hx, -⟩ := cat_eq_some.mp hx
    cases value with
    | take size b => exact hrows
    | bound row => exact hrows
    | cap size pks =>
      obtain ⟨_, _, -, hx, -⟩ := cat_eq_some.mp hx
      obtain ⟨_, y, hlen, hy, -⟩ := cat_eq_some.mp hx
      refine ⟨Codec.putLen_isSome hlen, fun pk hpk => ?_⟩
      obtain ⟨z, hz⟩ := Option.isSome_iff_exists.mp (Framing.isSome_of_concat (Option.isSome_of_eq_some hy) pk hpk)
      obtain ⟨_, _, hlen, -, -⟩ := cat_eq_some.mp hz
      exact Codec.putLen_isSome hlen
    | reduce count accs =>
      obtain ⟨_, _, -, hx, -⟩ := cat_eq_some.mp hx
      obtain ⟨_, _, hlen, -, -⟩ := cat_eq_some.mp hx
      exact Codec.putLen_isSome hlen

end StorageValue

/-! ## The whole input -/

theorem u8_cons (b : UInt8) (l : List UInt8) : Decoder.u8 (b :: l) = .ok (b, l) :=
  inverse_u8.read trivial (show some [b] = some [b] from rfl) l

theorem decode_nil : decodeStorageValue [] = .error "truncated storage codec value" := rfl

theorem decode_cons (version : UInt8) (l : List UInt8) : decodeStorageValue (version :: l) =
    if version ≠ storageFormatVersion then .error (unsupportedVersion version)
    else Decoder.storageValue l >>= fun p => if p.2 = [] then .ok p.1 else .error "trailing storage codec bytes" := by
  rw [decodeStorageValue, Decoder.versioned, Codec.bind_ok (u8_cons version l)]
  split
  · rfl
  · rw [Codec.bind_run]
    cases Decoder.storageValue l with
    | panic => rfl
    | error e => rfl
    | ok p =>
      obtain ⟨value, r⟩ := p
      cases r with
      | nil => rfl
      | cons b r => rfl

theorem decode_eq_ok {bytes : List UInt8} {value : StorageValue} :
    decodeStorageValue bytes = .ok value ↔ value.RowsBuilt ∧ encodeStorageValue value = some bytes := by
  rw [encode_eq]
  constructor
  · intro h
    cases bytes with
    | nil =>
      rw [decode_nil] at h
      cases h
    | cons version l =>
      rw [decode_cons] at h
      split at h
      · cases h
      · rename_i hv
        rw [not_not] at hv
        subst hv
        obtain ⟨⟨value', r⟩, hget, hend⟩ := Outcome.bind_eq_ok.mp h
        dsimp only at hend
        split at hend
        · rename_i hr
          obtain rfl := Outcome.ok.inj hend
          obtain ⟨hrows, x, hx, rfl⟩ := inverse_storageValue.written hget
          exact ⟨hrows, by rw [hx, Framing.cat_some, hr, List.append_nil]; rfl⟩
        · cases hend
  · intro h
    obtain ⟨hrows, hcode⟩ := h
    obtain ⟨_, x, h1, hx, rfl⟩ := cat_eq_some.mp hcode
    obtain rfl := Option.some.inj h1
    have hread := inverse_storageValue.read hrows hx []
    rw [List.append_nil] at hread
    rw [List.singleton_append, decode_cons, if_neg (by simp), hread]
    rfl

/-! ## Panics -/

/-- Whatever follows a row that panics. -/
theorem Oversized.append {bytes : List UInt8} (h : Oversized bytes) (more : List UInt8) : Oversized (bytes ++ more) := by
  have hrow : ∀ {l}, OversizedRow l → OversizedRow (l ++ more) := by
    intro l hl
    obtain ⟨cells, x, r, hgood, hx, rfl, hbig⟩ := hl
    exact ⟨cells, x, r ++ more, hgood, hx, List.append_assoc _ _ _, hbig⟩
  rcases h with ⟨l, rfl, hbig⟩ | ⟨size, l, rfl, hbig⟩
  · exact Or.inl ⟨l ++ more, rfl, hrow hbig⟩
  · exact Or.inr ⟨size, l ++ more, by simp, hrow hbig⟩

end Rindle.Storage
