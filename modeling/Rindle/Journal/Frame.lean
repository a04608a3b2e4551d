/-
  Rindle.Journal.Frame — the journal frame envelope (`rust/src/journal_frame.rs`).

  A frame is a header and a payload; in version 2 the payload is a container of chunks. The encoder
  accepts exactly the frames within the format (`FrameHeader.Fits`), the decoder reads back what it
  wrote and, in version 2, accepts nothing else (`frame_codec`).

  `usize` has 64 bits. A slice taken out of bounds is a panic here, as there.
-/

import Rindle.Lib.Wire
import Rindle.Lib.Utf8

set_option linter.dupNamespace false

namespace Rindle.Journal

abbrev Bytes := List UInt8

/-! ## Constants -/

def frameFormatV1 : UInt8 := 1
def frameFormatV2 : UInt8 := 2
def payloadContainerSentinel : UInt8 := 0x89
/-- `RJP` and a zero. -/
def payloadContainerMagic : Bytes := [0x52, 0x4a, 0x50, 0]
def payloadContainerV1 : UInt8 := 1
def payloadContainerHeaderLen : Nat := 1 + payloadContainerMagic.length + 1 + 4
def maxContainerChunks : Nat := 65536
def flagRunId : UInt8 := 1
def flagRunTotals : UInt8 := 2
def knownFlags : UInt8 := flagRunId ||| flagRunTotals

/-! ## The chunk container -/

inductive PayloadEncodeError where
  | empty
  | tooManyChunks (n : Nat)
  | chunkTooLarge (n : Nat)
  | emptyChunk
  | containerTooLarge

inductive PayloadDecodeError where
  | missingSentinel
  | truncated
  | invalidMagic
  | unknownVersion (v : UInt8)
  | empty
  | tooManyChunks (n : Nat)
  | emptyChunk
  | trailingBytes (n : Nat)

/-- `checked_add`. -/
def checkedAdd (a b : Nat) : Option Nat := if a + b < 2 ^ 64 then some (a + b) else none

/-- The loop of `payload_container_len`. -/
def chunksLen (len : Nat) : List Bytes → Except PayloadEncodeError Nat
  | [] => .ok len
  | chunk :: chunks =>
    if chunk.isEmpty then .error .emptyChunk
    else if 2 ^ 32 ≤ chunk.length then .error (.chunkTooLarge chunk.length)
    else
      match (checkedAdd len 4).bind fun n => checkedAdd n chunk.length with
      | none => .error .containerTooLarge
      | some len => chunksLen len chunks

variable (chunks : List Bytes)

/-- `payload_container_len`. -/
def payloadContainerLen : Except PayloadEncodeError Nat :=
  if chunks.isEmpty then .error .empty
  else if maxContainerChunks < chunks.length then .error (.tooManyChunks chunks.length)
  else chunksLen payloadContainerHeaderLen chunks

/-- The bytes of one chunk: its length as u32, and it. -/
def chunkBytes (chunk : Bytes) : Bytes := leBytes 4 chunk.length ++ chunk

/-- `encode_payload_chunks_into`, the bytes appended. -/
def encodePayloadChunksInto : Except PayloadEncodeError Bytes :=
  match payloadContainerLen chunks with
  | .error e => .error e
  | .ok _ => .ok ([payloadContainerSentinel] ++ payloadContainerMagic ++ [payloadContainerV1] ++ leBytes 4 chunks.length ++
      chunks.flatMap chunkBytes)

/-- `encode_payload_chunks`. -/
def encodePayloadChunks : Except PayloadEncodeError Bytes :=
  match payloadContainerLen chunks with
  | .error e => .error e
  | .ok _ => encodePayloadChunksInto chunks

/-- The loop of `decode_payload_chunks`: `count` chunks, and what is left. -/
def readChunks : Nat → Bytes → Outcome PayloadDecodeError (List Bytes × Bytes)
  | 0, rest => .ok ([], rest)
  | count + 1, rest =>
    if rest.length < 4 then .error .truncated
    else do
      let (lenBytes, rest) ← splitAt rest 4
      let len ← fromLeBytes 4 lenBytes
      if len = 0 then .error .emptyChunk
      else if rest.length < len then .error .truncated
      else do
        let (chunk, tail) ← splitAt rest len
        let (chunks, rest) ← readChunks count tail
        pure (chunk :: chunks, rest)

/-- `decode_payload_chunks`. -/
def decodePayloadChunks (payload : Bytes) : Outcome PayloadDecodeError (List Bytes) :=
  if payload.head? ≠ some payloadContainerSentinel then .error .missingSentinel
  else if payload.length < payloadContainerHeaderLen then .error .truncated
  else do
    let (_, rest) ← splitAt payload 1
    let (magic, rest) ← splitAt rest payloadContainerMagic.length
    if magic ≠ payloadContainerMagic then .error .invalidMagic
    else
      match rest with
      | [] => .panic
      | version :: rest =>
        if version ≠ payloadContainerV1 then .error (.unknownVersion version)
        else do
          let (countBytes, rest) ← splitAt rest 4
          let count ← fromLeBytes 4 countBytes
          if count = 0 then .error .empty
          else if maxContainerChunks < count then .error (.tooManyChunks count)
          else if rest.length / 4 < count then .error .truncated
          else do
            let (chunks, rest) ← readChunks count rest
            if rest.isEmpty then pure chunks else .error (.trailingBytes rest.length)

/-! ## The header -/

inductive FrameKind where
  | rows
  | ddl
  | empty
  deriving DecidableEq

def FrameKind.toU8 : FrameKind → UInt8
  | .rows => 0
  | .ddl => 1
  | .empty => 2

structure RunTotals where
  runRows : UInt64
  rowsCum : UInt64

structure FrameHeader where
  kind : FrameKind
  committedAt : Int64
  runId : Option String
  runTotals : Option RunTotals

inductive FrameEncodeError where
  | runIdTooLong (n : Nat)
  | emptyFrameWithPayload
  | payload (e : PayloadEncodeError)

inductive FrameDecodeError where
  | truncated
  | unknownFormat (v : UInt8)
  | unknownKind (k : UInt8)
  | unknownFlags (b : UInt8)
  | runIdNotUtf8
  | emptyFrameWithPayload
  | payload (e : PayloadDecodeError)

/-- `as_bytes`. -/
def asBytes (s : String) : Bytes := s.toByteArray.data.toList

/-- `from_utf8`. -/
def fromUtf8 (l : Bytes) : Option String := String.fromUTF8? ⟨l.toArray⟩

/-- `to_le_bytes` of an i64, and back. -/
def i64Bytes (x : Int64) : Bytes := leBytes 8 x.toBitVec.toNat

def i64OfNat (n : Nat) : Int64 := Int64.ofBitVec (BitVec.ofNat 64 n)

/-- `split_first().ok_or(Truncated)`. -/
def splitFirst : Bytes → Outcome FrameDecodeError (UInt8 × Bytes)
  | [] => .error .truncated
  | b :: rest => .ok (b, rest)

namespace FrameHeader

variable (h : FrameHeader)

/-- The two flags as set by the encoder. -/
def flags : UInt8 :=
  (if h.runId.isSome then flagRunId else 0) ||| (if h.runTotals.isSome then flagRunTotals else 0)

/-- `encode_header_into`, the bytes appended. -/
def encodeHeaderInto (version : UInt8) : Except FrameEncodeError Bytes :=
  match h.runId.filter fun id => decide (255 < (asBytes id).length) with
  | some id => .error (.runIdTooLong (asBytes id).length)
  | none => .ok ([version, h.kind.toU8, h.flags] ++ i64Bytes h.committedAt ++
      (h.runId.elim [] fun id => UInt8.ofNat (asBytes id).length :: asBytes id) ++
      (h.runTotals.elim [] fun t => leBytes 8 t.runRows.toNat ++ leBytes 8 t.rowsCum.toNat))

/-- `encode`: a version 1 frame. -/
def encode (payload : Bytes) : Except FrameEncodeError Bytes :=
  if h.kind = .empty ∧ payload ≠ [] then .error .emptyFrameWithPayload
  else (h.encodeHeaderInto frameFormatV1).map fun out => out ++ payload

/-- `encode_frame`. -/
def encodeFrame (chunks : List Bytes) : Except FrameEncodeError Bytes :=
  if h.kind = .empty then
    if chunks ≠ [] then .error .emptyFrameWithPayload else h.encodeHeaderInto frameFormatV2
  else
    match payloadContainerLen chunks with
    | .error e => .error (.payload e)
    | .ok _ =>
      match h.encodeHeaderInto frameFormatV2 with
      | .error e => .error e
      | .ok out =>
        match encodePayloadChunksInto chunks with
        | .error e => .error (.payload e)
        | .ok container => .ok (out ++ container)

/-- The run id of `decode`. -/
def readRunId (flags : UInt8) (rest : Bytes) : Outcome FrameDecodeError (Option String × Bytes) :=
  if flags &&& flagRunId ≠ 0 then do
    let (len, tail) ← splitFirst rest
    if tail.length < len.toNat then .error .truncated
    else do
      let (id, tail) ← splitAt tail len.toNat
      match fromUtf8 id with
      | none => .error .runIdNotUtf8
      | some id => pure (some id, tail)
  else pure (none, rest)

/-- The run totals of `decode`. -/
def readRunTotals (flags : UInt8) (rest : Bytes) : Outcome FrameDecodeError (Option RunTotals × Bytes) :=
  if flags &&& flagRunTotals ≠ 0 then
    if rest.length < 16 then .error .truncated
    else do
      let (raw, tail) ← splitAt rest 16
      let (rows, cum) ← splitAt raw 8
      let runRows ← fromLeBytes 8 rows
      let rowsCum ← fromLeBytes 8 cum
      pure (some ⟨UInt64.ofNat runRows, UInt64.ofNat rowsCum⟩, tail)
  else pure (none, rest)

/-- The kind of `decode`. -/
def readKind (b : UInt8) : Outcome FrameDecodeError FrameKind :=
  if b = 0 then .ok .rows else if b = 1 then .ok .ddl else if b = 2 then .ok .empty else .error (.unknownKind b)

/-- `decode`. -/
def decode (bytes : Bytes) : Outcome FrameDecodeError (FrameHeader × Bytes) := do
  let (version, rest) ← splitFirst bytes
  if version ≠ frameFormatV1 ∧ version ≠ frameFormatV2 then .error (.unknownFormat version)
  else do
    let (kindByte, rest) ← splitFirst rest
    let kind ← readKind kindByte
    let (flags, rest) ← splitFirst rest
    if flags &&& ~~~knownFlags ≠ 0 then .error (.unknownFlags (flags &&& ~~~knownFlags))
    else if rest.length < 8 then .error .truncated
    else do
      let (ts, rest) ← splitAt rest 8
      let committedAt ← fromLeBytes 8 ts
      let (runId, rest) ← readRunId flags rest
      let (runTotals, rest) ← readRunTotals flags rest
      if kind = .empty ∧ rest ≠ [] then .error .emptyFrameWithPayload
      else pure (⟨kind, i64OfNat committedAt, runId, runTotals⟩, rest)

/-- `decode_chunks`. -/
def decodeChunks (bytes : Bytes) : Outcome FrameDecodeError (FrameHeader × List Bytes) := do
  let (version, _) ← splitFirst bytes
  let (header, payload) ← decode bytes
  if header.kind = .empty then pure (header, [])
  else if version = frameFormatV1 then pure (header, [payload])
  else do
    let chunks ← (decodePayloadChunks payload).mapError .payload
    pure (header, chunks)

end FrameHeader

/-! ## The container, in and out -/

/-- The chunks a container can have. -/
structure ChunksFit (chunks : List Bytes) : Prop where
  some : chunks ≠ []
  count : chunks.length ≤ maxContainerChunks
  each : ∀ c ∈ chunks, c ≠ [] ∧ c.length < 2 ^ 32

def containerBytes : Bytes :=
  [payloadContainerSentinel] ++ payloadContainerMagic ++ [payloadContainerV1] ++ leBytes 4 chunks.length ++ chunks.flatMap chunkBytes

section
variable {chunks : List Bytes} {rest payload : Bytes}

/-- The length never overflows: the chunks are too few and too short for that. -/
theorem chunksLen_ok_iff : ∀ {chunks : List Bytes} {len : Nat}, len + chunks.length * 2 ^ 33 < 2 ^ 64 →
    ((∃ n, chunksLen len chunks = .ok n) ↔ ∀ c ∈ chunks, c ≠ [] ∧ c.length < 2 ^ 32) := by
  intro chunks
  induction chunks with
  | nil =>
    intro len _
    simp [chunksLen]
  | cons c chunks ih =>
    intro len hlen
    rw [List.length_cons] at hlen
    rw [chunksLen, List.forall_mem_cons]
    by_cases hempty : c = []
    · simp [hempty]
    by_cases hlarge : 2 ^ 32 ≤ c.length
    · have hne : ¬ c.length < 2 ^ 32 := by omega
      have hisEmpty : c.isEmpty = false := by simpa using hempty
      rw [hisEmpty, if_neg Bool.false_ne_true, if_pos hlarge]
      constructor
      · intro h
        obtain ⟨n, hn⟩ := h
        cases hn
      · intro h
        exact absurd h.1.2 hne
    · have hadd : ((checkedAdd len 4).bind fun n => checkedAdd n c.length) = some (len + 4 + c.length) := by
        rw [checkedAdd, if_pos (by omega), Option.bind_some, checkedAdd, if_pos (by omega)]
      have hisEmpty : c.isEmpty = false := by simpa using hempty
      rw [hisEmpty, if_neg Bool.false_ne_true, if_neg hlarge, hadd]
      have hlt : c.length < 2 ^ 32 := by omega
      simp only [ne_eq, hempty, not_false_eq_true, hlt, and_self, true_and]
      exact ih (by omega)

theorem payloadContainerLen_ok_iff : (∃ n, payloadContainerLen chunks = .ok n) ↔ ChunksFit chunks := by
  unfold payloadContainerLen
  by_cases hempty : chunks = []
  · simp only [hempty, List.isEmpty_nil, if_true]
    exact ⟨fun ⟨_, h⟩ => (by cases h), fun h => absurd rfl h.some⟩
  have hisEmpty : chunks.isEmpty = false := by simpa using hempty
  rw [hisEmpty, if_neg Bool.false_ne_true]
  by_cases hmany : maxContainerChunks < chunks.length
  · rw [if_pos hmany]
    exact ⟨fun ⟨_, h⟩ => (by cases h), fun h => absurd h.count (by omega)⟩
  · rw [if_neg hmany, chunksLen_ok_iff]
    · exact ⟨fun h => ⟨hempty, by omega, h⟩, fun h => h.each⟩
    · simp only [payloadContainerHeaderLen, payloadContainerMagic, maxContainerChunks, List.length_cons, List.length_nil] at hmany ⊢
      omega

theorem encodePayloadChunksInto_ok_iff {bytes : Bytes} :
    encodePayloadChunksInto chunks = .ok bytes ↔ ChunksFit chunks ∧ bytes = containerBytes chunks := by
  unfold encodePayloadChunksInto
  rw [← payloadContainerLen_ok_iff]
  cases payloadContainerLen chunks with
  | error e => simp
  | ok n =>
    simp only [Except.ok.injEq, exists_eq', true_and]
    exact eq_comm

/-- Written chunks are read back, and what comes after them is left. -/
theorem readChunks_append : ∀ {chunks : List Bytes}, (∀ c ∈ chunks, c ≠ [] ∧ c.length < 2 ^ 32) → ∀ rest : Bytes,
    readChunks chunks.length (chunks.flatMap chunkBytes ++ rest) = .ok (chunks, rest) := by
  intro chunks
  induction chunks with
  | nil => intro _ rest; rfl
  | cons c chunks ih =>
    intro h rest
    obtain ⟨hne, hlt⟩ := h c List.mem_cons_self
    have hlen : ¬ c.length = 0 := fun h => hne (List.length_eq_zero_iff.mp h)
    have hsplit : (chunkBytes c ++ chunks.flatMap chunkBytes) ++ rest = leBytes 4 c.length ++ (c ++ (chunks.flatMap chunkBytes ++ rest)) := by
      simp [chunkBytes]
    have hsplit4 := @splitAt_append PayloadDecodeError (leBytes 4 c.length) (c ++ (chunks.flatMap chunkBytes ++ rest))
    rw [leBytes_length] at hsplit4
    rw [List.length_cons, readChunks, List.flatMap_cons, hsplit, if_neg (by simp), hsplit4]
    simp only [Outcome.ok_bind, fromLeBytes_leBytes (show c.length < 256 ^ 4 by omega), if_neg hlen]
    rw [if_neg (by simp), splitAt_append]
    simp only [Outcome.ok_bind, ih (fun d hd => h d (List.mem_cons_of_mem _ hd)) rest, Outcome.pure_eq]

/-- Chunks that are read are the ones written there. -/
theorem readChunks_canonical : ∀ {count : Nat} {bytes : Bytes} {chunks : List Bytes} {rest : Bytes}, readChunks count bytes = .ok (chunks, rest) →
    chunks.length = count ∧ (∀ c ∈ chunks, c ≠ [] ∧ c.length < 2 ^ 32) ∧ bytes = chunks.flatMap chunkBytes ++ rest := by
  intro count
  induction count with
  | zero =>
    intro bytes chunks rest h
    obtain ⟨rfl, rfl⟩ := Prod.mk.inj (Outcome.ok.inj h)
    exact ⟨rfl, fun c hc => (by cases hc), rfl⟩
  | succ count ih =>
    intro bytes chunks rest h
    rw [readChunks] at h
    by_cases hshort : bytes.length < 4
    · rw [if_pos hshort] at h
      cases h
    have htake : (bytes.take 4).length = 4 := by
      rw [List.length_take]
      omega
    rw [if_neg hshort, splitAt_ok (by omega)] at h
    simp only [Outcome.ok_bind, fromLeBytes_ok htake] at h
    have hlt := leNat_lt (bytes.take 4)
    have hback := leBytes_leNat (bytes.take 4)
    rw [htake] at hlt hback
    generalize leNat (bytes.take 4) = len at h hlt hback
    by_cases hzero : len = 0
    · rw [if_pos hzero] at h
      cases h
    rw [if_neg hzero] at h
    by_cases hfew : (bytes.drop 4).length < len
    · rw [if_pos hfew] at h
      cases h
    rw [if_neg hfew, splitAt_ok (by omega)] at h
    simp only [Outcome.ok_bind, Outcome.bind_eq_ok] at h
    obtain ⟨⟨chunks', rest'⟩, hread, hpure⟩ := h
    simp only [Outcome.pure_eq, Outcome.ok.injEq, Prod.mk.injEq] at hpure
    obtain ⟨rfl, rfl⟩ := hpure
    obtain ⟨hcount, hfit, htail⟩ := ih hread
    have hlen : ((bytes.drop 4).take len).length = len := by
      rw [List.length_take]
      omega
    refine ⟨by rw [List.length_cons, hcount], List.forall_mem_cons.mpr ⟨⟨fun hnil => ?_, by omega⟩, hfit⟩, ?_⟩
    · rw [hnil] at hlen
      exact hzero hlen.symm
    · calc bytes = bytes.take 4 ++ bytes.drop 4 := (List.take_append_drop 4 bytes).symm
        _ = leBytes 4 len ++ ((bytes.drop 4).take len ++ (bytes.drop 4).drop len) := by rw [hback, List.take_append_drop len]
        _ = _ := by rw [htail, List.flatMap_cons, chunkBytes, hlen, List.append_assoc, List.append_assoc]

theorem readChunks_ne_panic : ∀ (count : Nat) (bytes : Bytes), readChunks count bytes ≠ .panic := by
  intro count
  induction count with
  | zero => intro bytes h; cases h
  | succ count ih =>
    intro bytes
    rw [readChunks]
    split
    · intro h; cases h
    rename_i hshort
    have htake : (bytes.take 4).length = 4 := by
      rw [List.length_take]
      omega
    rw [splitAt_ok (by omega)]
    simp only [Outcome.ok_bind, fromLeBytes_ok htake]
    split
    · intro h; cases h
    · split
      · intro h; cases h
      · rw [splitAt_ok (by omega), Outcome.ok_bind]
        exact Outcome.bind_ne_panic (ih _) fun a _ h => by cases h

/-- The first ten bytes of a container. -/
theorem containerBytes_eq (chunks : List Bytes) (rest : Bytes) : containerBytes chunks ++ rest =
    payloadContainerSentinel :: (payloadContainerMagic ++ payloadContainerV1 :: (leBytes 4 chunks.length ++ (chunks.flatMap chunkBytes ++ rest))) := by
  simp [containerBytes]

/-- A container is read back; bytes after it are an error. -/
theorem decodePayloadChunks_append (h : ChunksFit chunks) (rest : Bytes) : decodePayloadChunks (containerBytes chunks ++ rest) =
    if rest = [] then .ok chunks else .error (.trailingBytes rest.length) := by
  have hcount : chunks.length < 256 ^ 4 := by
    have := h.count
    simp only [maxContainerChunks] at this
    omega
  have hzero : ¬ chunks.length = 0 := fun h' => h.some (List.length_eq_zero_iff.mp h')
  have hshort : ∀ chunks : List Bytes, chunks.length * 4 ≤ (chunks.flatMap chunkBytes).length := by
    intro chunks
    induction chunks with
    | nil => simp
    | cons c chunks ih =>
      simp only [List.length_cons, List.flatMap_cons, List.length_append, chunkBytes, leBytes_length]
      omega
  have hfits := hshort chunks
  have hmagic := @splitAt_append PayloadDecodeError payloadContainerMagic
    (payloadContainerV1 :: (leBytes 4 chunks.length ++ (chunks.flatMap chunkBytes ++ rest)))
  have hcountBytes := @splitAt_append PayloadDecodeError (leBytes 4 chunks.length) (chunks.flatMap chunkBytes ++ rest)
  rw [leBytes_length] at hcountBytes
  rw [containerBytes_eq, decodePayloadChunks]
  rw [if_neg (by simp), if_neg (by simp [payloadContainerHeaderLen, payloadContainerMagic]), splitAt_ok (by simp)]
  simp only [Outcome.ok_bind, List.drop_one, List.tail_cons, hmagic, ne_eq, not_true_eq_false, if_false, hcountBytes,
    fromLeBytes_leBytes hcount, hzero, if_neg (Nat.not_lt.mpr h.count)]
  rw [if_neg (by rw [List.length_append]; omega), readChunks_append h.each]
  cases rest with
  | nil => rfl
  | cons b rest => rfl

/-- What is read as a container is one. -/
theorem decodePayloadChunks_canonical (h : decodePayloadChunks payload = .ok chunks) : ChunksFit chunks ∧ payload = containerBytes chunks := by
  rw [decodePayloadChunks] at h
  by_cases hsentinel : payload.head? = some payloadContainerSentinel
  swap
  · rw [if_pos hsentinel] at h
    cases h
  rw [if_neg (not_not.mpr hsentinel)] at h
  by_cases hshort : payload.length < payloadContainerHeaderLen
  · rw [if_pos hshort] at h
    cases h
  have hlen : 10 ≤ payload.length := Nat.not_lt.mp hshort
  obtain ⟨payload, rfl⟩ : ∃ tail, payload = payloadContainerSentinel :: tail := by
    cases payload with
    | nil => cases hsentinel
    | cons b tail => exact ⟨tail, by rw [Option.some.inj hsentinel]⟩
  rw [List.length_cons] at hlen
  have hmagicLen : payloadContainerMagic.length = 4 := rfl
  rw [if_neg hshort, splitAt_ok (by simp)] at h
  simp only [Outcome.ok_bind, List.drop_one, List.tail_cons, hmagicLen] at h
  rw [splitAt_ok (by omega)] at h
  simp only [Outcome.ok_bind] at h
  by_cases hmagic : payload.take 4 = payloadContainerMagic
  swap
  · rw [if_pos hmagic] at h
    cases h
  rw [if_neg (not_not.mpr hmagic)] at h
  obtain ⟨version, rest, hrest⟩ : ∃ version rest, payload.drop 4 = version :: rest := by
    cases hd : payload.drop 4 with
    | nil =>
      have := congrArg List.length hd
      rw [List.length_drop, List.length_nil] at this
      omega
    | cons version rest => exact ⟨version, rest, rfl⟩
  have hrestLen : 4 ≤ rest.length := by
    have := congrArg List.length hrest
    rw [List.length_drop, List.length_cons] at this
    omega
  simp only [hrest] at h
  by_cases hversion : version = payloadContainerV1
  swap
  · rw [if_pos hversion] at h
    cases h
  have htake : (rest.take 4).length = 4 := by
    rw [List.length_take]
    omega
  rw [if_neg (not_not.mpr hversion), splitAt_ok hrestLen] at h
  simp only [Outcome.ok_bind, fromLeBytes_ok htake] at h
  have hback := leBytes_leNat (rest.take 4)
  rw [htake] at hback
  generalize leNat (rest.take 4) = count at h hback
  by_cases hzero : count = 0
  · rw [if_pos hzero] at h
    cases h
  rw [if_neg hzero] at h
  by_cases hmany : maxContainerChunks < count
  · rw [if_pos hmany] at h
    cases h
  rw [if_neg hmany] at h
  by_cases hfew : (rest.drop 4).length / 4 < count
  · rw [if_pos hfew] at h
    cases h
  rw [if_neg hfew, Outcome.bind_eq_ok] at h
  obtain ⟨⟨chunks', tail⟩, hread, hend⟩ := h
  obtain ⟨hcount, heach, hbytes⟩ := readChunks_canonical hread
  cases tail with
  | cons b tail => cases hend
  | nil =>
    have hsame : chunks' = chunks := Outcome.ok.inj hend
    subst hsame
    refine ⟨⟨fun hnil => hzero ?_, by omega, heach⟩, ?_⟩
    · rw [← hcount, hnil]
      rfl
    · have hpayload : payload = payloadContainerMagic ++ payloadContainerV1 :: (leBytes 4 count ++ rest.drop 4) := by
        rw [hback, List.take_append_drop, ← hversion, ← hrest, ← hmagic, List.take_append_drop]
      have hwhole := containerBytes_eq chunks' []
      rw [List.append_nil] at hwhole
      rw [hpayload, hwhole, hcount, hbytes]

theorem decodePayloadChunks_ne_panic (payload : Bytes) : decodePayloadChunks payload ≠ .panic := by
  rw [decodePayloadChunks]
  split
  · intro h; cases h
  split
  · intro h; cases h
  rename_i hshort
  have hlen : 10 ≤ payload.length := Nat.not_lt.mp hshort
  have hmagicLen : payloadContainerMagic.length = 4 := rfl
  rw [splitAt_ok (by omega)]
  simp only [Outcome.ok_bind, hmagicLen]
  rw [splitAt_ok (by rw [List.length_drop]; omega)]
  simp only [Outcome.ok_bind]
  split
  · intro h; cases h
  split
  · rename_i hnil
    have := congrArg List.length hnil
    rw [List.length_drop, List.length_drop, List.length_nil] at this
    omega
  · rename_i version rest hrest
    have hrestLen : 4 ≤ rest.length := by
      have := congrArg List.length hrest
      rw [List.length_drop, List.length_drop, List.length_cons] at this
      omega
    split
    · intro h; cases h
    have htake : (rest.take 4).length = 4 := by
      rw [List.length_take]
      omega
    rw [splitAt_ok hrestLen]
    simp only [Outcome.ok_bind, fromLeBytes_ok htake]
    split
    · intro h; cases h
    split
    · intro h; cases h
    split
    · intro h; cases h
    refine Outcome.bind_ne_panic (readChunks_ne_panic _ _) fun a _ => ?_
    split
    · intro h; cases h
    · intro h; cases h

end

/-! ## The header, in and out -/

theorem fromUtf8_asBytes (s : String) : fromUtf8 (asBytes s) = some s := Utf8.decode_encode s

theorem asBytes_of_fromUtf8 {l : Bytes} {s : String} (h : fromUtf8 l = some s) : asBytes s = l := Utf8.encode_of_decode h

theorem i64OfNat_bytes (x : Int64) : i64OfNat x.toBitVec.toNat = x := by
  rw [i64OfNat, BitVec.ofNat_toNat, BitVec.setWidth_eq, Int64.ofBitVec_toBitVec]

theorem i64Bytes_ofNat {l : Bytes} (h : l.length = 8) : i64Bytes (i64OfNat (leNat l)) = l := leBytes_leWord h

theorem u64Bytes_ofNat {l : Bytes} (h : l.length = 8) : leBytes 8 (UInt64.ofNat (leNat l)).toNat = l := by
  have hlt := leNat_lt l
  rw [h] at hlt
  rw [UInt64.toNat_ofNat_of_lt' hlt, ← h, leBytes_leNat]

/-- Both flags say which fields follow. -/
theorem flags_spec (h : FrameHeader) : h.flags &&& ~~~knownFlags = 0 ∧ (h.flags &&& flagRunId ≠ 0 ↔ h.runId.isSome = true) ∧
    (h.flags &&& flagRunTotals ≠ 0 ↔ h.runTotals.isSome = true) := by
  unfold FrameHeader.flags
  cases h.runId.isSome <;> cases h.runTotals.isSome <;> decide

/-- Known flags are what the encoder sets for the fields they announce. -/
theorem flags_known (b : UInt8) (h : b &&& ~~~knownFlags = 0) :
    ((if b &&& flagRunId ≠ 0 then flagRunId else 0) ||| (if b &&& flagRunTotals ≠ 0 then flagRunTotals else 0)) = b := by
  have hall : ∀ n : Fin 256, (UInt8.ofNat n.val) &&& ~~~knownFlags = 0 →
      ((if (UInt8.ofNat n.val) &&& flagRunId ≠ 0 then flagRunId else 0) |||
        (if (UInt8.ofNat n.val) &&& flagRunTotals ≠ 0 then flagRunTotals else 0)) = UInt8.ofNat n.val := by decide +kernel
  have hb := hall ⟨b.toNat, b.toNat_lt⟩
  rw [UInt8.ofNat_toNat] at hb
  exact hb h

theorem readKind_toU8 (k : FrameKind) : FrameHeader.readKind k.toU8 = .ok k := by
  cases k <;> rfl

theorem toU8_of_readKind {b : UInt8} {k : FrameKind} (h : FrameHeader.readKind b = .ok k) : k.toU8 = b := by
  unfold FrameHeader.readKind at h
  split_ifs at h with h0 h1 h2
  · rw [← Outcome.ok.inj h, h0]
    rfl
  · rw [← Outcome.ok.inj h, h1]
    rfl
  · rw [← Outcome.ok.inj h, h2]
    rfl

theorem readKind_ne_panic (b : UInt8) : FrameHeader.readKind b ≠ .panic := by
  unfold FrameHeader.readKind
  split_ifs <;> simp

namespace FrameHeader

/-- The run id has a length of one byte. -/
def IdFits (h : FrameHeader) : Prop := ∀ id, h.runId = some id → (asBytes id).length ≤ 255

def idBytes (h : FrameHeader) : Bytes := h.runId.elim [] fun id => UInt8.ofNat (asBytes id).length :: asBytes id

def totalsBytes (h : FrameHeader) : Bytes := h.runTotals.elim [] fun t => leBytes 8 t.runRows.toNat ++ leBytes 8 t.rowsCum.toNat

def headerBytes (h : FrameHeader) (version : UInt8) : Bytes :=
  [version, h.kind.toU8, h.flags] ++ i64Bytes h.committedAt ++ h.idBytes ++ h.totalsBytes

variable {h : FrameHeader} {version : UInt8} {bytes rest payload : Bytes} {chunks : List Bytes}

theorem encodeHeaderInto_ok_iff : h.encodeHeaderInto version = .ok bytes ↔ h.IdFits ∧ bytes = h.headerBytes version := by
  unfold encodeHeaderInto
  cases hid : h.runId with
  | none =>
    have hfits : h.IdFits := fun id hid' => by rw [hid] at hid'; cases hid'
    simp only [Option.filter_none, Except.ok.injEq, hfits, true_and, headerBytes, idBytes, hid, totalsBytes]
    exact eq_comm
  | some id =>
    by_cases hlong : 255 < (asBytes id).length
    · have hfits : ¬ h.IdFits := fun hf => absurd (hf id hid) (by omega)
      simp [Option.filter, hlong, hfits]
    · have hfits : h.IdFits := fun id' hid' => by
        rw [hid] at hid'
        rw [← Option.some.inj hid']
        omega
      simp only [Option.filter, hlong, decide_false, Bool.false_eq_true, if_false, Except.ok.injEq, hfits, true_and, headerBytes, idBytes, hid,
        totalsBytes]
      exact eq_comm

theorem readRunId_append (hid : h.IdFits) (rest : Bytes) : readRunId h.flags (h.idBytes ++ rest) = .ok (h.runId, rest) := by
  have hflag := (flags_spec h).2.1
  unfold readRunId
  cases hcase : h.runId with
  | none =>
    rw [if_neg (by rw [hflag, hcase]; simp)]
    simp [idBytes, hcase]
  | some id =>
    have hlen : (UInt8.ofNat (asBytes id).length).toNat = (asBytes id).length := by
      rw [UInt8.toNat_ofNat', Nat.mod_eq_of_lt]
      have := hid id hcase
      omega
    rw [if_pos (by rw [hflag, hcase]; rfl)]
    simp only [idBytes, hcase, Option.elim_some, List.cons_append, splitFirst, Outcome.ok_bind, hlen]
    rw [if_neg (by simp), splitAt_append]
    simp only [Outcome.ok_bind, fromUtf8_asBytes, Outcome.pure_eq]

theorem readRunTotals_append (h : FrameHeader) (rest : Bytes) : readRunTotals h.flags (h.totalsBytes ++ rest) = .ok (h.runTotals, rest) := by
  have hflag := (flags_spec h).2.2
  unfold readRunTotals
  cases hcase : h.runTotals with
  | none =>
    rw [if_neg (by rw [hflag, hcase]; simp)]
    simp [totalsBytes, hcase]
  | some t =>
    have hpair : (leBytes 8 t.runRows.toNat ++ leBytes 8 t.rowsCum.toNat).length = 16 := by simp
    have hsplit := @splitAt_append FrameDecodeError (leBytes 8 t.runRows.toNat ++ leBytes 8 t.rowsCum.toNat) rest
    have hhalf := @splitAt_append FrameDecodeError (leBytes 8 t.runRows.toNat) (leBytes 8 t.rowsCum.toNat)
    rw [hpair] at hsplit
    rw [leBytes_length] at hhalf
    rw [if_pos (by rw [hflag, hcase]; rfl)]
    simp only [totalsBytes, hcase, Option.elim_some]
    rw [if_neg (by rw [List.length_append, hpair]; omega), hsplit]
    simp only [Outcome.ok_bind, hhalf, fromLeBytes_leBytes (show t.runRows.toNat < 256 ^ 8 from t.runRows.toNat_lt),
      fromLeBytes_leBytes (show t.rowsCum.toNat < 256 ^ 8 from t.rowsCum.toNat_lt), UInt64.ofNat_toNat, Outcome.pure_eq]

/-- A header is read back, with the payload as it is. -/
theorem decode_append (hversion : version = frameFormatV1 ∨ version = frameFormatV2) (hid : h.IdFits) (payload : Bytes) :
    decode (h.headerBytes version ++ payload) =
      if h.kind = .empty ∧ payload ≠ [] then .error .emptyFrameWithPayload else .ok (h, payload) := by
  have hknown := (flags_spec h).1
  have hbytes : h.headerBytes version ++ payload =
      version :: h.kind.toU8 :: h.flags :: (i64Bytes h.committedAt ++ (h.idBytes ++ (h.totalsBytes ++ payload))) := by
    simp [headerBytes]
  have hts : (i64Bytes h.committedAt).length = 8 := by simp [i64Bytes]
  have hsplit := @splitAt_append FrameDecodeError (i64Bytes h.committedAt) (h.idBytes ++ (h.totalsBytes ++ payload))
  rw [hts] at hsplit
  have hread : (fromLeBytes 8 (i64Bytes h.committedAt) : Outcome FrameDecodeError Nat) = .ok h.committedAt.toBitVec.toNat :=
    fromLeBytes_leBytes (show h.committedAt.toBitVec.toNat < 256 ^ 8 from h.committedAt.toBitVec.isLt)
  rw [hbytes, decode]
  simp only [splitFirst, Outcome.ok_bind]
  rw [if_neg (by rcases hversion with rfl | rfl <;> simp)]
  simp only [Outcome.ok_bind, readKind_toU8, hknown, ne_eq, not_true_eq_false, if_false]
  rw [if_neg (by rw [List.length_append, hts]; omega), hsplit]
  simp only [Outcome.ok_bind, hread, readRunId_append hid, readRunTotals_append, i64OfNat_bytes, Outcome.pure_eq]

theorem splitFirst_canonical {b : UInt8} (hs : splitFirst bytes = .ok (b, rest)) : bytes = b :: rest := by
  cases bytes with
  | nil => cases hs
  | cons b' rest' =>
    obtain ⟨rfl, rfl⟩ := Prod.mk.inj (Outcome.ok.inj hs)
    rfl

theorem splitFirst_ne_panic (bytes : Bytes) : splitFirst bytes ≠ .panic := by
  cases bytes <;> simp [splitFirst]

theorem readRunId_canonical {flags : UInt8} {id : Option String} (hr : readRunId flags bytes = .ok (id, rest)) :
    (flags &&& flagRunId ≠ 0 ↔ id.isSome = true) ∧ (∀ s, id = some s → (asBytes s).length ≤ 255) ∧
      bytes = (id.elim [] fun s => UInt8.ofNat (asBytes s).length :: asBytes s) ++ rest := by
  unfold readRunId at hr
  by_cases hflag : flags &&& flagRunId ≠ 0
  · rw [if_pos hflag, Outcome.bind_eq_ok] at hr
    obtain ⟨⟨len, tail⟩, hfirst, hr⟩ := hr
    have hbytes := splitFirst_canonical hfirst
    have hlen := len.toNat_lt
    by_cases hshort : tail.length < len.toNat
    · simp only [hshort, if_true] at hr
      cases hr
    simp only [hshort, if_false, splitAt_ok (Nat.not_lt.mp hshort), Outcome.ok_bind] at hr
    cases hutf : fromUtf8 (tail.take len.toNat) with
    | none => simp [hutf] at hr
    | some s =>
      simp only [hutf, Outcome.pure_eq, Outcome.ok.injEq, Prod.mk.injEq] at hr
      obtain ⟨rfl, rfl⟩ := hr
      have has := asBytes_of_fromUtf8 hutf
      have hslen : (asBytes s).length = len.toNat := by
        rw [has, List.length_take]
        omega
      refine ⟨by simp [hflag], fun s' hs' => ?_, ?_⟩
      · rw [← Option.some.inj hs']
        omega
      · rw [hbytes, Option.elim_some, hslen, UInt8.ofNat_toNat, has, List.cons_append, List.take_append_drop]
  · simp only [hflag, if_false, Outcome.pure_eq, Outcome.ok.injEq, Prod.mk.injEq] at hr
    obtain ⟨rfl, rfl⟩ := hr
    exact ⟨by simp [hflag], fun s hs => (by cases hs), rfl⟩

theorem readRunId_ne_panic (flags : UInt8) (bytes : Bytes) : readRunId flags bytes ≠ .panic := by
  unfold readRunId
  split
  · refine Outcome.bind_ne_panic (splitFirst_ne_panic _) fun ⟨len, tail⟩ _ => ?_
    dsimp only
    split
    · intro h; cases h
    · rename_i hshort
      rw [splitAt_ok (Nat.not_lt.mp hshort)]
      simp only [Outcome.ok_bind]
      split <;> intro h <;> cases h
  · intro h; cases h

theorem readRunTotals_canonical {flags : UInt8} {totals : Option RunTotals} (hr : readRunTotals flags bytes = .ok (totals, rest)) :
    (flags &&& flagRunTotals ≠ 0 ↔ totals.isSome = true) ∧
      bytes = (totals.elim [] fun t => leBytes 8 t.runRows.toNat ++ leBytes 8 t.rowsCum.toNat) ++ rest := by
  unfold readRunTotals at hr
  by_cases hflag : flags &&& flagRunTotals ≠ 0
  · by_cases hshort : bytes.length < 16
    · simp [hflag, hshort] at hr
    have hraw : (bytes.take 16).length = 16 := by
      rw [List.length_take]
      omega
    have hlow : ((bytes.take 16).take 8).length = 8 := by
      rw [List.length_take]
      omega
    have hhigh : ((bytes.take 16).drop 8).length = 8 := by
      rw [List.length_drop]
      omega
    have hsplit : (splitAt bytes 16 : Outcome FrameDecodeError _) = .ok (bytes.take 16, bytes.drop 16) := splitAt_ok (by omega)
    have hhalf : (splitAt (bytes.take 16) 8 : Outcome FrameDecodeError _) = .ok ((bytes.take 16).take 8, (bytes.take 16).drop 8) :=
      splitAt_ok (by omega)
    simp only [if_pos hflag, hshort, if_false, hsplit, hhalf, Outcome.ok_bind, fromLeBytes_ok hlow, fromLeBytes_ok hhigh, Outcome.pure_eq,
      Outcome.ok.injEq, Prod.mk.injEq] at hr
    obtain ⟨rfl, rfl⟩ := hr
    refine ⟨by simp [hflag], ?_⟩
    rw [Option.elim_some, u64Bytes_ofNat hlow, u64Bytes_ofNat hhigh, List.take_append_drop 8, List.take_append_drop]
  · simp only [hflag, if_false, Outcome.pure_eq, Outcome.ok.injEq, Prod.mk.injEq] at hr
    obtain ⟨rfl, rfl⟩ := hr
    exact ⟨by simp [hflag], rfl⟩

theorem readRunTotals_ne_panic (flags : UInt8) (bytes : Bytes) : readRunTotals flags bytes ≠ .panic := by
  unfold readRunTotals
  split
  · split
    · intro h; cases h
    · rename_i hshort
      rw [splitAt_ok (by omega)]
      simp only [Outcome.ok_bind]
      rw [splitAt_ok (by rw [List.length_take]; omega)]
      simp only [Outcome.ok_bind]
      rw [fromLeBytes_ok (by rw [List.length_take, List.length_take]; omega), fromLeBytes_ok (by rw [List.length_drop, List.length_take]; omega)]
      intro h; cases h
  · intro h; cases h

/-- What is read as a header was written for it. -/
theorem decode_canonical (hd : decode bytes = .ok (h, payload)) :
    ∃ version, (version = frameFormatV1 ∨ version = frameFormatV2) ∧ h.IdFits ∧ bytes = h.headerBytes version ++ payload ∧
      (h.kind = .empty → payload = []) := by
  rw [decode, Outcome.bind_eq_ok] at hd
  obtain ⟨⟨version, r1⟩, h1, hd⟩ := hd
  by_cases hversion : version ≠ frameFormatV1 ∧ version ≠ frameFormatV2
  · simp only [hversion, ne_eq, not_false_eq_true, and_self, if_true] at hd
    cases hd
  simp only [hversion, if_false, Outcome.bind_eq_ok] at hd
  obtain ⟨⟨kindByte, r2⟩, h2, kind, hkind, ⟨flags, r3⟩, h3, hd⟩ := hd
  by_cases hflags : flags &&& ~~~knownFlags = 0
  swap
  · simp only [hflags, ne_eq, not_false_eq_true, if_true] at hd
    cases hd
  by_cases hshort : r3.length < 8
  · simp only [hflags, ne_eq, not_true_eq_false, if_false, hshort, if_true] at hd
    cases hd
  have htake : (r3.take 8).length = 8 := by
    rw [List.length_take]
    omega
  have hsplit : (splitAt r3 8 : Outcome FrameDecodeError _) = .ok (r3.take 8, r3.drop 8) := splitAt_ok (by omega)
  simp only [hflags, ne_eq, not_true_eq_false, if_false, hshort, hsplit, Outcome.ok_bind, fromLeBytes_ok htake, Outcome.bind_eq_ok] at hd
  obtain ⟨⟨id, r4⟩, h4, ⟨totals, r5⟩, h5, hd⟩ := hd
  by_cases hempty : kind = .empty ∧ ¬ r5 = []
  · simp only [hempty, not_false_eq_true, and_self, if_true] at hd
    cases hd
  simp only [hempty, if_false, Outcome.pure_eq, Outcome.ok.injEq, Prod.mk.injEq] at hd
  obtain ⟨rfl, rfl⟩ := hd
  obtain ⟨hidFlag, hidFits, hidBytes⟩ := readRunId_canonical h4
  obtain ⟨htotalsFlag, htotalsBytes⟩ := readRunTotals_canonical h5
  have hflagsEq : (⟨kind, i64OfNat (leNat (r3.take 8)), id, totals⟩ : FrameHeader).flags = flags := by
    have hknown := flags_known flags hflags
    simp only [hidFlag, htotalsFlag] at hknown
    exact hknown
  refine ⟨version, ?_, hidFits, ?_, fun hk => by_contra fun hne => hempty ⟨hk, hne⟩⟩
  · by_contra hne
    exact hversion (not_or.mp hne)
  · have hr2 : r2 = flags :: r3 := splitFirst_canonical h3
    rw [headerBytes, hflagsEq, toU8_of_readKind hkind, i64Bytes_ofNat htake, splitFirst_canonical h1, splitFirst_canonical h2, hr2]
    simp only [idBytes, totalsBytes, List.cons_append, List.nil_append, List.append_assoc, List.cons.injEq, true_and]
    rw [← htotalsBytes, ← hidBytes, List.take_append_drop]

theorem decode_ne_panic (bytes : Bytes) : decode bytes ≠ .panic := by
  rw [decode]
  refine Outcome.bind_ne_panic (splitFirst_ne_panic _) fun ⟨version, r1⟩ _ => ?_
  dsimp only
  split
  · intro h; cases h
  refine Outcome.bind_ne_panic (splitFirst_ne_panic _) fun ⟨kindByte, r2⟩ _ => ?_
  refine Outcome.bind_ne_panic (readKind_ne_panic _) fun kind _ => ?_
  refine Outcome.bind_ne_panic (splitFirst_ne_panic _) fun ⟨flags, r3⟩ _ => ?_
  dsimp only
  split
  · intro h; cases h
  split
  · intro h; cases h
  · rename_i hshort
    rw [splitAt_ok (by omega)]
    simp only [Outcome.ok_bind]
    rw [fromLeBytes_ok (by rw [List.length_take]; omega)]
    simp only [Outcome.ok_bind]
    refine Outcome.bind_ne_panic (readRunId_ne_panic _ _) fun ⟨id, r4⟩ _ => ?_
    refine Outcome.bind_ne_panic (readRunTotals_ne_panic _ _) fun ⟨totals, r5⟩ _ => ?_
    dsimp only
    split <;> intro h <;> cases h

/-! ## Frames -/

/-- The frames of the format: a run id of at most 255 bytes, and chunks that fit a container, or none in an empty frame. -/
structure Fits (h : FrameHeader) (chunks : List Bytes) : Prop where
  id : h.IdFits
  chunks : if h.kind = .empty then chunks = [] else ChunksFit chunks

def frameBytes (h : FrameHeader) (chunks : List Bytes) : Bytes :=
  h.headerBytes frameFormatV2 ++ if h.kind = .empty then [] else containerBytes chunks

/-- The encoder accepts the frames of the format, and writes them. -/
theorem encodeFrame_ok_iff : h.encodeFrame chunks = .ok bytes ↔ h.Fits chunks ∧ bytes = h.frameBytes chunks := by
  unfold encodeFrame frameBytes
  by_cases hempty : h.kind = .empty
  · simp only [hempty, if_true, List.append_nil]
    by_cases hchunks : chunks = []
    · rw [if_neg (not_not.mpr hchunks), encodeHeaderInto_ok_iff]
      exact and_congr_left fun _ => ⟨fun hid => ⟨hid, by rw [if_pos hempty]; exact hchunks⟩, fun hf => hf.id⟩
    · rw [if_pos hchunks]
      refine ⟨fun hc => (by cases hc), fun hf => ?_⟩
      have hnil := hf.1.chunks
      rw [if_pos hempty] at hnil
      exact absurd hnil hchunks
  · simp only [hempty, if_false]
    have hfits : h.Fits chunks ↔ h.IdFits ∧ ChunksFit chunks :=
      ⟨fun hf => ⟨hf.id, by have := hf.chunks; rwa [if_neg hempty] at this⟩, fun hf => ⟨hf.1, by rw [if_neg hempty]; exact hf.2⟩⟩
    rw [hfits]
    cases hlen : payloadContainerLen chunks with
    | error e =>
      have hno : ¬ ChunksFit chunks := fun hf => by
        obtain ⟨n, hn⟩ := payloadContainerLen_ok_iff.mpr hf
        rw [hlen] at hn
        cases hn
      simp [hno]
    | ok n =>
      have hchunks : ChunksFit chunks := payloadContainerLen_ok_iff.mp ⟨n, hlen⟩
      have hcontainer := encodePayloadChunksInto_ok_iff.mpr ⟨hchunks, rfl⟩
      cases hheader : h.encodeHeaderInto frameFormatV2 with
      | error e =>
        have hno : ¬ h.IdFits := fun hid => by
          have hok : h.encodeHeaderInto frameFormatV2 = .ok _ := encodeHeaderInto_ok_iff.mpr ⟨hid, rfl⟩
          rw [hheader] at hok
          cases hok
        simp [hno]
      | ok out =>
        obtain ⟨hid, rfl⟩ := encodeHeaderInto_ok_iff.mp hheader
        simp only [hcontainer, Except.ok.injEq, hid, hchunks, and_self, true_and]
        exact eq_comm

/-- A frame is read back; bytes after it are an error. -/
theorem decodeChunks_append (hf : h.Fits chunks) (rest : Bytes) :
    (decodeChunks (h.frameBytes chunks ++ rest) = .ok (h, chunks) ∧ rest = []) ∨ ∃ e, rest ≠ [] ∧ decodeChunks (h.frameBytes chunks ++ rest) = .error e := by
  have hfirst : ∀ tail, splitFirst (h.headerBytes frameFormatV2 ++ tail) = .ok (frameFormatV2, (h.headerBytes frameFormatV2 ++ tail).tail) := by
    intro tail
    rfl
  have hchunks := hf.chunks
  unfold frameBytes decodeChunks
  rw [List.append_assoc, hfirst]
  simp only [Outcome.ok_bind, decode_append (Or.inr rfl) hf.id]
  by_cases hempty : h.kind = .empty
  · rw [if_pos hempty] at hchunks
    simp only [hempty, if_true, List.nil_append, true_and]
    by_cases hrest : rest = []
    · refine Or.inl ⟨?_, hrest⟩
      simp [hrest, hempty, hchunks]
    · exact Or.inr ⟨.emptyFrameWithPayload, hrest, by simp [hrest]⟩
  · rw [if_neg hempty] at hchunks
    have hv : ¬ frameFormatV2 = frameFormatV1 := by decide
    simp only [hempty, if_false, false_and, Outcome.ok_bind, hv, decodePayloadChunks_append hchunks]
    by_cases hrest : rest = []
    · refine Or.inl ⟨?_, hrest⟩
      simp [hrest, Outcome.mapError]
    · exact Or.inr ⟨.payload (.trailingBytes rest.length), hrest, by simp [hrest, Outcome.mapError]⟩

/-- A version 2 frame that is accepted is what the encoder writes for what was read. -/
theorem decodeChunks_canonical (hd : decodeChunks bytes = .ok (h, chunks)) (hv : bytes.head? = some frameFormatV2) :
    h.Fits chunks ∧ bytes = h.frameBytes chunks := by
  rw [decodeChunks, Outcome.bind_eq_ok] at hd
  obtain ⟨⟨version, tail⟩, hfirst, hd⟩ := hd
  have hversion : version = frameFormatV2 := by
    rw [splitFirst_canonical hfirst] at hv
    exact Option.some.inj hv
  subst hversion
  simp only [Outcome.bind_eq_ok] at hd
  obtain ⟨⟨header, payload⟩, hdecode, hd⟩ := hd
  obtain ⟨version, -, hid, hbytes, hpayload⟩ := decode_canonical hdecode
  have hversion : version = frameFormatV2 := by
    rw [hbytes] at hv
    exact Option.some.inj hv
  subst hversion
  unfold frameBytes
  by_cases hempty : header.kind = .empty
  · simp only [hempty, if_true, Outcome.pure_eq, Outcome.ok.injEq, Prod.mk.injEq] at hd
    obtain ⟨rfl, rfl⟩ := hd
    refine ⟨⟨hid, by rw [if_pos hempty]⟩, ?_⟩
    rw [if_pos hempty, hbytes, hpayload hempty]
  · have hne : ¬ frameFormatV2 = frameFormatV1 := by decide
    simp only [hempty, if_false, hne, Outcome.bind_eq_ok, Outcome.mapError_eq_ok, Outcome.pure_eq, Outcome.ok.injEq, Prod.mk.injEq] at hd
    obtain ⟨chunks', hread, rfl, rfl⟩ := hd
    obtain ⟨hfit, hcontainer⟩ := decodePayloadChunks_canonical hread
    refine ⟨⟨hid, by rw [if_neg hempty]; exact hfit⟩, ?_⟩
    rw [if_neg hempty, hbytes, hcontainer]

theorem decodeChunks_ne_panic (bytes : Bytes) : decodeChunks bytes ≠ .panic := by
  rw [decodeChunks]
  refine Outcome.bind_ne_panic (splitFirst_ne_panic _) fun ⟨version, r1⟩ _ => ?_
  refine Outcome.bind_ne_panic (decode_ne_panic _) fun ⟨header, payload⟩ _ => ?_
  dsimp only
  split
  · intro h; cases h
  split
  · intro h; cases h
  exact Outcome.bind_ne_panic (Outcome.mapError_ne_panic (decodePayloadChunks_ne_panic _)) fun _ _ h => by cases h

/-- The codec of frames and of their containers: what is encoded is read back; the encoder accepts exactly the frames of the
    format; no bytes make the decoder panic; a proper beginning of a container, or of a version 2 frame, is an error; and
    what is accepted as a container or a version 2 frame is encoded to the same bytes. -/
theorem frame_codec :
    (∀ (h : FrameHeader) chunks bytes, h.encodeFrame chunks = .ok bytes → decodeChunks bytes = .ok (h, chunks)) ∧
    (∀ (h : FrameHeader) chunks, (∃ bytes, h.encodeFrame chunks = .ok bytes) ↔ h.Fits chunks) ∧
    (∀ bytes, decodeChunks bytes ≠ .panic ∧ decode bytes ≠ .panic ∧ decodePayloadChunks bytes ≠ .panic) ∧
    (∀ (h : FrameHeader) chunks start rest, h.encodeFrame chunks = .ok (start ++ rest) → rest ≠ [] → ∃ e, decodeChunks start = .error e) ∧
    (∀ chunks start rest, encodePayloadChunks chunks = .ok (start ++ rest) → rest ≠ [] → ∃ e, decodePayloadChunks start = .error e) ∧
    (∀ bytes (h : FrameHeader) chunks, bytes.head? = some frameFormatV2 → decodeChunks bytes = .ok (h, chunks) →
      h.encodeFrame chunks = .ok bytes) ∧
    ∀ bytes chunks, decodePayloadChunks bytes = .ok chunks → encodePayloadChunks chunks = .ok bytes := by
  have hpayload : ∀ {chunks : List Bytes} {bytes : Bytes}, encodePayloadChunks chunks = .ok bytes ↔ ChunksFit chunks ∧ bytes = containerBytes chunks := by
    intro chunks bytes
    rw [← encodePayloadChunksInto_ok_iff, encodePayloadChunks]
    cases hlen : payloadContainerLen chunks with
    | ok n => rfl
    | error e => simp [encodePayloadChunksInto, hlen]
  refine ⟨fun h chunks bytes henc => ?_, fun h chunks => ?_, fun bytes => ⟨decodeChunks_ne_panic bytes, decode_ne_panic bytes,
    decodePayloadChunks_ne_panic bytes⟩, fun h chunks start rest henc hrest => ?_, fun chunks start rest henc hrest => ?_,
    fun bytes h chunks hv hd => ?_, fun bytes chunks hd => ?_⟩
  · obtain ⟨hf, rfl⟩ := encodeFrame_ok_iff.mp henc
    rcases decodeChunks_append hf [] with ⟨hok, -⟩ | ⟨e, hne, -⟩
    · rwa [List.append_nil] at hok
    · exact absurd rfl hne
  · constructor
    · rintro ⟨bytes, henc⟩
      exact (encodeFrame_ok_iff.mp henc).1
    · intro hf
      exact ⟨_, encodeFrame_ok_iff.mpr ⟨hf, rfl⟩⟩
  · -- what was cut off would be bytes after a whole frame
    obtain ⟨hf, hbytes⟩ := encodeFrame_ok_iff.mp henc
    cases hd : decodeChunks start with
    | panic => exact absurd hd (decodeChunks_ne_panic start)
    | error e => exact ⟨e, rfl⟩
    | ok res =>
      obtain ⟨h', chunks'⟩ := res
      have hhead : start.head? = some frameFormatV2 := by
        cases start with
        | nil => cases hd
        | cons b start =>
          have := congrArg List.head? hbytes
          exact this
      obtain ⟨hf', hstart⟩ := decodeChunks_canonical hd hhead
      rcases decodeChunks_append hf' rest with ⟨-, hnil⟩ | ⟨e, -, herr⟩
      · exact absurd hnil hrest
      · rcases decodeChunks_append hf [] with ⟨hok, -⟩ | ⟨e', hne, -⟩
        · rw [List.append_nil, ← hbytes, hstart, herr] at hok
          cases hok
        · exact absurd rfl hne
  · obtain ⟨hf, hbytes⟩ := hpayload.mp henc
    cases hd : decodePayloadChunks start with
    | panic => exact absurd hd (decodePayloadChunks_ne_panic start)
    | error e => exact ⟨e, rfl⟩
    | ok chunks' =>
      obtain ⟨hf', hstart⟩ := decodePayloadChunks_canonical hd
      have hlong := decodePayloadChunks_append hf' rest
      have hwhole := decodePayloadChunks_append hf []
      rw [if_neg hrest] at hlong
      rw [List.append_nil, ← hbytes, hstart, hlong] at hwhole
      cases hwhole
  · exact encodeFrame_ok_iff.mpr (decodeChunks_canonical hd hv)
  · exact hpayload.mpr (decodePayloadChunks_canonical hd)

end FrameHeader

end Rindle.Journal
