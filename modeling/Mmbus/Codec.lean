import Mmbus.Lib.ByteMemory
import Mmbus.Wal

/-!
# The bytes of the log

The encoding of records and segment headers, `SegmentReader` and `recover_truncate`, on the bytes of a segment file of
the v0.1 log.  The checksum is any function of the bytes (`castagnoli` is the one that the code uses).

A segment file that holds encoded records is read back record by record (`FileReader.Before.iter`), and recovery leaves it
as it is (`recoverTruncate_encode`).
-/

namespace Mmbus

open ByteMemory

def SEGMENT_MAGIC : Nat := 0x6D6D62757357414C

def SEGMENT_VERSION : Nat := 1

/-- What the types of the fields say of a record, and `append` of its payload -/
structure Record.WellFormed (r : Record) : Prop where
  cursor_lt : r.cursor < 2 ^ 64
  ts_lt : r.ts < 2 ^ 64
  payload_le : r.payload.length ≤ MAX_PAYLOAD_LEN

/-- The bytes of a record between its length and its checksum -/
def Record.body (r : Record) : Bytes :=
  leBytes 8 r.cursor ++ leBytes 8 r.ts ++ leBytes 4 r.payload.length ++ r.payload

@[simp] theorem Record.length_body (r : Record) : r.body.length = 20 + r.payload.length := by
  simp [body]
  omega

theorem Record.slice_body_cursor (r : Record) : slice r.body 0 8 = leBytes 8 r.cursor := by
  simp only [body, List.append_assoc]
  exact slice_start (by simp)

theorem Record.slice_body_ts (r : Record) : slice r.body 8 8 = leBytes 8 r.ts := by
  rw [body, List.append_assoc]
  exact slice_mid (by simp) (by simp)

theorem Record.slice_body_len (r : Record) : slice r.body 16 4 = leBytes 4 r.payload.length :=
  slice_mid (by simp) (by simp)

theorem Record.slice_body_payload (r : Record) : slice r.body 20 r.payload.length = r.payload :=
  slice_end (by simp) rfl

/-- The record that the bytes between length and checksum stand for -/
def decodeBody (body : Bytes) : Record :=
  ⟨ofLe (slice body 0 8), ofLe (slice body 8 8), slice body 20 (ofLe (slice body 16 4))⟩

theorem Record.WellFormed.len_lt {r : Record} (h : r.WellFormed) : r.payload.length < 256 ^ 4 :=
  h.payload_le.trans_lt (by decide)

theorem Record.WellFormed.ofLe_len {r : Record} (h : r.WellFormed) : ofLe (slice r.body 16 4) = r.payload.length := by
  rw [r.slice_body_len, ofLe_leBytes h.len_lt]

theorem Record.WellFormed.decodeBody {r : Record} (h : r.WellFormed) : decodeBody r.body = r := by
  simp only [Mmbus.decodeBody, h.ofLe_len, r.slice_body_cursor, r.slice_body_ts, r.slice_body_payload]
  rw [ofLe_leBytes h.cursor_lt, ofLe_leBytes h.ts_lt]

/-- A bit of CRC-32C -/
def crcBit (crc : UInt32) : UInt32 := if crc &&& 1 = 1 then (crc >>> 1) ^^^ 0x82F63B78 else crc >>> 1

def crcByte (crc : UInt32) (b : UInt8) : UInt32 := (List.range 8).foldl (fun crc _ => crcBit crc) (crc ^^^ b.toUInt32)

/-- The checksum that the library `crc32c` computes; the results hold for any other as well. -/
def castagnoli (bytes : Bytes) : UInt32 := bytes.foldl crcByte 0xFFFFFFFF ^^^ 0xFFFFFFFF

example : castagnoli [0x31, 0x32, 0x33, 0x34, 0x35, 0x36, 0x37, 0x38, 0x39] = 0xE3069283 := by decide +kernel

inductive SegmentHeaderError
  | badMagic (got : Nat)
  | unsupportedVersion (got : Nat)
  | truncated (len : Nat)
  deriving DecidableEq

inductive ReaderError
  | header (e : SegmentHeaderError)
  | oversizeRecord (recordLen : Nat)
  | crcMismatch (offset stored computed : Nat)
  | shortRead (offset needed : Nat)
  deriving DecidableEq

structure SegmentHeader where
  firstCursor : Nat
  createdUnixNanos : Nat
  deriving DecidableEq

def encodeSegmentHeader (firstCursor created : Nat) : Bytes :=
  leBytes 8 SEGMENT_MAGIC ++ leBytes 4 SEGMENT_VERSION ++ leBytes 4 0 ++ leBytes 8 firstCursor ++ leBytes 8 created

@[simp] theorem length_encodeSegmentHeader (firstCursor created : Nat) :
    (encodeSegmentHeader firstCursor created).length = SEGMENT_HEADER_LEN := by
  simp [encodeSegmentHeader, SEGMENT_HEADER_LEN]

def SegmentHeader.parse (bytes : Bytes) : Except SegmentHeaderError SegmentHeader :=
  if bytes.length < SEGMENT_HEADER_LEN then .error (.truncated bytes.length)
  else
    let magic := ofLe (slice bytes 0 8)
    let version := ofLe (slice bytes 8 4)
    if magic ≠ SEGMENT_MAGIC then .error (.badMagic magic)
    else if version ≠ SEGMENT_VERSION then .error (.unsupportedVersion version)
    else .ok ⟨ofLe (slice bytes 16 8), ofLe (slice bytes 24 8)⟩

theorem SegmentHeader.parse_encode (firstCursor created : Nat) :
    SegmentHeader.parse (encodeSegmentHeader firstCursor created) =
      .ok ⟨ofLe (leBytes 8 firstCursor), ofLe (leBytes 8 created)⟩ := by
  have hmagic : ofLe (slice (encodeSegmentHeader firstCursor created) 0 8) = SEGMENT_MAGIC := by
    simp only [encodeSegmentHeader, List.append_assoc]
    rw [slice_start (by simp), ofLe_leBytes (by decide)]
  have hversion : ofLe (slice (encodeSegmentHeader firstCursor created) 8 4) = SEGMENT_VERSION := by
    simp only [encodeSegmentHeader, List.append_assoc]
    rw [← List.append_assoc, slice_mid (by simp) (by simp), ofLe_leBytes (by decide)]
  have hfirst : slice (encodeSegmentHeader firstCursor created) 16 8 = leBytes 8 firstCursor :=
    slice_mid (by simp) (by simp)
  have hcreated : slice (encodeSegmentHeader firstCursor created) 24 8 = leBytes 8 created := by
    rw [encodeSegmentHeader]
    exact slice_end (by simp) (by simp)
  simp only [parse, length_encodeSegmentHeader, lt_irrefl, if_false, hmagic, hversion, hfirst, hcreated, ne_eq,
    not_true_eq_false]

section
variable (crc32c : Bytes → UInt32)

/-- `encode_record_into` -/
def encodeRecord (r : Record) : Bytes :=
  leBytes 4 (RECORD_FRAMING + r.payload.length) ++ r.body ++ leBytes 4 (crc32c r.body).toNat

@[simp] theorem length_encodeRecord (r : Record) : (encodeRecord crc32c r).length = r.len := by
  simp [encodeRecord, Record.len, RECORD_FRAMING]
  omega

/-- `read_one_record`, on the bytes of a file -/
def readOneRecord (file : Bytes) (pos : Nat) : Except ReaderError (Option (Record × Nat)) :=
  let remaining := file.length - pos
  if remaining = 0 then .ok none
  else if remaining < 4 then .error (.shortRead pos (4 - remaining))
  else
    let recordLen := ofLe (slice file pos 4)
    if MAX_RECORD_LEN < recordLen then .error (.oversizeRecord recordLen)
    else if recordLen < RECORD_FRAMING then .error (.oversizeRecord recordLen)
    else
      let totalAfterLen := recordLen - 4
      let remainingAfterLen := remaining - 4
      if remainingAfterLen < totalAfterLen then .error (.shortRead pos (totalAfterLen - remainingAfterLen))
      else
        let bodyAndCrc := slice file (pos + 4) totalAfterLen
        let bodyLen := totalAfterLen - 4
        let body := slice bodyAndCrc 0 bodyLen
        let storedCrc := ofLe (slice bodyAndCrc bodyLen 4)
        let computedCrc := (crc32c body).toNat
        if storedCrc ≠ computedCrc then .error (.crcMismatch pos storedCrc computedCrc)
        else if ofLe (slice body 16 4) + RECORD_FRAMING ≠ recordLen then .error (.oversizeRecord recordLen)
        else .ok (some (decodeBody body, recordLen))

variable {crc32c}

theorem readOneRecord_end {file : Bytes} {pos : Nat} (h : pos = file.length) : readOneRecord crc32c file pos = .ok none := by
  simp [readOneRecord, h]

/-- A record is read back. -/
theorem readOneRecord_encode {pre post : Bytes} {r : Record} (h : r.WellFormed) :
    readOneRecord crc32c (pre ++ encodeRecord crc32c r ++ post) pre.length = .ok (some (r, r.len)) := by
  have hlen : (pre ++ encodeRecord crc32c r ++ post).length - pre.length = r.len + post.length := by
    simp only [List.length_append, length_encodeRecord]
    omega
  have hlenEq : r.len = RECORD_FRAMING + r.payload.length := rfl
  have hframing : RECORD_FRAMING = 28 := rfl
  have hmax : ¬MAX_RECORD_LEN < r.len := by
    have hpayload := h.payload_le
    have : MAX_PAYLOAD_LEN = MAX_RECORD_LEN - RECORD_FRAMING := rfl
    have : RECORD_FRAMING ≤ MAX_RECORD_LEN := by decide
    omega
  have hlt : r.len < 256 ^ 4 := (not_lt.1 hmax).trans_lt (by decide)
  have hword : ofLe (slice (pre ++ encodeRecord crc32c r ++ post) pre.length 4) = r.len := by
    simp only [encodeRecord, List.append_assoc]
    rw [← List.append_assoc, slice_mid rfl (by simp), ← hlenEq, ofLe_leBytes hlt]
  have hrest : slice (pre ++ encodeRecord crc32c r ++ post) (pre.length + 4) (r.len - 4) =
      r.body ++ leBytes 4 (crc32c r.body).toNat := by
    have hassoc : pre ++ encodeRecord crc32c r ++ post =
        (pre ++ leBytes 4 r.len) ++ (r.body ++ leBytes 4 (crc32c r.body).toNat) ++ post := by
      simp only [encodeRecord, hlenEq, List.append_assoc]
    rw [hassoc]
    exact slice_mid (by simp) (by simp; omega)
  have hbodyLen : r.len - 4 - 4 = r.body.length := by
    rw [r.length_body]
    omega
  have hbody : slice (r.body ++ leBytes 4 (crc32c r.body).toNat) 0 (r.len - 4 - 4) = r.body := slice_start hbodyLen
  have hcrc : ofLe (slice (r.body ++ leBytes 4 (crc32c r.body).toNat) (r.len - 4 - 4) 4) = (crc32c r.body).toNat := by
    rw [slice_end hbodyLen (by simp), ofLe_leBytes (crc32c r.body).toNat_lt]
  have hpayload : r.payload.length + RECORD_FRAMING = r.len := Nat.add_comm ..
  have hmin : ¬r.len < RECORD_FRAMING := by omega
  simp only [readOneRecord, hlen, hword, hrest, hbody, hcrc, h.ofLe_len, h.decodeBody, hmax, hmin, hpayload, if_false,
    ne_eq, not_true_eq_false]
  rw [if_neg (by omega), if_neg (by omega), if_neg (by omega)]

/-! ### A segment file -/

section
variable (crc32c)

/-- The records one after the other -/
def encodeRecords (rs : List Record) : Bytes := rs.flatMap (encodeRecord crc32c)

@[simp] theorem encodeRecords_nil : encodeRecords crc32c [] = [] := rfl

theorem encodeRecords_cons (r : Record) (rs : List Record) :
    encodeRecords crc32c (r :: rs) = encodeRecord crc32c r ++ encodeRecords crc32c rs := rfl

theorem encodeRecords_append (rs rs' : List Record) :
    encodeRecords crc32c (rs ++ rs') = encodeRecords crc32c rs ++ encodeRecords crc32c rs' :=
  List.flatMap_append ..

@[simp] theorem length_encodeRecords (rs : List Record) :
    (encodeRecords crc32c rs).length = (rs.map Record.len).sum := by
  induction rs with
  | nil => rfl
  | cons r rs ih => rw [encodeRecords_cons, List.length_append, length_encodeRecord, ih, List.map_cons, List.sum_cons]

/-- The bytes of a segment file with the records `rs` -/
def encodeSegment (firstCursor created : Nat) (rs : List Record) : Bytes :=
  encodeSegmentHeader firstCursor created ++ encodeRecords crc32c rs

/-- An open `SegmentReader`, with the bytes that the file had when it was opened -/
structure FileReader where
  bytes : Bytes
  pos : Nat
  halted : Bool

namespace FileReader

/-- `SegmentReader::open` -/
def «open» (bytes : Bytes) : Except ReaderError FileReader :=
  match SegmentHeader.parse (slice bytes 0 SEGMENT_HEADER_LEN) with
  | .ok _ => .ok ⟨bytes, SEGMENT_HEADER_LEN, false⟩
  | .error e => .error (.header e)

/-- `SegmentReader::next_record` -/
def nextRecord (rd : FileReader) : Option (Except ReaderError Record) × FileReader :=
  if rd.halted then (none, rd)
  else
    match readOneRecord crc32c rd.bytes rd.pos with
    | .ok (some (r, advance)) => (some (.ok r), { rd with pos := rd.pos + advance })
    | .ok none => (none, rd)
    | .error e => (some (.error e), { rd with halted := true })

/-- The records from the position on: each takes a byte at least, so as many rounds as there are bytes are enough. -/
def recordsFrom : (rounds : Nat) → FileReader → List Record
  | 0, _ => []
  | rounds + 1, rd =>
    match rd.nextRecord crc32c with
    | (some (.ok r), rd) => r :: recordsFrom rounds rd
    | _ => []

/-- `reader.iter().flatten()` -/
def iter (rd : FileReader) : List Record := rd.recordsFrom crc32c rd.bytes.length

end FileReader

/-- The scan of `recover_truncate`: the end of the last good record, and whether a bad one follows -/
def recoverScan (file : Bytes) : (rounds pos : Nat) → Nat × Bool
  | 0, pos => (pos, false)
  | rounds + 1, pos =>
    match readOneRecord crc32c file pos with
    | .ok none => (pos, false)
    | .ok (some (_, advance)) => recoverScan file rounds (pos + advance)
    | .error _ => (pos, true)

/-- `recover_truncate`: the bytes that are left of a file -/
def recoverTruncate (file : Bytes) : Except ReaderError Bytes :=
  match FileReader.open file with
  | .error e => .error e
  | .ok _ =>
    match recoverScan crc32c file (file.length + 1) SEGMENT_HEADER_LEN with
    | (lastGoodEnd, true) => .ok (file.take lastGoodEnd)
    | (_, false) => .ok file

end

/-- The reader stands before the records `rs`, with which the file ends. -/
structure FileReader.Before (crc32c : Bytes → UInt32) (rd : FileReader) (rs : List Record) : Prop where
  halted : rd.halted = false
  bytes : ∃ pre, rd.bytes = pre ++ encodeRecords crc32c rs ∧ rd.pos = pre.length
  wellFormed : ∀ r ∈ rs, r.WellFormed

variable {rd : FileReader} {r : Record} {rs : List Record} {firstCursor created : Nat}

theorem FileReader.open_encode (rs : List Record) :
    FileReader.open (encodeSegment crc32c firstCursor created rs) =
      .ok ⟨encodeSegment crc32c firstCursor created rs, SEGMENT_HEADER_LEN, false⟩ := by
  rw [FileReader.open, encodeSegment, slice_start (by simp), SegmentHeader.parse_encode]

theorem FileReader.before_open (h : ∀ r ∈ rs, r.WellFormed) :
    Before crc32c ⟨encodeSegment crc32c firstCursor created rs, SEGMENT_HEADER_LEN, false⟩ rs :=
  ⟨rfl, ⟨_, rfl, by simp⟩, h⟩

theorem FileReader.Before.nextRecord_nil (h : rd.Before crc32c []) : rd.nextRecord crc32c = (none, rd) := by
  obtain ⟨pre, hbytes, hpos⟩ := h.bytes
  have hend : readOneRecord crc32c rd.bytes rd.pos = .ok none :=
    readOneRecord_end (by rw [hpos, hbytes, encodeRecords_nil, List.append_nil])
  simp only [nextRecord, h.halted, hend, Bool.false_eq_true, if_false]

theorem FileReader.Before.nextRecord_cons (h : rd.Before crc32c (r :: rs)) :
    ∃ rd', rd.nextRecord crc32c = (some (.ok r), rd') ∧ rd'.Before crc32c rs ∧ rd'.bytes = rd.bytes := by
  obtain ⟨pre, hbytes, hpos⟩ := h.bytes
  rw [encodeRecords_cons, ← List.append_assoc] at hbytes
  have hread : readOneRecord crc32c rd.bytes rd.pos = .ok (some (r, r.len)) := by
    rw [hbytes, hpos]
    exact readOneRecord_encode (h.wellFormed r (List.mem_cons_self ..))
  simp only [nextRecord, h.halted, hread, Bool.false_eq_true, if_false]
  exact ⟨_, rfl, ⟨rfl, ⟨_, hbytes, by simp [hpos]⟩, fun q hq => h.wellFormed q (List.mem_cons_of_mem _ hq)⟩, rfl⟩

theorem length_le_encodeRecords (crc32c : Bytes → UInt32) (rs : List Record) :
    rs.length ≤ (encodeRecords crc32c rs).length := by
  rw [length_encodeRecords]
  induction rs with
  | nil => exact le_rfl
  | cons r rs ih =>
    have hlen : r.len = 28 + r.payload.length := rfl
    rw [List.length_cons, List.map_cons, List.sum_cons]
    omega

theorem FileReader.Before.recordsFrom {rounds : Nat} (h : rd.Before crc32c rs) (hrounds : rs.length ≤ rounds) :
    rd.recordsFrom crc32c rounds = rs := by
  induction rs generalizing rd rounds with
  | nil =>
    cases rounds with
    | zero => rfl
    | succ rounds => simp only [FileReader.recordsFrom, h.nextRecord_nil]
  | cons r rs ih =>
    obtain ⟨rd', hnext, hrd', -⟩ := h.nextRecord_cons
    cases rounds with
    | zero => simp at hrounds
    | succ rounds => simp only [FileReader.recordsFrom, hnext, ih hrd' (by simpa using hrounds)]

theorem FileReader.Before.iter (h : rd.Before crc32c rs) : rd.iter crc32c = rs := by
  refine h.recordsFrom ?_
  obtain ⟨pre, hbytes, -⟩ := h.bytes
  rw [hbytes, List.length_append]
  exact (length_le_encodeRecords crc32c rs).trans (Nat.le_add_left ..)

theorem recoverScan_encode {pre : Bytes} {rounds : Nat} (h : ∀ r ∈ rs, r.WellFormed) (hrounds : rs.length < rounds) :
    (recoverScan crc32c (pre ++ encodeRecords crc32c rs) rounds pre.length).2 = false := by
  induction rs generalizing pre rounds with
  | nil =>
    cases rounds with
    | zero => rfl
    | succ rounds => simp only [recoverScan, encodeRecords_nil, List.append_nil, readOneRecord_end]
  | cons r rs ih =>
    cases rounds with
    | zero => rfl
    | succ rounds =>
      have hread : readOneRecord crc32c (pre ++ encodeRecord crc32c r ++ encodeRecords crc32c rs) pre.length =
          .ok (some (r, r.len)) := readOneRecord_encode (h r (List.mem_cons_self ..))
      have hrest : (recoverScan crc32c (pre ++ encodeRecord crc32c r ++ encodeRecords crc32c rs) rounds
          (pre ++ encodeRecord crc32c r).length).2 = false :=
        ih (fun q hq => h q (List.mem_cons_of_mem _ hq)) (Nat.lt_of_succ_lt_succ hrounds)
      rw [List.length_append, length_encodeRecord] at hrest
      rw [encodeRecords_cons, ← List.append_assoc]
      simpa only [recoverScan, hread] using hrest

/-- Recovery leaves a segment without damage as it is. -/
theorem recoverTruncate_encode (h : ∀ r ∈ rs, r.WellFormed) :
    recoverTruncate crc32c (encodeSegment crc32c firstCursor created rs) =
      .ok (encodeSegment crc32c firstCursor created rs) := by
  have hrounds : rs.length < (encodeSegment crc32c firstCursor created rs).length + 1 := by
    have := length_le_encodeRecords crc32c rs
    rw [encodeSegment, List.length_append]
    omega
  have hscan : (recoverScan crc32c (encodeSegmentHeader firstCursor created ++ encodeRecords crc32c rs)
      ((encodeSegment crc32c firstCursor created rs).length + 1) (encodeSegmentHeader firstCursor created).length).2 =
        false := recoverScan_encode h hrounds
  rw [length_encodeSegmentHeader, ← encodeSegment] at hscan
  rw [recoverTruncate, FileReader.open_encode]
  simp only
  split
  · rename_i heq
    rw [heq] at hscan
    cases hscan
  · rfl

end

end Mmbus
