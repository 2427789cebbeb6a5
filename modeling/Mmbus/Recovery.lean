import Mmbus.Codec

/-!
# Crash recovery of a segment

What `recover_truncate` leaves of any file with a segment header, and what it leaves of a part of a file that a
`SegmentWriter` has written.

The parser of records accepts encoded records only (`readOneRecord_ok`), so two divisions of the same bytes into records
agree as far as both go (`prefix_of_stuck`).  Recovery therefore keeps the longest prefix that is a sequence of records,
and of a truncated segment the records that lie inside it (`recovers`).
-/

namespace Mmbus

open ByteMemory

structure RecoveryReport where
  finalLen : Nat
  bytesDropped : Nat
  lastCursor : Option Nat
  deriving DecidableEq

section
variable (crc32c : Bytes → UInt32)

/-- `last_cursor` in the scan of `recover_truncate` -/
def lastScanned (file : Bytes) : (rounds pos : Nat) → Option Nat → Option Nat
  | 0, _, last => last
  | rounds + 1, pos, last =>
    match readOneRecord crc32c file pos with
    | .ok none => last
    | .ok (some (r, advance)) => lastScanned file rounds (pos + advance) (some r.cursor)
    | .error _ => last

/-- What `recover_truncate` reports -/
def recoveryReport (file : Bytes) : Except ReaderError RecoveryReport :=
  match FileReader.open file with
  | .error e => .error e
  | .ok _ =>
    let lastCursor := lastScanned crc32c file (file.length + 1) SEGMENT_HEADER_LEN none
    match recoverScan crc32c file (file.length + 1) SEGMENT_HEADER_LEN with
    | (lastGoodEnd, true) => .ok ⟨lastGoodEnd, file.length - lastGoodEnd, lastCursor⟩
    | (_, false) => .ok ⟨file.length, 0, lastCursor⟩

/-- What `n` calls of `next_record` return -/
def FileReader.nexts : (n : Nat) → FileReader → List (Option (Except ReaderError Record))
  | 0, _ => []
  | n + 1, rd => (rd.nextRecord crc32c).1 :: nexts n (rd.nextRecord crc32c).2

end

variable {crc32c : Bytes → UInt32} {file rest : Bytes} {pos n : Nat} {r : Record} {rs rs' : List Record}

/-! ### The parser -/

theorem readOneRecord_none (h : readOneRecord crc32c file pos = .ok none) : file.length ≤ pos := by
  unfold readOneRecord at h
  simp only at h
  by_cases hzero : file.length - pos = 0
  · omega
  · rw [if_neg hzero] at h
    repeat' split at h
    all_goals cases h

/-- The bytes between length and checksum are those of the record that they stand for. -/
theorem body_decodeBody {body : Bytes} (h : 20 ≤ body.length) (hlen : ofLe (slice body 16 4) + 20 = body.length) :
    (decodeBody body).body = body := by
  have hword {a k : Nat} (hak : a + k ≤ body.length) : leBytes k (ofLe (slice body a k)) = slice body a k := by
    have hback := leBytes_ofLe (slice body a k)
    rwa [length_slice hak] at hback
  have hpayload : (slice body 20 (ofLe (slice body 16 4))).length = ofLe (slice body 16 4) := length_slice (by omega)
  have hwhole : slice body 0 (8 + 8 + 4 + ofLe (slice body 16 4)) = body := by
    rw [slice, List.drop_zero, List.take_of_length_le (by omega)]
  simp only [decodeBody, Record.body]
  rw [hpayload, hword (by omega), hword (by omega), hword (by omega)]
  conv_rhs => rw [← hwhole, slice_add, slice_add, slice_add]

/-- What is accepted as a record is a record with its encoding. -/
theorem readOneRecord_ok (h : readOneRecord crc32c file pos = .ok (some (r, n))) :
    r.WellFormed ∧ n = r.len ∧ encodeRecord crc32c r <+: file.drop pos := by
  unfold readOneRecord at h
  simp only at h
  by_cases hzero : file.length - pos = 0
  · rw [if_pos hzero] at h
    cases h
  rw [if_neg hzero] at h
  by_cases hshort : file.length - pos < 4
  · rw [if_pos hshort] at h
    cases h
  rw [if_neg hshort] at h
  generalize hlen : ofLe (slice file pos 4) = recordLen at h
  by_cases hmax : MAX_RECORD_LEN < recordLen
  · rw [if_pos hmax] at h
    cases h
  rw [if_neg hmax] at h
  by_cases hmin : recordLen < RECORD_FRAMING
  · rw [if_pos hmin] at h
    cases h
  rw [if_neg hmin] at h
  by_cases hrest : file.length - pos - 4 < recordLen - 4
  · rw [if_pos hrest] at h
    cases h
  rw [if_neg hrest] at h
  have hframing : RECORD_FRAMING = 28 := rfl
  have hmaxLen : MAX_PAYLOAD_LEN = MAX_RECORD_LEN - RECORD_FRAMING := rfl
  have hmaxVal : RECORD_FRAMING ≤ MAX_RECORD_LEN := by decide
  -- the record in the file: length, body, checksum
  have hbodyLen : recordLen = 4 + (recordLen - 8) + 4 := by omega
  have hbodySlice : slice (slice file (pos + 4) (recordLen - 4)) 0 (recordLen - 4 - 4) =
      slice file (pos + 4) (recordLen - 8) := by
    rw [slice_slice (by omega)]
    rfl
  have hcrcSlice : slice (slice file (pos + 4) (recordLen - 4)) (recordLen - 4 - 4) 4 =
      slice file (pos + 4 + (recordLen - 8)) 4 := slice_slice (by omega)
  rw [hbodySlice, hcrcSlice] at h
  generalize hbody : slice file (pos + 4) (recordLen - 8) = body at h
  have hlength : body.length = recordLen - 8 := by
    rw [← hbody]
    exact length_slice (by omega)
  by_cases hcrc : ofLe (slice file (pos + 4 + (recordLen - 8)) 4) = (crc32c body).toNat
  · rw [if_neg (not_not.2 hcrc)] at h
    by_cases hpayload : ofLe (slice body 16 4) + RECORD_FRAMING = recordLen
    · rw [if_neg (not_not.2 hpayload)] at h
      obtain ⟨rfl, rfl⟩ : decodeBody body = r ∧ recordLen = n := by simpa using h
      have hback : (decodeBody body).body = body := body_decodeBody (by omega) (by omega)
      have hpayloadLen : (decodeBody body).payload.length = ofLe (slice body 16 4) := length_slice (by omega)
      have hword {a : Nat} (ha : a + 8 ≤ body.length) : ofLe (slice body a 8) < 2 ^ 64 := by
        have hlt := ofLe_lt (slice body a 8)
        rwa [length_slice ha] at hlt
      refine ⟨⟨hword (by omega), hword (by omega), by omega⟩, ?_, ?_⟩
      · rw [Record.len, hpayloadLen, Nat.add_comm]
        exact hpayload.symm
      · have hfirst : leBytes 4 (RECORD_FRAMING + (decodeBody body).payload.length) = slice file pos 4 := by
          have hword4 := leBytes_ofLe (slice file pos 4)
          rw [length_slice (by omega), hlen] at hword4
          rw [hpayloadLen, Nat.add_comm, hpayload, hword4]
        have hlast : leBytes 4 (crc32c body).toNat = slice file (pos + 4 + (recordLen - 8)) 4 := by
          have hword4 := leBytes_ofLe (slice file (pos + 4 + (recordLen - 8)) 4)
          rwa [length_slice (by omega), hcrc] at hword4
        rw [encodeRecord, hback, hfirst, hlast, ← hbody, ← slice_add, Nat.add_assoc, ← slice_add]
        exact List.take_prefix ..
    · rw [if_pos hpayload] at h
      cases h
  · rw [if_pos hcrc] at h
    cases h

theorem readOneRecord_initial (h : r.WellFormed) (hinitial : encodeRecord crc32c r <+: file.drop pos) :
    readOneRecord crc32c file pos = .ok (some (r, r.len)) := by
  obtain ⟨post, hpost⟩ := hinitial
  have hpos : pos ≤ file.length := by
    by_contra hlt
    have hnil : file.drop pos = [] := List.drop_eq_nil_of_le (by omega)
    have hlen : (encodeRecord crc32c r ++ post).length = 0 := by rw [hpost, hnil, List.length_nil]
    rw [List.length_append, length_encodeRecord, Record.len, RECORD_FRAMING] at hlen
    omega
  have hfile : file = file.take pos ++ encodeRecord crc32c r ++ post := by
    rw [List.append_assoc, hpost, List.take_append_drop]
  have hread : readOneRecord crc32c (file.take pos ++ encodeRecord crc32c r ++ post) (file.take pos).length =
      .ok (some (r, r.len)) := readOneRecord_encode h
  rwa [← hfile, List.length_take, Nat.min_eq_left hpos] at hread

/-! ### Divisions into records -/

/-- No record begins the bytes. -/
def Stuck (crc32c : Bytes → UInt32) (rest : Bytes) : Prop := ∀ r : Record, r.WellFormed → ¬encodeRecord crc32c r <+: rest

theorem stuck_nil : Stuck crc32c [] := by
  intro r _ hinitial
  have hlen := hinitial.length_le
  rw [length_encodeRecord, Record.len, RECORD_FRAMING, List.length_nil] at hlen
  omega

/-- Records that begin the same bytes are the same. -/
theorem encodeRecord_inj {r' : Record} {rest' : Bytes} (h : r.WellFormed) (h' : r'.WellFormed)
    (heq : encodeRecord crc32c r ++ rest = encodeRecord crc32c r' ++ rest') : r = r' := by
  have hr : readOneRecord crc32c ([] ++ encodeRecord crc32c r ++ rest) 0 = .ok (some (r, r.len)) :=
    readOneRecord_encode h
  have hr' : readOneRecord crc32c ([] ++ encodeRecord crc32c r' ++ rest') 0 = .ok (some (r', r'.len)) :=
    readOneRecord_encode h'
  rw [List.nil_append, heq] at hr
  rw [List.nil_append, hr] at hr'
  exact (Prod.mk.inj (Option.some.inj (Except.ok.inj hr'))).1

theorem prefix_of_stuck {rest' : Bytes} (h : ∀ r ∈ rs, r.WellFormed) (h' : ∀ r ∈ rs', r.WellFormed)
    (hstuck : Stuck crc32c rest) (heq : encodeRecords crc32c rs ++ rest = encodeRecords crc32c rs' ++ rest') :
    rs' <+: rs := by
  induction rs generalizing rs' with
  | nil =>
    cases rs' with
    | nil => exact List.prefix_rfl
    | cons r' rs' =>
      rw [encodeRecords_nil, List.nil_append, encodeRecords_cons, List.append_assoc] at heq
      exact absurd ⟨_, heq.symm⟩ (hstuck r' (h' r' (List.mem_cons_self ..)))
  | cons r rs ih =>
    cases rs' with
    | nil => exact List.nil_prefix
    | cons r' rs' =>
      rw [encodeRecords_cons, encodeRecords_cons, List.append_assoc, List.append_assoc] at heq
      obtain rfl := encodeRecord_inj (h r (List.mem_cons_self ..)) (h' r' (List.mem_cons_self ..)) heq
      have htail := ih (fun q hq => h q (List.mem_cons_of_mem _ hq)) (fun q hq => h' q (List.mem_cons_of_mem _ hq))
        (List.append_cancel_left heq)
      exact (List.prefix_cons_inj r).2 htail

/-! ### The scan -/

/-- The scan finds all records up to where no record begins. -/
theorem recoverScan_eq (crc32c : Bytes → UInt32) {rounds : Nat} (hpos : pos ≤ file.length) (hrounds : file.length - pos < rounds)
    (last : Option Nat) : ∃ rs rest, (∀ r ∈ rs, r.WellFormed) ∧ file.drop pos = encodeRecords crc32c rs ++ rest ∧
      Stuck crc32c rest ∧
      recoverScan crc32c file rounds pos = (pos + (encodeRecords crc32c rs).length, decide (rest ≠ [])) ∧
      lastScanned crc32c file rounds pos last = (rs.getLast?.map Record.cursor).or last := by
  induction rounds generalizing pos last with
  | zero => omega
  | succ rounds ih =>
    cases hread : readOneRecord crc32c file pos with
    | error e =>
      refine ⟨[], file.drop pos, nofun, rfl, fun r hr hinitial => ?_, ?_, ?_⟩
      · rw [readOneRecord_initial hr hinitial] at hread
        cases hread
      · have hne : file.drop pos ≠ [] := by
          intro hnil
          have hend : file.length ≤ pos := List.drop_eq_nil_iff.1 hnil
          rw [readOneRecord_end (Nat.le_antisymm hpos hend)] at hread
          cases hread
        simp only [recoverScan, hread, hne, encodeRecords_nil, List.length_nil, Nat.add_zero, ne_eq, not_false_eq_true,
          decide_true]
      · simp only [lastScanned, hread, List.getLast?_nil, Option.map_none, Option.none_or]
    | ok found =>
      cases found with
      | none =>
        have hnil : file.drop pos = [] := List.drop_eq_nil_of_le (readOneRecord_none hread)
        refine ⟨[], [], nofun, hnil, stuck_nil, ?_, ?_⟩
        · simp only [recoverScan, hread, encodeRecords_nil, List.length_nil, Nat.add_zero, ne_eq, not_true_eq_false,
            decide_false]
        · simp only [lastScanned, hread, List.getLast?_nil, Option.map_none, Option.none_or]
      | some p =>
        obtain ⟨r, advance⟩ := p
        obtain ⟨hr, rfl, tail, htail⟩ := readOneRecord_ok hread
        have hlen : r.len = 28 + r.payload.length := rfl
        have hle : r.len ≤ file.length - pos := by
          rw [← List.length_drop, ← htail, List.length_append, length_encodeRecord]
          omega
        have hinside : pos + r.len ≤ file.length := by omega
        obtain ⟨rs, rest, hrs, hdrop, hstuck, hscan, hlast⟩ := ih hinside (by omega) (some r.cursor)
        have hnext : file.drop (pos + r.len) = tail := by
          rw [← List.drop_drop, ← htail, ← length_encodeRecord crc32c r, List.drop_left]
        refine ⟨r :: rs, rest, List.forall_mem_cons.2 ⟨hr, hrs⟩, ?_, hstuck, ?_, ?_⟩
        · rw [← htail, ← hnext, hdrop, encodeRecords_cons, List.append_assoc]
        · simp only [recoverScan, hread, hscan, encodeRecords_cons, List.length_append, length_encodeRecord,
            Nat.add_assoc]
        · simp only [lastScanned, hread, hlast]
          cases hgl : rs.getLast? with
          | none =>
            obtain rfl := List.getLast?_eq_none_iff.1 hgl
            rfl
          | some q => simp [List.getLast?_cons, hgl]

/-! ### Recovery -/

/-- The file whose header is that of `file`, with the records `rs` -/
def withRecords (crc32c : Bytes → UInt32) (file : Bytes) (rs : List Record) : Bytes :=
  file.take SEGMENT_HEADER_LEN ++ encodeRecords crc32c rs

/-- Recovery leaves of a file the records `rs`. -/
structure Recovered (crc32c : Bytes → UInt32) (file : Bytes) (rs : List Record) : Prop where
  wellFormed : ∀ r ∈ rs, r.WellFormed
  left : recoverTruncate crc32c file = .ok (withRecords crc32c file rs)
  report : recoveryReport crc32c file = .ok ⟨(withRecords crc32c file rs).length,
    file.length - (withRecords crc32c file rs).length, rs.getLast?.map Record.cursor⟩
  part : withRecords crc32c file rs <+: file
  longest : ∀ rs' : List Record, (∀ r ∈ rs', r.WellFormed) → withRecords crc32c file rs' <+: file → rs' <+: rs

theorem FileReader.open_ok (h : FileReader.open file = .ok ⟨file, SEGMENT_HEADER_LEN, false⟩) :
    SEGMENT_HEADER_LEN ≤ file.length := by
  unfold FileReader.open SegmentHeader.parse at h
  by_contra hlt
  have hlen : (slice file 0 SEGMENT_HEADER_LEN).length < SEGMENT_HEADER_LEN := by
    rw [slice, List.drop_zero, List.length_take]
    omega
  rw [if_pos hlen] at h
  cases h

theorem FileReader.open_parse {header : SegmentHeader}
    (h : SegmentHeader.parse (slice file 0 SEGMENT_HEADER_LEN) = .ok header) :
    FileReader.open file = .ok ⟨file, SEGMENT_HEADER_LEN, false⟩ := by
  rw [FileReader.open, h]

theorem recovered_of_open (crc32c : Bytes → UInt32) (h : FileReader.open file = .ok ⟨file, SEGMENT_HEADER_LEN, false⟩) :
    ∃ rs, Recovered crc32c file rs := by
  have hlen := FileReader.open_ok h
  have hrounds : file.length - SEGMENT_HEADER_LEN < file.length + 1 := by omega
  obtain ⟨rs, rest, hrs, hdrop, hstuck, hscan, hlast⟩ := recoverScan_eq crc32c hlen hrounds none
  have hfile : file = withRecords crc32c file rs ++ rest := by
    rw [withRecords, List.append_assoc, ← hdrop, List.take_append_drop]
  have hleft : (withRecords crc32c file rs).length = SEGMENT_HEADER_LEN + (encodeRecords crc32c rs).length := by
    rw [withRecords, List.length_append, List.length_take, Nat.min_eq_left hlen]
  have htake : file.take (withRecords crc32c file rs).length = withRecords crc32c file rs :=
    (List.prefix_iff_eq_take.1 ⟨rest, hfile.symm⟩).symm
  rw [Option.or_none] at hlast
  refine ⟨rs, hrs, ?_, ?_, ⟨rest, hfile.symm⟩, ?_⟩
  · rw [recoverTruncate, h]
    simp only [hscan, ← hleft]
    by_cases hrest : rest = []
    · rw [hrest, List.append_nil] at hfile
      simp only [hrest, ne_eq, not_true_eq_false, decide_false, ← hfile]
    · simp only [hrest, ne_eq, not_false_eq_true, decide_true, htake]
  · rw [recoveryReport, h]
    simp only [hscan, hlast, ← hleft]
    by_cases hrest : rest = []
    · rw [hrest, List.append_nil] at hfile
      simp only [hrest, ne_eq, not_true_eq_false, decide_false, ← hfile, Nat.sub_self]
    · simp only [hrest, ne_eq, not_false_eq_true, decide_true]
  · rintro rs' hrs' ⟨rest', hinitial⟩
    have hdrop' : file.drop SEGMENT_HEADER_LEN = encodeRecords crc32c rs' ++ rest' := by
      conv_lhs => rw [← hinitial, withRecords, List.append_assoc]
      exact List.drop_left' (List.length_take_of_le hlen)
    exact prefix_of_stuck hrs hrs' hstuck (hdrop.symm.trans hdrop')

/-- What recovery leaves is a segment without damage. -/
theorem Recovered.reopen (h : Recovered crc32c file rs) (hlen : SEGMENT_HEADER_LEN ≤ file.length)
    (hopen : FileReader.open file = .ok ⟨file, SEGMENT_HEADER_LEN, false⟩) :
    FileReader.open (withRecords crc32c file rs) = .ok ⟨withRecords crc32c file rs, SEGMENT_HEADER_LEN, false⟩ := by
  have hheader : slice (withRecords crc32c file rs) 0 SEGMENT_HEADER_LEN = slice file 0 SEGMENT_HEADER_LEN := by
    rw [slice_of_initial h.part]
    rw [withRecords, List.length_append, List.length_take, Nat.min_eq_left hlen]
    omega
  unfold FileReader.open at hopen ⊢
  rw [hheader]
  split at hopen
  · rfl
  · cases hopen

theorem withRecords_withRecords (rs rs' : List Record) (hlen : SEGMENT_HEADER_LEN ≤ file.length) :
    withRecords crc32c (withRecords crc32c file rs) rs' = withRecords crc32c file rs' := by
  rw [withRecords, withRecords, List.take_left' (List.length_take_of_le hlen)]
  rfl

/-- A second recovery changes nothing and reports the same last cursor. -/
theorem Recovered.again (h : Recovered crc32c file rs) (hlen : SEGMENT_HEADER_LEN ≤ file.length)
    (hopen : FileReader.open file = .ok ⟨file, SEGMENT_HEADER_LEN, false⟩) :
    Recovered crc32c (withRecords crc32c file rs) rs := by
  obtain ⟨rs₂, h₂⟩ := recovered_of_open crc32c (h.reopen hlen hopen)
  have hle : rs <+: rs₂ := h₂.longest rs h.wellFormed (by simp only [withRecords_withRecords _ _ hlen, List.prefix_rfl])
  have hge : rs₂ <+: rs := by
    refine h.longest rs₂ h₂.wellFormed ?_
    rw [← withRecords_withRecords rs _ hlen]
    exact h₂.part.trans h.part
  obtain rfl : rs₂ = rs := hge.eq_of_length (Nat.le_antisymm hge.length_le hle.length_le)
  exact h₂

theorem FileReader.nexts_before {rd : FileReader} (h : rd.Before crc32c rs) (n : Nat) :
    rd.nexts crc32c n = (rs.map fun r => some (.ok r)).take n ++ List.replicate (n - rs.length) none := by
  induction n generalizing rd rs with
  | zero => simp [FileReader.nexts]
  | succ n ih =>
    cases rs with
    | nil =>
      have htail := ih h
      simp only [FileReader.nexts, h.nextRecord_nil, htail, List.map_nil, List.take_nil, List.nil_append,
        List.length_nil, Nat.sub_zero, List.replicate_succ]
    | cons r rs =>
      obtain ⟨rd', hnext, hrd', -⟩ := h.nextRecord_cons
      simp only [FileReader.nexts, hnext, ih hrd', List.map_cons, List.take_succ_cons, List.length_cons,
        Nat.add_sub_add_right, List.cons_append]

/-- A reader of what is left yields the records, and then the end of the file. -/
theorem Recovered.nexts (h : Recovered crc32c file rs) (hlen : SEGMENT_HEADER_LEN ≤ file.length) (n : Nat) :
    FileReader.nexts crc32c n ⟨withRecords crc32c file rs, SEGMENT_HEADER_LEN, false⟩ =
      (rs.map fun r => some (.ok r)).take n ++ List.replicate (n - rs.length) none :=
  FileReader.nexts_before ⟨rfl, ⟨_, rfl, (List.length_take_of_le hlen).symm⟩, h.wellFormed⟩ n

/-! ### Written segments -/

namespace OneSegment

/-- A `SegmentWriter` with the bytes of its file and of its buffer -/
structure SegmentWriter where
  file : Bytes
  buffer : Bytes
  pendingCursor : UInt64
  durableCursor : UInt64
  bytesWritten : Nat

inductive WriterError
  | payloadTooLarge (payloadLen : Nat)
  | cursorRegressed (got expected : UInt64)

namespace SegmentWriter

/-- `SegmentWriter::create` -/
def create (firstCursor created : UInt64) : SegmentWriter :=
  ⟨encodeSegmentHeader firstCursor.toNat created.toNat, [], firstCursor, firstCursor, SEGMENT_HEADER_LEN⟩

/-- `BufWriter::flush` -/
def flush (w : SegmentWriter) : SegmentWriter := { w with file := w.file ++ w.buffer, buffer := [] }

/-- `BufWriter::write_all` -/
def writeAll (bs : Bytes) (w : SegmentWriter) : SegmentWriter :=
  let spare := BUF_CAPACITY - w.buffer.length
  if bs.length < spare then { w with buffer := w.buffer ++ bs }
  else
    let w := if spare < bs.length then w.flush else w
    if bs.length < BUF_CAPACITY then { w with buffer := w.buffer ++ bs } else { w with file := w.file ++ bs }

/-- `SegmentWriter::append` -/
def append (crc32c : Bytes → UInt32) (cursor ts : UInt64) (payload : Bytes) (w : SegmentWriter) :
    SegmentWriter × Except WriterError Unit :=
  if MAX_PAYLOAD_LEN < payload.length then (w, .error (.payloadTooLarge payload.length))
  else if cursor ≠ w.pendingCursor then (w, .error (.cursorRegressed cursor w.pendingCursor))
  else
    let scratch := encodeRecord crc32c ⟨cursor.toNat, ts.toNat, payload⟩
    ({ w.writeAll scratch with bytesWritten := w.bytesWritten + scratch.length, pendingCursor := cursor + 1 }, .ok ())

/-- `SegmentWriter::fsync` -/
def fsync (w : SegmentWriter) : SegmentWriter := { w.flush with durableCursor := w.pendingCursor }

end SegmentWriter

/-- A call of the writer -/
inductive Call
  | append (cursor ts : UInt64) (payload : Bytes)
  | fsync

/-- A call, with the records that have been appended so far -/
def call (crc32c : Bytes → UInt32) (s : SegmentWriter × List Record) : Call → SegmentWriter × List Record
  | .append cursor ts payload =>
    match s.1.append crc32c cursor ts payload with
    | (w, .ok _) => (w, s.2 ++ [⟨cursor.toNat, ts.toNat, payload⟩])
    | (w, .error _) => (w, s.2)
  | .fsync => (s.1.fsync, s.2)

/-- The calls on a new writer -/
def calls (crc32c : Bytes → UInt32) (firstCursor created : UInt64) (cs : List Call) : SegmentWriter × List Record :=
  cs.foldl (call crc32c) (.create firstCursor created, [])

/-- The file holds records and the buffer those that follow. -/
structure Writes (crc32c : Bytes → UInt32) (firstCursor created : UInt64) (w : SegmentWriter) (rs : List Record) :
    Prop where
  wellFormed : ∀ r ∈ rs, r.WellFormed
  parts : ∃ stored buffered, rs = stored ++ buffered ∧
    w.file = encodeSegment crc32c firstCursor.toNat created.toNat stored ∧ w.buffer = encodeRecords crc32c buffered

variable {firstCursor created cursor ts : UInt64} {payload : Bytes} {w w' : SegmentWriter} {s : SegmentWriter × List Record}

theorem writes_create : Writes crc32c firstCursor created (.create firstCursor created) [] := by
  refine ⟨nofun, [], [], rfl, ?_, rfl⟩
  rw [encodeSegment, encodeRecords_nil, List.append_nil]
  rfl

theorem Writes.flush (h : Writes crc32c firstCursor created w rs) : Writes crc32c firstCursor created w.flush rs := by
  obtain ⟨hrs, stored, buffered, rfl, hfile, hbuffer⟩ := h
  refine ⟨hrs, stored ++ buffered, [], (List.append_nil _).symm, ?_, rfl⟩
  simp only [SegmentWriter.flush, hfile, hbuffer, encodeSegment, encodeRecords_append, List.append_assoc]

private theorem Writes.buffer_append (h : Writes crc32c firstCursor created w rs) (hr : r.WellFormed) :
    Writes crc32c firstCursor created { w with buffer := w.buffer ++ encodeRecord crc32c r } (rs ++ [r]) := by
  obtain ⟨hrs, stored, buffered, rfl, hfile, hbuffer⟩ := h
  refine ⟨?_, stored, buffered ++ [r], List.append_assoc .., hfile, ?_⟩
  · simpa [or_imp, forall_and, hr] using hrs
  · simp only [hbuffer, encodeRecords_append, encodeRecords_cons, encodeRecords_nil, List.append_nil]

theorem Writes.writeAll (h : Writes crc32c firstCursor created w rs) (hr : r.WellFormed) :
    Writes crc32c firstCursor created (w.writeAll (encodeRecord crc32c r)) (rs ++ [r]) := by
  unfold SegmentWriter.writeAll
  simp only
  split
  · exact h.buffer_append hr
  · rename_i hspare
    split
    · split
      · exact h.flush.buffer_append hr
      · exact h.buffer_append hr
    · rename_i hsmall
      -- past the buffer, which is empty
      have hempty : ∃ l, (if BUF_CAPACITY - w.buffer.length < (encodeRecord crc32c r).length then w.flush else w) = l ∧
          Writes crc32c firstCursor created l rs ∧ l.buffer = [] := by
        have hcapacity : BUF_CAPACITY = 8192 := rfl
        split
        · exact ⟨_, rfl, h.flush, rfl⟩
        · rename_i hroom
          exact ⟨_, rfl, h, List.eq_nil_of_length_eq_zero (by omega)⟩
      obtain ⟨l, hl, ⟨hrs, stored, buffered, rfl, hfile, hbuffer⟩, hnil⟩ := hempty
      rw [hl]
      have hnone : encodeRecords crc32c buffered = [] := by rw [← hbuffer, hnil]
      refine ⟨?_, stored ++ buffered ++ [r], [], (List.append_nil _).symm, ?_, hnil⟩
      · simpa [or_imp, forall_and, hr] using hrs
      · simp only [hfile, encodeSegment, encodeRecords_append, hnone, encodeRecords_cons, encodeRecords_nil,
          List.append_nil, List.nil_append, List.append_assoc]

theorem writes_call (h : Writes crc32c firstCursor created s.1 s.2) (c : Call) :
    Writes crc32c firstCursor created (call crc32c s c).1 (call crc32c s c).2 := by
  cases c with
  | fsync => exact ⟨h.flush.wellFormed, h.flush.parts⟩
  | append cursor ts payload =>
    simp only [call, SegmentWriter.append]
    by_cases hpayload : MAX_PAYLOAD_LEN < payload.length
    · simpa only [hpayload, if_true] using h
    · by_cases hcursor : cursor = s.1.pendingCursor
      · have hr : (⟨cursor.toNat, ts.toNat, payload⟩ : Record).WellFormed :=
          ⟨cursor.toNat_lt, ts.toNat_lt, not_lt.1 hpayload⟩
        have hwrite := h.writeAll hr
        simp only [hpayload, hcursor, if_false, ne_eq, not_true_eq_false]
        rw [← hcursor]
        exact ⟨hwrite.wellFormed, hwrite.parts⟩
      · simpa only [hpayload, hcursor, if_false, ne_eq, not_false_eq_true, if_true] using h

/-- What any calls have written is a segment with the first of the appended records. -/
theorem writes_calls (crc32c : Bytes → UInt32) (firstCursor created : UInt64) (cs : List Call) :
    Writes crc32c firstCursor created (calls crc32c firstCursor created cs).1 (calls crc32c firstCursor created cs).2 := by
  suffices hrun : ∀ s : SegmentWriter × List Record, Writes crc32c firstCursor created s.1 s.2 →
      Writes crc32c firstCursor created (cs.foldl (call crc32c) s).1 (cs.foldl (call crc32c) s).2 from
    hrun _ writes_create
  induction cs with
  | nil => exact fun s h => h
  | cons c cs ih => exact fun s h => ih _ (writes_call h c)

/-- An `fsync` leaves nothing in the buffer. -/
theorem buffer_fsync {cs : List Call} (hlast : cs.getLast? = some .fsync) :
    (calls crc32c firstCursor created cs).1.buffer = [] := by
  obtain ⟨init, rfl⟩ := List.getLast?_eq_some_iff.1 hlast
  rw [calls, List.foldl_append]
  rfl

end OneSegment

/-- Of a part of a segment the records that lie inside it are recovered. -/
theorem recovered_take (crc32c : Bytes → UInt32) (firstCursor created : Nat) (hrs : ∀ r ∈ rs, r.WellFormed) (hn : SEGMENT_HEADER_LEN ≤ n) :
    ∃ j, Recovered crc32c ((encodeSegment crc32c firstCursor created rs).take n) (rs.take j) ∧
      recoverTruncate crc32c ((encodeSegment crc32c firstCursor created rs).take n) =
        .ok (encodeSegment crc32c firstCursor created (rs.take j)) ∧
      ∀ i < rs.length, i < j ↔ (encodeSegment crc32c firstCursor created (rs.take (i + 1))).length ≤ n := by
  have hhead (rs' : List Record) : withRecords crc32c ((encodeSegment crc32c firstCursor created rs).take n) rs' =
      encodeSegment crc32c firstCursor created rs' := by
    rw [withRecords, List.take_take, Nat.min_eq_left hn, encodeSegment, List.take_left' (by simp)]
    rfl
  have hopen : FileReader.open ((encodeSegment crc32c firstCursor created rs).take n) =
      .ok ⟨(encodeSegment crc32c firstCursor created rs).take n, SEGMENT_HEADER_LEN, false⟩ := by
    have hparse : SegmentHeader.parse (slice ((encodeSegment crc32c firstCursor created rs).take n) 0 SEGMENT_HEADER_LEN) =
        .ok ⟨ofLe (leBytes 8 firstCursor), ofLe (leBytes 8 created)⟩ := by
      rw [slice, List.drop_zero, List.take_take, Nat.min_eq_left hn, encodeSegment, List.take_left' (by simp),
        SegmentHeader.parse_encode]
    exact FileReader.open_parse hparse
  obtain ⟨kept, hkept⟩ := recovered_of_open crc32c hopen
  -- the records kept are the first of the segment
  have hpart : kept <+: rs := by
    obtain ⟨rest, hrest⟩ := (hhead kept ▸ hkept.part).trans (List.take_prefix ..)
    rw [encodeSegment, encodeSegment, List.append_assoc] at hrest
    exact prefix_of_stuck hrs hkept.wellFormed stuck_nil
      ((List.append_nil _).trans (List.append_cancel_left hrest).symm)
  have htake : kept = rs.take kept.length := List.prefix_iff_eq_take.1 hpart
  have hleft : (encodeSegment crc32c firstCursor created kept).length ≤ n := by
    have hle := (hhead kept ▸ hkept.part).length_le
    rw [List.length_take] at hle
    omega
  have hmono {rs₁ rs₂ : List Record} (h : rs₁ <+: rs₂) : encodeSegment crc32c firstCursor created rs₁ <+:
      encodeSegment crc32c firstCursor created rs₂ := by
    obtain ⟨rest, rfl⟩ := h
    rw [encodeSegment, encodeSegment, encodeRecords_append, ← List.append_assoc]
    exact List.prefix_append ..
  refine ⟨kept.length, htake ▸ hkept, ?_, fun i hi => ⟨fun hlt => ?_, fun hle => ?_⟩⟩
  · rw [hkept.left, hhead, ← htake]
  · refine le_trans (hmono ?_).length_le hleft
    rw [htake]
    exact List.take_prefix_take_left (by omega)
  · have hlong := hkept.longest (rs.take (i + 1)) (fun r hr => hrs r (List.mem_of_mem_take hr)) (by
      rw [hhead]
      exact List.prefix_take_iff.2 ⟨hmono (List.take_prefix ..), hle⟩)
    have hlength := hlong.length_le
    rw [List.length_take] at hlength
    omega

theorem eq_nil_of_encodeRecords (h : encodeRecords crc32c rs = []) : rs = [] := by
  cases rs with
  | nil => rfl
  | cons r rs =>
    have hlength := congrArg List.length h
    have hframing : RECORD_FRAMING = 28 := rfl
    rw [encodeRecords_cons, List.length_append, length_encodeRecord, Record.len, List.length_nil] at hlength
    omega

/-- Recovery keeps the longest prefix that is a sequence of records: these are read back and nothing after them, and a
second recovery finds nothing to do.  Of a written segment that has been truncated, of which an `fsync` leaves nothing in
the buffer, it keeps the records that lie inside what is left. -/
theorem recovers (crc32c : Bytes → UInt32) :
    (∀ (file : Bytes) (header : SegmentHeader),
      SegmentHeader.parse (slice file 0 SEGMENT_HEADER_LEN) = .ok header →
      ∃ rs, Recovered crc32c file rs ∧ Recovered crc32c (withRecords crc32c file rs) rs ∧
        ∃ rd, FileReader.open (withRecords crc32c file rs) = .ok rd ∧ ∀ n, rd.nexts crc32c n =
          (rs.map fun r => some (.ok r)).take n ++ List.replicate (n - rs.length) none) ∧
    ∀ (firstCursor created : UInt64) (cs : List OneSegment.Call),
      ∃ stored buffered, (OneSegment.calls crc32c firstCursor created cs).2 = stored ++ buffered ∧
        (OneSegment.calls crc32c firstCursor created cs).1.file =
          encodeSegment crc32c firstCursor.toNat created.toNat stored ∧
        (cs.getLast? = some .fsync → buffered = []) ∧
        ∀ n, SEGMENT_HEADER_LEN ≤ n →
          ∃ j, recoverTruncate crc32c ((OneSegment.calls crc32c firstCursor created cs).1.file.take n) =
              .ok (encodeSegment crc32c firstCursor.toNat created.toNat (stored.take j)) ∧
            ∀ i < stored.length, i < j ↔
              (encodeSegment crc32c firstCursor.toNat created.toNat (stored.take (i + 1))).length ≤ n := by
  refine ⟨fun file header hheader => ?_, fun firstCursor created cs => ?_⟩
  · have hopen := FileReader.open_parse hheader
    have hlen := FileReader.open_ok hopen
    obtain ⟨rs, hrs⟩ := recovered_of_open crc32c hopen
    exact ⟨rs, hrs, hrs.again hlen hopen, _, hrs.reopen hlen hopen, hrs.nexts hlen⟩
  · obtain ⟨hrs, stored, buffered, heq, hfile, hbuffer⟩ := OneSegment.writes_calls crc32c firstCursor created cs
    refine ⟨stored, buffered, heq, hfile, fun hlast => ?_, fun n hn => ?_⟩
    · rw [OneSegment.buffer_fsync hlast] at hbuffer
      exact eq_nil_of_encodeRecords hbuffer.symm
    have hstored : ∀ r ∈ stored, r.WellFormed := fun r hr => hrs r (heq ▸ List.mem_append_left _ hr)
    obtain ⟨j, -, hleft, hinside⟩ := recovered_take crc32c firstCursor.toNat created.toNat hstored hn
    exact ⟨j, hfile ▸ hleft, hinside⟩

/-- Two records, written through to the file -/
def twoRecords : List OneSegment.Call := [.append 5 7 [1, 2, 3], .append 6 8 [4], .fsync]

/-- A header with a zero-filled tail, and a record of which the last byte is missing -/
theorem recovers_tail : (∃ rs, Recovered castagnoli (encodeSegmentHeader 5 9 ++ List.replicate 40 0) rs) ∧
    (OneSegment.calls castagnoli 5 9 twoRecords).1.file =
        encodeSegment castagnoli 5 9 [⟨5, 7, [1, 2, 3]⟩, ⟨6, 8, [4]⟩] ∧
      recoverTruncate castagnoli ((OneSegment.calls castagnoli 5 9 twoRecords).1.file.take 91) =
        .ok (encodeSegment castagnoli 5 9 [⟨5, 7, [1, 2, 3]⟩]) := by
  obtain ⟨hgarbage, hwritten⟩ := recovers castagnoli
  obtain ⟨stored, buffered, heq, hfile, hflushed, htake⟩ := hwritten 5 9 twoRecords
  obtain rfl : stored = [⟨5, 7, [1, 2, 3]⟩, ⟨6, 8, [4]⟩] := by
    have hall : (OneSegment.calls castagnoli 5 9 twoRecords).2 = [⟨5, 7, [1, 2, 3]⟩, ⟨6, 8, [4]⟩] := by decide +kernel
    rw [hall, hflushed rfl, List.append_nil] at heq
    exact heq.symm
  obtain ⟨j, hj, hinside⟩ := htake 91 (by decide)
  -- the first record ends inside the 91 bytes, the second behind them
  have hfirst : 0 < j := (hinside 0 (by decide)).2 (by decide +kernel)
  have hsecond : ¬1 < j := fun h => absurd ((hinside 1 (by decide)).1 h) (by decide +kernel)
  obtain rfl : j = 1 := by omega
  refine ⟨?_, hfile, hj⟩
  obtain ⟨rs, hrs, -⟩ := hgarbage (encodeSegmentHeader 5 9 ++ List.replicate 40 0) ⟨5, 9⟩ (by decide +kernel)
  exact ⟨rs, hrs⟩

end Mmbus
