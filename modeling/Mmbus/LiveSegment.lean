import Mmbus.Lib.Transition
import Mmbus.MappedSegment

/-!
# Readers of a live segment

`MmapSegmentReader::next_record`, one load at a time, while the writer of the segment is at work.  Any number of
readers run, each with its own position; a call of `next_record` that has returned leaves its outcome behind.

A reader follows the writer (`Follows`): it has returned the first records of the segment, and stands before the next
one, of which it may have loaded some bytes, or at the end.
-/

namespace Mmbus.V2

open ByteMemory FlagBit Transition

inductive ReaderError
  | io
  | header (e : SegmentHeaderError)
  | legacyV1Segment
  | oversizeRecord (recordLen offset : Nat)
  | crcMismatch (offset stored computed : Nat)
  | undersizeRecord (recordLen offset : Nat)
  deriving DecidableEq

inductive ReadOutcome
  | record (r : Record)
  | awaitMore
  | endOfSegment
  | err (e : ReaderError)
  deriving DecidableEq

/-- What the length word at `pos` says: the outcome and the next position, or the length of a record -/
def checkLen (size pos raw : Nat) : (ReadOutcome × Nat) ⊕ Nat :=
  if raw = 0 then .inl (.awaitMore, pos)
  else if raw = SKIP_TO_END_SENTINEL then .inl (.endOfSegment, size)
  else if hasFlag WRITING_BIT raw then .inl (.awaitMore, pos)
  else if MAX_RECORD_LEN < raw then .inl (.err (.oversizeRecord raw pos), size)
  else if raw < RECORD_FRAMING then .inl (.err (.undersizeRecord raw pos), size)
  else if size < pos + raw then .inl (.err (.oversizeRecord raw pos), size)
  else .inr raw

theorem checkLen_record {size pos : Nat} {r : Record} (hr : r.WellFormed) (hfits : pos + recordBytes r ≤ size) :
    checkLen size pos (recordBytes r) = .inr (recordBytes r) := by
  have hmin := framing_le_recordBytes r
  have hmax := recordBytes_lt hr
  have hframing : 0 < RECORD_FRAMING := by decide
  have hflag : hasFlag WRITING_BIT (recordBytes r) = false := hasFlag_of_lt (hmax.trans_lt (by decide))
  have hsentinel : recordBytes r ≠ SKIP_TO_END_SENTINEL := (hmax.trans_lt (by decide)).ne
  rw [checkLen, if_neg (by omega), if_neg hsentinel, if_neg (by simp [hflag]), if_neg (by omega), if_neg (by omega),
    if_neg (by omega)]

theorem checkLen_writing {size pos : Nat} {r : Record} (hr : r.WellFormed) :
    checkLen size pos (setFlag WRITING_BIT (recordBytes r)) = .inl (.awaitMore, pos) := by
  have hlt : recordBytes r < 2 ^ WRITING_BIT := (recordBytes_lt hr).trans_lt (by decide)
  have hne : setFlag WRITING_BIT (recordBytes r) ≠ 0 := setFlag_ne hlt (by decide)
  have hsentinel : setFlag WRITING_BIT (recordBytes r) ≠ SKIP_TO_END_SENTINEL := by
    have hmax := recordBytes_lt hr
    have : 2 ^ WRITING_BIT + MAX_RECORD_LEN < SKIP_TO_END_SENTINEL := by decide
    rw [setFlag_eq hlt]
    omega
  rw [checkLen, if_neg hne, if_neg hsentinel, if_pos (hasFlag_setFlag hlt)]

/-- The bytes that a call has loaded of a record of `len` bytes: its first fields, its checksum, what the checksum is
over, and the payload -/
structure Decoding where
  len : Nat
  head : Bytes
  crc : Bytes
  input : Bytes
  payload : Bytes

inductive ReaderPc
  | idle
  | tail
  | len
  | decode (d : Decoding)

/-- A reader, with what its calls have returned -/
structure MmapSegmentReader where
  pos : Nat
  pc : ReaderPc
  outcomes : List ReadOutcome

/-- The records among the outcomes -/
def recordsOf (outcomes : List ReadOutcome) : List Record :=
  outcomes.filterMap fun
    | .record r => some r
    | _ => none

namespace MmapSegmentReader

/-- A reader that has just been opened -/
def opened : MmapSegmentReader := ⟨SEGMENT_HEADER_LEN, .idle, []⟩

/-- `MmapSegmentReader::open` on a file of `size` bytes -/
def «open» (size : Nat) (m : Memory) : Except ReaderError MmapSegmentReader :=
  let magic := ofLe (load m 0 8)
  let version := ofLe (load m 8 4)
  if size < SEGMENT_HEADER_LEN then .error (.header (.truncated size))
  else if magic ≠ SEGMENT_MAGIC then .error (.header (.badMagic magic))
  else if version = 1 then .error .legacyV1Segment
  else if version ≠ SEGMENT_VERSION_V2 then .error (.header (.unsupportedVersion version))
  else .ok opened

/-- Return from the call. -/
def «return» (outcome : ReadOutcome) (pos : Nat) (rd : MmapSegmentReader) : MmapSegmentReader :=
  ⟨pos, .idle, rd.outcomes ++ [outcome]⟩

def goto (pc : ReaderPc) (rd : MmapSegmentReader) : MmapSegmentReader := { rd with pc := pc }

section
variable (crc32c : Bytes → UInt32)

/-- The next load of a record, or the checks behind the last one -/
def decodeStep (m : Memory) (d : Decoding) (rd : MmapSegmentReader) : MmapSegmentReader :=
  let payloadLen := ofLe (slice d.head 16 4)
  if d.head.length < 20 then
    rd.goto (.decode { d with head := d.head ++ [m (rd.pos + 4 + d.head.length)] })
  else if d.len < 24 + payloadLen + 4 then
    rd.return (.err (.oversizeRecord d.len rd.pos)) (rd.pos + alignRecordLen d.len)
  else if d.crc.length < 4 then
    rd.goto (.decode { d with crc := d.crc ++ [m (rd.pos + d.len - 4 + d.crc.length)] })
  else if d.input.length < d.len - 8 then
    rd.goto (.decode { d with input := d.input ++ [m (rd.pos + 4 + d.input.length)] })
  else if ofLe d.crc ≠ (crc32c d.input).toNat then
    rd.return (.err (.crcMismatch rd.pos (ofLe d.crc) (crc32c d.input).toNat)) (rd.pos + d.len)
  else if d.payload.length < payloadLen then
    rd.goto (.decode { d with payload := d.payload ++ [m (rd.pos + 24 + d.payload.length)] })
  else
    rd.return (.record ⟨ofLe (slice d.head 0 8), ofLe (slice d.head 8 8), d.payload⟩) (rd.pos + d.len)

/-- The next step of the reader; between two calls, the beginning of the next one -/
def step (size : Nat) (m : Memory) (rd : MmapSegmentReader) : MmapSegmentReader :=
  match rd.pc with
  | .idle => if size ≤ rd.pos then rd.return .endOfSegment rd.pos else rd.goto .tail
  | .tail => if ofLe (load m TAIL_OFFSET 8) ≤ rd.pos then rd.return .awaitMore rd.pos else rd.goto .len
  | .len =>
    match checkLen size rd.pos (ofLe (load m rd.pos 4)) with
    | .inl (outcome, pos) => rd.return outcome pos
    | .inr len => rd.goto (.decode ⟨len, [], [], [], []⟩)
  | .decode d => decodeStep crc32c m d rd

end

/-- What the calls have returned so far -/
def records (rd : MmapSegmentReader) : List Record := recordsOf rd.outcomes

end MmapSegmentReader

/-! ### Following the writer -/

open MmapSegmentReader

/-- All bytes that have been loaded are those of `r`. -/
structure Decoding.Of (crc32c : Bytes → UInt32) (r : Record) (d : Decoding) : Prop where
  len : d.len = recordBytes r
  head : d.head <+: paddedBody r
  crc : d.crc <+: leBytes 4 (crc32c (paddedBody r)).toNat
  input : d.input <+: paddedBody r
  payload : d.payload <+: r.payload

/-- What a call in progress has loaded, when the records `rest` are still to be returned -/
def Loaded (crc32c : Bytes → UInt32) (rest : List Record) : ReaderPc → Prop
  | .decode d => ∃ r rest', rest = r :: rest' ∧ d.Of crc32c r
  | _ => True

/-- The reader has returned the records `returned`, and `rest` are still to come. -/
structure At (crc32c : Bytes → UInt32) (s : Mapping) (rd : MmapSegmentReader) (returned rest : List Record) : Prop where
  log : s.log = returned ++ rest
  records : rd.records = returned
  place : rd.pos = SEGMENT_HEADER_LEN + (encodeRecords crc32c returned).length ∧ Loaded crc32c rest rd.pc ∨
    rest = [] ∧ s.size ≤ rd.pos ∧ rd.pc = .idle ∧ s.writer = .closed true

/-- The reader has returned the first records and no error, and the end of the segment only behind the last one. -/
structure Follows (crc32c : Bytes → UInt32) (s : Mapping) (rd : MmapSegmentReader) : Prop where
  at_ : ∃ returned rest, At crc32c s rd returned rest
  noErr : ∀ e, ReadOutcome.err e ∉ rd.outcomes
  ended : ReadOutcome.endOfSegment ∈ rd.outcomes → rd.records = s.log ∧ (s.size ≤ s.done crc32c ∨ s.writer = .closed true)

variable {crc32c : Bytes → UInt32} {s s' : Mapping} {rd : MmapSegmentReader} {r : Record} {first : Nat} {d : Decoding}
  {returned rest : List Record}

theorem recordsOf_append (l l' : List ReadOutcome) : recordsOf (l ++ l') = recordsOf l ++ recordsOf l' :=
  List.filterMap_append ..

theorem follows_opened (s : Mapping) : Follows crc32c s opened :=
  ⟨⟨[], s.log, rfl, rfl, .inl ⟨rfl, trivial⟩⟩, nofun, nofun⟩

theorem Loaded.append {pc : ReaderPc} (h : Loaded crc32c rest pc) (l : List Record) : Loaded crc32c (rest ++ l) pc := by
  cases pc with
  | decode d =>
    obtain ⟨r, rest', rfl, hd⟩ := h
    exact ⟨r, rest' ++ l, rfl, hd⟩
  | _ => trivial

/-- The writer goes on. -/
theorem Follows.of_effect (h : Follows crc32c s rd) (heff : Mapping.WriterEffect crc32c s s') : Follows crc32c s' rd := by
  obtain ⟨⟨returned, rest, hat⟩, hno, hended⟩ := h
  have hrunning : s.writer ≠ .closed true := heff.running true
  have hplace := hat.place.resolve_right fun h => hrunning h.2.2.2
  rcases heff.log with hlog | ⟨r, hlog, hfits⟩
  · refine ⟨⟨returned, rest, hlog.trans hat.log, hat.records, .inl hplace⟩, hno, fun hend => ?_⟩
    obtain ⟨hall, hsize⟩ := hended hend
    refine ⟨hall.trans hlog.symm, .inl ?_⟩
    rw [heff.size_eq, Mapping.done, hlog]
    exact hsize.resolve_right hrunning
  · refine ⟨⟨returned, rest ++ [r], ?_, hat.records, .inl ⟨hplace.1, ?_⟩⟩, hno, fun hend => ?_⟩
    · rw [hlog, hat.log, List.append_assoc]
    · exact hplace.2.append [r]
    · -- there was room for one more record
      have hsize := (hended hend).2.resolve_right hrunning
      have hpos := framing_le_recordBytes r
      simp only [RECORD_FRAMING] at hpos
      omega

/-- A step inside a call -/
theorem Follows.goto (h : Follows crc32c s rd) (hat : At crc32c s rd returned rest) {pc : ReaderPc}
    (hpos : rd.pos = SEGMENT_HEADER_LEN + (encodeRecords crc32c returned).length) (hpc : Loaded crc32c rest pc) :
    Follows crc32c s (rd.goto pc) :=
  ⟨⟨returned, rest, hat.log, hat.records, .inl ⟨hpos, hpc⟩⟩, h.noErr, h.ended⟩

/-- A call finds nothing new. -/
theorem Follows.awaitMore (h : Follows crc32c s rd) (hat : At crc32c s rd returned rest)
    (hpos : rd.pos = SEGMENT_HEADER_LEN + (encodeRecords crc32c returned).length) :
    Follows crc32c s (rd.return .awaitMore rd.pos) := by
  have hrecords : recordsOf (rd.outcomes ++ [.awaitMore]) = rd.records := by
    rw [recordsOf_append]
    exact List.append_nil _
  refine ⟨⟨returned, rest, hat.log, hrecords.trans hat.records, .inl ⟨hpos, trivial⟩⟩, ?_, ?_⟩
  · simpa [«return»] using h.noErr
  · intro hend
    have hmem : ReadOutcome.endOfSegment ∈ rd.outcomes := by simpa [«return»] using hend
    exact ⟨hrecords.trans (h.ended hmem).1, (h.ended hmem).2⟩

/-- A call finds the end. -/
theorem Follows.endOfSegment (h : Follows crc32c s rd) (hat : At crc32c s rd returned []) {pos : Nat}
    (hpos : pos = SEGMENT_HEADER_LEN + (encodeRecords crc32c returned).length ∨ s.size ≤ pos ∧ s.writer = .closed true)
    (hend : s.size ≤ s.done crc32c ∨ s.writer = .closed true) : Follows crc32c s (rd.return .endOfSegment pos) := by
  have hrecords : recordsOf (rd.outcomes ++ [.endOfSegment]) = rd.records := by
    rw [recordsOf_append]
    exact List.append_nil _
  have hall : s.log = returned := hat.log.trans (List.append_nil _)
  refine ⟨⟨returned, [], hat.log, hrecords.trans hat.records, ?_⟩, ?_, fun _ => ⟨?_, hend⟩⟩
  · rcases hpos with hpos | ⟨hpos, hclosed⟩
    · exact .inl ⟨hpos, trivial⟩
    · exact .inr ⟨rfl, hpos, rfl, hclosed⟩
  · simpa [«return»] using h.noErr
  · exact hrecords.trans (hat.records.trans hall.symm)

/-- A reader that returns the next record -/
theorem At.record (hat : At crc32c s rd returned (r :: rest))
    (hpos : rd.pos = SEGMENT_HEADER_LEN + (encodeRecords crc32c returned).length) :
    At crc32c s (rd.return (.record r) (rd.pos + recordBytes r)) (returned ++ [r]) rest := by
  refine ⟨?_, ?_, .inl ⟨?_, trivial⟩⟩
  · rw [hat.log, List.append_assoc]
    rfl
  · rw [← hat.records]
    exact recordsOf_append ..
  · change rd.pos + recordBytes r = _
    rw [encodeRecords_append, encodeRecords_singleton, List.length_append, length_encodeRecord, hpos, Nat.add_assoc]

/-- A call returns the next record. -/
theorem Follows.record (h : Follows crc32c s rd) (hat : At crc32c s rd returned (r :: rest))
    (hpos : rd.pos = SEGMENT_HEADER_LEN + (encodeRecords crc32c returned).length) :
    Follows crc32c s (rd.return (.record r) (rd.pos + recordBytes r)) := by
  refine ⟨⟨_, _, hat.record hpos⟩, ?_, ?_⟩
  · simpa [«return»] using h.noErr
  · -- the end had not been returned, for this record was still to come
    intro hend
    have hmem : ReadOutcome.endOfSegment ∈ rd.outcomes := by simpa [«return»] using hend
    have hall := (h.ended hmem).1
    rw [hat.records, hat.log] at hall
    simp at hall

/-- A file with its header can be opened. -/
theorem open_mapped (h : s.Mapped crc32c first) : MmapSegmentReader.open s.size s.mem = .ok opened := by
  have hsize : SEGMENT_HEADER_LEN ≤ s.size := (Nat.le_add_right ..).trans h.done_le
  obtain ⟨rest, hmem⟩ : ∃ rest, s.mem = ofBytes (leBytes 8 SEGMENT_MAGIC ++ leBytes 4 SEGMENT_VERSION_V2 ++ rest) := by
    rw [h.mem_eq, Mapping.settled, encodeHeader, headerStart]
    simp only [List.append_assoc]
    exact ⟨_, rfl⟩
  have hmagic : ofLe (load s.mem 0 8) = SEGMENT_MAGIC := by
    have hload := load_mid [] (leBytes 8 SEGMENT_MAGIC) (leBytes 4 SEGMENT_VERSION_V2 ++ rest)
    rw [List.nil_append, List.length_nil, length_leBytes, ← List.append_assoc] at hload
    rw [hmem, hload, ofLe_leBytes (by decide)]
  have hversion : ofLe (load s.mem 8 4) = SEGMENT_VERSION_V2 := by
    have hload := load_mid (leBytes 8 SEGMENT_MAGIC) (leBytes 4 SEGMENT_VERSION_V2) rest
    rw [length_leBytes, length_leBytes] at hload
    rw [hmem, hload, ofLe_leBytes (by decide)]
  simp only [MmapSegmentReader.open, hmagic, hversion]
  rw [if_neg (not_lt.2 hsize), if_neg (not_not.2 rfl), if_neg (by decide), if_neg (not_not.2 rfl)]

/-- The bytes of the record at the position -/
theorem At.byte (h : s.Mapped crc32c first) (hat : At crc32c s rd returned (r :: rest))
    (hpos : rd.pos = SEGMENT_HEADER_LEN + (encodeRecords crc32c returned).length) {pre w post : Bytes}
    (hw : encodeRecord crc32c r = pre ++ w ++ post) {i : Nat} (hi : i < w.length) :
    s.mem (rd.pos + pre.length + i) = w[i] := by
  have hload := h.load_record hat.log
  rw [← hpos] at hload
  have hlen : pre.length + i < recordBytes r := by
    rw [← length_encodeRecord crc32c r, hw]
    simp only [List.length_append]
    omega
  have hget : (load s.mem rd.pos (recordBytes r))[pre.length + i]? = some w[i] := by
    rw [hload, hw, List.append_assoc, List.getElem?_append_right (Nat.le_add_right ..), Nat.add_sub_cancel_left,
      List.getElem?_append_left hi, List.getElem?_eq_getElem hi]
  have hmem : (load s.mem rd.pos (recordBytes r))[pre.length + i]? = some (s.mem (rd.pos + (pre.length + i))) := by
    simp [load, hlen]
  rw [hmem, Option.some.injEq, ← Nat.add_assoc] at hget
  exact hget

/-- The next record ends within the file. -/
theorem At.fits (hat : At crc32c s rd returned (r :: rest))
    (hpos : rd.pos = SEGMENT_HEADER_LEN + (encodeRecords crc32c returned).length) :
    rd.pos + recordBytes r ≤ s.done crc32c := by
  have hrecords : (encodeRecords crc32c (r :: rest)).length = recordBytes r + (encodeRecords crc32c rest).length := by
    rw [encodeRecords, List.flatMap_cons, List.length_append, length_encodeRecord]
    rfl
  rw [Mapping.done, hat.log, encodeRecords_append, List.length_append, hrecords, hpos]
  omega

/-- How many more steps the call takes at most, in a segment of `size` bytes -/
def ReaderPc.stepsLeft (size : Nat) : ReaderPc → Nat
  | .idle => 2 * size + 20
  | .tail => 2 * size + 19
  | .len => 2 * size + 18
  | .decode d =>
    (20 - d.head.length) + (4 - d.crc.length) + (d.len - 8 - d.input.length) + (d.len - d.payload.length) + 1

/-- A load on the way to the record `r` gets the byte that is there. -/
theorem At.decodeStep (h : s.Mapped crc32c first) (hat : At crc32c s rd returned (r :: rest))
    (hpos : rd.pos = SEGMENT_HEADER_LEN + (encodeRecords crc32c returned).length) (hd : d.Of crc32c r) :
    (∃ d', decodeStep crc32c s.mem d rd = rd.goto (.decode d') ∧ d'.Of crc32c r ∧
      (ReaderPc.decode d').stepsLeft s.size < (ReaderPc.decode d).stepsLeft s.size) ∨
    decodeStep crc32c s.mem d rd = rd.return (.record r) (rd.pos + recordBytes r) := by
  have hr : r.WellFormed := h.wellFormed r (by simp [hat.log])
  have hmin := framing_le_recordBytes r
  have hlen : r.len = 28 + r.payload.length := rfl
  have hle := len_le_recordBytes r
  simp only [RECORD_FRAMING] at hmin
  -- the parts of the record, with their places
  have hbody : encodeRecord crc32c r =
      leBytes 4 (recordBytes r) ++ paddedBody r ++ leBytes 4 (crc32c (paddedBody r)).toNat := rfl
  have hcrc : encodeRecord crc32c r =
      leBytes 4 (recordBytes r) ++ paddedBody r ++ leBytes 4 (crc32c (paddedBody r)).toNat ++ [] :=
    (List.append_nil _).symm
  obtain ⟨pad, hpad⟩ : ∃ pad, paddedBody r = leBytes 8 r.cursor ++ leBytes 8 r.ts ++ leBytes 4 r.payload.length ++
      r.payload ++ pad := ⟨_, rfl⟩
  have hpayload : encodeRecord crc32c r = leBytes 4 (recordBytes r) ++
      (leBytes 8 r.cursor ++ leBytes 8 r.ts ++ leBytes 4 r.payload.length) ++ r.payload ++
      (pad ++ leBytes 4 (crc32c (paddedBody r)).toNat) := by
    rw [hbody]
    generalize leBytes 4 (crc32c (paddedBody r)).toNat = crc
    rw [hpad]
    simp only [List.append_assoc]
  have hinitial : r.body <+: paddedBody r := ⟨_, rfl⟩
  unfold MmapSegmentReader.decodeStep
  by_cases hhead : d.head.length < 20
  · have hlt : d.head.length < (paddedBody r).length := by
      rw [length_paddedBody]
      omega
    have hbyte := hat.byte h hpos hbody hlt
    rw [length_leBytes] at hbyte
    rw [if_pos hhead, hbyte]
    refine .inl ⟨_, rfl, ⟨hd.len, prefix_concat hd.head hlt, hd.crc, hd.input, hd.payload⟩, ?_⟩
    simp only [ReaderPc.stepsLeft, List.length_append, List.length_singleton]
    omega
  · -- the first fields are complete
    have hfield (a n : Nat) (han : a + n ≤ 20) : slice d.head a n = slice r.body a n := by
      rw [slice_of_initial hd.head (by omega), slice_of_initial hinitial (by rw [r.length_body]; omega)]
    have hpayloadLen : ofLe (slice d.head 16 4) = r.payload.length := by
      rw [hfield 16 4 le_rfl, hr.ofLe_len]
    simp only [if_neg hhead, hpayloadLen, hd.len]
    rw [if_neg (by omega)]
    by_cases hc : d.crc.length < 4
    · have hlt : d.crc.length < (leBytes 4 (crc32c (paddedBody r)).toNat).length := by simpa using hc
      have hbyte := hat.byte h hpos hcrc hlt
      have hplace : rd.pos + (leBytes 4 (recordBytes r) ++ paddedBody r).length = rd.pos + recordBytes r - 4 := by
        simp only [List.length_append, length_leBytes, length_paddedBody]
        omega
      rw [hplace] at hbyte
      rw [if_pos hc, hbyte]
      refine .inl ⟨_, rfl, ⟨rfl, hd.head, prefix_concat hd.crc hlt, hd.input, hd.payload⟩, ?_⟩
      simp only [ReaderPc.stepsLeft, List.length_append, List.length_singleton, hd.len]
      omega
    · rw [if_neg hc]
      by_cases hi : d.input.length < recordBytes r - 8
      · have hlt : d.input.length < (paddedBody r).length := by rwa [length_paddedBody]
        have hbyte := hat.byte h hpos hbody hlt
        rw [length_leBytes] at hbyte
        rw [if_pos hi, hbyte]
        refine .inl ⟨_, rfl, ⟨rfl, hd.head, hd.crc, prefix_concat hd.input hlt, hd.payload⟩, ?_⟩
        simp only [ReaderPc.stepsLeft, List.length_append, List.length_singleton, hd.len]
        omega
      · -- the checksum is that of the record
        have hinput : d.input = paddedBody r := eq_of_initial hd.input (by rw [length_paddedBody]; omega)
        have hstored : ofLe d.crc = (crc32c (paddedBody r)).toNat := by
          rw [eq_of_initial hd.crc (by rw [length_leBytes]; omega), ofLe_leBytes (crc32c (paddedBody r)).toNat_lt]
        rw [if_neg hi, hinput, hstored, if_neg (not_not.2 rfl)]
        by_cases hp : d.payload.length < r.payload.length
        · have hbyte := hat.byte h hpos hpayload hp
          simp only [List.length_append, length_leBytes] at hbyte
          rw [if_pos hp, hbyte]
          refine .inl ⟨_, rfl, ⟨rfl, hd.head, hd.crc, hinput ▸ hd.input, prefix_concat hd.payload hp⟩, ?_⟩
          simp only [ReaderPc.stepsLeft, List.length_append, List.length_singleton, hd.len, hinput]
          omega
        · have hrecord : (⟨ofLe (slice d.head 0 8), ofLe (slice d.head 8 8), d.payload⟩ : Record) = r := by
            rw [hfield 0 8 (by decide), hfield 8 8 (by decide), r.slice_body_cursor, r.slice_body_ts,
              ofLe_leBytes hr.cursor_lt, ofLe_leBytes hr.ts_lt, eq_of_initial hd.payload (not_lt.1 hp)]
          rw [if_neg hp, hrecord]
          exact .inr rfl

/-- The length word of the next record -/
theorem At.len_cons (h : s.Mapped crc32c first) (hat : At crc32c s rd returned (r :: rest))
    (hpos : rd.pos = SEGMENT_HEADER_LEN + (encodeRecords crc32c returned).length) :
    checkLen s.size rd.pos (ofLe (load s.mem rd.pos 4)) = .inr (recordBytes r) := by
  have hr : r.WellFormed := h.wellFormed r (by simp [hat.log])
  have hmin := framing_le_recordBytes r
  simp only [RECORD_FRAMING] at hmin
  have hword : load s.mem rd.pos 4 = leBytes 4 (recordBytes r) := by
    have hload := h.load_record hat.log
    rw [← hpos] at hload
    have hslice := load_slice (m := s.mem) (a := rd.pos) (i := 0) (k := 4) (n := recordBytes r) (by omega)
    rw [Nat.add_zero, hload, encodeRecord, List.append_assoc, slice_start (by simp)] at hslice
    exact hslice
  rw [hword, ofLe_leBytes ((recordBytes_lt hr).trans_lt (by decide)), checkLen_record hr]
  exact (hat.fits hpos).trans h.done_le

/-- A reader that has a record to return gets on with it. -/
theorem At.step_cons (h : s.Mapped crc32c first) (hat : At crc32c s rd returned (r :: rest)) :
    rd.pos = SEGMENT_HEADER_LEN + (encodeRecords crc32c returned).length ∧
    ((∃ pc, rd.step crc32c s.size s.mem = rd.goto pc ∧ pc ≠ .idle ∧ Loaded crc32c (r :: rest) pc ∧
        pc.stepsLeft s.size < rd.pc.stepsLeft s.size) ∨
      rd.step crc32c s.size s.mem = rd.return (.record r) (rd.pos + recordBytes r)) := by
  obtain ⟨hpos, hloaded⟩ := hat.place.resolve_right fun h => by cases h.1
  have hmin := framing_le_recordBytes r
  simp only [RECORD_FRAMING] at hmin
  have hfits := hat.fits hpos
  have hdone := h.done_le
  refine ⟨hpos, ?_⟩
  cases hpc : rd.pc with
  | idle =>
    refine .inl ⟨.tail, ?_, (by simp), trivial, by simp [ReaderPc.stepsLeft]⟩
    simp only [MmapSegmentReader.step, hpc]
    rw [if_neg (by omega)]
  | tail =>
    have htail := h.tail_eq
    rw [Mapping.tail] at htail
    refine .inl ⟨.len, ?_, (by simp), trivial, by simp [ReaderPc.stepsLeft]⟩
    simp only [MmapSegmentReader.step, hpc]
    rw [if_neg (by omega)]
  | len =>
    refine .inl ⟨.decode ⟨recordBytes r, [], [], [], []⟩, ?_, (by simp),
      ⟨r, rest, rfl, rfl, List.nil_prefix, List.nil_prefix, List.nil_prefix, List.nil_prefix⟩, ?_⟩
    · simp only [MmapSegmentReader.step, hpc, hat.len_cons h hpos]
    · simp only [ReaderPc.stepsLeft, List.length_nil]
      omega
  | decode d =>
    rw [hpc] at hloaded
    obtain ⟨r', rest', heq, hd⟩ := hloaded
    obtain ⟨rfl, rfl⟩ := List.cons.inj heq
    simp only [MmapSegmentReader.step, hpc]
    rcases hat.decodeStep h hpos hd with ⟨d', hstep, hd', hleft⟩ | hstep
    · exact .inl ⟨.decode d', hstep, (by simp), ⟨r, rest, rfl, hd'⟩, hleft⟩
    · exact .inr hstep

/-- A reader that has returned all records finds nothing new, or the end. -/
theorem At.step_nil (h : s.Mapped crc32c first) (hat : At crc32c s rd returned []) :
    (∃ pc, rd.step crc32c s.size s.mem = rd.goto pc ∧ pc ≠ .idle ∧ Loaded crc32c [] pc ∧
        rd.pos = SEGMENT_HEADER_LEN + (encodeRecords crc32c returned).length ∧
        pc.stepsLeft s.size < rd.pc.stepsLeft s.size) ∨
      (rd.step crc32c s.size s.mem = rd.return .awaitMore rd.pos ∧
        rd.pos = SEGMENT_HEADER_LEN + (encodeRecords crc32c returned).length) ∨
      ∃ pos, rd.step crc32c s.size s.mem = rd.return .endOfSegment pos ∧
        (pos = SEGMENT_HEADER_LEN + (encodeRecords crc32c returned).length ∨ s.size ≤ pos ∧ s.writer = .closed true) ∧
        (s.size ≤ s.done crc32c ∨ s.writer = .closed true) := by
  have hdone : s.done crc32c = SEGMENT_HEADER_LEN + (encodeRecords crc32c returned).length := by
    rw [Mapping.done, hat.log, List.append_nil]
  cases hpc : rd.pc with
  | idle =>
    simp only [MmapSegmentReader.step, hpc]
    split
    · rename_i hsize
      rcases hat.place with ⟨hpos, -⟩ | ⟨-, -, -, hclosed⟩
      · exact .inr (.inr ⟨_, rfl, .inl hpos, .inl (by omega)⟩)
      · exact .inr (.inr ⟨_, rfl, .inr ⟨hsize, hclosed⟩, .inr hclosed⟩)
    · rename_i hsize
      obtain ⟨hpos, -⟩ := hat.place.resolve_right fun h => hsize h.2.1
      exact .inl ⟨_, rfl, (by simp), trivial, hpos, by simp [ReaderPc.stepsLeft]⟩
  | tail =>
    obtain ⟨hpos, -⟩ := hat.place.resolve_right fun h => by simp [hpc] at h
    simp only [MmapSegmentReader.step, hpc]
    split
    · exact .inr (.inl ⟨rfl, hpos⟩)
    · exact .inl ⟨_, rfl, (by simp), trivial, hpos, by simp [ReaderPc.stepsLeft]⟩
  | len =>
    obtain ⟨hpos, -⟩ := hat.place.resolve_right fun h => by simp [hpc] at h
    have hword := h.load_next
    rw [hdone, ← hpos] at hword
    simp only [MmapSegmentReader.step, hpc]
    rcases hword with hword | ⟨r, hr, hword⟩ | ⟨hclosed, hword⟩
    · rw [hword]
      exact .inr (.inl ⟨rfl, hpos⟩)
    · rw [hword, checkLen_writing hr]
      exact .inr (.inl ⟨rfl, hpos⟩)
    · rw [hword]
      exact .inr (.inr ⟨_, rfl, .inr ⟨le_rfl, hclosed⟩, .inr hclosed⟩)
  | decode d =>
    obtain ⟨-, hloaded⟩ := hat.place.resolve_right fun h => by simp [hpc] at h
    rw [hpc] at hloaded
    obtain ⟨r, rest, heq, -⟩ := hloaded
    cases heq

theorem Follows.step (h : s.Mapped crc32c first) (hf : Follows crc32c s rd) :
    Follows crc32c s (rd.step crc32c s.size s.mem) := by
  obtain ⟨returned, rest, hat⟩ := hf.at_
  cases rest with
  | nil =>
    rcases hat.step_nil h with ⟨pc, hstep, -, hloaded, hpos, -⟩ | ⟨hstep, hpos⟩ | ⟨pos, hstep, hpos, hend⟩
    · exact hstep ▸ hf.goto hat hpos hloaded
    · exact hstep ▸ hf.awaitMore hat hpos
    · exact hstep ▸ hf.endOfSegment hat hpos hend
  | cons r rest =>
    obtain ⟨hpos, ⟨pc, hstep, -, hloaded, -⟩ | hstep⟩ := hat.step_cons h
    · exact hstep ▸ hf.goto hat hpos hloaded
    · exact hstep ▸ hf.record hat hpos

/-! ### The writer and its readers -/

/-- A segment with its writer and its readers -/
structure LiveSegment where
  seg : Mapping
  readers : Nat → MmapSegmentReader

namespace LiveSegment

/-- The writer calls `append` or `write_skip_to_end`, the writer takes a step of its call, or the reader `i` takes a
step. -/
inductive Act
  | append (cursor ts : UInt64) (payload : Bytes)
  | skip
  | writer (spurious : Bool)
  | read (i : Nat)

def create (size first : Nat) : Option LiveSegment := (Mapping.create size first).map fun s => ⟨s, fun _ => opened⟩

def step (crc32c : Bytes → UInt32) (s : LiveSegment) : Act → Option LiveSegment
  | .append cursor ts payload => (s.seg.beginAppend cursor ts payload).map fun seg => { s with seg := seg }
  | .skip => s.seg.beginSkip.map fun seg => { s with seg := seg }
  | .writer spurious => (s.seg.writerStep crc32c spurious).map fun seg => { s with seg := seg }
  | .read i => some { s with
      readers := Function.update s.readers i ((s.readers i).step crc32c s.seg.size s.seg.mem) }

/-- The file holds its records, and every reader follows. -/
structure Inv (crc32c : Bytes → UInt32) (first : Nat) (s : LiveSegment) : Prop where
  mapped : s.seg.Mapped crc32c first
  follows : ∀ i, Follows crc32c s.seg (s.readers i)

theorem inv_create {size first : Nat} {s : LiveSegment} (h : create size first = some s) : s.Inv crc32c first := by
  obtain ⟨seg, hseg, rfl⟩ := Option.map_eq_some_iff.1 h
  exact ⟨Mapping.mapped_create hseg, fun _ => follows_opened seg⟩

theorem Inv.step {first : Nat} {s s' : LiveSegment} {a : Act} (h : s.Inv crc32c first) (hs : s.step crc32c a = some s') :
    s'.Inv crc32c first := by
  cases a with
  | append cursor ts payload =>
    obtain ⟨seg, hseg, rfl⟩ := Option.map_eq_some_iff.1 hs
    exact ⟨h.mapped.beginAppend hseg, fun i => (h.follows i).of_effect (Mapping.beginAppend_effect hseg)⟩
  | skip =>
    obtain ⟨seg, hseg, rfl⟩ := Option.map_eq_some_iff.1 hs
    exact ⟨h.mapped.beginSkip hseg, fun i => (h.follows i).of_effect (Mapping.beginSkip_effect hseg)⟩
  | writer spurious =>
    obtain ⟨seg, hseg, rfl⟩ := Option.map_eq_some_iff.1 hs
    exact ⟨h.mapped.writerStep hseg, fun i => (h.follows i).of_effect (h.mapped.writerStep_effect hseg)⟩
  | read i =>
    cases hs
    refine ⟨h.mapped, fun j => ?_⟩
    by_cases hij : j = i
    · subst hij
      simpa using (h.follows j).step h.mapped
    · simpa [hij] using h.follows j

theorem inv_run {size first : Nat} {s₀ s : LiveSegment} {acts : List Act} (hinit : create size first = some s₀)
    (h : run (step crc32c) s₀ acts = some s) : s.Inv crc32c first :=
  run_invariant (Inv crc32c first) (fun _ _ _ hs hstep => hs.step hstep) (inv_create hinit) h

/-- Whatever the writer and the readers do, a reader returns the first records of the segment in order and no error,
and the end of the segment only when it has returned every record that the segment will ever have. -/
theorem readers_follow (crc32c : Bytes → UInt32) {size first : Nat} {s₀ s : LiveSegment} {acts : List Act}
    (hinit : create size first = some s₀) (h : run (step crc32c) s₀ acts = some s) (i : Nat) :
    (s.readers i).records <+: s.seg.log ∧ (∀ e, ReadOutcome.err e ∉ (s.readers i).outcomes) ∧
      (ReadOutcome.endOfSegment ∈ (s.readers i).outcomes → (s.readers i).records = s.seg.log) := by
  have hf := (inv_run hinit h).follows i
  obtain ⟨returned, rest, hat⟩ := hf.at_
  refine ⟨?_, hf.noErr, fun hend => (hf.ended hend).1⟩
  rw [hat.records, hat.log]
  exact List.prefix_append ..

/-- A record of one byte, read while the marker is on its way, and then to the end -/
theorem readers_follow_oneRecord :
    ∃ s, run (step castagnoli) ⟨⟨100, ofBytes (encodeHeader 7 SEGMENT_HEADER_LEN), .idle false, []⟩, fun _ => opened⟩
        (.append 7 1 [5] :: List.replicate 56 (.writer false) ++ List.replicate 53 (.read 0) ++
          [.skip, .writer false, .writer false] ++ List.replicate 3 (.read 0) ++ [.writer false] ++
          List.replicate 3 (.read 0)) = some s ∧
      (s.readers 0).outcomes = [.record ⟨7, 1, [5]⟩, .awaitMore, .endOfSegment] ∧
      (s.readers 0).records <+: s.seg.log ∧ (∀ e, ReadOutcome.err e ∉ (s.readers 0).outcomes) ∧
      (ReadOutcome.endOfSegment ∈ (s.readers 0).outcomes → (s.readers 0).records = s.seg.log) := by
  obtain ⟨s, hrun, houtcomes⟩ := Option.map_eq_some_iff.1
    (show (run (step castagnoli) ⟨⟨100, ofBytes (encodeHeader 7 SEGMENT_HEADER_LEN), .idle false, []⟩, fun _ => opened⟩
        (.append 7 1 [5] :: List.replicate 56 (.writer false) ++ List.replicate 53 (.read 0) ++
          [.skip, .writer false, .writer false] ++ List.replicate 3 (.read 0) ++ [.writer false] ++
          List.replicate 3 (.read 0))).map (fun s => (s.readers 0).outcomes) =
      some [.record ⟨7, 1, [5]⟩, .awaitMore, .endOfSegment] by decide +kernel)
  have hcreate : create 100 7 =
      some ⟨⟨100, ofBytes (encodeHeader 7 SEGMENT_HEADER_LEN), .idle false, []⟩, fun _ => opened⟩ := rfl
  exact ⟨s, hrun, houtcomes, readers_follow castagnoli hcreate hrun 0⟩

end LiveSegment

end Mmbus.V2
