import Mmbus.MappedCalls

/-!
# The bounds of the segment reader

`MmapSegmentReader::open` and `next_record` on a file with any content, with each access checked: a word that is loaded
through a pointer must be aligned and lie within the mapping, and an index must be in range.

Where no access fails, the calls return what the reader of the live log does (`calls_steps`).

The lengths in the file decide where the next word is loaded.  All accesses are fine exactly when no length on the way
is uneven and no position is among the last three bytes (`reader_safe_iff`); in any case a reader finds at most one
record or error for each `RECORD_FRAMING` bytes, and one more.
-/

namespace Mmbus.V2

open ByteMemory

/-- An access that goes wrong -/
inductive Fault
  | outOfBounds
  | misaligned
  | indexOutOfRange
  deriving DecidableEq

/-- The atomic load of a word of `n` bytes; the mapping begins at a page boundary. -/
def loadWord (file : Bytes) (offset n : Nat) : Except Fault Nat :=
  if offset % n ≠ 0 then .error .misaligned
  else if file.length < offset + n then .error .outOfBounds
  else .ok (ofLe (slice file offset n))

/-- `bytes[a..b]` -/
def index (bytes : Bytes) (a b : Nat) : Except Fault Bytes :=
  if a ≤ b ∧ b ≤ bytes.length then .ok (slice bytes a (b - a)) else .error .indexOutOfRange

namespace SegmentBytes

/-- `MmapSegmentReader::open`: the position of the reader, or the error that it returns -/
def «open» (file : Bytes) : Except Fault (Except ReaderError Nat) := do
  if file.length < SEGMENT_HEADER_LEN then return .error (.header (.truncated file.length))
  let magic ← index file 0 8
  if ofLe magic ≠ SEGMENT_MAGIC then return .error (.header (.badMagic (ofLe magic)))
  let version ← index file 8 12
  if ofLe version = 1 then return .error .legacyV1Segment
  if ofLe version ≠ SEGMENT_VERSION_V2 then return .error (.header (.unsupportedVersion (ofLe version)))
  let _firstCursor ← index file 16 24
  return .ok SEGMENT_HEADER_LEN

section
variable (crc32c : Bytes → UInt32)

/-- `next_record` behind the checks of the length: the outcome and the next position -/
def decodeBody (file : Bytes) (pos recordLen : Nat) : Except Fault (ReadOutcome × Nat) := do
  let body ← index file pos (pos + recordLen)
  let cursor ← index body 4 12
  let ts ← index body 12 20
  let payloadLen := ofLe (← index body 20 24)
  if recordLen < 24 + payloadLen + 4 then
    return (.err (.oversizeRecord recordLen pos), pos + alignRecordLen recordLen)
  let storedCrc := ofLe (← index body (recordLen - 4) recordLen)
  let crcInput ← index body 4 (recordLen - 4)
  let computedCrc := (crc32c crcInput).toNat
  if storedCrc ≠ computedCrc then
    return (.err (.crcMismatch pos storedCrc computedCrc), pos + recordLen)
  let payload ← index body 24 (24 + payloadLen)
  return (.record ⟨ofLe cursor, ofLe ts, payload⟩, pos + recordLen)

/-- `next_record` -/
def nextRecord (file : Bytes) (pos : Nat) : Except Fault (ReadOutcome × Nat) := do
  if file.length ≤ pos then return (.endOfSegment, pos)
  let tail ← loadWord file TAIL_OFFSET 8
  if tail ≤ pos then return (.awaitMore, pos)
  let raw ← loadWord file pos 4
  match checkLen file.length pos raw with
  | .inl found => return found
  | .inr recordLen => decodeBody crc32c file pos recordLen

/-- `n` calls of `next_record` -/
def calls (file : Bytes) : (n : Nat) → (pos : Nat) → Except Fault (List ReadOutcome × Nat)
  | 0, pos => .ok ([], pos)
  | n + 1, pos => do
    let (outcome, pos) ← nextRecord crc32c file pos
    let (outcomes, pos) ← calls file n pos
    return (outcome :: outcomes, pos)

end

/-- A call that has found a record or an error -/
def Found : ReadOutcome → Bool
  | .record _ | .err _ => true
  | .awaitMore | .endOfSegment => false

/-- However often `next_record` is called, every access is fine, every record or error moves the reader on, and there are
at most so many of them. -/
structure Safe (crc32c : Bytes → UInt32) (file : Bytes) : Prop where
  noFault : ∀ n, ∃ outcomes pos, calls crc32c file n SEGMENT_HEADER_LEN = .ok (outcomes, pos)
  advances : ∀ n outcomes pos outcome pos', calls crc32c file n SEGMENT_HEADER_LEN = .ok (outcomes, pos) →
    nextRecord crc32c file pos = .ok (outcome, pos') → Found outcome = true → pos < pos'
  bounded : ∀ n outcomes pos, calls crc32c file n SEGMENT_HEADER_LEN = .ok (outcomes, pos) →
    outcomes.countP Found ≤ file.length / RECORD_FRAMING + 1

/-! ### The lengths in the file -/

/-- The number in `n` bytes of the file -/
def field (file : Bytes) (a n : Nat) : Nat := ofLe (slice file a n)

/-- A record is looked for at the position. -/
def Live (file : Bytes) (pos : Nat) : Prop := pos < file.length ∧ pos < field file TAIL_OFFSET 8

/-- The length at the position is that of a record within the file, and its payload has room in it or not. -/
def RecordAt (file : Bytes) (pos recordLen : Nat) (fits : Bool) : Prop :=
  Live file pos ∧ checkLen file.length pos (field file pos 4) = .inr recordLen ∧
    (fits ↔ 24 + field file (pos + 20) 4 + 4 ≤ recordLen)

/-- The positions that the lengths lead to, from the header on -/
inductive OnChain (file : Bytes) : Nat → Prop
  | first : OnChain file SEGMENT_HEADER_LEN
  | next {pos recordLen : Nat} : OnChain file pos → RecordAt file pos recordLen true → OnChain file (pos + recordLen)
  | padded {pos recordLen : Nat} : OnChain file pos → RecordAt file pos recordLen false →
      OnChain file (pos + alignRecordLen recordLen)

/-- The lengths are even enough: of a record whose payload has room in it the length is a multiple of four, or none is
looked for behind it; and no record is looked for in the last three bytes. -/
structure Regular (file : Bytes) : Prop where
  lengths : ∀ pos recordLen, OnChain file pos → RecordAt file pos recordLen true →
    recordLen % 4 = 0 ∨ ¬Live file (pos + recordLen)
  room : ∀ pos, OnChain file pos → Live file pos → pos + 4 ≤ file.length

variable {crc32c : Bytes → UInt32} {file : Bytes} {pos recordLen : Nat}

/-! ### One call -/

theorem index_ok {bytes : Bytes} {a b : Nat} (hab : a ≤ b) (hb : b ≤ bytes.length) :
    index bytes a b = .ok (slice bytes a (b - a)) := if_pos ⟨hab, hb⟩

theorem loadWord_ok {n : Nat} (haligned : pos % n = 0) (hroom : pos + n ≤ file.length) :
    loadWord file pos n = .ok (field file pos n) := by
  rw [loadWord, if_neg (not_not.2 haligned), if_neg (by omega)]
  rfl

/-- The indices of a record within the file are in range. -/
theorem decodeBody_eq (crc32c : Bytes → UInt32) (hmin : RECORD_FRAMING ≤ recordLen)
    (hfits : pos + recordLen ≤ file.length) : decodeBody crc32c file pos recordLen = .ok (
      let computed := (crc32c (slice file (pos + 4) (recordLen - 8))).toNat
      if recordLen < 24 + field file (pos + 20) 4 + 4 then
        (.err (.oversizeRecord recordLen pos), pos + alignRecordLen recordLen)
      else if field file (pos + (recordLen - 4)) 4 ≠ computed then
        (.err (.crcMismatch pos (field file (pos + (recordLen - 4)) 4) computed), pos + recordLen)
      else (.record ⟨field file (pos + 4) 8, field file (pos + 12) 8,
        slice file (pos + 24) (field file (pos + 20) 4)⟩, pos + recordLen)) := by
  simp only [RECORD_FRAMING] at hmin
  have hbody : (slice file pos recordLen).length = recordLen := length_slice hfits
  have hindex {a b : Nat} (hab : a ≤ b) (hb : b ≤ recordLen) : index (slice file pos recordLen) a b =
      .ok (slice file (pos + a) (b - a)) := by
    rw [index_ok hab (hb.trans_eq hbody.symm), slice_slice (by omega)]
  unfold decodeBody
  rw [index_ok (by omega) hfits, Nat.add_sub_cancel_left]
  simp only [bind, Except.bind, pure, Except.pure]
  rw [hindex (by omega) (by omega), hindex (by omega) (by omega), hindex (by omega) (by omega)]
  simp only
  change (if recordLen < 24 + field file (pos + 20) 4 + 4 then _ else _) = _
  by_cases hpayload : recordLen < 24 + field file (pos + 20) 4 + 4
  · rw [if_pos hpayload, if_pos hpayload]
  · rw [if_neg hpayload, if_neg hpayload, hindex (by omega) (by omega), hindex (by omega) (by omega)]
    have hlast : index (slice file pos recordLen) 24 (24 + ofLe (slice file (pos + 20) (24 - 20))) =
        .ok (slice file (pos + 24) (24 + field file (pos + 20) 4 - 24)) :=
      hindex (Nat.le_add_right ..) (show 24 + field file (pos + 20) 4 ≤ recordLen by omega)
    have hlen : recordLen - 4 - 4 = recordLen - 8 := by omega
    have hsub : recordLen - (recordLen - 4) = 4 := by omega
    simp only [hlast, Nat.add_sub_cancel_left, hlen, hsub, field]
    split
    · rename_i hcrc
      exact congrArg Except.ok (if_pos hcrc).symm
    · rename_i hcrc
      exact congrArg Except.ok (if_neg hcrc).symm

/-- The reader moves on behind the record. -/
theorem decodeBody_ok (crc32c : Bytes → UInt32) (hmin : RECORD_FRAMING ≤ recordLen)
    (hfits : pos + recordLen ≤ file.length) :
    ∃ outcome, Found outcome = true ∧ decodeBody crc32c file pos recordLen = .ok (outcome,
      pos + if 24 + field file (pos + 20) 4 + 4 ≤ recordLen then recordLen else alignRecordLen recordLen) := by
  rw [decodeBody_eq crc32c hmin hfits]
  by_cases hpayload : recordLen < 24 + field file (pos + 20) 4 + 4
  · simp only [if_pos hpayload, if_neg (Nat.not_le_of_lt hpayload)]
    exact ⟨_, rfl, rfl⟩
  · simp only [if_neg hpayload, if_pos (Nat.le_of_not_lt hpayload)]
    split
    · exact ⟨_, rfl, rfl⟩
    · exact ⟨_, rfl, rfl⟩

/-- Where no record is looked for, a call leaves the reader there. -/
theorem nextRecord_of_not_live (crc32c : Bytes → UInt32) (hheader : SEGMENT_HEADER_LEN ≤ file.length)
    (hlive : ¬Live file pos) :
    ∃ outcome, Found outcome = false ∧ nextRecord crc32c file pos = .ok (outcome, pos) := by
  simp only [SEGMENT_HEADER_LEN] at hheader
  unfold nextRecord
  by_cases hend : file.length ≤ pos
  · rw [if_pos hend]
    exact ⟨_, rfl, rfl⟩
  · have htail : field file TAIL_OFFSET 8 ≤ pos := by
      by_contra hlt
      exact hlive ⟨by omega, by omega⟩
    rw [if_neg hend, loadWord_ok (by decide) (by rw [TAIL_OFFSET]; omega)]
    simp only [bind, Except.bind, htail, if_true]
    exact ⟨_, rfl, rfl⟩

/-- Where a record is looked for, a call loads its length. -/
theorem nextRecord_of_live (hheader : SEGMENT_HEADER_LEN ≤ file.length) (hlive : Live file pos) :
    nextRecord crc32c file pos = (loadWord file pos 4).bind fun raw =>
      match checkLen file.length pos raw with
      | .inl found => .ok found
      | .inr recordLen => decodeBody crc32c file pos recordLen := by
  simp only [SEGMENT_HEADER_LEN] at hheader
  obtain ⟨hend, htail⟩ := hlive
  rw [nextRecord, if_neg (by omega), loadWord_ok (by decide) (by rw [TAIL_OFFSET]; omega)]
  simp only [bind, Except.bind, pure, Except.pure, not_le.2 htail, if_false]

/-- A length word that is not that of a record leaves the reader where it is, or sends it to the end. -/
private theorem checkLen_inl {size raw pos' : Nat} {outcome : ReadOutcome}
    (h : checkLen size pos raw = .inl (outcome, pos')) : (Found outcome = false ∧ pos' = pos) ∨ pos' = size := by
  unfold checkLen at h
  split_ifs at h <;> cases h <;> first | exact .inr rfl | exact .inl ⟨rfl, rfl⟩

private theorem checkLen_inr {size raw : Nat} (h : checkLen size pos raw = .inr recordLen) :
    RECORD_FRAMING ≤ recordLen ∧ pos + recordLen ≤ size := by
  unfold checkLen at h
  split_ifs at h
  cases h
  omega

/-- Where a record is looked for, a call that has no fault has loaded its length, and has gone on as it says. -/
theorem nextRecord_ok {outcome : ReadOutcome} {pos' : Nat} (hheader : SEGMENT_HEADER_LEN ≤ file.length)
    (hlive : Live file pos) (h : nextRecord crc32c file pos = .ok (outcome, pos')) :
    pos % 4 = 0 ∧ pos + 4 ≤ file.length ∧ ((Found outcome = false ∧ pos' = pos) ∨ pos' = file.length ∨
      ∃ recordLen fits, RecordAt file pos recordLen fits ∧
        pos' = pos + if fits then recordLen else alignRecordLen recordLen) := by
  rw [nextRecord_of_live hheader hlive] at h
  have hload : pos % 4 = 0 ∧ pos + 4 ≤ file.length := by
    unfold loadWord at h
    split_ifs at h with haligned hroom
    · cases h
    · cases h
    · omega
  rw [loadWord_ok hload.1 hload.2, Except.bind] at h
  refine ⟨hload.1, hload.2, ?_⟩
  cases hcheck : checkLen file.length pos (field file pos 4) with
  | inl found =>
    simp only [hcheck] at h
    cases h
    exact (checkLen_inl hcheck).imp_right .inl
  | inr recordLen =>
    simp only [hcheck] at h
    obtain ⟨hmin, hfits⟩ := checkLen_inr hcheck
    obtain ⟨outcome', -, hbody⟩ := decodeBody_ok crc32c hmin hfits
    rw [hbody] at h
    cases h
    refine .inr (.inr ⟨recordLen, decide (24 + field file (pos + 20) 4 + 4 ≤ recordLen), ⟨hlive, hcheck, ?_⟩, ?_⟩)
    · exact decide_eq_true_iff
    · simp only [decide_eq_true_eq]

/-- A call has no fault where a whole aligned word is left. -/
theorem nextRecord_no_fault (crc32c : Bytes → UInt32) (hheader : SEGMENT_HEADER_LEN ≤ file.length)
    (h : Live file pos → pos % 4 = 0 ∧ pos + 4 ≤ file.length) :
    ∃ outcome pos', nextRecord crc32c file pos = .ok (outcome, pos') := by
  by_cases hlive : Live file pos
  · obtain ⟨haligned, hroom⟩ := h hlive
    rw [nextRecord_of_live hheader hlive, loadWord_ok haligned hroom, Except.bind]
    cases hcheck : checkLen file.length pos (field file pos 4) with
    | inl found => exact ⟨_, _, rfl⟩
    | inr recordLen =>
      obtain ⟨hmin, hfits⟩ := checkLen_inr hcheck
      obtain ⟨outcome, -, hbody⟩ := decodeBody_ok crc32c hmin hfits
      exact ⟨_, _, hbody⟩
  · obtain ⟨outcome, -, hnext⟩ := nextRecord_of_not_live crc32c hheader hlive
    exact ⟨_, _, hnext⟩

/-- A call moves the reader forward by a record at least, or to the end, or not at all; then it has found nothing. -/
theorem nextRecord_moves {outcome : ReadOutcome} {pos' : Nat} (hheader : SEGMENT_HEADER_LEN ≤ file.length)
    (h : nextRecord crc32c file pos = .ok (outcome, pos')) : pos' = pos ∧ Found outcome = false ∨
      pos < file.length ∧ (pos' = file.length ∨ pos + RECORD_FRAMING ≤ pos') := by
  by_cases hlive : Live file pos
  · obtain ⟨-, -, ⟨hfound, hpos⟩ | hpos | ⟨recordLen, fits, ⟨-, hcheck, -⟩, hpos⟩⟩ := nextRecord_ok hheader hlive h
    · exact .inl ⟨hpos, hfound⟩
    · exact .inr ⟨hlive.1, .inl hpos⟩
    · obtain ⟨hmin, -⟩ := checkLen_inr hcheck
      have halign : recordLen ≤ alignRecordLen recordLen := by
        unfold alignRecordLen
        omega
      refine .inr ⟨hlive.1, .inr ?_⟩
      rw [hpos]
      split <;> omega
  · obtain ⟨outcome', hfound, hnext⟩ := nextRecord_of_not_live crc32c hheader hlive
    rw [hnext] at h
    cases h
    exact .inl ⟨rfl, hfound⟩

/-! ### The call in steps -/

/-- What the call has loaded of the record are bytes of the file. -/
structure Loading (file : Bytes) (pos recordLen : Nat) (d : Decoding) : Prop where
  len : d.len = recordLen
  head : d.head <+: slice file (pos + 4) 20
  crc : d.crc <+: slice file (pos + (recordLen - 4)) 4
  input : d.input <+: slice file (pos + 4) (recordLen - 8)
  payload : d.payload <+: slice file (pos + 24) (field file (pos + 20) 4)

private theorem load_next {got : Bytes} {a n : Nat} (h : got <+: slice file a n) (hlt : got.length < n)
    (hfits : a + n ≤ file.length) : got ++ [ofBytes file (a + got.length)] <+: slice file a n := by
  have hlt' : got.length < (slice file a n).length := hlt.trans_eq (length_slice hfits).symm
  rw [ofBytes_slice hlt']
  exact prefix_concat h hlt'

private theorem load_done {got : Bytes} {a n : Nat} (h : got <+: slice file a n) (hle : ¬got.length < n)
    (hfits : a + n ≤ file.length) : got = slice file a n := by
  refine eq_of_initial h ?_
  rw [length_slice hfits]
  exact Nat.le_of_not_lt hle

/-- A step of the decoding loads the next byte, or returns what `decodeBody` does. -/
theorem Loading.decodeStep {d : Decoding} {rd : MmapSegmentReader} {outcome : ReadOutcome} {pos' : Nat}
    (hd : Loading file pos recordLen d) (hpos : rd.pos = pos) (hmin : RECORD_FRAMING ≤ recordLen)
    (hfits : pos + recordLen ≤ file.length) (hbody : decodeBody crc32c file pos recordLen = .ok (outcome, pos'))
    (size : Nat) :
    (∃ d', MmapSegmentReader.decodeStep crc32c (ofBytes file) d rd = rd.goto (.decode d') ∧
      Loading file pos recordLen d' ∧ (ReaderPc.decode d').stepsLeft size < (ReaderPc.decode d).stepsLeft size) ∨
    MmapSegmentReader.decodeStep crc32c (ofBytes file) d rd = rd.return outcome pos' := by
  rw [decodeBody_eq crc32c hmin hfits] at hbody
  obtain ⟨hlen, hhead, hcrc, hinput, hpayload⟩ := hd
  simp only [RECORD_FRAMING] at hmin
  subst hpos hlen
  have hcrcAt : rd.pos + d.len - 4 = rd.pos + (d.len - 4) := by omega
  unfold MmapSegmentReader.decodeStep
  by_cases hmore : d.head.length < 20
  · rw [if_pos hmore]
    refine .inl ⟨_, rfl, ⟨rfl, load_next hhead hmore (by omega), hcrc, hinput, hpayload⟩, ?_⟩
    simp only [ReaderPc.stepsLeft, List.length_append, List.length_singleton]
    omega
  have hheadEq := load_done hhead hmore (by omega)
  have hpayloadLen : ofLe (slice d.head 16 4) = field file (rd.pos + 20) 4 := by
    rw [hheadEq, slice_slice (by omega)]
    rfl
  simp only [if_neg hmore, hpayloadLen]
  by_cases hover : d.len < 24 + field file (rd.pos + 20) 4 + 4
  · simp only [if_pos hover] at hbody ⊢
    cases hbody
    exact .inr rfl
  simp only [if_neg hover] at hbody ⊢
  by_cases hmore : d.crc.length < 4
  · rw [if_pos hmore, hcrcAt]
    refine .inl ⟨_, rfl, ⟨rfl, hhead, load_next hcrc hmore (by omega), hinput, hpayload⟩, ?_⟩
    simp only [ReaderPc.stepsLeft, List.length_append, List.length_singleton]
    omega
  have hcrcEq : ofLe d.crc = field file (rd.pos + (d.len - 4)) 4 := by
    rw [load_done hcrc hmore (by omega)]
    rfl
  rw [if_neg hmore]
  by_cases hmore : d.input.length < d.len - 8
  · rw [if_pos hmore]
    refine .inl ⟨_, rfl, ⟨rfl, hhead, hcrc, load_next hinput hmore (by omega), hpayload⟩, ?_⟩
    simp only [ReaderPc.stepsLeft, List.length_append, List.length_singleton]
    omega
  have hcomputed : crc32c d.input = crc32c (slice file (rd.pos + 4) (d.len - 8)) := by
    rw [load_done hinput hmore (by omega)]
  rw [if_neg hmore, hcrcEq, hcomputed]
  by_cases hsum : field file (rd.pos + (d.len - 4)) 4 ≠ (crc32c (slice file (rd.pos + 4) (d.len - 8))).toNat
  · simp only [if_pos hsum] at hbody ⊢
    cases hbody
    exact .inr rfl
  simp only [if_neg hsum] at hbody ⊢
  by_cases hmore : d.payload.length < field file (rd.pos + 20) 4
  · rw [if_pos hmore]
    refine .inl ⟨_, rfl, ⟨rfl, hhead, hcrc, hinput, load_next hpayload hmore (by omega)⟩, ?_⟩
    simp only [ReaderPc.stepsLeft, List.length_append, List.length_singleton]
    omega
  rw [if_neg hmore, load_done hpayload hmore (by omega), hheadEq, slice_slice (by omega), slice_slice (by omega)]
  cases hbody
  exact .inr rfl

/-- Where no access fails, a call returns what the reader of the live log does, which loads byte after byte. -/
theorem nextRecord_steps {outcome : ReadOutcome} {pos' : Nat} (hheader : SEGMENT_HEADER_LEN ≤ file.length)
    (h : nextRecord crc32c file pos = .ok (outcome, pos')) (outcomes : List ReadOutcome) :
    MmapSegmentReader.nextRecord crc32c file.length (ofBytes file) ⟨pos, .idle, outcomes⟩ =
      ⟨pos', .idle, outcomes ++ [outcome]⟩ := by
  have htail : loadWord file TAIL_OFFSET 8 = .ok (field file TAIL_OFFSET 8) := loadWord_ok (by decide) hheader
  have htailLoad : ofLe (load (ofBytes file) TAIL_OFFSET 8) = field file TAIL_OFFSET 8 := by
    rw [load_ofBytes hheader]
    rfl
  refine MmapSegmentReader.stepToReturn_of_steps
    (fun t => t.outcomes = outcomes ∧ t.pos = pos ∧ (t.pc = .idle ∨ t.pc = .tail ∧ pos < file.length ∨
      t.pc = .len ∧ Live file pos ∨ ∃ recordLen d, t.pc = .decode d ∧ Loading file pos recordLen d ∧
        RECORD_FRAMING ≤ recordLen ∧ pos + recordLen ≤ file.length ∧
        decodeBody crc32c file pos recordLen = .ok (outcome, pos')))
    (fun t => t = ⟨pos', .idle, outcomes ++ [outcome]⟩) ?_ ⟨rfl, rfl, .inl rfl⟩ (Nat.le_refl _)
  rintro t ⟨rfl, rfl, hpc | ⟨hpc, hlt⟩ | ⟨hpc, hlive⟩ | ⟨recordLen, d, hpc, hd, hmin, hfits, hbody⟩⟩
  · simp only [MmapSegmentReader.step, hpc]
    by_cases hend : file.length ≤ t.pos
    · rw [nextRecord, if_pos hend] at h
      cases h
      rw [if_pos hend]
      exact .inl ⟨rfl, rfl⟩
    · rw [if_neg hend]
      exact .inr ⟨⟨rfl, rfl, .inr (.inl ⟨rfl, Nat.lt_of_not_le hend⟩)⟩, (fun h => by cases h), Nat.lt_succ_self _⟩
  · simp only [MmapSegmentReader.step, hpc, htailLoad]
    by_cases hawait : field file TAIL_OFFSET 8 ≤ t.pos
    · rw [nextRecord, if_neg (Nat.not_le_of_lt hlt), htail] at h
      simp only [bind, Except.bind, if_pos hawait] at h
      cases h
      rw [if_pos hawait]
      exact .inl ⟨rfl, rfl⟩
    · rw [if_neg hawait]
      have hlive : Live file t.pos := ⟨hlt, Nat.lt_of_not_le hawait⟩
      exact .inr ⟨⟨rfl, rfl, .inr (.inr (.inl ⟨rfl, hlive⟩))⟩, (fun h => by cases h), Nat.lt_succ_self _⟩
  · obtain ⟨haligned, hroom, -⟩ := nextRecord_ok hheader hlive h
    rw [nextRecord_of_live hheader hlive, loadWord_ok haligned hroom, Except.bind] at h
    have hload : ofLe (load (ofBytes file) t.pos 4) = field file t.pos 4 := by
      rw [load_ofBytes hroom]
      rfl
    simp only [MmapSegmentReader.step, hpc, hload]
    cases hcheck : checkLen file.length t.pos (field file t.pos 4) with
    | inl found =>
      simp only [hcheck] at h
      cases h
      exact .inl ⟨rfl, rfl⟩
    | inr recordLen =>
      simp only [hcheck] at h
      obtain ⟨hmin, hfits⟩ := checkLen_inr hcheck
      refine .inr ⟨⟨rfl, rfl, .inr (.inr (.inr ⟨recordLen, _, rfl, ?_, hmin, hfits, h⟩))⟩, (fun h => by cases h), ?_⟩
      · exact ⟨rfl, List.nil_prefix, List.nil_prefix, List.nil_prefix, List.nil_prefix⟩
      · simp only [RECORD_FRAMING] at hmin
        simp only [MmapSegmentReader.goto, ReaderPc.stepsLeft, List.length_nil]
        omega
  · simp only [MmapSegmentReader.step, hpc]
    rcases hd.decodeStep rfl hmin hfits hbody file.length with ⟨d', hstep, hd', hleft⟩ | hstep
    · rw [hstep]
      refine .inr ⟨⟨rfl, rfl, .inr (.inr (.inr ⟨recordLen, d', rfl, hd', hmin, hfits, hbody⟩))⟩, (fun h => by cases h), ?_⟩
      exact hleft
    · rw [hstep]
      exact .inl ⟨rfl, rfl⟩

/-- And so do any number of calls. -/
theorem calls_steps {n pos' : Nat} {found : List ReadOutcome} (hheader : SEGMENT_HEADER_LEN ≤ file.length)
    (h : calls crc32c file n pos = .ok (found, pos')) (outcomes : List ReadOutcome) :
    (MmapSegmentReader.nextRecord crc32c file.length (ofBytes file))^[n] ⟨pos, .idle, outcomes⟩ =
      ⟨pos', .idle, outcomes ++ found⟩ := by
  induction n generalizing pos outcomes found with
  | zero =>
    cases h
    rw [List.append_nil]
    rfl
  | succ n ih =>
    unfold calls at h
    cases hnext : nextRecord crc32c file pos with
    | error e =>
      rw [hnext] at h
      cases h
    | ok next =>
      simp only [hnext, bind, Except.bind] at h
      cases hrest : calls crc32c file n next.2 with
      | error e =>
        rw [hrest] at h
        cases h
      | ok rest =>
        rw [hrest] at h
        cases h
        rw [Function.iterate_succ_apply, nextRecord_steps hheader hnext, ih hrest, List.append_assoc]
        rfl

theorem open_steps (file : Bytes) :
    «open» file = .ok ((MmapSegmentReader.open file.length (ofBytes file)).map MmapSegmentReader.pos) := by
  unfold «open» MmapSegmentReader.open
  by_cases hshort : file.length < SEGMENT_HEADER_LEN
  · simp only [if_pos hshort]
    rfl
  · have hlen : 32 ≤ file.length := Nat.le_of_not_lt hshort
    simp only [if_neg hshort, index_ok (Nat.zero_le 8) (by omega : 8 ≤ file.length),
      index_ok (by decide : 8 ≤ 12) (by omega : 12 ≤ file.length),
      index_ok (by decide : 16 ≤ 24) (by omega : 24 ≤ file.length), load_ofBytes (by omega : 0 + 8 ≤ file.length),
      load_ofBytes (by omega : 8 + 4 ≤ file.length), bind, Except.bind, pure, Except.pure, Nat.sub_zero]
    split_ifs <;> rfl

/-! ### Any number of calls -/

/-- The last of the calls -/
theorem calls_succ (crc32c : Bytes → UInt32) (file : Bytes) (n pos : Nat) :
    calls crc32c file (n + 1) pos = (calls crc32c file n pos).bind fun found =>
      (nextRecord crc32c file found.2).map fun next => (found.1 ++ [next.1], next.2) := by
  induction n generalizing pos with
  | zero =>
    simp only [calls, Except.bind, bind, pure, Except.pure]
    cases nextRecord crc32c file pos <;> rfl
  | succ n ih =>
    rw [calls]
    conv_rhs => rw [calls]
    cases hnext : nextRecord crc32c file pos with
    | error e => rfl
    | ok next =>
      simp only [bind, Except.bind, ih]
      cases calls crc32c file n next.2 with
      | error e => rfl
      | ok found =>
        simp only [pure, Except.pure]
        cases nextRecord crc32c file found.2 <;> rfl

/-- So many records and errors may have been found before the position. -/
def Budget (file : Bytes) (count pos : Nat) : Prop :=
  RECORD_FRAMING * count ≤ file.length + RECORD_FRAMING ∧ (pos < file.length → RECORD_FRAMING * count ≤ pos)

theorem Budget.next {count pos' : Nat} {outcome : ReadOutcome} (hheader : SEGMENT_HEADER_LEN ≤ file.length)
    (hb : Budget file count pos) (h : nextRecord crc32c file pos = .ok (outcome, pos')) :
    Budget file (count + if Found outcome then 1 else 0) pos' := by
  obtain ⟨htotal, hpos⟩ := hb
  unfold Budget
  simp only [RECORD_FRAMING] at htotal hpos ⊢
  obtain ⟨rfl, hfound⟩ | ⟨hlt, hmove⟩ := nextRecord_moves hheader h
  · rw [hfound]
    exact ⟨htotal, hpos⟩
  · have := hpos hlt
    simp only [RECORD_FRAMING] at hmove
    split <;> refine ⟨by omega, fun hlt' => by omega⟩

theorem Budget.calls {n pos' : Nat} {outcomes : List ReadOutcome} (hheader : SEGMENT_HEADER_LEN ≤ file.length)
    (h : calls crc32c file n SEGMENT_HEADER_LEN = .ok (outcomes, pos')) :
    Budget file (outcomes.countP Found) pos' := by
  induction n generalizing outcomes pos' with
  | zero =>
    cases h
    exact ⟨by simp, by simp⟩
  | succ n ih =>
    rw [calls_succ] at h
    cases hcalls : SegmentBytes.calls crc32c file n SEGMENT_HEADER_LEN with
    | error e =>
      rw [hcalls] at h
      cases h
    | ok found =>
      rw [hcalls, Except.bind] at h
      cases hnext : nextRecord crc32c file found.2 with
      | error e =>
        rw [hnext] at h
        cases h
      | ok next =>
        rw [hnext] at h
        cases h
        have hbudget := (ih hcalls).next hheader hnext
        rw [List.countP_append, List.countP_singleton]
        exact hbudget

theorem calls_next {n : Nat} {outcomes : List ReadOutcome} {next : ReadOutcome × Nat}
    (h : calls crc32c file n SEGMENT_HEADER_LEN = .ok (outcomes, pos)) (hnext : nextRecord crc32c file pos = .ok next) :
    calls crc32c file (n + 1) SEGMENT_HEADER_LEN = .ok (outcomes ++ [next.1], next.2) := by
  rw [calls_succ, h, Except.bind, hnext]
  rfl

/-- A call for a record goes on behind it. -/
theorem nextRecord_recordAt (crc32c : Bytes → UInt32) {fits : Bool} (hheader : SEGMENT_HEADER_LEN ≤ file.length)
    (haligned : pos % 4 = 0) (hroom : pos + 4 ≤ file.length) (h : RecordAt file pos recordLen fits) : ∃ outcome,
      nextRecord crc32c file pos = .ok (outcome, pos + if fits then recordLen else alignRecordLen recordLen) := by
  obtain ⟨hlive, hcheck, hpayload⟩ := h
  obtain ⟨hmin, hfits⟩ := checkLen_inr hcheck
  obtain ⟨outcome, -, hbody⟩ := decodeBody_ok crc32c hmin hfits
  refine ⟨outcome, ?_⟩
  rw [nextRecord_of_live hheader hlive, loadWord_ok haligned hroom, Except.bind]
  simp only [hcheck, hbody, ← hpayload]

/-- Without faults a reader comes to every position of the chain. -/
private theorem reached (hheader : SEGMENT_HEADER_LEN ≤ file.length)
    (hsafe : ∀ n, ∃ outcomes pos, calls crc32c file n SEGMENT_HEADER_LEN = .ok (outcomes, pos)) (h : OnChain file pos) :
    ∃ n outcomes, calls crc32c file n SEGMENT_HEADER_LEN = .ok (outcomes, pos) ∧
      ∃ outcome pos', nextRecord crc32c file pos = .ok (outcome, pos') := by
  -- the next call is one of those without faults
  have hcall {n : Nat} {outcomes : List ReadOutcome} {pos : Nat}
      (h : calls crc32c file n SEGMENT_HEADER_LEN = .ok (outcomes, pos)) :
      ∃ outcome pos', nextRecord crc32c file pos = .ok (outcome, pos') := by
    obtain ⟨outcomes', pos', hnext⟩ := hsafe (n + 1)
    rw [calls_succ, h, Except.bind] at hnext
    cases hrecord : nextRecord crc32c file pos with
    | error e =>
      rw [hrecord] at hnext
      cases hnext
    | ok next => exact ⟨next.1, next.2, rfl⟩
  have hbehind {pos recordLen : Nat} {fits : Bool} (hrecord : RecordAt file pos recordLen fits)
      (ih : ∃ n outcomes, calls crc32c file n SEGMENT_HEADER_LEN = .ok (outcomes, pos) ∧
        ∃ outcome pos', nextRecord crc32c file pos = .ok (outcome, pos')) :
      ∃ n outcomes, calls crc32c file n SEGMENT_HEADER_LEN =
        .ok (outcomes, pos + if fits then recordLen else alignRecordLen recordLen) := by
    obtain ⟨n, outcomes, hn, outcome, pos', hnext⟩ := ih
    obtain ⟨haligned, hroom, -⟩ := nextRecord_ok hheader hrecord.1 hnext
    obtain ⟨outcome', hnext'⟩ := nextRecord_recordAt crc32c hheader haligned hroom hrecord
    exact ⟨n + 1, _, calls_next hn hnext'⟩
  induction h with
  | first => exact ⟨0, [], rfl, hcall (n := 0) rfl⟩
  | next _ hrecord ih =>
    obtain ⟨n, outcomes, hn⟩ := hbehind hrecord ih
    exact ⟨n, outcomes, hn, hcall hn⟩
  | padded _ hrecord ih =>
    obtain ⟨n, outcomes, hn⟩ := hbehind hrecord ih
    exact ⟨n, outcomes, hn, hcall hn⟩

/-- A reader of a regular file is on the chain, at a multiple of four, wherever it looks for a record. -/
private theorem calls_of_regular (crc32c : Bytes → UInt32) (hheader : SEGMENT_HEADER_LEN ≤ file.length)
    (h : Regular file) (n : Nat) :
    ∃ outcomes pos, calls crc32c file n SEGMENT_HEADER_LEN = .ok (outcomes, pos) ∧
      (Live file pos → OnChain file pos ∧ pos % 4 = 0) := by
  induction n with
  | zero => exact ⟨[], SEGMENT_HEADER_LEN, rfl, fun _ => ⟨.first, rfl⟩⟩
  | succ n ih =>
    obtain ⟨outcomes, pos, hn, hpos⟩ := ih
    obtain ⟨outcome, pos', hnext⟩ := nextRecord_no_fault crc32c hheader
      fun hlive => ⟨(hpos hlive).2, h.room pos (hpos hlive).1 hlive⟩
    refine ⟨_, _, calls_next hn hnext, fun hlive' => ?_⟩
    by_cases hlive : Live file pos
    · obtain ⟨hchain, haligned⟩ := hpos hlive
      obtain ⟨-, -, ⟨-, rfl⟩ | rfl | ⟨recordLen, fits, hrecord, rfl⟩⟩ := nextRecord_ok hheader hlive hnext
      · exact ⟨hchain, haligned⟩
      · exact absurd hlive'.1 (Nat.lt_irrefl _)
      · cases fits with
        | true =>
          have heven := (h.lengths pos recordLen hchain hrecord).resolve_right (not_not.2 hlive')
          refine ⟨.next hchain hrecord, ?_⟩
          simp only [if_true]
          omega
        | false =>
          refine ⟨.padded hchain hrecord, ?_⟩
          simp only [Bool.false_eq_true, if_false, alignRecordLen]
          omega
    · obtain ⟨outcome', -, hsame⟩ := nextRecord_of_not_live crc32c hheader hlive
      rw [hnext, Except.ok.injEq, Prod.mk.injEq] at hsame
      rw [hsame.2] at hlive'
      exact absurd hlive' hlive

/-- The header that is accepted is there as a whole. -/
theorem header_le_of_open (h : SegmentBytes.open file = .ok (.ok pos)) : SEGMENT_HEADER_LEN ≤ file.length := by
  unfold SegmentBytes.open at h
  split at h
  · cases h
  · omega

/-- The reader of a file with a valid header is safe if and only if its lengths are regular. -/
theorem reader_safe_iff (crc32c : Bytes → UInt32) (file : Bytes) (pos : Nat)
    (hopen : SegmentBytes.open file = .ok (.ok pos)) : Safe crc32c file ↔ Regular file := by
  have hheader := header_le_of_open hopen
  constructor
  · intro h
    have hnext {pos : Nat} (hchain : OnChain file pos) (hlive : Live file pos) :
        pos % 4 = 0 ∧ pos + 4 ≤ file.length := by
      obtain ⟨n, outcomes, -, outcome, pos', hnext⟩ := reached hheader h.noFault hchain
      obtain ⟨haligned, hroom, -⟩ := nextRecord_ok hheader hlive hnext
      exact ⟨haligned, hroom⟩
    refine ⟨fun pos recordLen hchain hrecord => ?_, fun pos hchain hlive => (hnext hchain hlive).2⟩
    by_cases hlive : Live file (pos + recordLen)
    · have hbefore := (hnext hchain hrecord.1).1
      have hbehind := (hnext (.next hchain hrecord) hlive).1
      exact .inl (by omega)
    · exact .inr hlive
  · intro h
    refine ⟨fun n => ?_, fun n outcomes pos outcome pos' _ hnext hfound => ?_, fun n outcomes pos hn => ?_⟩
    · obtain ⟨outcomes, pos, hn, -⟩ := calls_of_regular crc32c hheader h n
      exact ⟨outcomes, pos, hn⟩
    · obtain ⟨-, hnot⟩ | ⟨hlt, hmove⟩ := nextRecord_moves hheader hnext
      · rw [hfound] at hnot
        cases hnot
      · simp only [RECORD_FRAMING] at hmove
        omega
    · obtain ⟨htotal, -⟩ := Budget.calls hheader hn
      simp only [RECORD_FRAMING] at htotal ⊢
      omega

/-- A segment with one record -/
def oneRecord : Bytes := encodeHeader 0 64 ++ encodeRecord castagnoli ⟨5, 7, [1]⟩

theorem reader_safe_oneRecord : Safe castagnoli oneRecord := by
  refine (reader_safe_iff castagnoli oneRecord 32 (by decide)).2 ?_
  have hend : ¬Live oneRecord 64 := by
    unfold Live
    decide
  have hword : checkLen oneRecord.length 32 (field oneRecord 32 4) = .inr 32 := by decide
  -- the chain goes from the header to the end of the record
  have hchain {pos : Nat} (h : OnChain oneRecord pos) : pos = 32 ∨ pos = 64 := by
    induction h with
    | first => exact .inl rfl
    | next _ hrecord ih | padded _ hrecord ih =>
      obtain ⟨hlive, hcheck, -⟩ := hrecord
      obtain rfl | rfl := ih
      · rw [hword] at hcheck
        cases hcheck
        exact .inr rfl
      · exact absurd hlive hend
  refine ⟨fun pos recordLen h hrecord => ?_, fun pos h hlive => ?_⟩
  · obtain ⟨hlive, hcheck, -⟩ := hrecord
    obtain rfl | rfl := hchain h
    · rw [hword] at hcheck
      cases hcheck
      exact .inl rfl
    · exact absurd hlive hend
  · obtain rfl | rfl := hchain h
    · decide
    · exact absurd hlive hend

/-- A segment that was cut two bytes behind its header, and one with a record of 29 bytes -/
def cut : Bytes := encodeHeader 0 64 ++ [0, 0]

def uneven : Bytes := encodeHeader 0 96 ++ leBytes 4 29 ++ List.replicate 60 0

theorem reader_not_safe : SegmentBytes.open cut = .ok (.ok 32) ∧ ¬Safe castagnoli cut ∧
    SegmentBytes.open uneven = .ok (.ok 32) ∧ ¬Safe castagnoli uneven := by
  refine ⟨by decide, fun h => ?_, by decide, fun h => ?_⟩
  · obtain ⟨outcomes, pos, hcalls⟩ := h.noFault 1
    have hfault : calls castagnoli cut 1 SEGMENT_HEADER_LEN = .error .outOfBounds := rfl
    rw [hfault] at hcalls
    cases hcalls
  · obtain ⟨outcomes, pos, hcalls⟩ := h.noFault 2
    have hrecord : RecordAt uneven 32 29 true := by
      refine ⟨?_, by decide, ?_⟩
      · unfold Live
        decide
      · decide
    obtain ⟨outcome, hnext⟩ := nextRecord_recordAt castagnoli (by decide) (by decide) (by decide) hrecord
    have hone := calls_next (n := 0) rfl hnext
    have hfault : nextRecord castagnoli uneven 61 = .error .misaligned := rfl
    rw [calls_succ, hone, Except.bind] at hcalls
    simp only [if_true, hfault] at hcalls
    cases hcalls

end SegmentBytes

end Mmbus.V2
