import Mmbus.Codec
import Mmbus.WalV2

/-!
# The bytes of a memory-mapped segment

`MmapSegmentWriter` on the bytes of its mapped file, one load or store at a time.  A record is stored in the order
tail, length with the writing bit, body, checksum, length.

What the file holds is always the header, the records that are done, and what there is of the record in progress
(`Mapped`); behind that it is zero.
-/

namespace Mmbus.V2

open ByteMemory FlagBit

def SEGMENT_VERSION_V2 : Nat := 2

/-- `WRITING_BIT_U32 = 1 << 31` -/
def WRITING_BIT : Nat := 31

/-- `u32::MAX` -/
def SKIP_TO_END_SENTINEL : Nat := 2 ^ 32 - 1

def TAIL_OFFSET : Nat := 24

/-! ### The layout -/

/-- The bytes of a record between its length and its checksum, padded with zeros -/
def paddedBody (r : Record) : Bytes := r.body ++ List.replicate (recordBytes r - r.len) 0

theorem len_le_recordBytes (r : Record) : r.len ≤ recordBytes r := by
  unfold Record.len recordBytes alignRecordLen
  omega

@[simp] theorem length_paddedBody (r : Record) : (paddedBody r).length = recordBytes r - 8 := by
  have hle := len_le_recordBytes r
  have hlen : r.len = 28 + r.payload.length := rfl
  simp only [paddedBody, List.length_append, Record.length_body, List.length_replicate]
  omega

theorem recordBytes_lt {r : Record} (h : r.WellFormed) : recordBytes r ≤ MAX_RECORD_LEN := by
  have hpayload := h.payload_le
  unfold recordBytes alignRecordLen
  simp only [MAX_PAYLOAD_LEN, MAX_RECORD_LEN, RECORD_FRAMING] at *
  omega

theorem framing_le_recordBytes (r : Record) : RECORD_FRAMING ≤ recordBytes r :=
  (Nat.le_add_right ..).trans (len_le_recordBytes r)

section
variable (crc32c : Bytes → UInt32)

/-- The bytes of a record that is done -/
def encodeRecord (r : Record) : Bytes :=
  leBytes 4 (recordBytes r) ++ paddedBody r ++ leBytes 4 (crc32c (paddedBody r)).toNat

@[simp] theorem length_encodeRecord (r : Record) : (encodeRecord crc32c r).length = recordBytes r := by
  have hle := framing_le_recordBytes r
  simp only [RECORD_FRAMING] at hle
  simp only [encodeRecord, List.length_append, length_leBytes, length_paddedBody]
  omega

/-- The records one after the other -/
def encodeRecords (rs : List Record) : Bytes := rs.flatMap (encodeRecord crc32c)

@[simp] theorem encodeRecords_nil : encodeRecords crc32c [] = [] := rfl

theorem encodeRecords_append (rs rs' : List Record) :
    encodeRecords crc32c (rs ++ rs') = encodeRecords crc32c rs ++ encodeRecords crc32c rs' :=
  List.flatMap_append ..

theorem encodeRecords_singleton (r : Record) : encodeRecords crc32c [r] = encodeRecord crc32c r := by
  simp [encodeRecords]

/-- The header before the tail -/
def headerStart (first : Nat) : Bytes :=
  leBytes 8 SEGMENT_MAGIC ++ leBytes 4 SEGMENT_VERSION_V2 ++ leBytes 4 0 ++ leBytes 8 first

@[simp] theorem length_headerStart (first : Nat) : (headerStart first).length = TAIL_OFFSET := by
  simp [headerStart, TAIL_OFFSET]

/-- The header of a segment -/
def encodeHeader (first tail : Nat) : Bytes := headerStart first ++ leBytes 8 tail

@[simp] theorem length_encodeHeader (first tail : Nat) : (encodeHeader first tail).length = SEGMENT_HEADER_LEN := by
  simp [encodeHeader, TAIL_OFFSET, SEGMENT_HEADER_LEN]

/-! ### The writer -/

/-- Where the writer is: between two calls (`full` if the last one has returned `SegmentFull`), in `append` with the record `r` (loading the tail, at the
compare-and-swap with the value `current`, and then with the place `offset` of the record: before the first store of
the length, with `n` bytes of the body stored, loading the bytes that the checksum is over, with `n` bytes of the
checksum `crc` stored, and before the last store of the length), in `write_skip_to_end` likewise, or behind it. -/
inductive WriterPc
  | idle (full : Bool)
  | reserve (r : Record)
  | cas (r : Record) (current : Nat)
  | stake (r : Record) (offset : Nat)
  | body (r : Record) (offset n : Nat)
  | crcInput (r : Record) (offset : Nat) (got : Bytes)
  | crc (r : Record) (offset crc n : Nat)
  | commit (r : Record) (offset : Nat)
  | skip
  | skipCas (current : Nat)
  | skipStore (offset : Nat)
  | closed (marked : Bool)
  deriving DecidableEq

/-- A mapped segment file of `size` bytes, its writer, and the records that it has made (no process reads `log`) -/
structure Mapping where
  size : Nat
  mem : Memory
  writer : WriterPc
  log : List Record

namespace Mapping

/-- `MmapSegmentWriter::create`; a file is shorter than `2 ^ 63`. -/
def create (size first : Nat) : Option Mapping :=
  if size < SEGMENT_HEADER_LEN + RECORD_FRAMING ∨ 2 ^ 63 ≤ size then none
  else some ⟨size, ofBytes (encodeHeader first SEGMENT_HEADER_LEN), .idle false, []⟩

/-- The word `tail` -/
def tail (s : Mapping) : Nat := ofLe (load s.mem TAIL_OFFSET 8)

/-- Store bytes. -/
def put (a : Nat) (bs : Bytes) (s : Mapping) : Mapping := { s with mem := store s.mem a bs }

def goto (pc : WriterPc) (s : Mapping) : Mapping := { s with writer := pc }

@[simp] theorem put_size (a : Nat) (bs : Bytes) (s : Mapping) : (s.put a bs).size = s.size := rfl
@[simp] theorem put_log (a : Nat) (bs : Bytes) (s : Mapping) : (s.put a bs).log = s.log := rfl
@[simp] theorem goto_size (pc : WriterPc) (s : Mapping) : (s.goto pc).size = s.size := rfl
@[simp] theorem goto_writer (pc : WriterPc) (s : Mapping) : (s.goto pc).writer = pc := rfl
@[simp] theorem goto_log (pc : WriterPc) (s : Mapping) : (s.goto pc).log = s.log := rfl

/-- The loop of `append` around the compare-and-swap, with the value `current` of the tail -/
def reserveAt (r : Record) (current : Nat) (s : Mapping) : Mapping :=
  if s.size < current + recordBytes r then s.goto (.idle true) else s.goto (.cas r current)

/-- The loop of `write_skip_to_end` around the compare-and-swap -/
def skipAt (current : Nat) (s : Mapping) : Mapping :=
  if s.size < current + 4 then s.goto (.closed false) else s.goto (.skipCas current)

@[simp] theorem reserveAt_size (r : Record) (current : Nat) (s : Mapping) : (s.reserveAt r current).size = s.size := by
  unfold reserveAt
  split <;> rfl

@[simp] theorem reserveAt_log (r : Record) (current : Nat) (s : Mapping) : (s.reserveAt r current).log = s.log := by
  unfold reserveAt
  split <;> rfl

@[simp] theorem skipAt_size (current : Nat) (s : Mapping) : (s.skipAt current).size = s.size := by
  unfold skipAt
  split <;> rfl

@[simp] theorem skipAt_log (current : Nat) (s : Mapping) : (s.skipAt current).log = s.log := by
  unfold skipAt
  split <;> rfl

/-- The next step of the writer.  A compare-and-swap may fail without reason (`spurious`). -/
def writerStep (spurious : Bool) (s : Mapping) : Option Mapping :=
  match s.writer with
  | .idle _ => none
  | .reserve r => some (s.reserveAt r s.tail)
  | .cas r current =>
    if spurious ∨ s.tail ≠ current then some (s.reserveAt r s.tail)
    else some ((s.put TAIL_OFFSET (leBytes 8 (current + recordBytes r))).goto (.stake r current))
  | .stake r offset =>
    some ((s.put offset (leBytes 4 (setFlag WRITING_BIT (recordBytes r)))).goto (.body r offset 0))
  | .body r offset n =>
    match r.body[n]? with
    | some b => some ((s.put (offset + 4 + n) [b]).goto (.body r offset (n + 1)))
    | none => some (s.goto (.crcInput r offset []))
  | .crcInput r offset got =>
    if got.length < recordBytes r - 8 then
      some (s.goto (.crcInput r offset (got ++ [s.mem (offset + 4 + got.length)])))
    else some (s.goto (.crc r offset (crc32c got).toNat 0))
  | .crc r offset crc n =>
    match (leBytes 4 crc)[n]? with
    | some b => some ((s.put (offset + recordBytes r - 4 + n) [b]).goto (.crc r offset crc (n + 1)))
    | none => some (s.goto (.commit r offset))
  | .commit r offset =>
    some { (s.put offset (leBytes 4 (recordBytes r))).goto (.idle false) with log := s.log ++ [r] }
  | .skip => some (s.skipAt s.tail)
  | .skipCas current =>
    if spurious ∨ s.tail ≠ current then some (s.skipAt s.tail)
    else some ((s.put TAIL_OFFSET (leBytes 8 (current + 4))).goto (.skipStore current))
  | .skipStore offset => some ((s.put offset (leBytes 4 SKIP_TO_END_SENTINEL)).goto (.closed true))
  | .closed _ => none

/-- A call of `append`.  A payload that is too large is refused. -/
def beginAppend (cursor ts : UInt64) (payload : Bytes) (s : Mapping) : Option Mapping :=
  match s.writer with
  | .idle _ =>
    if MAX_PAYLOAD_LEN < payload.length then some (s.goto (.idle false))
    else some (s.goto (.reserve ⟨cursor.toNat, ts.toNat, payload⟩))
  | _ => none

/-- The call of `write_skip_to_end` -/
def beginSkip (s : Mapping) : Option Mapping :=
  match s.writer with
  | .idle _ => some (s.goto .skip)
  | _ => none

/-! ### What the file holds -/

/-- The end of the records that are done -/
def done (s : Mapping) : Nat := SEGMENT_HEADER_LEN + (encodeRecords crc32c s.log).length

/-- What the file has of the record in progress, or of the marker -/
def inFlight : WriterPc → Bytes
  | .body r _ n => leBytes 4 (setFlag WRITING_BIT (recordBytes r)) ++ r.body.take n
  | .crcInput r _ _ => leBytes 4 (setFlag WRITING_BIT (recordBytes r)) ++ paddedBody r
  | .crc r _ crc n => leBytes 4 (setFlag WRITING_BIT (recordBytes r)) ++ paddedBody r ++ (leBytes 4 crc).take n
  | .commit r _ =>
    leBytes 4 (setFlag WRITING_BIT (recordBytes r)) ++ paddedBody r ++ leBytes 4 (crc32c (paddedBody r)).toNat
  | .closed true => leBytes 4 SKIP_TO_END_SENTINEL
  | _ => []

/-- What the writer has reserved behind the records that are done -/
def reserved : WriterPc → Nat
  | .stake r _ | .body r _ _ | .crcInput r _ _ | .crc r _ _ _ | .commit r _ => recordBytes r
  | .skipStore _ | .closed true => 4
  | _ => 0

/-- The records that are done, behind the header -/
def settled (first : Nat) (s : Mapping) : Bytes :=
  encodeHeader first (s.done crc32c + reserved s.writer) ++ encodeRecords crc32c s.log

@[simp] theorem length_settled (first : Nat) (s : Mapping) : (s.settled crc32c first).length = s.done crc32c := by
  simp [settled, done]

/-- A record in progress at the end `done` of the records of a segment of `size` bytes -/
structure Placed (done size : Nat) (r : Record) (offset : Nat) : Prop where
  wellFormed : r.WellFormed
  offset_eq : offset = done
  fits : done + recordBytes r ≤ size

/-- What the writer knows -/
def Knows (done size : Nat) : WriterPc → Prop
  | .reserve r => r.WellFormed
  | .cas r offset | .stake r offset | .body r offset _ | .commit r offset => Placed done size r offset
  | .crcInput r offset got => Placed done size r offset ∧ got = (paddedBody r).take got.length
  | .crc r offset crc _ => Placed done size r offset ∧ crc = (crc32c (paddedBody r)).toNat
  | .skipCas offset | .skipStore offset => offset = done ∧ done + 4 ≤ size
  | _ => True

/-- The file holds its records, and what there is of the next one. -/
structure Mapped (first : Nat) (s : Mapping) : Prop where
  mem_eq : s.mem = ofBytes (s.settled crc32c first ++ inFlight crc32c s.writer)
  knows : Knows crc32c (s.done crc32c) s.size s.writer
  done_le : s.done crc32c ≤ s.size
  size_lt : s.size < 2 ^ 63
  wellFormed : ∀ r ∈ s.log, r.WellFormed

variable {crc32c} {s s' : Mapping} {first size : Nat} {r : Record}

theorem mapped_create (h : create size first = some s) : s.Mapped crc32c first := by
  unfold create at h
  split at h
  · cases h
  · rename_i hsize
    cases h
    refine ⟨?_, trivial, ?_, ?_, nofun⟩
    · simp [settled, done, reserved, inFlight]
    · simp only [done, encodeRecords_nil, List.length_nil]
      omega
    · simp only
      omega

/-- The word `tail` covers the records that are done and what the writer has reserved. -/
theorem Mapped.tail_eq (h : s.Mapped crc32c first) : s.tail = s.done crc32c + reserved s.writer := by
  have hlt : s.done crc32c + reserved s.writer < 256 ^ 8 := by
    have hdone := h.done_le
    have hsize := h.size_lt
    have hreserved : reserved s.writer ≤ MAX_RECORD_LEN := by
      have hknows := h.knows
      unfold reserved
      split <;> rename_i heq <;> simp only [heq, Knows] at hknows
      · exact recordBytes_lt hknows.wellFormed
      · exact recordBytes_lt hknows.wellFormed
      · exact recordBytes_lt hknows.1.wellFormed
      · exact recordBytes_lt hknows.1.wellFormed
      · exact recordBytes_lt hknows.wellFormed
      all_goals decide
    have : MAX_RECORD_LEN < 2 ^ 62 := by decide
    omega
  have hmem : s.mem = ofBytes (headerStart first ++ leBytes 8 (s.done crc32c + reserved s.writer) ++
      (encodeRecords crc32c s.log ++ inFlight crc32c s.writer)) := by
    rw [h.mem_eq, settled, encodeHeader]
    simp only [List.append_assoc]
  have hload : load s.mem TAIL_OFFSET 8 = leBytes 8 (s.done crc32c + reserved s.writer) := by
    rw [hmem]
    have := load_mid (headerStart first) (leBytes 8 (s.done crc32c + reserved s.writer))
      (encodeRecords crc32c s.log ++ inFlight crc32c s.writer)
    simpa using this
  rw [tail, hload, ofLe_leBytes hlt]

/-- Store a new tail. -/
theorem Mapped.store_tail (h : s.Mapped crc32c first) (t : Nat) : store s.mem TAIL_OFFSET (leBytes 8 t) =
    ofBytes (encodeHeader first t ++ encodeRecords crc32c s.log ++ inFlight crc32c s.writer) := by
  have hlength : (leBytes 8 t).length = (leBytes 8 (s.done crc32c + reserved s.writer)).length := by simp
  have := store_mid (headerStart first) (leBytes 8 (s.done crc32c + reserved s.writer))
    (encodeRecords crc32c s.log ++ inFlight crc32c s.writer) hlength
  rw [length_headerStart] at this
  rw [h.mem_eq, settled, encodeHeader, encodeHeader]
  simpa only [List.append_assoc] using this

/-- Store behind what is in the file. -/
theorem Mapped.store_next (h : s.Mapped crc32c first) {a : Nat} (ha : a = s.done crc32c + (inFlight crc32c s.writer).length)
    (bs : Bytes) : store s.mem a bs = ofBytes (s.settled crc32c first ++ (inFlight crc32c s.writer ++ bs)) := by
  have := store_end (s.settled crc32c first ++ inFlight crc32c s.writer) bs
  rw [List.length_append, length_settled, ← ha] at this
  rw [h.mem_eq, this, List.append_assoc]

/-- The writer goes on without a store. -/
theorem Mapped.goto (h : s.Mapped crc32c first) {pc : WriterPc} {k : Nat}
    (hpart : inFlight crc32c pc = inFlight crc32c s.writer ++ List.replicate k 0) (hreserved : reserved pc = reserved s.writer)
    (hknows : Knows crc32c (s.done crc32c) s.size pc) : (s.goto pc).Mapped crc32c first := by
  refine ⟨?_, hknows, h.done_le, h.size_lt, h.wellFormed⟩
  have hsettled : (s.goto pc).settled crc32c first = s.settled crc32c first := by
    simp only [settled, Mapping.goto, done, hreserved]
  have hmem : (s.goto pc).mem = s.mem := rfl
  rw [hmem, hsettled, h.mem_eq]
  change _ = ofBytes (s.settled crc32c first ++ inFlight crc32c pc)
  rw [hpart, ← List.append_assoc, ofBytes_append_zeros]

theorem Mapped.reserveAt (h : s.Mapped crc32c first) (hr : r.WellFormed) (hpart : inFlight crc32c s.writer = [])
    (hreserved : reserved s.writer = 0) : (s.reserveAt r s.tail).Mapped crc32c first := by
  have htail := h.tail_eq
  rw [hreserved, Nat.add_zero] at htail
  unfold Mapping.reserveAt
  split
  · exact h.goto (k := 0) (by rw [hpart]; rfl) hreserved.symm trivial
  · rename_i hfits
    rw [htail] at hfits
    exact h.goto (k := 0) (by rw [hpart]; rfl) hreserved.symm ⟨hr, htail, not_lt.1 hfits⟩

theorem Mapped.skipAt (h : s.Mapped crc32c first) (hpart : inFlight crc32c s.writer = [])
    (hreserved : reserved s.writer = 0) : (s.skipAt s.tail).Mapped crc32c first := by
  have htail := h.tail_eq
  rw [hreserved, Nat.add_zero] at htail
  unfold Mapping.skipAt
  split
  · exact h.goto (k := 0) (by rw [hpart]; rfl) hreserved.symm trivial
  · rename_i hfits
    rw [htail] at hfits
    exact h.goto (k := 0) (by rw [hpart]; rfl) hreserved.symm ⟨htail, not_lt.1 hfits⟩

/-- The writer stores behind what is in the file. -/
theorem Mapped.put_next (h : s.Mapped crc32c first) {pc : WriterPc} {a : Nat} {bs : Bytes}
    (ha : a = s.done crc32c + (inFlight crc32c s.writer).length) (hpart : inFlight crc32c pc = inFlight crc32c s.writer ++ bs)
    (hreserved : reserved pc = reserved s.writer) (hknows : Knows crc32c (s.done crc32c) s.size pc) :
    ((s.put a bs).goto pc).Mapped crc32c first := by
  refine ⟨?_, hknows, h.done_le, h.size_lt, h.wellFormed⟩
  have hsettled : ((s.put a bs).goto pc).settled crc32c first = s.settled crc32c first := by
    simp only [settled, Mapping.goto, put, done, hreserved]
  rw [hsettled]
  change store s.mem a bs = ofBytes (s.settled crc32c first ++ inFlight crc32c pc)
  rw [hpart, h.store_next ha]

/-- The writer reserves `n` bytes. -/
theorem Mapped.put_tail (h : s.Mapped crc32c first) {pc : WriterPc} {n : Nat} (hold : inFlight crc32c s.writer = [])
    (hpart : inFlight crc32c pc = []) (hreserved : reserved pc = n) (hknows : Knows crc32c (s.done crc32c) s.size pc) :
    ((s.put TAIL_OFFSET (leBytes 8 (s.done crc32c + n))).goto pc).Mapped crc32c first := by
  refine ⟨?_, hknows, h.done_le, h.size_lt, h.wellFormed⟩
  change store s.mem TAIL_OFFSET _ = ofBytes ((encodeHeader first (s.done crc32c + reserved pc) ++ _) ++ inFlight crc32c pc)
  rw [h.store_tail, hold, hpart, hreserved]
  rfl

/-- The last store of the length makes the record. -/
theorem Mapped.commit {offset : Nat} (h : s.Mapped crc32c first) (hpc : s.writer = .commit r offset) :
    Mapped crc32c first
      { (s.put offset (leBytes 4 (recordBytes r))).goto (.idle false) with log := s.log ++ [r] } := by
  have hknows := h.knows
  rw [hpc] at hknows
  obtain ⟨hr, rfl, hfits⟩ := hknows
  have hdone : SEGMENT_HEADER_LEN + (encodeRecords crc32c (s.log ++ [r])).length = s.done crc32c + recordBytes r := by
    rw [encodeRecords_append, encodeRecords_singleton, List.length_append, length_encodeRecord, done, Nat.add_assoc]
  refine ⟨?_, trivial, ?_, h.size_lt, ?_⟩
  · have hlength : (leBytes 4 (recordBytes r)).length = (leBytes 4 (setFlag WRITING_BIT (recordBytes r))).length := by
      simp
    have hstore := store_mid (s.settled crc32c first) (leBytes 4 (setFlag WRITING_BIT (recordBytes r)))
      (paddedBody r ++ leBytes 4 (crc32c (paddedBody r)).toNat) hlength
    rw [length_settled] at hstore
    change store s.mem (s.done crc32c) (leBytes 4 (recordBytes r)) = ofBytes ((encodeHeader first
      (SEGMENT_HEADER_LEN + (encodeRecords crc32c (s.log ++ [r])).length) ++ encodeRecords crc32c (s.log ++ [r])) ++ [])
    rw [h.mem_eq, hpc, inFlight, hdone, encodeRecords_append, encodeRecords_singleton, encodeRecord, List.append_nil]
    simp only [settled, hpc, reserved, List.append_assoc] at hstore ⊢
    exact hstore
  · change SEGMENT_HEADER_LEN + (encodeRecords crc32c (s.log ++ [r])).length ≤ s.size
    omega
  · intro q hq
    rcases List.mem_append.1 hq with hq | hq
    · exact h.wellFormed q hq
    · exact List.mem_singleton.1 hq ▸ hr

/-- The byte of the body that the writer loads for the checksum -/
theorem Mapped.body_byte {offset : Nat} {got : Bytes} (h : s.Mapped crc32c first) (hpc : s.writer = .crcInput r offset got)
    (hlt : got.length < (paddedBody r).length) :
    s.mem (offset + 4 + got.length) = (paddedBody r)[got.length] := by
  have hknows := h.knows
  rw [hpc] at hknows
  obtain ⟨⟨-, rfl, -⟩, -⟩ := hknows
  have hbyte := ofBytes_mid (s.settled crc32c first ++ leBytes 4 (setFlag WRITING_BIT (recordBytes r))) [] hlt
  rw [List.length_append, length_settled, length_leBytes, List.append_nil] at hbyte
  rw [h.mem_eq, hpc, inFlight, ← List.append_assoc]
  exact hbyte

theorem Mapped.writerStep {spurious : Bool} (h : s.Mapped crc32c first) (hs : s.writerStep crc32c spurious = some s') :
    s'.Mapped crc32c first := by
  have hknows := h.knows
  have htail := h.tail_eq
  unfold Mapping.writerStep at hs
  cases hpc : s.writer with
  | idle full => simp [hpc] at hs
  | closed marked => simp [hpc] at hs
  | reserve r =>
    simp only [hpc, Option.some.injEq] at hs hknows
    subst hs
    exact h.reserveAt hknows (by simp [hpc, inFlight]) (by simp [hpc, reserved])
  | skip =>
    simp only [hpc, Option.some.injEq] at hs
    subst hs
    exact h.skipAt (by simp [hpc, inFlight]) (by simp [hpc, reserved])
  | cas r current =>
    simp only [hpc] at hs hknows
    split at hs <;> cases hs
    · exact h.reserveAt hknows.wellFormed (by simp [hpc, inFlight]) (by simp [hpc, reserved])
    · rw [hknows.offset_eq]
      exact h.put_tail (by simp [hpc, inFlight]) (by simp [inFlight]) rfl ⟨hknows.wellFormed, rfl, hknows.fits⟩
  | skipCas current =>
    simp only [hpc] at hs hknows
    split at hs <;> cases hs
    · exact h.skipAt (by simp [hpc, inFlight]) (by simp [hpc, reserved])
    · rw [hknows.1]
      exact h.put_tail (by simp [hpc, inFlight]) (by simp [inFlight]) rfl ⟨rfl, hknows.2⟩
  | stake r offset =>
    simp only [hpc, Option.some.injEq] at hs hknows
    subst hs
    exact h.put_next (by simp [hpc, inFlight, hknows.offset_eq]) (by simp [hpc, inFlight]) (by simp [hpc, reserved]) hknows
  | skipStore offset =>
    simp only [hpc, Option.some.injEq] at hs hknows
    subst hs
    exact h.put_next (by simp [hpc, inFlight, hknows.1]) (by simp [hpc, inFlight]) (by simp [hpc, reserved]) trivial
  | body r offset n =>
    simp only [hpc] at hs hknows
    cases hb : r.body[n]? with
    | none =>
      simp only [hb, Option.some.injEq] at hs
      subst hs
      have htake : r.body.take n = r.body := List.take_of_length_le (List.getElem?_eq_none_iff.1 hb)
      exact h.goto (k := recordBytes r - r.len) (by simp [hpc, inFlight, htake, paddedBody]) (by simp [hpc, reserved])
        ⟨hknows, rfl⟩
    | some b =>
      simp only [hb, Option.some.injEq] at hs
      subst hs
      obtain ⟨hlt, rfl⟩ := List.getElem?_eq_some_iff.1 hb
      refine h.put_next ?_ ?_ (by simp [hpc, reserved]) hknows
      · rw [hpc, inFlight, List.length_append, length_leBytes, List.length_take_of_le hlt.le, hknows.offset_eq]
        omega
      · simp [hpc, inFlight, List.take_add_one]
  | crcInput r offset got =>
    simp only [hpc] at hs hknows
    split at hs <;> cases hs <;> rename_i hlt
    · rw [← length_paddedBody] at hlt
      refine h.goto (k := 0) (by simp [hpc, inFlight]) (by simp [hpc, reserved]) ⟨hknows.1, ?_⟩
      rw [h.body_byte hpc hlt, List.length_append, List.length_singleton, List.take_add_one,
        List.getElem?_eq_getElem hlt, ← hknows.2]
      rfl
    · have hgot : got = paddedBody r := by
        rw [hknows.2, List.take_of_length_le]
        rw [length_paddedBody]
        exact not_lt.1 hlt
      exact h.goto (k := 0) (by simp [hpc, inFlight]) (by simp [hpc, reserved]) ⟨hknows.1, by rw [hgot]⟩
  | crc r offset c n =>
    simp only [hpc] at hs hknows
    have hframing := framing_le_recordBytes r
    simp only [RECORD_FRAMING] at hframing
    cases hb : (leBytes 4 c)[n]? with
    | none =>
      simp only [hb, Option.some.injEq] at hs
      subst hs
      have htake : (leBytes 4 c).take n = leBytes 4 c := List.take_of_length_le (List.getElem?_eq_none_iff.1 hb)
      refine h.goto (k := 0) ?_ (by simp [hpc, reserved]) hknows.1
      rw [hpc, inFlight, inFlight, htake, hknows.2, List.replicate_zero, List.append_nil]
    | some b =>
      simp only [hb, Option.some.injEq] at hs
      subst hs
      obtain ⟨hlt, rfl⟩ := List.getElem?_eq_some_iff.1 hb
      refine h.put_next ?_ ?_ (by simp [hpc, reserved]) hknows
      · rw [hpc, inFlight, List.length_append, List.length_append, length_leBytes, length_paddedBody,
          List.length_take_of_le hlt.le, hknows.1.offset_eq]
        omega
      · rw [hpc, inFlight, inFlight, List.take_add_one, hb, Option.toList_some]
        simp only [List.append_assoc]
  | commit r offset =>
    simp only [hpc, Option.some.injEq] at hs
    subst hs
    exact h.commit hpc

theorem Mapped.beginAppend {cursor ts : UInt64} {payload : Bytes} (h : s.Mapped crc32c first)
    (hs : s.beginAppend cursor ts payload = some s') : s'.Mapped crc32c first := by
  unfold Mapping.beginAppend at hs
  split at hs
  · rename_i hpc
    split at hs <;> cases hs
    · exact h.goto (k := 0) (by simp [hpc, inFlight]) (by simp [hpc, reserved]) trivial
    · rename_i hlen
      exact h.goto (k := 0) (by simp [hpc, inFlight]) (by simp [hpc, reserved])
        ⟨cursor.toNat_lt, ts.toNat_lt, not_lt.1 hlen⟩
  · cases hs

theorem Mapped.beginSkip (h : s.Mapped crc32c first) (hs : s.beginSkip = some s') : s'.Mapped crc32c first := by
  unfold Mapping.beginSkip at hs
  split at hs
  · rename_i hpc
    cases hs
    exact h.goto (k := 0) (by simp [hpc, inFlight]) (by simp [hpc, reserved]) trivial
  · cases hs

/-- What a step of the writer does to its records -/
structure WriterEffect (crc32c : Bytes → UInt32) (s s' : Mapping) : Prop where
  size_eq : s'.size = s.size
  running : ∀ marked, s.writer ≠ .closed marked
  log : s'.log = s.log ∨ ∃ r, s'.log = s.log ++ [r] ∧ s.done crc32c + recordBytes r ≤ s.size

theorem Mapped.writerStep_effect {spurious : Bool} (h : s.Mapped crc32c first)
    (hs : s.writerStep crc32c spurious = some s') : WriterEffect crc32c s s' := by
  have hknows := h.knows
  unfold Mapping.writerStep at hs
  cases hpc : s.writer <;> simp only [hpc] at hs hknows
  case idle => cases hs
  case closed => cases hs
  case commit r offset =>
    cases hs
    exact ⟨rfl, by simp [hpc], .inr ⟨r, rfl, hknows.fits⟩⟩
  all_goals
    refine ⟨?_, by simp [hpc], .inl ?_⟩ <;> (try split at hs) <;> cases hs <;> simp

theorem beginAppend_effect {cursor ts : UInt64} {payload : Bytes} (hs : s.beginAppend cursor ts payload = some s') :
    WriterEffect crc32c s s' := by
  unfold Mapping.beginAppend at hs
  split at hs
  · rename_i hpc
    split at hs <;> cases hs <;> exact ⟨rfl, by simp [hpc], .inl rfl⟩
  · cases hs

theorem beginSkip_effect (hs : s.beginSkip = some s') : WriterEffect crc32c s s' := by
  unfold Mapping.beginSkip at hs
  split at hs
  · rename_i hpc
    cases hs
    exact ⟨rfl, by simp [hpc], .inl rfl⟩
  · cases hs

/-! ### What a reader finds -/

/-- The bytes of a record that is done -/
theorem Mapped.load_record {l₁ l₂ : List Record} (h : s.Mapped crc32c first) (hlog : s.log = l₁ ++ r :: l₂) :
    load s.mem (SEGMENT_HEADER_LEN + (encodeRecords crc32c l₁).length) (recordBytes r) = encodeRecord crc32c r := by
  have hload := load_mid (encodeHeader first (s.done crc32c + reserved s.writer) ++ encodeRecords crc32c l₁)
    (encodeRecord crc32c r) (encodeRecords crc32c l₂ ++ inFlight crc32c s.writer)
  rw [List.length_append, length_encodeHeader, length_encodeRecord] at hload
  have hrecords : encodeRecords crc32c s.log =
      encodeRecords crc32c l₁ ++ (encodeRecord crc32c r ++ encodeRecords crc32c l₂) := by
    rw [hlog, encodeRecords_append]
    rfl
  rw [h.mem_eq, settled, hrecords]
  simpa only [List.append_assoc] using hload

/-- The length behind the records that are done: not there yet, one with the writing bit, or the marker -/
theorem Mapped.load_next (h : s.Mapped crc32c first) :
    ofLe (load s.mem (s.done crc32c) 4) = 0 ∨
      (∃ r : Record, r.WellFormed ∧ ofLe (load s.mem (s.done crc32c) 4) = setFlag WRITING_BIT (recordBytes r)) ∨
      s.writer = .closed true ∧ ofLe (load s.mem (s.done crc32c) 4) = SKIP_TO_END_SENTINEL := by
  have hnil (hpart : inFlight crc32c s.writer = []) : ofLe (load s.mem (s.done crc32c) 4) = 0 := by
    rw [h.mem_eq, hpart, List.append_nil, load_zeros (by simp)]
    rfl
  have hword {v : Nat} {post : Bytes} (hv : v < 256 ^ 4) (hpart : inFlight crc32c s.writer = leBytes 4 v ++ post) :
      ofLe (load s.mem (s.done crc32c) 4) = v := by
    have hload := load_mid (s.settled crc32c first) (leBytes 4 v) post
    rw [length_settled, length_leBytes] at hload
    rw [h.mem_eq, hpart, ← List.append_assoc, hload, ofLe_leBytes hv]
  have hflag {r : Record} (hr : r.WellFormed) : setFlag WRITING_BIT (recordBytes r) < 256 ^ 4 :=
    setFlag_lt ((recordBytes_lt hr).trans_lt (by decide))
  have hknows := h.knows
  cases hpc : s.writer <;> rw [hpc] at hknows hnil hword
  case body r _ n => exact .inr (.inl ⟨r, hknows.wellFormed, hword (hflag hknows.wellFormed) rfl⟩)
  case crcInput r _ _ => exact .inr (.inl ⟨r, hknows.1.wellFormed, hword (hflag hknows.1.wellFormed) rfl⟩)
  case crc r _ _ _ =>
    exact .inr (.inl ⟨r, hknows.1.wellFormed, hword (hflag hknows.1.wellFormed) (List.append_assoc ..)⟩)
  case commit r _ =>
    exact .inr (.inl ⟨r, hknows.wellFormed, hword (hflag hknows.wellFormed) (List.append_assoc ..)⟩)
  case closed marked =>
    cases marked with
    | true => exact .inr (.inr ⟨rfl, hword (by decide) (List.append_nil _).symm⟩)
    | false => exact .inl (hnil rfl)
  all_goals exact .inl (hnil rfl)

end Mapping

end

end Mmbus.V2
