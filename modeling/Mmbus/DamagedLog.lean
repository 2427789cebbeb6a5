import Mmbus.MappedSessions

/-!
# A log whose newest file is damaged

After a crash the newest mapped file holds its header, the records of a valid prefix, and behind them whatever the disk
has.  `Wal::open` stops at the end of the prefix and writes to a new file, but the bytes behind the prefix stay, and a
replay comes to them again (`Damaged`).

A replay passes over them if they are nothing to read: the end of the file or of what has been reserved, a length that
is zero, or one with the writing bit (`Mapping.Quiet`).  At anything else it stops with an error.
-/

namespace Mmbus.V2

open Attempt ByteMemory Chapters FlagBit Replays Transition

variable {crc32c : Bytes → UInt32}

/-! ### What a call finds at a position -/

/-- There is nothing to read at `pos`. -/
def Mapping.Quiet (s : Mapping) (pos : Nat) : Prop :=
  s.size ≤ pos ∨ s.tail ≤ pos ∨ ofLe (load s.mem pos 4) = 0 ∨ hasFlag WRITING_BIT (ofLe (load s.mem pos 4)) = true

instance (s : Mapping) (pos : Nat) : Decidable (s.Quiet pos) := by
  unfold Mapping.Quiet
  infer_instance

/-- The file with a reader at `pos` between two calls, which have had the given outcomes -/
def Mapping.readerAt (s : Mapping) (pos : Nat) (outcomes : List ReadOutcome) : OpenSegment :=
  ⟨s.size, s.mem, ⟨pos, .idle, outcomes⟩⟩

variable {s s' : Mapping} {size pos : Nat} {m m' : Memory} {rd : MmapSegmentReader} {d : Decoding}

/-- A length of zero, or one with the writing bit -/
theorem checkLen_of_quiet (size pos : Nat) {raw : Nat} (h : raw = 0 ∨ hasFlag WRITING_BIT raw = true) :
    ∃ outcome pos', checkLen size pos raw = .inl (outcome, pos') ∧ (outcome = .awaitMore ∨ outcome = .endOfSegment) := by
  unfold checkLen
  by_cases hzero : raw = 0
  · exact ⟨_, _, if_pos hzero, .inl rfl⟩
  rw [if_neg hzero]
  by_cases hsentinel : raw = SKIP_TO_END_SENTINEL
  · exact ⟨_, _, if_pos hsentinel, .inr rfl⟩
  rw [if_neg hsentinel]
  exact ⟨_, _, if_pos (h.resolve_left hzero), .inl rfl⟩

/-- A length without the writing bit leads to an error or to a record within the file. -/
theorem checkLen_of_length (size pos : Nat) {raw : Nat} (hne : raw ≠ 0) (hflag : hasFlag WRITING_BIT raw = false) :
    (∃ e pos', checkLen size pos raw = .inl (.err e, pos')) ∨
      checkLen size pos raw = .inr raw ∧ RECORD_FRAMING ≤ raw ∧ pos + raw ≤ size := by
  have hsentinel : raw ≠ SKIP_TO_END_SENTINEL := by
    rintro rfl
    revert hflag
    decide
  rw [checkLen, if_neg hne, if_neg hsentinel, if_neg (by simp [hflag])]
  by_cases hmax : MAX_RECORD_LEN < raw
  · exact .inl ⟨_, _, if_pos hmax⟩
  rw [if_neg hmax]
  by_cases hmin : raw < RECORD_FRAMING
  · exact .inl ⟨_, _, if_pos hmin⟩
  rw [if_neg hmin]
  by_cases hfits : size < pos + raw
  · exact .inl ⟨_, _, if_pos hfits⟩
  rw [if_neg hfits]
  exact .inr ⟨rfl, not_lt.1 hmin, not_lt.1 hfits⟩

/-- A record that is being decoded leads to an error or to a record. -/
theorem decodeStep_cases (crc32c : Bytes → UInt32) (size : Nat) (m : Memory) (rd : MmapSegmentReader) (hlen : RECORD_FRAMING ≤ d.len) :
    (∃ d', MmapSegmentReader.decodeStep crc32c m d rd = rd.goto (.decode d') ∧ d'.len = d.len ∧
      (ReaderPc.decode d').stepsLeft size < (ReaderPc.decode d).stepsLeft size) ∨
    (∃ e pos', MmapSegmentReader.decodeStep crc32c m d rd = rd.return (.err e) pos') ∨
    ∃ r pos', MmapSegmentReader.decodeStep crc32c m d rd = rd.return (.record r) pos' := by
  simp only [RECORD_FRAMING] at hlen
  unfold MmapSegmentReader.decodeStep
  by_cases hhead : d.head.length < 20
  · rw [if_pos hhead]
    refine .inl ⟨_, rfl, rfl, ?_⟩
    simp only [ReaderPc.stepsLeft, List.length_append, List.length_singleton]
    omega
  simp only [if_neg hhead]
  by_cases hpayloadLen : d.len < 24 + ofLe (slice d.head 16 4) + 4
  · rw [if_pos hpayloadLen]
    exact .inr (.inl ⟨_, _, rfl⟩)
  rw [if_neg hpayloadLen]
  by_cases hcrc : d.crc.length < 4
  · rw [if_pos hcrc]
    refine .inl ⟨_, rfl, rfl, ?_⟩
    simp only [ReaderPc.stepsLeft, List.length_append, List.length_singleton]
    omega
  rw [if_neg hcrc]
  by_cases hinput : d.input.length < d.len - 8
  · rw [if_pos hinput]
    refine .inl ⟨_, rfl, rfl, ?_⟩
    simp only [ReaderPc.stepsLeft, List.length_append, List.length_singleton]
    omega
  rw [if_neg hinput]
  by_cases hsum : ofLe d.crc ≠ (crc32c d.input).toNat
  · rw [if_pos hsum]
    exact .inr (.inl ⟨_, _, rfl⟩)
  rw [if_neg hsum]
  by_cases hpayload : d.payload.length < ofLe (slice d.head 16 4)
  · rw [if_pos hpayload]
    refine .inl ⟨_, rfl, rfl, ?_⟩
    simp only [ReaderPc.stepsLeft, List.length_append, List.length_singleton]
    omega
  · rw [if_neg hpayload]
    exact .inr (.inr ⟨_, _, rfl⟩)

/-- Where there is nothing to read, a call returns nothing. -/
theorem nextRecord_of_quiet (crc32c : Bytes → UInt32) (outcomes : List ReadOutcome) (h : s.Quiet pos) :
    ∃ outcome, (MmapSegmentReader.nextRecord crc32c s.size s.mem ⟨pos, .idle, outcomes⟩).outcomes =
      outcomes ++ [outcome] ∧ (outcome = .awaitMore ∨ outcome = .endOfSegment) := by
  unfold MmapSegmentReader.nextRecord
  refine MmapSegmentReader.stepToReturn_of_steps
    (fun t => t.outcomes = outcomes ∧ t.pos = pos ∧ (t.pc = .idle ∨ t.pc = .tail ∧ ¬s.size ≤ pos ∨
      t.pc = .len ∧ ¬s.size ≤ pos ∧ ¬s.tail ≤ pos))
    (fun t => ∃ outcome, t.outcomes = outcomes ++ [outcome] ∧ (outcome = .awaitMore ∨ outcome = .endOfSegment))
    ?_ ?_ ?_
  rotate_left
  · exact ⟨rfl, rfl, .inl rfl⟩
  · exact le_rfl
  rintro t ⟨rfl, rfl, hpc | ⟨hpc, hsize⟩ | ⟨hpc, hsize, htail⟩⟩
  · simp only [MmapSegmentReader.step, hpc]
    split
    · exact .inl ⟨⟨_, rfl, .inr rfl⟩, rfl⟩
    · rename_i hsize
      exact .inr ⟨⟨rfl, rfl, .inr (.inl ⟨rfl, hsize⟩)⟩, (fun h => by cases h), Nat.lt_succ_self _⟩
  · simp only [MmapSegmentReader.step, hpc]
    split
    · exact .inl ⟨⟨_, rfl, .inl rfl⟩, rfl⟩
    · rename_i htail
      exact .inr ⟨⟨rfl, rfl, .inr (.inr ⟨rfl, hsize, htail⟩)⟩, (fun h => by cases h), Nat.lt_succ_self _⟩
  · -- the length says so
    have hword := (h.resolve_left hsize).resolve_left htail
    obtain ⟨outcome, pos', hcheck, hquiet⟩ := checkLen_of_quiet s.size t.pos hword
    simp only [MmapSegmentReader.step, hpc, hcheck]
    exact .inl ⟨⟨outcome, rfl, hquiet⟩, rfl⟩

theorem next_of_quiet (outcomes : List ReadOutcome) (h : s.Quiet pos) :
    ((s.readerAt pos outcomes).next crc32c).1 = none := by
  obtain ⟨outcome, houtcomes, hquiet⟩ := nextRecord_of_quiet crc32c outcomes h
  have hlast := congrArg List.getLast? houtcomes
  rw [List.getLast?_concat] at hlast
  rcases hquiet with rfl | rfl <;> simp only [OpenSegment.next, Mapping.readerAt, hlast]

/-- Elsewhere it returns an error or a record. -/
theorem nextRecord_of_not_quiet (crc32c : Bytes → UInt32) (outcomes : List ReadOutcome) (h : ¬s.Quiet pos) :
    ∃ outcome, (MmapSegmentReader.nextRecord crc32c s.size s.mem ⟨pos, .idle, outcomes⟩).outcomes =
      outcomes ++ [outcome] ∧ ((∃ e, outcome = .err e) ∨ ∃ r, outcome = .record r) := by
  obtain ⟨hsize, htail, hzero, hflag⟩ : ¬s.size ≤ pos ∧ ¬s.tail ≤ pos ∧ ofLe (load s.mem pos 4) ≠ 0 ∧
      hasFlag WRITING_BIT (ofLe (load s.mem pos 4)) = false := by
    simpa [Mapping.Quiet, not_or] using h
  unfold MmapSegmentReader.nextRecord
  refine MmapSegmentReader.stepToReturn_of_steps
    (fun t => t.outcomes = outcomes ∧ t.pos = pos ∧ (t.pc = .idle ∨ t.pc = .tail ∨ t.pc = .len ∨
      ∃ d, t.pc = .decode d ∧ RECORD_FRAMING ≤ d.len))
    (fun t => ∃ outcome, t.outcomes = outcomes ++ [outcome] ∧ ((∃ e, outcome = .err e) ∨ ∃ r, outcome = .record r))
    ?_ ?_ ?_
  rotate_left
  · exact ⟨rfl, rfl, .inl rfl⟩
  · exact le_rfl
  rintro t ⟨rfl, rfl, hpc | hpc | hpc | ⟨d, hpc, hlen⟩⟩
  · simp only [MmapSegmentReader.step, hpc, if_neg hsize]
    exact .inr ⟨⟨rfl, rfl, .inr (.inl rfl)⟩, (fun h => by cases h), Nat.lt_succ_self _⟩
  · rw [Mapping.tail] at htail
    simp only [MmapSegmentReader.step, hpc, if_neg htail]
    exact .inr ⟨⟨rfl, rfl, .inr (.inr (.inl rfl))⟩, (fun h => by cases h), Nat.lt_succ_self _⟩
  · simp only [MmapSegmentReader.step, hpc]
    rcases checkLen_of_length s.size t.pos hzero hflag with ⟨e, pos', hcheck⟩ | ⟨hcheck, hmin, hfits⟩
    · rw [hcheck]
      exact .inl ⟨⟨_, rfl, .inl ⟨e, rfl⟩⟩, rfl⟩
    · rw [hcheck]
      refine .inr ⟨⟨rfl, rfl, .inr (.inr (.inr ⟨_, rfl, hmin⟩))⟩, (fun h => by cases h), ?_⟩
      simp only [RECORD_FRAMING] at hmin
      simp only [MmapSegmentReader.goto, ReaderPc.stepsLeft, List.length_nil]
      omega
  · simp only [MmapSegmentReader.step, hpc]
    rcases decodeStep_cases crc32c s.size s.mem t hlen with
      ⟨d', hstep, hlen', hleft⟩ | ⟨e, pos', hstep⟩ | ⟨r, pos', hstep⟩
    · rw [hstep]
      exact .inr ⟨⟨rfl, rfl, .inr (.inr (.inr ⟨d', rfl, hlen'.symm ▸ hlen⟩))⟩, (fun h => by cases h), hleft⟩
    · rw [hstep]
      exact .inl ⟨⟨_, rfl, .inl ⟨e, rfl⟩⟩, rfl⟩
    · rw [hstep]
      exact .inl ⟨⟨_, rfl, .inr ⟨r, rfl⟩⟩, rfl⟩

theorem next_of_not_quiet (crc32c : Bytes → UInt32) (outcomes : List ReadOutcome) (h : ¬s.Quiet pos) :
    (∃ e, ((s.readerAt pos outcomes).next crc32c).1 = some (.error e)) ∨
      ∃ r, ((s.readerAt pos outcomes).next crc32c).1 = some (.ok r) := by
  obtain ⟨outcome, houtcomes, hfound⟩ := nextRecord_of_not_quiet crc32c outcomes h
  have hlast := congrArg List.getLast? houtcomes
  rw [List.getLast?_concat] at hlast
  rcases hfound with ⟨e, rfl⟩ | ⟨r, rfl⟩ <;> simp only [OpenSegment.next, Mapping.readerAt, hlast]
  · exact .inl ⟨e, rfl⟩
  · exact .inr ⟨r, rfl⟩

namespace MmapSegmentReader

/-- The reader with earlier outcomes -/
def after (earlier : List ReadOutcome) (rd : MmapSegmentReader) : MmapSegmentReader :=
  { rd with outcomes := earlier ++ rd.outcomes }

theorem step_after (earlier : List ReadOutcome) :
    (rd.after earlier).step crc32c size m = (rd.step crc32c size m).after earlier := by
  obtain ⟨pos, pc, outcomes⟩ := rd
  cases pc <;> simp only [step, after]
  case idle | tail => split_ifs with hle <;> simp [goto, «return», hle]
  case len => split <;> simp [goto, «return»]
  case decode d =>
    unfold decodeStep
    simp only
    split_ifs <;> simp [goto, «return»]

theorem stepToReturn_after (earlier : List ReadOutcome) (n : Nat) :
    (rd.after earlier).stepToReturn crc32c size m n = (rd.stepToReturn crc32c size m n).after earlier := by
  induction n generalizing rd with
  | zero => rfl
  | succ n ih =>
    simp only [stepToReturn, step_after]
    have hpc : ((rd.step crc32c size m).after earlier).pc = (rd.step crc32c size m).pc := rfl
    rw [hpc]
    cases (rd.step crc32c size m).pc <;> simp only [ih]

end MmapSegmentReader

/-- What a call finds does not depend on earlier calls. -/
theorem next_readerAt (outcomes : List ReadOutcome) :
    ((s.readerAt pos outcomes).next crc32c).1 = ((s.readerAt pos []).next crc32c).1 := by
  have hafter : MmapSegmentReader.nextRecord crc32c s.size s.mem ⟨pos, .idle, outcomes⟩ =
      (MmapSegmentReader.nextRecord crc32c s.size s.mem ⟨pos, .idle, []⟩).after outcomes := by
    have hstart : (⟨pos, .idle, outcomes⟩ : MmapSegmentReader) = MmapSegmentReader.after outcomes ⟨pos, .idle, []⟩ := by
      rw [MmapSegmentReader.after, List.append_nil]
    rw [hstart]
    exact MmapSegmentReader.stepToReturn_after ..
  obtain ⟨outcome, houtcome⟩ : ∃ outcome,
      (MmapSegmentReader.nextRecord crc32c s.size s.mem ⟨pos, .idle, []⟩).outcomes = [outcome] := by
    by_cases hquiet : s.Quiet pos
    · obtain ⟨outcome, houtcome, -⟩ := nextRecord_of_quiet crc32c [] hquiet
      exact ⟨outcome, houtcome⟩
    · obtain ⟨outcome, houtcome, -⟩ := nextRecord_of_not_quiet crc32c [] hquiet
      exact ⟨outcome, houtcome⟩
  simp only [OpenSegment.next, Mapping.readerAt, hafter, MmapSegmentReader.after, houtcome, List.getLast?_concat,
    List.getLast?_singleton]
  cases outcome <;> rfl

/-! ### Two files that agree on a record -/

theorem decodeStep_congr (crc32c : Bytes → UInt32) (hlen : RECORD_FRAMING ≤ d.len)
    (h : ∀ i, i < d.len → m (rd.pos + i) = m' (rd.pos + i)) :
    MmapSegmentReader.decodeStep crc32c m d rd = MmapSegmentReader.decodeStep crc32c m' d rd := by
  simp only [RECORD_FRAMING] at hlen
  unfold MmapSegmentReader.decodeStep
  by_cases hhead : d.head.length < 20
  · have hbyte := h (4 + d.head.length) (by omega)
    rw [← Nat.add_assoc] at hbyte
    rw [if_pos hhead, if_pos hhead, hbyte]
  simp only [if_neg hhead]
  by_cases hpayloadLen : d.len < 24 + ofLe (slice d.head 16 4) + 4
  · rw [if_pos hpayloadLen, if_pos hpayloadLen]
  rw [if_neg hpayloadLen, if_neg hpayloadLen]
  by_cases hcrc : d.crc.length < 4
  · have hbyte := h (d.len - 4 + d.crc.length) (by omega)
    have hplace : rd.pos + d.len - 4 + d.crc.length = rd.pos + (d.len - 4 + d.crc.length) := by omega
    rw [if_pos hcrc, if_pos hcrc, hplace, hbyte]
  rw [if_neg hcrc, if_neg hcrc]
  by_cases hinput : d.input.length < d.len - 8
  · have hbyte := h (4 + d.input.length) (by omega)
    rw [← Nat.add_assoc] at hbyte
    rw [if_pos hinput, if_pos hinput, hbyte]
  rw [if_neg hinput, if_neg hinput]
  by_cases hsum : ofLe d.crc ≠ (crc32c d.input).toNat
  · rw [if_pos hsum, if_pos hsum]
  rw [if_neg hsum, if_neg hsum]
  by_cases hpayload : d.payload.length < ofLe (slice d.head 16 4)
  · have hbyte := h (24 + d.payload.length) (by omega)
    rw [← Nat.add_assoc] at hbyte
    rw [if_pos hpayload, if_pos hpayload, hbyte]
  · rw [if_neg hpayload, if_neg hpayload]

theorem step_congr (crc32c : Bytes → UInt32) (size : Nat)
    (htail : ofLe (load m TAIL_OFFSET 8) ≤ rd.pos ↔ ofLe (load m' TAIL_OFFSET 8) ≤ rd.pos)
    (hlen : ∀ i, i < RECORD_FRAMING → m (rd.pos + i) = m' (rd.pos + i))
    (hdecode : ∀ d, rd.pc = .decode d → RECORD_FRAMING ≤ d.len ∧ ∀ i, i < d.len → m (rd.pos + i) = m' (rd.pos + i)) :
    rd.step crc32c size m = rd.step crc32c size m' := by
  unfold MmapSegmentReader.step
  cases hpc : rd.pc with
  | idle => rfl
  | tail => simp only [htail]
  | len =>
    have hword : load m rd.pos 4 = load m' rd.pos 4 :=
      List.map_congr_left fun i hi => hlen i ((List.mem_range.1 hi).trans (by decide))
    simp only [hword]
  | decode d =>
    obtain ⟨hmin, hbytes⟩ := hdecode d hpc
    exact decodeStep_congr crc32c hmin hbytes

/-! ### A damaged file -/

/-- The end of the records of a file -/
def stop (crc32c : Bytes → UInt32) (rs : List Record) : Nat := SEGMENT_HEADER_LEN + (encodeRecords crc32c rs).length

/-- A file with a valid header and the records `rs`, each of them before the tail, and behind them whatever there is but
no further record -/
structure Mapping.Damaged (crc32c : Bytes → UInt32) (rs : List Record) (s : Mapping) : Prop where
  header : MmapSegmentReader.open s.size s.mem = .ok .opened
  records : load s.mem SEGMENT_HEADER_LEN (encodeRecords crc32c rs).length = encodeRecords crc32c rs
  reached : ∀ l r l', rs = l ++ r :: l' → stop crc32c l < s.tail
  fits : stop crc32c rs ≤ s.size
  size_lt : s.size < 2 ^ 63
  wellFormed : ∀ r ∈ rs, r.WellFormed
  maximal : ∀ r, ((s.readerAt (stop crc32c rs) []).next crc32c).1 ≠ some (.ok r)

/-- The file as it would be without the damage -/
def Mapping.restored (crc32c : Bytes → UInt32) (first : Nat) (rs : List Record) (s : Mapping) : Mapping :=
  ⟨s.size, ofBytes (encodeHeader first (stop crc32c rs) ++ encodeRecords crc32c rs), .idle false, rs⟩

namespace Mapping.Damaged

variable {rs returned rest : List Record} {r : Record} {first : Nat}

theorem mapped (h : s.Damaged crc32c rs) (first : Nat) : (s.restored crc32c first rs).Mapped crc32c first := by
  refine ⟨?_, trivial, h.fits, h.size_lt, h.wellFormed⟩
  simp [restored, settled, inFlight, reserved, done, stop]

/-- The bytes of the records -/
theorem agrees (h : s.Damaged crc32c rs) {a : Nat} (hmin : SEGMENT_HEADER_LEN ≤ a) (hmax : a < stop crc32c rs) :
    s.mem a = (s.restored crc32c first rs).mem a := by
  obtain ⟨i, rfl⟩ := Nat.exists_eq_add_of_le hmin
  have hi : i < (encodeRecords crc32c rs).length := by
    rw [stop] at hmax
    omega
  have hbyte := congrArg (fun bs => bs[i]?) h.records
  simp only [load, List.getElem?_map, List.getElem?_range hi, Option.map_some] at hbyte
  have hrestored := ofBytes_mid (encodeHeader first (stop crc32c rs)) [] hi
  rw [length_encodeHeader, List.append_nil] at hrestored
  change s.mem (SEGMENT_HEADER_LEN + i) = ofBytes _ _
  rw [hrestored, ← Option.some.injEq, hbyte, List.getElem?_eq_getElem hi]

/-- Up to the end of the records a reader finds what it would find without the damage. -/
theorem step_eq (h : s.Damaged crc32c rs) (hat : At crc32c (s.restored crc32c first rs) rd returned (r :: rest)) :
    rd.step crc32c s.size s.mem = rd.step crc32c s.size (s.restored crc32c first rs).mem := by
  obtain ⟨hpos, hloaded⟩ := hat.place.resolve_right fun h => by cases h.1
  have hpos : rd.pos = stop crc32c returned := hpos
  have hlog : rs = returned ++ r :: rest := hat.log
  have hend : rd.pos + recordBytes r ≤ stop crc32c rs := hat.fits hpos
  have hmin := framing_le_recordBytes r
  have hbytes (i : Nat) (hi : i < recordBytes r) : s.mem (rd.pos + i) = (s.restored crc32c first rs).mem (rd.pos + i) := by
    refine h.agrees ?_ (by omega)
    rw [hpos, stop]
    omega
  have htail := (h.mapped first).tail_eq
  have hrestored : stop crc32c rs = (s.restored crc32c first rs).tail := htail.symm
  refine step_congr crc32c s.size ?_ (fun i hi => hbytes i (hi.trans_le hmin)) fun d hd => ?_
  · have hreached := h.reached returned r rest hlog
    rw [← hpos] at hreached
    simp only [RECORD_FRAMING] at hmin
    change s.tail ≤ rd.pos ↔ (s.restored crc32c first rs).tail ≤ rd.pos
    rw [← hrestored]
    constructor <;> intro hle <;> omega
  · rw [hd] at hloaded
    obtain ⟨r', rest', heq, hof⟩ := hloaded
    obtain ⟨rfl, rfl⟩ := List.cons.inj heq
    rw [hof.len]
    exact ⟨hmin, hbytes⟩

/-- A call that has a record of the prefix to return returns it. -/
theorem nextRecord_cons (h : s.Damaged crc32c rs) (hidle : rd.pc = .idle)
    (hat : At crc32c (s.restored crc32c first rs) rd returned (r :: rest)) :
    (rd.nextRecord crc32c s.size s.mem).outcomes = rd.outcomes ++ [.record r] ∧
      (rd.nextRecord crc32c s.size s.mem).pc = .idle ∧
      At crc32c (s.restored crc32c first rs) (rd.nextRecord crc32c s.size s.mem) (returned ++ [r]) rest := by
  refine MmapSegmentReader.stepToReturn_of_steps
    (fun t => t.outcomes = rd.outcomes ∧ At crc32c (s.restored crc32c first rs) t returned (r :: rest))
    (fun t => t.outcomes = rd.outcomes ++ [.record r] ∧ t.pc = .idle ∧
      At crc32c (s.restored crc32c first rs) t (returned ++ [r]) rest)
    ?_ ⟨rfl, hat⟩ (by rw [hidle])
  rintro t ⟨houtcomes, ht⟩
  rw [h.step_eq ht]
  obtain ⟨hpos, ⟨pc, hstep, hbusy, hloaded, hleft⟩ | hstep⟩ := ht.step_cons (h.mapped first)
  · have hstep' : t.step crc32c s.size (s.restored crc32c first rs).mem = t.goto pc := hstep
    rw [hstep']
    exact .inr ⟨⟨houtcomes, ht.log, ht.records, .inl ⟨hpos, hloaded⟩⟩, hbusy, hleft⟩
  · have hstep' : t.step crc32c s.size (s.restored crc32c first rs).mem = t.return (.record r) (t.pos + recordBytes r) := hstep
    rw [hstep']
    exact .inl ⟨⟨by rw [← houtcomes]; rfl, rfl, ht.record hpos⟩, rfl⟩

end Mapping.Damaged

/-! ### What a reader gets of a file -/

/-- The reader gets the records `rs`, and then the error `e`, or nothing. -/
inductive OpenSegment.Reads (crc32c : Bytes → UInt32) : OpenSegment → List Record → Option ReaderError → Prop
  | stop {f : OpenSegment} {e : Option ReaderError} (h : (f.next crc32c).1 = e.map .error) : Reads crc32c f [] e
  | record {f f' : OpenSegment} {r : Record} {rs : List Record} {e : Option ReaderError}
      (h : f.next crc32c = (some (.ok r), f')) (hrest : Reads crc32c f' rs e) : Reads crc32c f (r :: rs) e

/-- The reader gets the records `rs` and no error. -/
def OpenSegment.Left (crc32c : Bytes → UInt32) (f : OpenSegment) (rs : List Record) : Prop :=
  f.Reads crc32c rs none ∧ rs.length ≤ f.size

variable {f : OpenSegment} {rs rest returned : List Record} {e : Option ReaderError} {first : Nat}

theorem OpenSegment.next_size (f : OpenSegment) : (f.next crc32c).2.size = f.size := by
  simp only [OpenSegment.next]
  split <;> rfl

theorem OpenSegment.Before.left (h : f.Before crc32c rs) : f.Left crc32c rs := by
  refine ⟨?_, h.length_le⟩
  induction rs generalizing f with
  | nil => exact .stop h.next_nil
  | cons r rs ih =>
    obtain ⟨f', hnext, hf', -⟩ := h.next_cons
    exact .record hnext (ih hf')

/-- A reader of a damaged file gets the prefix, and then what it finds behind it. -/
theorem Mapping.Damaged.reads_at (first : Nat) (h : s.Damaged crc32c rs)
    (he : ((s.readerAt (stop crc32c rs) []).next crc32c).1 = e.map .error) (hidle : rd.pc = .idle)
    (hat : At crc32c (s.restored crc32c first rs) rd returned rest) :
    OpenSegment.Reads crc32c ⟨s.size, s.mem, rd⟩ rest e := by
  induction rest generalizing rd returned with
  | nil =>
    have hpos : rd.pos = stop crc32c rs := by
      have hlog : rs = returned ++ [] := hat.log
      rcases hat.place with ⟨hpos, -⟩ | ⟨-, -, -, hclosed⟩
      · rw [hlog, List.append_nil]
        exact hpos
      · cases hclosed
    have hreader : (⟨s.size, s.mem, rd⟩ : OpenSegment) = s.readerAt (stop crc32c rs) rd.outcomes := by
      rw [Mapping.readerAt, ← hpos, ← hidle]
    rw [hreader]
    exact .stop ((next_readerAt _).trans he)
  | cons r rest ih =>
    obtain ⟨houtcomes, hidle', hat'⟩ := h.nextRecord_cons hidle hat
    refine .record ?_ (ih hidle' hat')
    simp only [OpenSegment.next, houtcomes, List.getLast?_concat]

theorem Mapping.Damaged.reads (h : s.Damaged crc32c rs)
    (he : ((s.readerAt (stop crc32c rs) []).next crc32c).1 = e.map .error) :
    OpenSegment.Reads crc32c ⟨s.size, s.mem, .opened⟩ rs e :=
  h.reads_at 0 he rfl ⟨rfl, rfl, .inl ⟨rfl, trivial⟩⟩

/-- What is behind the prefix is nothing to read, or an error. -/
theorem Mapping.Damaged.quiet_or_error (h : s.Damaged crc32c rs) :
    s.Quiet (stop crc32c rs) ∧ OpenSegment.Reads crc32c ⟨s.size, s.mem, .opened⟩ rs none ∨
      ¬s.Quiet (stop crc32c rs) ∧ ∃ e, OpenSegment.Reads crc32c ⟨s.size, s.mem, .opened⟩ rs (some e) := by
  by_cases hquiet : s.Quiet (stop crc32c rs)
  · exact .inl ⟨hquiet, h.reads (next_of_quiet [] hquiet)⟩
  · rcases next_of_not_quiet crc32c [] hquiet with ⟨e, he⟩ | ⟨r, hr⟩
    · exact .inr ⟨hquiet, e, h.reads he⟩
    · exact absurd hr (h.maximal r)

theorem Mapping.Damaged.length_le (h : s.Damaged crc32c rs) : rs.length ≤ s.size := by
  have hbefore := OpenSegment.before_open (h.mapped 0)
  exact hbefore.length_le

/-! ### The log over the damaged file -/

namespace File

/-- The log with the bytes `s` in the file `first` -/
def Wal.damaged (first : Nat) (s : Mapping) (w : Wal) : Wal := { w with files := w.files.modify first fun _ => s }

/-- `fw` is the log `w`, which does not write to the file `first`, with the bytes `s` in that file. -/
def Differs (first : Nat) (s : Mapping) (fw w : Wal) : Prop := fw = w.damaged first s ∧ w.writer ≠ some first

variable {fw w : Wal} {c : Call} {k name : Nat}

theorem createFile_differs (hne : name ≠ first) :
    Simulates (Differs first s) (Differs first s) (Wal.createFile name) (Wal.createFile name) := by
  rintro _ w fw' ⟨rfl, hw⟩ hs
  have hcfg : (w.damaged first s).cfg = w.cfg := rfl
  have hkeys : (w.damaged first s).files.keys = w.files.keys := SortedMap.keys_modify ..
  unfold Wal.createFile at hs ⊢
  rw [hcfg, hkeys] at hs
  by_cases hsize : w.cfg.segmentSizeMax < SEGMENT_HEADER_LEN + RECORD_FRAMING
  · rw [if_pos hsize] at hs
    cases hs
  rw [if_neg hsize] at hs ⊢
  by_cases hmem : name ∈ w.files.keys
  · rw [if_pos hmem] at hs
    cases hs
  rw [if_neg hmem] at hs ⊢
  cases hcreate : Mapping.create w.cfg.segmentSizeMax name with
  | none =>
    rw [hcreate] at hs
    cases hs
  | some t =>
    rw [hcreate] at hs
    cases hs
    refine ⟨_, rfl, ?_, hw⟩
    simp only [Wal.damaged, SortedMap.modify_insert hne]

theorem createDeferred_differs (hne : name ≠ first) :
    Simulates (Differs first s) (Differs first s) (Wal.createDeferred name) (Wal.createDeferred name) := by
  refine ((createFile_differs hne).andThen (T := Differs first s) ?_).andThen ?_
  · rintro _ w fw' ⟨rfl, -⟩ hs
    cases hs
    exact ⟨_, rfl, rfl, fun heq => hne (Option.some.inj heq)⟩
  · rintro _ w fw' ⟨rfl, hw⟩ hs
    cases hs
    exact ⟨_, rfl, rfl, hw⟩

/-- A file that is not the damaged one is what it is. -/
theorem Wal.lookup_damaged (hne : k ≠ first) : (w.damaged first s).files.lookup k = w.files.lookup k :=
  SortedMap.lookup_modify_of_ne hne _

theorem rotateLocked_differs (hne : name ≠ first) : Simulates (Differs first s) (Differs first s)
    (Wal.rotateLocked crc32c name) (Wal.rotateLocked crc32c name) := by
  rintro _ w fw' ⟨rfl, hw⟩ hs
  unfold Wal.rotateLocked at hs ⊢
  cases hwriter : w.writer with
  | none =>
    have hwriter' : (w.damaged first s).writer = none := hwriter
    simp only [hwriter'] at hs
    exact createDeferred_differs hne _ w fw' ⟨rfl, hw⟩ hs
  | some old =>
    have hwriter' : (w.damaged first s).writer = some old := hwriter
    have hold : old ≠ first := fun heq => hw (heq ▸ hwriter)
    simp only [hwriter', Wal.lookup_damaged hold] at hs ⊢
    have hclose : Differs first s ((w.damaged first s).closeWriter crc32c old) (w.closeWriter crc32c old) := by
      refine ⟨?_, nofun⟩
      simp only [Wal.closeWriter, Wal.damaged, SortedMap.modify_modify hold]
    refine ((createFile_differs hne).andThen (T := Differs first s) ?_).andThen ?_ _ _ fw' hclose hs
    · rintro _ w fw' ⟨rfl, hw⟩ hs
      cases hs
      exact ⟨_, rfl, rfl, hw⟩
    · rintro _ w fw' ⟨rfl, -⟩ hs
      cases hs
      exact ⟨_, rfl, rfl, fun heq => hne (Option.some.inj heq)⟩

theorem acquireWriter_differs (hne : c.cursor.toNat ≠ first) : Simulates (Differs first s) (Differs first s)
    (Wal.acquireWriter crc32c c) (Wal.acquireWriter crc32c c) := by
  rintro _ w fw' ⟨rfl, hw⟩ hs
  unfold Wal.acquireWriter at hs ⊢
  cases hwriter : w.writer with
  | none =>
    have hwriter' : (w.damaged first s).writer = none := hwriter
    simp only [hwriter'] at hs
    exact createDeferred_differs hne _ w fw' ⟨rfl, hw⟩ hs
  | some old =>
    have hwriter' : (w.damaged first s).writer = some old := hwriter
    simp only [hwriter'] at hs ⊢
    by_cases hfull : w.cfg.segmentSizeMax < w.activeBytes + recordBytes c.record
    · have hfull' : (w.damaged first s).cfg.segmentSizeMax < (w.damaged first s).activeBytes + recordBytes c.record := hfull
      rw [if_pos hfull'] at hs
      rw [if_pos hfull]
      exact rotateLocked_differs hne _ w fw' ⟨rfl, hw⟩ hs
    · have hfull' : ¬(w.damaged first s).cfg.segmentSizeMax < (w.damaged first s).activeBytes + recordBytes c.record := hfull
      rw [if_neg hfull'] at hs
      rw [if_neg hfull]
      cases hs
      exact ⟨w, rfl, rfl, hw⟩

theorem put_damaged (hne : k ≠ first) :
    (w.damaged first s).put crc32c k c = (w.put crc32c k c).map (Wal.damaged first s) := by
  simp only [Wal.put, Wal.lookup_damaged hne]
  cases (w.files.lookup k).bind (Mapping.append crc32c c.cursor c.ts c.payload) with
  | none => rfl
  | some t => simp only [Option.map_some, Wal.damaged, SortedMap.modify_modify hne]

theorem put_writer {w' : Wal} (h : w.put crc32c k c = some w') : w'.writer = w.writer := by
  unfold Wal.put at h
  split at h
  · cases h
    rfl
  · cases h

theorem write_differs (hk : k ≠ first) (hne : c.cursor.toNat ≠ first) :
    Simulates (Differs first s) (Differs first s) (Wal.write crc32c k c) (Wal.write crc32c k c) := by
  rintro _ w fw' ⟨rfl, hw⟩ hs
  unfold Wal.write at hs ⊢
  rw [put_damaged hk] at hs
  cases hput : w.put crc32c k c with
  | some w' =>
    simp only [hput, Option.map_some] at hs ⊢
    cases hs
    exact ⟨w', rfl, rfl, put_writer hput ▸ hw⟩
  | none =>
    simp only [hput, Option.map_none] at hs ⊢
    refine (rotateLocked_differs hne).andThen (T := Differs first s) ?_ _ w fw' ⟨rfl, hw⟩ hs
    rintro _ w fw' ⟨rfl, hw⟩ hs
    cases hwriter : w.writer with
    | none =>
      have hwriter' : (w.damaged first s).writer = none := hwriter
      simp [hwriter'] at hs
    | some second =>
      have hwriter' : (w.damaged first s).writer = some second := hwriter
      have hsecond : second ≠ first := fun heq => hw (heq ▸ hwriter)
      simp only [hwriter', Option.bind_some, put_damaged hsecond] at hs
      cases hput : w.put crc32c second c with
      | none => simp [hput] at hs
      | some w' =>
        simp only [hput, Option.map_some] at hs
        cases hs
        exact ⟨w', by simp only [hwriter, Option.bind_some, hput], rfl, put_writer hput ▸ hw⟩

theorem enforceRetention_damaged (first : Nat) (s : Mapping) (rounds : Nat) :
    (w.damaged first s).enforceRetention rounds = (w.enforceRetention rounds).damaged first s ∧
      (w.enforceRetention rounds).writer = w.writer := by
  induction rounds generalizing w with
  | zero => exact ⟨rfl, rfl⟩
  | succ rounds ih =>
    unfold Wal.enforceRetention
    by_cases hle : w.retainedBytes + w.activeBytes ≤ w.cfg.retentionBytes
    · have hle' : (w.damaged first s).retainedBytes + (w.damaged first s).activeBytes ≤
          (w.damaged first s).cfg.retentionBytes := hle
      rw [if_pos hle, if_pos hle']
      exact ⟨rfl, rfl⟩
    · have hle' : ¬(w.damaged first s).retainedBytes + (w.damaged first s).activeBytes ≤
          (w.damaged first s).cfg.retentionBytes := hle
      rw [if_neg hle, if_neg hle']
      have hfind : (w.damaged first s).segments.keys.find? (fun k => some k ≠ (w.damaged first s).writer) =
          w.segments.keys.find? fun k => some k ≠ w.writer := rfl
      rw [hfind]
      cases w.segments.keys.find? fun k => some k ≠ w.writer with
      | none => exact ⟨rfl, rfl⟩
      | some k =>
        have hretire : (w.damaged first s).retire k = (w.retire k).damaged first s := by
          simp only [Wal.retire, Wal.damaged, SortedMap.modify_erase]
        obtain ⟨heq, hwriter⟩ := ih (w := w.retire k)
        simp only [hretire]
        exact ⟨heq, hwriter⟩

theorem appendWith_differs (hne : c.cursor.toNat ≠ first) :
    Simulates (Differs first s) (Differs first s) (Wal.appendWith crc32c c) (Wal.appendWith crc32c c) := by
  rintro _ w fw' ⟨rfl, hw⟩ hs
  unfold Wal.appendWith at hs ⊢
  cases hwriter : w.writer with
  | none =>
    have hwriter' : (w.damaged first s).writer = none := hwriter
    simp only [hwriter'] at hs
    cases hs
  | some k =>
    have hwriter' : (w.damaged first s).writer = some k := hwriter
    have hk : k ≠ first := fun heq => hw (heq ▸ hwriter)
    simp only [hwriter'] at hs ⊢
    refine (write_differs hk hne).andThen (T := Differs first s) ?_ _ w fw' ⟨rfl, hw⟩ hs
    rintro _ w fw' ⟨rfl, hw⟩ hs
    cases hs
    have hrecorded : (w.damaged first s).recorded k c = (w.recorded k c).damaged first s := by
      simp only [Wal.recorded, Wal.lookup_damaged hk]
      rfl
    obtain ⟨heq, hsame⟩ := enforceRetention_damaged first s (w := w.recorded k c) w.segments.keys.length
    refine ⟨_, rfl, ?_, ?_⟩
    · rw [hrecorded]
      exact heq
    · rw [hsame]
      exact hw

/-- A successful append -/
theorem append_differs (hne : c.cursor.toNat ≠ first) :
    Simulates (Differs first s) (Differs first s) (Wal.append crc32c c) (Wal.append crc32c c) := by
  rintro _ w fw' ⟨rfl, hw⟩ hs
  unfold Wal.append at hs ⊢
  by_cases hdisabled : w.cfg.enabled = false
  · have hdisabled' : (w.damaged first s).cfg.enabled = false := hdisabled
    rw [if_pos hdisabled'] at hs
    rw [if_pos hdisabled]
    cases hs
    exact ⟨w, rfl, rfl, hw⟩
  have hdisabled' : ¬(w.damaged first s).cfg.enabled = false := hdisabled
  rw [if_neg hdisabled'] at hs
  rw [if_neg hdisabled]
  by_cases hlen : MAX_PAYLOAD_LEN < c.payload.length
  · rw [if_pos hlen] at hs
    cases hs
  rw [if_neg hlen] at hs ⊢
  exact (acquireWriter_differs hne).andThen (appendWith_differs hne) _ w fw' ⟨rfl, hw⟩ hs

/-! ### Opening the log -/

/-- The files of a log: the older ones hold the records `older`, and the newest one, with the records `rs`, is damaged. -/
structure DamagedLog (crc32c : Bytes → UInt32) (files : SortedMap Nat Mapping) (older : List (Nat × List Record))
    (first : Nat) (newest : Mapping) (rs : List Record) : Prop where
  entries : ∃ closed : List (Nat × Mapping), files.entries = closed ++ [(first, newest)] ∧
    older = (closed.map fun p => (p.1, p.2.log)) ∧ ∀ p ∈ closed, p.2.Mapped crc32c p.1
  damaged : newest.Damaged crc32c rs
  covers : ∃ n m, Covers Record.cursor n (older ++ [(first, rs)]) m

/-- The files without the damage -/
def restoredFiles (crc32c : Bytes → UInt32) (files : SortedMap Nat Mapping) (first : Nat) (newest : Mapping)
    (rs : List Record) : SortedMap Nat Mapping :=
  files.modify first fun _ => newest.restored crc32c first rs

variable {files : SortedMap Nat Mapping} {older : List (Nat × List Record)} {newest : Mapping} {cfg : WalConfig} {active : Nat}

namespace DamagedLog

theorem last (h : DamagedLog crc32c files older first newest rs) : files.last? = some (first, newest) := by
  obtain ⟨closed, hentries, -⟩ := h.entries
  rw [SortedMap.last?, hentries, List.getLast?_concat]

theorem restored_entries (h : DamagedLog crc32c files older first newest rs) :
    ∃ closed : List (Nat × Mapping), (restoredFiles crc32c files first newest rs).entries =
      closed ++ [(first, newest.restored crc32c first rs)] ∧ older = (closed.map fun p => (p.1, p.2.log)) ∧
      ∀ p ∈ closed, p.2.Mapped crc32c p.1 := by
  obtain ⟨closed, hentries, holder, hmapped⟩ := h.entries
  exact ⟨closed, SortedMap.entries_modify_last hentries _, holder, hmapped⟩

theorem restored_mapped (h : DamagedLog crc32c files older first newest rs) :
    ∀ p ∈ (restoredFiles crc32c files first newest rs).entries, p.2.Mapped crc32c p.1 := by
  obtain ⟨closed, hentries, -, hmapped⟩ := h.restored_entries
  intro p hp
  rw [hentries, List.mem_append, List.mem_singleton] at hp
  rcases hp with hp | rfl
  · exact hmapped p hp
  · exact h.damaged.mapped first

theorem restored_chapters (h : DamagedLog crc32c files older first newest rs) :
    WalDir.chapters ((restoredFiles crc32c files first newest rs).map fun _ => Mapping.segment) = older ++ [(first, rs)] := by
  obtain ⟨closed, hentries, holder, -⟩ := h.restored_entries
  simp only [WalDir.chapters, SortedMap.map, hentries, List.map_append, List.map_map, holder]
  rfl

theorem damaged_restored (h : DamagedLog crc32c files older first newest rs) :
    ((restoredFiles crc32c files first newest rs).modify first fun _ => newest) = files := by
  rw [restoredFiles, SortedMap.modify_const]
  refine SortedMap.modify_eq_self fun s hs => ?_
  obtain ⟨closed, hentries, -⟩ := h.entries
  have hlast := SortedMap.lookup_last hentries
  rw [SortedMap.lookup_of_mem hs] at hlast
  exact Option.some.inj hlast

/-- The cursor after the prefix -/
theorem next_eq (h : DamagedLog crc32c files older first newest rs) :
    (rs.getLast?.map fun r => r.cursor + 1).getD first = first + rs.length := by
  obtain ⟨n, m, hcovers⟩ := h.covers
  obtain ⟨-, hnumbered, -⟩ := covers_concat.1 hcovers
  cases hlast : rs.getLast? with
  | none =>
    obtain rfl := List.getLast?_eq_none_iff.1 hlast
    rfl
  | some r => exact hnumbered.getLast hlast

end DamagedLog

theorem entries_of_reads {f : OpenSegment} {n : Nat} (h : f.Reads crc32c rs e) (hn : rs.length ≤ n) :
    (source crc32c files).entries n f = rs := by
  induction h generalizing n with
  | @stop f e h =>
    cases n with
    | zero => rfl
    | succ n =>
      simp only [Source.entries, source]
      cases e with
      | none =>
        obtain ⟨f', hnext⟩ : ∃ f', f.next crc32c = (none, f') := ⟨_, Prod.ext h rfl⟩
        simp only [hnext]
      | some e =>
        obtain ⟨f', hnext⟩ : ∃ f', f.next crc32c = (some (.error e), f') := ⟨_, Prod.ext h rfl⟩
        simp only [hnext]
  | record h _ ih =>
    cases n with
    | zero => cases hn
    | succ n =>
      have hrest := ih (Nat.le_of_succ_le_succ hn)
      simp only [Source.entries, source] at hrest ⊢
      simp only [h]
      exact congrArg _ hrest

/-- The scan of the newest file stops at the end of the prefix, whatever is behind it. -/
theorem nextCursor_damaged (h : DamagedLog crc32c files older first newest rs) :
    Wal.nextCursor crc32c files first newest = first + rs.length := by
  obtain ⟨e, hreads⟩ : ∃ e, OpenSegment.Reads crc32c ⟨newest.size, newest.mem, .opened⟩ rs e := by
    rcases h.damaged.quiet_or_error with ⟨-, hreads⟩ | ⟨-, e, hreads⟩
    · exact ⟨_, hreads⟩
    · exact ⟨_, hreads⟩
  simp only [Wal.nextCursor, h.damaged.header]
  rw [entries_of_reads hreads h.damaged.length_le, h.next_eq]

/-- A new file can be created under a new name. -/
theorem createDeferred_ok {w : Wal} (hmin : SEGMENT_HEADER_LEN + RECORD_FRAMING ≤ w.cfg.segmentSizeMax)
    (hmax : w.cfg.segmentSizeMax < 2 ^ 63) (hnew : name ∉ w.files.keys) :
    ∃ w' s, Wal.createDeferred name w = (w', .ok ()) ∧ w'.pendingCursor = w.pendingCursor ∧ w'.cfg = w.cfg ∧
      w'.files = w.files.insert name s := by
  obtain ⟨s, hs⟩ : ∃ s, Mapping.create w.cfg.segmentSizeMax name = some s := by
    rw [Mapping.create, if_neg (by omega)]
    exact ⟨_, rfl⟩
  have hfile : Wal.createFile name w = ({ w with files := w.files.insert name s }, .ok ()) := by
    rw [Wal.createFile, if_neg (not_lt.2 hmin), if_neg hnew, hs]
  refine ⟨{ ({ w with files := w.files.insert name s } : Wal).activate name with active := name }, s, ?_, rfl, rfl, rfl⟩
  have hactivate : ((Wal.createFile name).andThen fun w => (w.activate name, .ok ())) w =
      (({ w with files := w.files.insert name s } : Wal).activate name, .ok ()) := andThen_of_ok hfile
  exact andThen_of_ok hactivate

theorem ofFiles_damaged (h : DamagedLog crc32c files older first newest rs) (pending : Nat) :
    Wal.ofFiles cfg files active pending =
      (Wal.ofFiles cfg (restoredFiles crc32c files first newest rs) active pending).damaged first newest := by
  have hsizes : ((restoredFiles crc32c files first newest rs).map fun _ => Mapping.size) = files.map fun _ => Mapping.size := by
    conv_rhs => rw [← h.damaged_restored]
    rw [SortedMap.modify, SortedMap.map_map]
    refine SortedMap.map_congr fun p hp => ?_
    obtain ⟨closed, hentries, -⟩ := h.restored_entries
    split
    · rename_i hk
      have hlookup := SortedMap.lookup_of_mem hp
      rw [hk, SortedMap.lookup_last hentries] at hlookup
      rw [← Option.some.inj hlookup]
      rfl
    · rfl
  have hsum : ((restoredFiles crc32c files first newest rs).entries.map fun p => p.2.size) =
      files.entries.map fun p => p.2.size := by
    have hentries := congrArg (fun m => m.entries.map Prod.snd) hsizes
    simpa only [SortedMap.map, List.map_map, Function.comp_def] using hentries
  have hnames : ((restoredFiles crc32c files first newest rs).map fun _ _ => ()) = files.map fun _ _ => () := by
    rw [restoredFiles, SortedMap.modify, SortedMap.map_map]
  simp only [Wal.ofFiles, Wal.damaged, hsizes, hsum, hnames, h.damaged_restored]

/-- The log that is opened over the damaged file differs from the one over the restored file in that file only. -/
theorem open_damaged (active : Nat) (h : DamagedLog crc32c files older first newest rs)
    (hmin : SEGMENT_HEADER_LEN + RECORD_FRAMING ≤ cfg.segmentSizeMax) (hmax : cfg.segmentSizeMax < 2 ^ 63) :
    ∃ fw w, Wal.open crc32c cfg files active = .ok fw ∧
      Wal.open crc32c cfg (restoredFiles crc32c files first newest rs) active = .ok w ∧ Differs first newest fw w ∧
      Differs first (newest.restored crc32c first rs) w w ∧ w.pendingCursor = first + rs.length ∧ first ∈ w.files.keys ∧
      w.cfg = cfg ∧ (rs = [] → w.writer = none) := by
  obtain ⟨closed, hentries, -⟩ := h.restored_entries
  have hlast : (restoredFiles crc32c files first newest rs).last? = some (first, newest.restored crc32c first rs) := by
    rw [SortedMap.last?, hentries, List.getLast?_concat]
  have hkeys : (restoredFiles crc32c files first newest rs).keys = files.keys := SortedMap.keys_modify ..
  have hfirst : first ∈ (restoredFiles crc32c files first newest rs).keys :=
    SortedMap.mem_keys.2 ⟨newest.restored crc32c first rs, by simp [hentries]⟩
  have hnext : Wal.nextCursor crc32c (restoredFiles crc32c files first newest rs) first (newest.restored crc32c first rs) =
      first + rs.length := (nextCursor_mapped (h.damaged.mapped first)).trans h.next_eq
  have hself (active pending : Nat) : Differs first (newest.restored crc32c first rs)
      (Wal.ofFiles cfg (restoredFiles crc32c files first newest rs) active pending)
      (Wal.ofFiles cfg (restoredFiles crc32c files first newest rs) active pending) := by
    refine ⟨?_, fun h => by cases h⟩
    simp only [Wal.ofFiles, Wal.damaged, restoredFiles, SortedMap.modify_const]
  simp only [Wal.open, h.last, hlast, nextCursor_damaged h, hnext]
  cases hrs : rs with
  | nil =>
    subst hrs
    simp only [List.length_nil, Nat.add_zero, if_true]
    exact ⟨_, _, rfl, rfl, ⟨ofFiles_damaged h first, fun h => by cases h⟩, hself first first, rfl, hfirst, rfl, fun _ => rfl⟩
  | cons r l =>
    rw [← hrs]
    have hpos : 0 < rs.length := by rw [hrs]; exact Nat.succ_pos _
    have hne : first + rs.length ≠ first := by omega
    have hnew : first + rs.length ∉ (restoredFiles crc32c files first newest rs).keys := by
      intro hmem
      obtain ⟨s, hs⟩ := SortedMap.mem_keys.1 hmem
      have := SortedMap.le_of_last? hlast hs
      omega
    obtain ⟨fw, _, hcreate, -⟩ := createDeferred_ok (w := Wal.ofFiles cfg files active (first + rs.length)) hmin hmax
      (hkeys ▸ hnew)
    obtain ⟨w', s, hw', hpending, hcfg, hfiles⟩ := createDeferred_ok
      (w := Wal.ofFiles cfg (restoredFiles crc32c files first newest rs) active (first + rs.length)) hmin hmax hnew
    have hcreate' := hcreate
    rw [ofFiles_damaged h] at hcreate'
    obtain ⟨w, hw, hdiffers⟩ := createDeferred_differs hne _ _ fw ⟨rfl, fun heq => by cases heq⟩ hcreate'
    obtain rfl : w = w' := (Prod.mk.inj (hw.symm.trans hw')).1
    obtain ⟨w'', hw'', hself'⟩ := createDeferred_differs hne _ _ w (hself _ _) hw
    obtain rfl : w = w'' := (Prod.mk.inj (hw.symm.trans hw'')).1
    rw [if_neg hne, if_neg hne, hcreate, hw]
    refine ⟨fw, w, rfl, rfl, hdiffers, hself', hpending, ?_, hcfg, fun hnil => ?_⟩
    · rw [hfiles]
      exact SortedMap.mem_keys_insert_of_mem hfirst s
    · rw [hnil] at hpos
      cases hpos

/-- No record is appended under the name of a file that is there already. -/
theorem append_fails {fw fw' : Wal} (henabled : fw.cfg.enabled = true) (hwriter : fw.writer = none)
    (hmem : c.cursor.toNat ∈ fw.files.keys) : fw.append crc32c c ≠ (fw', .ok ()) := by
  intro hs
  unfold Wal.append at hs
  rw [if_neg (by simp [henabled])] at hs
  split at hs
  · cases hs
  · obtain ⟨w₁, hacquire, -⟩ := andThen_eq_ok.1 hs
    simp only [Wal.acquireWriter, hwriter] at hacquire
    obtain ⟨w₂, hactivate, -⟩ := andThen_eq_ok.1 hacquire
    obtain ⟨w₃, hcreate, -⟩ := andThen_eq_ok.1 hactivate
    unfold Wal.createFile at hcreate
    rw [if_pos hmem] at hcreate
    split at hcreate <;> cases hcreate

/-! ### Appends after the open -/

/-- The log that would be there without the damage, seen twice: over the bytes of its files, and over their records -/
structure Shadow (crc32c : Bytes → UInt32) (first : Nat) (newest : Mapping) (rs before new : List Record) (fw w : Wal)
    (v : V2.Wal) : Prop where
  differs : Differs first newest fw w
  restored : Differs first (newest.restored crc32c first rs) w w
  images : Images crc32c w v
  holds : ∃ earlier, v.Holds (earlier ++ before ++ new)
  history : v.history = before ++ new
  pending : first ≤ w.pendingCursor
  stuck : w.pendingCursor = first → w.writer = none ∧ first ∈ w.files.keys

variable {before new : List Record} {v : V2.Wal}

/-- The records before the first ones that are still there -/
private def earlierRecords (n : Nat) : List Record := (List.range n).map fun i => ⟨i, 0, []⟩

private theorem numbered_earlierRecords (n : Nat) : Numbered Record.cursor 0 (earlierRecords n) := by
  simp [Numbered, earlierRecords, List.range_eq_range', Function.comp_def]

theorem DamagedLog.holdsDir (h : DamagedLog crc32c files older first newest rs) : ∃ earlier,
    Wal.HoldsDir ((restoredFiles crc32c files first newest rs).map fun _ => Mapping.segment)
      (earlier ++ (older.flatMap Prod.snd ++ rs)) := by
  obtain ⟨n, m, hcovers⟩ := h.covers
  obtain ⟨hnumbered, hlen⟩ := hcovers.flatMap
  have hflat : (older ++ [(first, rs)]).flatMap Prod.snd = older.flatMap Prod.snd ++ rs := by simp
  rw [hflat] at hnumbered hlen
  have hearlier : (earlierRecords n).length = n := by simp [earlierRecords]
  refine ⟨earlierRecords n, ⟨n, ?_⟩, ?_, ⟨earlierRecords n, ?_⟩, ?_, ?_⟩
  · rw [h.restored_chapters, List.length_append, hearlier, hlen]
    exact hcovers
  · intro p hp hheader
    obtain ⟨q, -, rfl⟩ := List.mem_map.1 hp
    cases hheader
  · rw [← WalDir.flatMap_chapters, h.restored_chapters, hflat]
  · rw [numbered_append, hearlier, Nat.zero_add]
    exact ⟨numbered_earlierRecords n, hnumbered⟩
  · intro hnil
    have hchapters := h.restored_chapters
    rw [WalDir.chapters, hnil] at hchapters
    simp at hchapters

/-- A log that has just been opened -/
theorem DamagedLog.open_shadow (active : Nat) (h : DamagedLog crc32c files older first newest rs) (henabled : cfg.enabled = true)
    (hmin : SEGMENT_HEADER_LEN + RECORD_FRAMING ≤ cfg.segmentSizeMax) (hmax : cfg.segmentSizeMax < 2 ^ 63) :
    ∃ fw w v, Wal.open crc32c cfg files active = .ok fw ∧ fw.pendingCursor = first + rs.length ∧
      Shadow crc32c first newest rs (older.flatMap Prod.snd ++ rs) [] fw w v ∧ first ∈ fw.files.keys := by
  obtain ⟨fw, w, hfw, hw, hdiffers, hself, hpending, hfirst, hcfg, hnone⟩ := open_damaged active h hmin hmax
  obtain ⟨v, hv, himages⟩ := open_simulates h.restored_mapped hw
  obtain ⟨earlier, hholds⟩ := h.holdsDir
  have hfound := Wal.found_open hv
  refine ⟨fw, w, v, hfw, ?_, ⟨hdiffers, hself, himages, ⟨earlier, ?_⟩, ?_, ?_, fun heq => ⟨hnone ?_, hfirst⟩⟩, ?_⟩
  · rw [hdiffers.1]
    exact hpending
  · rw [List.append_nil]
    exact .of_open henabled hholds hv
  · rw [List.append_nil, V2.Wal.history, V2.Wal.log, hfound.retired, hfound.records, List.nil_append, ← WalDir.flatMap_chapters,
      h.restored_chapters]
    simp
  · rw [hpending]
    exact Nat.le_add_right ..
  · rw [hpending] at heq
    exact List.length_eq_zero_iff.1 (by omega)
  · rw [hdiffers.1]
    have hkeys : (w.damaged first newest).files.keys = w.files.keys := SortedMap.keys_modify ..
    rw [hkeys]
    exact hfirst

theorem Holds.append_history {v v' : V2.Wal} {appended : List Record} {ts : Nat} {payload : Bytes} (h : v.Holds appended)
    (hs : V2.Wal.append v.pendingCursor ts payload .ok v = (v', .ok ())) :
    v'.history = v.history ++ [⟨v.pendingCursor, ts, payload⟩] := by
  have hready : v.Ready v.cfg := by
    refine h.takes.resolve_right fun hstuck => hstuck.append_fails h.enabled ts payload ?_
    rw [hs]
  exact (V2.Wal.append_passes hready h.ordered hs).ends.adds.entries

/-- A successful append -/
theorem Shadow.append {fw fw' w : Wal} (h : Shadow crc32c first newest rs before new fw w v)
    (hcursor : c.cursor.toNat = fw.pendingCursor) (hs : fw.append crc32c c = (fw', .ok ())) :
    ∃ w' v', Shadow crc32c first newest rs before (new ++ [c.record]) fw' w' v' := by
  obtain ⟨earlier, hholds⟩ := h.holds
  have hpending : fw.pendingCursor = w.pendingCursor := by rw [h.differs.1]; rfl
  have hkeys : fw.files.keys = w.files.keys := by rw [h.differs.1]; exact SortedMap.keys_modify ..
  have hne : c.cursor.toNat ≠ first := by
    intro heq
    obtain ⟨hwriter, hmem⟩ := h.stuck (by rw [← hpending, ← hcursor, heq])
    have henabled : fw.cfg.enabled = true := by
      rw [h.differs.1]
      change w.cfg.enabled = true
      rw [h.images.cfg]
      exact hholds.enabled
    have hwriter' : fw.writer = none := by rw [h.differs.1]; exact hwriter
    refine append_fails henabled hwriter' ?_ hs
    rw [heq, hkeys]
    exact hmem
  obtain ⟨w', hw', hdiffers⟩ := append_differs hne fw w fw' h.differs hs
  obtain ⟨w'', hw'', hself⟩ := append_differs hne w w w' h.restored hw'
  obtain rfl : w' = w'' := (Prod.mk.inj (hw'.symm.trans hw'')).1
  obtain ⟨v', hv', himages⟩ := append_simulates w v w' h.images hw'
  have hcursor' : c.cursor.toNat = v.pendingCursor := by rw [hcursor, hpending, h.images.pendingCursor]
  have hrecord : c.record = ⟨v.pendingCursor, c.ts.toNat, c.payload⟩ := by rw [Call.record, hcursor']
  rw [hcursor'] at hv'
  have hholds' := hholds.append hv'
  have hadded : v'.pendingCursor = v.pendingCursor + 1 := by
    rw [← hholds'.pending, ← hholds.pending, List.length_append, List.length_singleton]
  have hlt : first < w'.pendingCursor := by
    have hle := h.pending
    rw [himages.pendingCursor, hadded, ← h.images.pendingCursor]
    omega
  refine ⟨w', v', hdiffers, hself, himages, ⟨earlier, ?_⟩, ?_, hlt.le, fun heq => absurd heq hlt.ne'⟩
  · rw [hrecord, ← List.append_assoc]
    exact hholds'
  · rw [Holds.append_history hholds hv', h.history, hrecord, List.append_assoc]

/-! ### Reading the log -/

theorem source_serves_left (crc32c : Bytes → UInt32) (files : SortedMap Nat Mapping) :
    (source crc32c files).Serves (OpenSegment.Left crc32c) where
  nil h := by
    obtain ⟨hreads, -⟩ := h
    cases hreads with
    | stop h => exact h
  cons {f r rs} h := by
    obtain ⟨hreads, hlen⟩ := h
    cases hreads with
    | @record _ f' _ _ _ hnext hrest =>
      have hsize : f'.size = f.size := by
        have hkeeps : (f.next crc32c).2.size = f.size := OpenSegment.next_size f
        rwa [hnext] at hkeeps
      refine ⟨f', hnext, hrest, ?_⟩
      rw [hsize]
      exact (Nat.le_succ _).trans hlen
  le_rounds h := h.2

/-- Every file of the log can be opened, and has its records. -/
theorem Shadow.source_open {fw w : Wal} (h : Shadow crc32c first newest rs before new fw w v)
    (hdamaged : newest.Damaged crc32c rs) (hquiet : newest.Quiet (stop crc32c rs)) {p : Nat × List Record}
    (hp : p ∈ v.dir.chapters) : ∃ f, (source crc32c fw.files).open p.1 = .ok f ∧ f.Left crc32c p.2 := by
  rw [h.images.dir] at hp
  obtain ⟨q, hq, rfl⟩ := List.mem_map.1 hp
  obtain ⟨⟨k, s⟩, hs, rfl⟩ := List.mem_map.1 hq
  have hlookup := SortedMap.lookup_of_mem hs
  by_cases hk : k = first
  · subst hk
    have hself : w.files.lookup k = some (newest.restored crc32c k rs) := by
      have heq := congrArg (fun w => w.files.lookup k) h.restored.1
      simp only [Wal.damaged, SortedMap.lookup_modify, hlookup, Option.map_some] at heq
      rw [hlookup, heq]
    obtain rfl : s = newest.restored crc32c k rs := Option.some.inj (hlookup.symm.trans hself)
    have hlookup' : fw.files.lookup k = some newest := by
      rw [h.differs.1, Wal.damaged, SortedMap.lookup_modify, hlookup, Option.map_some]
    refine ⟨⟨newest.size, newest.mem, .opened⟩, ?_, hdamaged.reads (next_of_quiet [] hquiet), hdamaged.length_le⟩
    simp only [source, hlookup', hdamaged.header]
  · have hmapped : s.Mapped crc32c k := h.images.mapped _ hs
    have hlookup' : fw.files.lookup k = some s := by
      rw [h.differs.1, Wal.lookup_damaged hk]
      exact hlookup
    refine ⟨⟨s.size, s.mem, .opened⟩, ?_, (OpenSegment.before_open hmapped).left⟩
    simp only [source, hlookup', open_mapped hmapped]

theorem Shadow.names {fw w : Wal} (h : Shadow crc32c first newest rs before new fw w v) :
    fw.segments.keys = v.dir.chapters.map Prod.fst := by
  obtain ⟨earlier, hholds⟩ := h.holds
  have hsegments : fw.segments = w.segments := by rw [h.differs.1]; rfl
  rw [hsegments, h.images.segments, hholds.segments, SortedMap.keys, WalDir.chapters, List.map_map]
  rfl

/-- What the log holds are the records from its oldest cursor on. -/
theorem Shadow.log_eq {fw w : Wal} (h : Shadow crc32c first newest rs before new fw w v) {n c : Nat}
    (hn : Covers Record.cursor n v.dir.chapters v.pendingCursor) (hc : n ≤ c) :
    (before ++ new).filter (fun r => c ≤ r.cursor) = (v.dir.chapters.flatMap Prod.snd).filter fun r => c ≤ r.cursor := by
  obtain ⟨earlier, hholds⟩ := h.holds
  have hnumbered := hholds.numbered
  have hpending := hholds.pending
  rw [List.append_assoc, ← h.history, V2.Wal.history, V2.Wal.log, ← WalDir.flatMap_chapters] at hnumbered hpending
  rw [← h.history, V2.Wal.history, V2.Wal.log, ← WalDir.flatMap_chapters]
  obtain ⟨-, hnumbered⟩ := numbered_append.1 hnumbered
  refine hn.filter_append hnumbered (fun _ => ?_) hc
  rw [← hpending, Nat.zero_add]
  exact List.length_append.symm

theorem Shadow.reads {fw w : Wal} (h : Shadow crc32c first newest rs before new fw w v)
    (hdamaged : newest.Damaged crc32c rs) (hquiet : newest.Quiet (stop crc32c rs)) :
    ∃ p, fw.readFrom fw.oldestCursor = .ok p ∧
      (source crc32c fw.files).Yields p ((before ++ new).filter fun r => fw.oldestCursor ≤ r.cursor) ∧
      ((before ++ new).filter fun r => fw.oldestCursor ≤ r.cursor).map Record.cursor =
        List.range' fw.oldestCursor (fw.pendingCursor - fw.oldestCursor) := by
  obtain ⟨earlier, hholds⟩ := h.holds
  obtain ⟨n, hcovers⟩ := hholds.ordered.covers
  have hnames := h.names
  have hpending : fw.pendingCursor = v.pendingCursor := by
    rw [h.differs.1]
    exact h.images.pendingCursor
  cases hchapters : v.dir.chapters with
  | nil =>
    -- nothing is there, and nothing has been
    have hentries : v.dir.entries = [] := List.map_eq_nil_iff.1 hchapters
    have hnil : earlier ++ before ++ new = [] := hholds.empty hentries
    have hnew : before ++ new = [] := by
      rw [List.append_assoc] at hnil
      exact (List.append_eq_nil_iff.1 hnil).2
    rw [hchapters] at hnames
    have holdest : fw.oldestCursor = 0 := by
      rw [Wal.oldestCursor, hnames]
      rfl
    have hzero : v.pendingCursor = 0 := by
      rw [← hholds.pending, hnil]
      rfl
    refine ⟨⟨[], fw.oldestCursor, none⟩, ?_, ?_, ?_⟩
    · rw [Wal.readFrom, hnames]
      rfl
    · rw [hnew]
      exact .done rfl
    · rw [hnew, hpending, hzero, Nat.zero_sub]
      rfl
  | cons p l =>
    have hn : p.1 = n := by
      rw [hchapters] at hcovers
      exact hcovers.1
    have holdest : fw.oldestCursor = n := by
      rw [Wal.oldestCursor, hnames, hchapters, ← hn]
      rfl
    obtain ⟨segments, hfrom, hyields⟩ := (source_serves_left crc32c fw.files).reads hcovers le_rfl fun p hp =>
      h.source_open hdamaged hquiet hp
    rw [holdest, h.log_eq hcovers le_rfl, hpending]
    refine ⟨⟨segments, n, none⟩, ?_, hyields, hcovers.map_filter le_rfl⟩
    rw [Wal.readFrom, hnames, hfrom]

theorem fails_of_reads {f : OpenSegment} {e : ReaderError} (h : f.Reads crc32c rs (some e)) :
    (source crc32c files).Fails rs.length f := by
  generalize he : some e = last at h
  induction h with
  | @stop f last h =>
    subst he
    obtain ⟨f', hnext⟩ : ∃ f', f.next crc32c = (some (.error e), f') := ⟨_, Prod.ext h rfl⟩
    exact .error hnext
  | record h _ ih => exact .entry h (ih he)

/-- A replay of all segments comes to the damage. -/
theorem Shadow.broken {fw w : Wal} {e : ReaderError} {p : Replayer OpenSegment}
    (h : Shadow crc32c first newest rs before new fw w v) (hfirst : first ∈ fw.files.keys) (hdamaged : newest.Damaged crc32c rs)
    (hreads : OpenSegment.Reads crc32c ⟨newest.size, newest.mem, .opened⟩ rs (some e))
    (hp : fw.readFrom fw.oldestCursor = .ok p) : (source crc32c fw.files).Broken p := by
  obtain ⟨earlier, hholds⟩ := h.holds
  obtain ⟨n, hcovers⟩ := hholds.ordered.covers
  have hnames := h.names
  have hkeys : fw.files.keys = v.dir.chapters.map Prod.fst := by
    have hdir : v.dir.chapters.map Prod.fst = v.dir.keys := by
      rw [WalDir.chapters, SortedMap.keys, List.map_map]
      rfl
    rw [hdir, h.images.keys, h.differs.1]
    exact SortedMap.keys_modify ..
  have hmem : first ∈ fw.segments.keys := by
    rw [hnames, ← hkeys]
    exact hfirst
  unfold Wal.readFrom at hp
  cases hfrom : segmentsFrom fw.segments.keys fw.oldestCursor with
  | error oldest =>
    rw [hfrom] at hp
    cases hp
  | ok segments =>
    rw [hfrom] at hp
    cases hp
    refine .inr ⟨first, ?_, ⟨newest.size, newest.mem, .opened⟩, ?_, ?_⟩
    · rcases segmentsFrom_ok hfrom with ⟨hnil, -⟩ | ⟨oldest, k, hhead, -, -, hk, rfl⟩
      · rw [hnil] at hmem
        cases hmem
      · -- the replay begins with the oldest segment
        have holdest : fw.oldestCursor = oldest := by
          rw [Wal.oldestCursor, hhead]
          rfl
        obtain ⟨q, hq, hqfirst⟩ := List.mem_map.1 (hnames ▸ hmem)
        have hle := (hcovers.name_mem hq).1
        have hn : oldest = n := by
          rw [hnames] at hhead
          cases hchapters : v.dir.chapters with
          | nil =>
            rw [hchapters] at hhead
            cases hhead
          | cons p l =>
            rw [hchapters] at hhead hcovers
            exact (Option.some.inj hhead).symm.trans hcovers.1
        refine List.mem_filter.2 ⟨hmem, ?_⟩
        rw [decide_eq_true_iff]
        omega
    · have hlookup : fw.files.lookup first = some newest := by
        obtain ⟨s, hs⟩ := SortedMap.mem_keys.1 hfirst
        have hs' := SortedMap.lookup_of_mem hs
        rw [h.differs.1, Wal.damaged, SortedMap.lookup_modify] at hs' ⊢
        obtain ⟨t, ht, -⟩ := Option.map_eq_some_iff.1 hs'
        rw [ht, Option.map_some]
      simp only [source, hlookup, hdamaged.header]
    · exact (fails_of_reads hreads).mono hdamaged.length_le

/-- Recovery isolates the damage: `Wal::open` succeeds, with the cursor behind the prefix as the pending one, and after
any sequence of appends a replay from the oldest cursor on yields the older records, those of the prefix and those
appended, with contiguous cursors and no error. -/
def Isolates (crc32c : Bytes → UInt32) (cfg : WalConfig) (files : SortedMap Nat Mapping) (active : Nat)
    (older : List (Nat × List Record)) (first : Nat) (rs : List Record) : Prop :=
  ∃ w, Wal.open crc32c cfg files active = .ok w ∧ w.pendingCursor = first + rs.length ∧
    ∀ acts w' appended, (∀ a ∈ acts, a ≠ FileSessions.Act.drop) →
      run (FileSessions.step crc32c) (.opened w []) acts = some (.opened w' appended) →
      ∃ p, w'.readFrom w'.oldestCursor = .ok p ∧
        (source crc32c w'.files).Yields p
          ((older.flatMap Prod.snd ++ rs ++ appended).filter fun r => w'.oldestCursor ≤ r.cursor) ∧
        ((older.flatMap Prod.snd ++ rs ++ appended).filter fun r => w'.oldestCursor ≤ r.cursor).map Record.cursor =
          List.range' w'.oldestCursor (w'.pendingCursor - w'.oldestCursor)

theorem DamagedLog.isolates (h : DamagedLog crc32c files older first newest rs) (henabled : cfg.enabled = true)
    (hmin : SEGMENT_HEADER_LEN + RECORD_FRAMING ≤ cfg.segmentSizeMax) (hmax : cfg.segmentSizeMax < 2 ^ 63)
    (hquiet : newest.Quiet (stop crc32c rs)) : Isolates crc32c cfg files active older first rs := by
  obtain ⟨fw, w, v, hopen, hpending, hshadow, -⟩ := h.open_shadow active henabled hmin hmax
  refine ⟨fw, hopen, hpending, fun acts w' appended hacts hrun => ?_⟩
  have hsteps : ∀ s a s', (∃ fw new w v, s = FileSessions.opened fw new ∧
        Shadow crc32c first newest rs (older.flatMap Prod.snd ++ rs) new fw w v) → a ≠ FileSessions.Act.drop →
      FileSessions.step crc32c s a = some s' → ∃ fw new w v, s' = FileSessions.opened fw new ∧
        Shadow crc32c first newest rs (older.flatMap Prod.snd ++ rs) new fw w v := by
    rintro _ a s' ⟨fw, new, w, v, rfl, hshadow⟩ ha hstep
    cases a with
    | «open» cfg => cases hstep
    | drop => exact absurd rfl ha
    | fsync =>
      cases hstep
      exact ⟨fw, new, w, v, rfl, hshadow⟩
    | append ts payload =>
      simp only [FileSessions.step] at hstep
      split at hstep
      · rename_i hlt
        split at hstep
        · rename_i fw' _ happend
          cases hstep
          have hcursor : (UInt64.ofNat fw.pendingCursor).toNat = fw.pendingCursor :=
            UInt64.toNat_ofNat_of_lt' (Nat.lt_of_succ_lt hlt)
          obtain ⟨w', v', hshadow'⟩ := hshadow.append hcursor happend
          exact ⟨fw', _, w', v', rfl, hshadow'⟩
        · cases hstep
      · cases hstep
  obtain ⟨fw', new, w₁, v₁, heq, hshadow'⟩ := run_invariant_of _ _ hsteps hacts ⟨fw, [], w, v, rfl, hshadow⟩ hrun
  cases heq
  exact hshadow'.reads h.damaged hquiet

theorem Isolates.quiet (hi : Isolates crc32c cfg files active older first rs)
    (h : DamagedLog crc32c files older first newest rs) (henabled : cfg.enabled = true)
    (hmin : SEGMENT_HEADER_LEN + RECORD_FRAMING ≤ cfg.segmentSizeMax) (hmax : cfg.segmentSizeMax < 2 ^ 63) :
    newest.Quiet (stop crc32c rs) := by
  rcases h.damaged.quiet_or_error with ⟨hquiet, -⟩ | ⟨-, e, hreads⟩
  · exact hquiet
  · -- already the log that has just been opened cannot be replayed
    obtain ⟨w₀, hopen₀, -, hruns⟩ := hi
    obtain ⟨fw, w, v, hopen, -, hshadow, hfirst⟩ := h.open_shadow active henabled hmin hmax
    obtain rfl : w₀ = fw := Except.ok.inj (hopen₀.symm.trans hopen)
    obtain ⟨p, hp, hyields, -⟩ := hruns [] w₀ [] nofun (run_nil _)
    exact absurd hyields ((hshadow.broken hfirst h.damaged hreads hp).not_yields OpenSegment.next_size)

/-- Recovery isolates the damage behind the valid prefix of the newest file exactly if what stands there is nothing to
read. -/
theorem isolates_iff (h : DamagedLog crc32c files older first newest rs) (henabled : cfg.enabled = true)
    (hmin : SEGMENT_HEADER_LEN + RECORD_FRAMING ≤ cfg.segmentSizeMax) (hmax : cfg.segmentSizeMax < 2 ^ 63) :
    Isolates crc32c cfg files active older first rs ↔ newest.Quiet (stop crc32c rs) :=
  ⟨fun hi => hi.quiet h henabled hmin hmax, h.isolates henabled hmin hmax⟩

/-- A file of 128 bytes with one record, and the bytes `damage` behind it -/
def crashedFile (damage : Bytes) : Mapping :=
  ⟨128, ofBytes (encodeHeader 0 96 ++ encodeRecord castagnoli ⟨0, 5, [1]⟩ ++ damage), .idle false, []⟩

def crashedFiles (damage : Bytes) : SortedMap Nat Mapping := SortedMap.empty.insert 0 (crashedFile damage)

/-- A record of 32 bytes whose checksum is wrong -/
def badRecord : Bytes := leBytes 4 32 ++ List.replicate 24 0 ++ leBytes 4 1

/-- A record in progress -/
def recordInFlight : Bytes := leBytes 4 (setFlag WRITING_BIT 32) ++ leBytes 8 1

/-- A configuration whose segments take a few records -/
def fewRecords : WalConfig := ⟨true, .batched, 128, 1024⟩

/-- The next call at a position returns no record. -/
def noRecordAt (s : Mapping) (pos : Nat) : Bool :=
  match ((s.readerAt pos []).next castagnoli).1 with
  | some (.ok _) => false
  | _ => true

theorem damagedLog_crashedFiles (damage : Bytes)
    (hheader : (match MmapSegmentReader.open 128 (crashedFile damage).mem with
      | .ok _ => true
      | .error _ => false) = true)
    (hrecords : load (crashedFile damage).mem SEGMENT_HEADER_LEN 32 = encodeRecord castagnoli ⟨0, 5, [1]⟩)
    (htail : (crashedFile damage).tail = 96) (hmaximal : noRecordAt (crashedFile damage) 64 = true) :
    DamagedLog castagnoli (crashedFiles damage) [] 0 (crashedFile damage) [⟨0, 5, [1]⟩] := by
  have hstop : stop castagnoli [⟨0, 5, [1]⟩] = 64 := by decide +kernel
  refine ⟨⟨[], rfl, rfl, nofun⟩, ⟨?_, ?_, ?_, ?_, ?_, ?_, ?_⟩, ⟨0, 1, rfl, rfl, rfl⟩⟩
  · change MmapSegmentReader.open 128 (crashedFile damage).mem = _
    unfold MmapSegmentReader.open at hheader ⊢
    simp only at hheader ⊢
    split_ifs at hheader ⊢
    rfl
  · rw [encodeRecords_singleton, length_encodeRecord]
    exact hrecords
  · intro l r l' heq
    rw [htail]
    cases l with
    | nil => decide
    | cons q l => simp at heq
  · rw [hstop]
    change 64 ≤ 128
    decide
  · change 128 < 2 ^ 63
    decide
  · intro r hr
    rw [List.mem_singleton.1 hr]
    exact ⟨by decide, by decide, by decide⟩
  · intro r hr
    rw [hstop] at hr
    simp [noRecordAt, hr] at hmaximal

/-- A record with a bad checksum behind the prefix -/
theorem isolates_fails : DamagedLog castagnoli (crashedFiles badRecord) [] 0 (crashedFile badRecord) [⟨0, 5, [1]⟩] ∧
    ¬Isolates castagnoli fewRecords (crashedFiles badRecord) 0 [] 0 [⟨0, 5, [1]⟩] := by
  have hlog := damagedLog_crashedFiles badRecord (by decide +kernel) (by decide +kernel) (by decide +kernel)
    (by decide +kernel)
  refine ⟨hlog, fun hi => ?_⟩
  have hquiet := hi.quiet hlog rfl (by decide) (by decide)
  exact absurd hquiet (by decide +kernel)

/-- A record in progress behind the prefix -/
theorem isolates_iff_recordInFlight :
    Isolates castagnoli fewRecords (crashedFiles recordInFlight) 0 [] 0 [⟨0, 5, [1]⟩] ∧
      (crashedFile recordInFlight).Quiet (stop castagnoli [⟨0, 5, [1]⟩]) := by
  have hlog := damagedLog_crashedFiles recordInFlight (by decide +kernel) (by decide +kernel)
    (by decide +kernel) (by decide +kernel)
  have hquiet : (crashedFile recordInFlight).Quiet (stop castagnoli [⟨0, 5, [1]⟩]) := by decide +kernel
  exact ⟨(isolates_iff hlog rfl (by decide) (by decide)).2 hquiet, hquiet⟩

end File

end Mmbus.V2
