import Mmbus.Lib.Replays
import Mmbus.LiveSegment

/-!
# Whole calls on a mapped segment

The calls of `MmapSegmentWriter` and of `MmapSegmentReader`, run to their end.  The number of steps that a call has left
falls with each of them (`WriterPc.stepsLeft`, `ReaderPc.stepsLeft`), so it ends.

Between two calls a mapped file is a segment of `V2.Wal` (`Mapping.segment`), and the calls of the writer do to it what
`Segment.append` and `Segment.writeSkipToEnd` do (`Mapped.append_some`, `Mapped.writeSkipToEnd`).  A call of the reader
returns the next record (`At.nextRecord_cons`), or nothing new when it has returned all of them.
-/

namespace Mmbus.V2

open ByteMemory FlagBit Transition

/-! ### Calls of the writer -/

/-- How many more steps the call takes at most -/
def WriterPc.stepsLeft : WriterPc → Nat
  | .idle _ | .closed _ => 0
  | .reserve r => 2 * recordBytes r + 12
  | .cas r _ => 2 * recordBytes r + 11
  | .stake r _ => 2 * recordBytes r + 10
  | .body r _ n => (r.body.length - n) + recordBytes r + 9
  | .crcInput r _ got => (recordBytes r - 8 - got.length) + 8
  | .crc _ _ _ n => (4 - n) + 2
  | .commit _ _ => 1
  | .skip => 3
  | .skipCas _ => 2
  | .skipStore _ => 1

namespace Mapping

section
variable (crc32c : Bytes → UInt32)

/-- Run the call to its end. -/
def complete (s : Mapping) : Mapping := finish (writerStep crc32c false) s.writer.stepsLeft s

/-- `MmapSegmentWriter::append`; `none` is `SegmentFull`. -/
def append (cursor ts : UInt64) (payload : Bytes) (s : Mapping) : Option Mapping :=
  (s.beginAppend cursor ts payload).bind fun s =>
    let s := s.complete crc32c
    if s.writer = .idle true then none else some s

/-- `write_skip_to_end` -/
def writeSkipToEnd (s : Mapping) : Mapping := (s.beginSkip.map (complete crc32c)).getD s

/-- The records that a file of `size` bytes has after the call in progress, and where the writer is then -/
def outcomeOf (size done : Nat) (log : List Record) : WriterPc → List Record × WriterPc
  | .reserve r => if size < done + recordBytes r then (log, .idle true) else (log ++ [r], .idle false)
  | .cas r _ | .stake r _ | .body r _ _ | .crcInput r _ _ | .crc r _ _ _ | .commit r _ => (log ++ [r], .idle false)
  | .skip => (log, .closed (done + 4 ≤ size))
  | .skipCas _ | .skipStore _ => (log, .closed true)
  | .idle full => (log, .idle full)
  | .closed marked => (log, .closed marked)

def outcome (s : Mapping) : List Record × WriterPc := outcomeOf s.size (s.done crc32c) s.log s.writer

end

/-- The file as a segment of records -/
def segment (s : Mapping) : Segment := ⟨s.size, true, s.log, s.tail, s.writer = .closed true⟩

variable {crc32c : Bytes → UInt32} {s s' : Mapping} {first size : Nat} {r : Record} {cursor ts : UInt64} {payload : Bytes}
  {full : Bool}

/-- A step of a call that no compare-and-swap fails in without reason -/
theorem Mapped.writerStep_outcome (h : s.Mapped crc32c first) (hs : s.writerStep crc32c false = some s') :
    s'.size = s.size ∧ s'.outcome crc32c = s.outcome crc32c ∧ s'.writer.stepsLeft < s.writer.stepsLeft := by
  have hknows := h.knows
  have htail := h.tail_eq
  unfold Mapping.writerStep at hs
  unfold outcome
  cases hpc : s.writer with
  | idle full => simp [hpc] at hs
  | closed marked => simp [hpc] at hs
  | reserve r =>
    simp only [hpc, reserved, Nat.add_zero, Option.some.injEq] at hs htail
    subst hs
    rw [htail, Mapping.reserveAt]
    split <;> rename_i hfits
    · exact ⟨rfl, by simp [outcomeOf, hfits], Nat.succ_pos _⟩
    · exact ⟨rfl, by simp [outcomeOf, hfits], Nat.lt_succ_self _⟩
  | cas r current =>
    simp only [hpc, reserved, Nat.add_zero] at hs hknows htail
    rw [htail, hknows.offset_eq, if_neg (by simp)] at hs
    cases hs
    exact ⟨rfl, rfl, Nat.lt_succ_self _⟩
  | stake r offset =>
    simp only [hpc, Option.some.injEq] at hs
    subst hs
    have hle := len_le_recordBytes r
    have hlen : r.len = 28 + r.payload.length := rfl
    refine ⟨rfl, rfl, ?_⟩
    simp only [goto_writer, WriterPc.stepsLeft, Record.length_body]
    omega
  | body r offset n =>
    simp only [hpc] at hs
    cases hb : r.body[n]? with
    | none =>
      simp only [hb, Option.some.injEq] at hs
      subst hs
      refine ⟨rfl, rfl, ?_⟩
      simp only [goto_writer, WriterPc.stepsLeft, List.length_nil]
      omega
    | some b =>
      simp only [hb, Option.some.injEq] at hs
      subst hs
      have hlt := (List.getElem?_eq_some_iff.1 hb).1
      refine ⟨rfl, rfl, ?_⟩
      simp only [goto_writer, WriterPc.stepsLeft]
      omega
  | crcInput r offset got =>
    simp only [hpc] at hs
    split at hs <;> cases hs <;> rename_i hlt <;> refine ⟨rfl, rfl, ?_⟩
    · simp only [goto_writer, WriterPc.stepsLeft, List.length_append, List.length_singleton]
      omega
    · simp only [goto_writer, WriterPc.stepsLeft]
      omega
  | crc r offset c n =>
    simp only [hpc] at hs
    cases hb : (leBytes 4 c)[n]? with
    | none =>
      simp only [hb, Option.some.injEq] at hs
      subst hs
      refine ⟨rfl, rfl, ?_⟩
      simp only [goto_writer, WriterPc.stepsLeft]
      omega
    | some b =>
      simp only [hb, Option.some.injEq] at hs
      subst hs
      have hlt := (List.getElem?_eq_some_iff.1 hb).1
      rw [length_leBytes] at hlt
      refine ⟨rfl, rfl, ?_⟩
      simp only [goto_writer, WriterPc.stepsLeft]
      omega
  | commit r offset =>
    simp only [hpc, Option.some.injEq] at hs
    subst hs
    exact ⟨rfl, rfl, Nat.one_pos⟩
  | skip =>
    simp only [hpc, reserved, Nat.add_zero, Option.some.injEq] at hs htail
    subst hs
    rw [htail, Mapping.skipAt]
    split <;> rename_i hfits
    · refine ⟨rfl, ?_, Nat.succ_pos _⟩
      simp [outcomeOf, hfits]
    · refine ⟨rfl, ?_, Nat.lt_succ_self _⟩
      simp [outcomeOf, not_lt.1 hfits]
  | skipCas current =>
    simp only [hpc, reserved, Nat.add_zero] at hs hknows htail
    rw [htail, hknows.1, if_neg (by simp)] at hs
    cases hs
    exact ⟨rfl, rfl, Nat.lt_succ_self _⟩
  | skipStore offset =>
    simp only [hpc, Option.some.injEq] at hs
    subst hs
    exact ⟨rfl, rfl, Nat.one_pos⟩

/-- A writer that stops is between two calls. -/
theorem outcome_of_stopped (h : s.writerStep crc32c false = none) : s.outcome crc32c = (s.log, s.writer) := by
  unfold Mapping.writerStep at h
  unfold outcome
  cases hpc : s.writer <;> simp only [hpc] at h
  case idle | closed => rfl
  all_goals
    try split at h
    all_goals cases h

theorem Mapped.complete (h : s.Mapped crc32c first) : (s.complete crc32c).Mapped crc32c first ∧
    (s.complete crc32c).size = s.size ∧ ((s.complete crc32c).log, (s.complete crc32c).writer) = s.outcome crc32c := by
  obtain ⟨⟨hmapped, hsize, houtcome⟩, hstopped⟩ := finish_stops (f := Mapping.writerStep crc32c false)
    (fun t => t.Mapped crc32c first ∧ t.size = s.size ∧ t.outcome crc32c = s.outcome crc32c)
    (fun t => t.writer.stepsLeft)
    (fun t t' ⟨ht, hsize, houtcome⟩ hstep => by
      obtain ⟨hsize', houtcome', hleft⟩ := ht.writerStep_outcome hstep
      exact ⟨⟨ht.writerStep hstep, hsize'.trans hsize, houtcome'.trans houtcome⟩, hleft⟩)
    (s := s) ⟨h, rfl, rfl⟩ le_rfl
  exact ⟨hmapped, hsize, (outcome_of_stopped hstopped).symm.trans houtcome⟩

/-- A file whose writer is between two calls -/
theorem Mapped.segment_eq (h : s.Mapped crc32c first) :
    s.segment = ⟨s.size, true, s.log, s.done crc32c + reserved s.writer, s.writer = .closed true⟩ := by
  rw [segment, h.tail_eq]

theorem Mapped.segment_tail (h : s.Mapped crc32c first) (hidle : s.writer = .idle full) :
    s.segment.tail = s.done crc32c := by
  rw [h.segment_eq, hidle]
  rfl

theorem create_segment (h : create size first = some s) :
    s.Mapped crc32c first ∧ s.segment = .empty size ∧ s.writer = .idle false := by
  have hmapped : s.Mapped crc32c first := mapped_create h
  unfold create at h
  split at h
  · cases h
  · cases h
    refine ⟨hmapped, ?_, rfl⟩
    rw [hmapped.segment_eq]
    simp [Segment.empty, done, reserved]

/-- The writer between two calls, and the one that has begun to append -/
theorem Mapped.append_complete (cursor ts : UInt64) (h : s.Mapped crc32c first) (hidle : s.writer = .idle full)
    (hlen : payload.length ≤ MAX_PAYLOAD_LEN) : ∃ s₁ : Mapping, s₁.Mapped crc32c first ∧
      s.append crc32c cursor ts payload = (if s₁.writer = .idle true then none else some s₁) ∧
      s₁.size = s.size ∧ (s₁.log, s₁.writer) =
        if s.size < s.done crc32c + recordBytes ⟨cursor.toNat, ts.toNat, payload⟩ then (s.log, .idle true)
        else (s.log ++ [⟨cursor.toNat, ts.toNat, payload⟩], .idle false) := by
  have hbegin : s.beginAppend cursor ts payload = some (s.goto (.reserve ⟨cursor.toNat, ts.toNat, payload⟩)) := by
    simp only [Mapping.beginAppend, hidle, if_neg (not_lt.2 hlen)]
  obtain ⟨hmapped, hsize, houtcome⟩ := (h.beginAppend hbegin).complete
  refine ⟨_, hmapped, ?_, hsize, houtcome⟩
  simp only [append, hbegin, Option.bind_some]

theorem Mapped.append_some (h : s.Mapped crc32c first) (hidle : s.writer = .idle full)
    (hlen : payload.length ≤ MAX_PAYLOAD_LEN) (hs : s.append crc32c cursor ts payload = some s') :
    s'.Mapped crc32c first ∧ s'.writer = .idle false ∧
      s.segment.append ⟨cursor.toNat, ts.toNat, payload⟩ = some s'.segment := by
  obtain ⟨s₁, hmapped, happend, hsize, houtcome⟩ := h.append_complete cursor ts hidle hlen
  rw [happend] at hs
  split at houtcome
  · simp [(Prod.mk.inj houtcome).2] at hs
  · rename_i hfits
    obtain ⟨hlog, hwriter⟩ := Prod.mk.inj houtcome
    rw [if_neg (by simp [hwriter])] at hs
    cases hs
    refine ⟨hmapped, hwriter, ?_⟩
    have hdone : s'.done crc32c = s.done crc32c + recordBytes ⟨cursor.toNat, ts.toNat, payload⟩ := by
      rw [done, hlog, encodeRecords_append, encodeRecords_singleton, List.length_append, length_encodeRecord, done,
        Nat.add_assoc]
    have hroom : ¬s.segment.size < s.segment.tail + recordBytes ⟨cursor.toNat, ts.toNat, payload⟩ := by
      rw [h.segment_tail hidle]
      exact hfits
    rw [Segment.append, if_neg hroom, h.segment_eq, hmapped.segment_eq, hidle, hwriter, hdone, hlog, hsize]
    simp [reserved]

theorem Mapped.append_none (h : s.Mapped crc32c first) (hidle : s.writer = .idle full)
    (hlen : payload.length ≤ MAX_PAYLOAD_LEN) (hs : s.append crc32c cursor ts payload = none) :
    s.segment.append ⟨cursor.toNat, ts.toNat, payload⟩ = none := by
  obtain ⟨s₁, hmapped, happend, hsize, houtcome⟩ := h.append_complete cursor ts hidle hlen
  rw [happend] at hs
  split at houtcome
  · rename_i hfull
    have hroom : s.segment.size < s.segment.tail + recordBytes ⟨cursor.toNat, ts.toNat, payload⟩ := by
      rw [h.segment_tail hidle]
      exact hfull
    rw [Segment.append, if_pos hroom]
  · simp [(Prod.mk.inj houtcome).2] at hs

theorem Mapped.writeSkipToEnd (h : s.Mapped crc32c first) (hidle : s.writer = .idle full) :
    (s.writeSkipToEnd crc32c).Mapped crc32c first ∧
      (s.writeSkipToEnd crc32c).segment = s.segment.writeSkipToEnd := by
  have hbegin : s.beginSkip = some (s.goto .skip) := by simp only [Mapping.beginSkip, hidle]
  have heq : s.writeSkipToEnd crc32c = (s.goto .skip).complete crc32c := by
    simp only [Mapping.writeSkipToEnd, hbegin, Option.map_some, Option.getD_some]
  obtain ⟨hmapped, hsize, houtcome⟩ := (h.beginSkip hbegin).complete
  rw [heq]
  refine ⟨hmapped, ?_⟩
  obtain ⟨hlog, hwriter⟩ := Prod.mk.inj houtcome
  have hlog' : ((s.goto .skip).complete crc32c).log = s.log := hlog
  have hsize' : ((s.goto .skip).complete crc32c).size = s.size := hsize
  have hdone : ((s.goto .skip).complete crc32c).done crc32c = s.done crc32c := by rw [done, hlog', done]
  rw [hmapped.segment_eq, h.segment_eq, hwriter, hlog', hsize', hdone, hidle]
  change Segment.mk s.size true s.log (s.done crc32c + reserved (.closed (s.done crc32c + 4 ≤ s.size)))
    (WriterPc.closed (s.done crc32c + 4 ≤ s.size) = .closed true) = _
  by_cases hfits : s.done crc32c + 4 ≤ s.size
  · simp [Segment.writeSkipToEnd, hfits, reserved, not_lt.2 hfits]
  · simp [Segment.writeSkipToEnd, hfits, reserved, not_le.1 hfits]

end Mapping

/-! ### Calls of the reader -/

section
variable (crc32c : Bytes → UInt32)

/-- At most `n` steps, until the call returns -/
def MmapSegmentReader.stepToReturn (size : Nat) (m : Memory) : (n : Nat) → MmapSegmentReader → MmapSegmentReader
  | 0, rd => rd
  | n + 1, rd =>
    let rd := rd.step crc32c size m
    match rd.pc with
    | .idle => rd
    | _ => stepToReturn size m n rd

/-- A call of `next_record` -/
def MmapSegmentReader.nextRecord (size : Nat) (m : Memory) (rd : MmapSegmentReader) : MmapSegmentReader :=
  rd.stepToReturn crc32c size m (ReaderPc.idle.stepsLeft size)

/-- A file with a reader -/
structure OpenSegment where
  size : Nat
  mem : Memory
  reader : MmapSegmentReader

/-- The record or the error that a call of `next_record` returns; nothing at the end, live or marked -/
def OpenSegment.next (f : OpenSegment) : Option (Except ReaderError Record) × OpenSegment :=
  let f := { f with reader := f.reader.nextRecord crc32c f.size f.mem }
  match f.reader.outcomes.getLast? with
  | some (.record r) => (some (.ok r), f)
  | some (.err e) => (some (.error e), f)
  | _ => (none, f)

/-- The reader has the records `rs` left of a mapped file. -/
def OpenSegment.Before (f : OpenSegment) (rs : List Record) : Prop :=
  ∃ (s : Mapping) (first : Nat) (returned : List Record), s.Mapped crc32c first ∧ f.size = s.size ∧ f.mem = s.mem ∧
    f.reader.pc = .idle ∧ At crc32c s f.reader returned rs

end

variable {crc32c : Bytes → UInt32} {s : Mapping} {rd : MmapSegmentReader} {r : Record} {first : Nat}
  {returned rest rs : List Record} {f : OpenSegment}

theorem ReaderPc.stepsLeft_pos (size : Nat) (pc : ReaderPc) : 0 < pc.stepsLeft size := by
  cases pc <;> exact Nat.succ_pos _

/-- Each step of the call leads to its return or is followed by fewer. -/
theorem MmapSegmentReader.stepToReturn_of_steps {size n : Nat} {m : Memory} (I Q : MmapSegmentReader → Prop)
    (hstep : ∀ rd, I rd → Q (rd.step crc32c size m) ∧ (rd.step crc32c size m).pc = .idle ∨
      I (rd.step crc32c size m) ∧ (rd.step crc32c size m).pc ≠ .idle ∧
        (rd.step crc32c size m).pc.stepsLeft size < rd.pc.stepsLeft size)
    (hrd : I rd) (hn : rd.pc.stepsLeft size ≤ n) : Q (rd.stepToReturn crc32c size m n) := by
  induction n generalizing rd with
  | zero =>
    have := rd.pc.stepsLeft_pos size
    omega
  | succ n ih =>
    unfold stepToReturn
    rcases hstep rd hrd with ⟨hQ, hidle⟩ | ⟨hI, hbusy, hlt⟩
    · simpa only [hidle] using hQ
    · have hrest := ih hI (by omega)
      simpa only using hrest

/-- A call that has a record to return returns it. -/
theorem At.nextRecord_cons (h : s.Mapped crc32c first) (hidle : rd.pc = .idle) (hat : At crc32c s rd returned (r :: rest)) :
    (rd.nextRecord crc32c s.size s.mem).outcomes = rd.outcomes ++ [.record r] ∧
      (rd.nextRecord crc32c s.size s.mem).pc = .idle ∧
      At crc32c s (rd.nextRecord crc32c s.size s.mem) (returned ++ [r]) rest := by
  refine MmapSegmentReader.stepToReturn_of_steps
    (fun t => t.outcomes = rd.outcomes ∧ At crc32c s t returned (r :: rest))
    (fun t => t.outcomes = rd.outcomes ++ [.record r] ∧ t.pc = .idle ∧ At crc32c s t (returned ++ [r]) rest)
    ?_ ⟨rfl, hat⟩ (by rw [hidle])
  rintro t ⟨houtcomes, ht⟩
  obtain ⟨hpos, ⟨pc, hstep, hbusy, hloaded, hleft⟩ | hstep⟩ := ht.step_cons h
  · rw [hstep]
    exact .inr ⟨⟨houtcomes, ht.log, ht.records, .inl ⟨hpos, hloaded⟩⟩, hbusy, hleft⟩
  · rw [hstep]
    exact .inl ⟨⟨by rw [← houtcomes]; rfl, rfl, ht.record hpos⟩, rfl⟩

/-- A call that has no record to return returns none. -/
theorem At.nextRecord_nil (h : s.Mapped crc32c first) (hidle : rd.pc = .idle) (hat : At crc32c s rd returned []) :
    (rd.nextRecord crc32c s.size s.mem).outcomes = rd.outcomes ++ [.awaitMore] ∨
      (rd.nextRecord crc32c s.size s.mem).outcomes = rd.outcomes ++ [.endOfSegment] := by
  refine MmapSegmentReader.stepToReturn_of_steps
    (fun t => t.outcomes = rd.outcomes ∧ At crc32c s t returned [])
    (fun t => t.outcomes = rd.outcomes ++ [.awaitMore] ∨ t.outcomes = rd.outcomes ++ [.endOfSegment])
    ?_ ⟨rfl, hat⟩ (by rw [hidle])
  rintro t ⟨houtcomes, ht⟩
  rcases ht.step_nil h with ⟨pc, hstep, hbusy, hloaded, hpos, hleft⟩ | ⟨hstep, -⟩ | ⟨pos, hstep, -⟩
  · rw [hstep]
    exact .inr ⟨⟨houtcomes, ht.log, ht.records, .inl ⟨hpos, hloaded⟩⟩, hbusy, hleft⟩
  · rw [hstep, ← houtcomes]
    exact .inl ⟨.inl rfl, rfl⟩
  · rw [hstep, ← houtcomes]
    exact .inl ⟨.inr rfl, rfl⟩

theorem OpenSegment.Before.next_cons (h : f.Before crc32c (r :: rs)) :
    ∃ f', f.next crc32c = (some (.ok r), f') ∧ f'.Before crc32c rs ∧ f'.size = f.size := by
  obtain ⟨s, first, returned, hmapped, hsize, hmem, hidle, hat⟩ := h
  obtain ⟨houtcomes, hidle', hat'⟩ := hat.nextRecord_cons hmapped hidle
  rw [← hsize, ← hmem] at houtcomes hidle' hat'
  refine ⟨{ f with reader := f.reader.nextRecord crc32c f.size f.mem }, ?_,
    ⟨s, first, returned ++ [r], hmapped, hsize, hmem, hidle', hat'⟩, rfl⟩
  simp only [OpenSegment.next, houtcomes, List.getLast?_concat]

theorem OpenSegment.Before.next_nil (h : f.Before crc32c []) : (f.next crc32c).1 = none := by
  obtain ⟨s, first, returned, hmapped, hsize, hmem, hidle, hat⟩ := h
  have houtcomes := hat.nextRecord_nil hmapped hidle
  rw [← hsize, ← hmem] at houtcomes
  rcases houtcomes with houtcomes | houtcomes <;> simp only [OpenSegment.next, houtcomes, List.getLast?_concat]

/-- A record takes a byte at least. -/
theorem OpenSegment.Before.length_le (h : f.Before crc32c rs) : rs.length ≤ f.size := by
  obtain ⟨s, first, returned, hmapped, hsize, -, -, hat⟩ := h
  have hdone := hmapped.done_le
  have hlen (l : List Record) : l.length ≤ (encodeRecords crc32c l).length := by
    induction l with
    | nil => exact le_rfl
    | cons r l ih =>
      have hmin := framing_le_recordBytes r
      simp only [RECORD_FRAMING] at hmin
      rw [encodeRecords, List.flatMap_cons, List.length_append, length_encodeRecord, List.length_cons]
      rw [encodeRecords] at ih
      omega
  have := hlen rs
  rw [Mapping.done, hat.log, encodeRecords_append, List.length_append] at hdone
  omega

theorem OpenSegment.before_open (h : s.Mapped crc32c first) : OpenSegment.Before crc32c ⟨s.size, s.mem, .opened⟩ s.log :=
  ⟨s, first, [], h, rfl, rfl, rfl, rfl, rfl, .inl ⟨rfl, trivial⟩⟩

end Mmbus.V2
