import Mmbus.Wal

/-!
# The memory-mapped log

The v0.2 log (feature `wal_v2`): segment files of a fixed size, written in place, with the tail in the header of the
file.  There is no buffer, and no check that a record's cursor is the next one.  A record counts from the moment its
length is stored without the writing bit.

`V2.Wal.append_ends` is the counterpart of `Wal.append_ends`.
-/

namespace Mmbus.V2

open Attempt FlagBit

/-- `(unpadded + 7) & !7` -/
def alignRecordLen (unpadded : Nat) : Nat := (unpadded + 7) / 8 * 8

theorem alignRecordLen_mono {m n : Nat} (h : m ≤ n) : alignRecordLen m ≤ alignRecordLen n := by
  unfold alignRecordLen
  omega

/-- The bytes a record takes in a segment -/
def recordBytes (r : Record) : Nat := alignRecordLen (RECORD_FRAMING + r.payload.length)

/-- A segment file of `size` bytes: whether its header is there, its committed records, the tail in its header, and
whether the `SKIP_TO_END` marker follows the records. -/
structure Segment where
  size : Nat
  header : Bool
  records : List Record
  tail : Nat
  marked : Bool

/-- A new segment -/
def Segment.empty (size : Nat) : Segment := ⟨size, true, [], SEGMENT_HEADER_LEN, false⟩

/-- `MmapSegmentWriter::append`; `none` is `SegmentFull`. -/
def Segment.append (r : Record) (s : Segment) : Option Segment :=
  if s.size < s.tail + recordBytes r then none
  else some { s with records := s.records ++ [r], tail := s.tail + recordBytes r }

/-- `write_skip_to_end` -/
def Segment.writeSkipToEnd (s : Segment) : Segment :=
  if s.size < s.tail + 4 then s else { s with tail := s.tail + 4, marked := true }

theorem Segment.records_writeSkipToEnd (s : Segment) : s.writeSkipToEnd.records = s.records := by
  unfold writeSkipToEnd
  split <;> rfl

abbrev WalDir := SortedMap Nat Segment

/-- The records in the files -/
def WalDir.records (dir : WalDir) : List Record := dir.entries.flatMap fun p => p.2.records

theorem WalDir.records_of_last {dir : WalDir} {closed : List (Nat × Segment)} {k : Nat} {s : Segment}
    (h : dir.entries = closed ++ [(k, s)]) : dir.records = (closed.flatMap fun p => p.2.records) ++ s.records := by
  simp [records, h]

inductive WalError
  | io
  | segmentTooSmall
  | cursorTooOld (requested oldest : Nat)
  | poisoned
  | payloadTooLarge (len : Nat)
  deriving DecidableEq

/-- What the system calls of an operation answer: the creation of a segment file, its sizing and mapping, the store to
`active.dat` after the deferred creation of the writer and in a rotation, and the flush of `FsyncPolicy::Each`. -/
structure WalIo where
  createNew : Bool
  map : Bool
  storeFirst : Bool
  storeActive : Bool
  flush : Bool
  deriving DecidableEq

/-- No call fails. -/
def WalIo.ok : WalIo := ⟨true, true, true, true, true⟩

structure Wal where
  cfg : WalConfig
  dir : WalDir
  /-- `Inner::segments`; the paths follow from the keys. -/
  segments : SortedMap Nat Unit
  segmentSizes : SortedMap Nat Nat
  activeBytes : Nat
  retainedBytes : Nat
  /-- The first cursor of the active segment's writer -/
  writer : Option Nat
  /-- `active_first_cursor` of `active.dat` -/
  active : Nat
  pendingCursor : Nat
  poisoned : Bool
  /-- The records that retention has deleted (no process reads this) -/
  retired : List Record

namespace Wal

/-- A new segment file -/
def addFile (first : Nat) (w : Wal) : Wal := { w with dir := w.dir.insert first (.empty w.cfg.segmentSizeMax) }

/-- `MmapSegmentWriter::create`.  A file with the name must not exist. -/
def createFile (first : Nat) (io : WalIo) : Attempt WalError Wal := fun w =>
  if w.cfg.segmentSizeMax < SEGMENT_HEADER_LEN + RECORD_FRAMING then (w, .error .segmentTooSmall)
  else if io.createNew = false ∨ first ∈ w.dir.keys then (w, .error .io)
  else if io.map = false then
    ({ w with dir := w.dir.insert first { Segment.empty w.cfg.segmentSizeMax with header := false } }, .error .io)
  else (w.addFile first, .ok ())

/-- The new segment becomes the active one. -/
def activate (first : Nat) (w : Wal) : Wal :=
  { w with segments := w.segments.insert first (), activeBytes := SEGMENT_HEADER_LEN, writer := some first }

def storeActive (first : Nat) (answer : Bool) : Attempt WalError Wal := fun w =>
  ({ w with active := first }, if answer then .ok () else .error .io)

/-- Deferred creation of the writer -/
def createDeferred (first : Nat) (io : WalIo) : Attempt WalError Wal :=
  ((createFile first io).andThen fun w => (w.activate first, .ok ())).andThen (storeActive first io.storeFirst)

/-- Take the writer `first` and mark the end of its segment. -/
def closeWriter (first : Nat) (w : Wal) : Wal :=
  { w with writer := none, dir := w.dir.modify first Segment.writeSkipToEnd }

/-- The accounting of a closed segment -/
def retain (first finalBytes : Nat) (w : Wal) : Wal :=
  { w with
    segmentSizes := w.segmentSizes.insert first finalBytes
    retainedBytes := w.retainedBytes + finalBytes }

def rotateLocked (newFirst : Nat) (io : WalIo) : Attempt WalError Wal := fun w =>
  match w.writer with
  | none => createDeferred newFirst io w
  | some first =>
    let finalBytes := (w.dir.lookup first).elim 0 Segment.tail
    ((createFile newFirst io).andThen (storeActive newFirst io.storeActive)).andThen
      (fun w => ((w.retain first finalBytes).activate newFirst, .ok ())) (w.closeWriter first)

/-- The slow path of an append: create the writer, or rotate before a record that does not fit. -/
def acquireWriter (r : Record) (io : WalIo) : Attempt WalError Wal := fun w =>
  match w.writer with
  | none => createDeferred r.cursor io w
  | some _ =>
    if w.cfg.segmentSizeMax < w.activeBytes + recordBytes r then rotateLocked r.cursor io w else (w, .ok ())

/-- The append of the writer with the first cursor `first` -/
def put (first : Nat) (r : Record) (w : Wal) : Option Wal :=
  match (w.dir.lookup first).bind (Segment.append r) with
  | some seg => some { w with dir := w.dir.modify first fun _ => seg }
  | none => none

/-- Write the record; a segment that is full after all is rotated, once. -/
def write (first : Nat) (r : Record) (io : WalIo) : Attempt WalError Wal := fun w =>
  match w.put first r with
  | some w => (w, .ok ())
  | none =>
    (rotateLocked r.cursor io).andThen (fun w =>
      match w.writer.bind fun second => w.put second r with
      | some w => (w, .ok ())
      | none => (w, .error (.payloadTooLarge r.payload.length))) w

/-- Delete the segment `k`. -/
def retire (k : Nat) (w : Wal) : Wal :=
  { w with
    dir := w.dir.erase k
    segments := w.segments.erase k
    segmentSizes := w.segmentSizes.erase k
    retainedBytes := wrappingSub 64 w.retainedBytes ((w.segmentSizes.lookup k).getD 0)
    retired := w.retired ++ ((w.dir.lookup k).map Segment.records).getD [] }

/-- `enforce_retention_locked`: each round deletes a segment, so as many rounds as there are segments are enough. -/
def enforceRetention : (rounds : Nat) → Wal → Wal
  | 0, w => w
  | rounds + 1, w =>
    if w.retainedBytes + w.activeBytes ≤ w.cfg.retentionBytes then w
    else
      match w.segments.keys.find? fun k => some k ≠ w.writer with
      | some k => enforceRetention rounds (w.retire k)
      | none => w

/-- The bookkeeping after a record written by the writer `first` -/
def recorded (first : Nat) (r : Record) (w : Wal) : Wal :=
  { w with pendingCursor := r.cursor + 1, activeBytes := (w.dir.lookup first).elim 0 Segment.tail }

/-- The inline flush of `FsyncPolicy::Each` -/
def syncEach (io : WalIo) : Attempt WalError Wal := fun w =>
  (w, if w.cfg.fsyncPolicy = .each ∧ io.flush = false then .error .io else .ok ())

/-- The rest of an append, with the writer it has acquired -/
def appendWith (r : Record) (io : WalIo) : Attempt WalError Wal := fun w =>
  match w.writer with
  | none => (w, .error .io) -- not reached: a writer has been acquired
  | some first =>
    ((write first r io).andThen fun w =>
      ((w.recorded first r).enforceRetention w.segments.keys.length, .ok ())).andThen (syncEach io) w

def append (cursor ts : Nat) (payload : Bytes) (io : WalIo) : Attempt WalError Wal := fun w =>
  let r : Record := ⟨cursor, ts, payload⟩
  if w.cfg.enabled = false then (w, .ok ())
  else if MAX_PAYLOAD_LEN < payload.length then (w, .error (.payloadTooLarge payload.length))
  else if w.poisoned then (w, .error .poisoned)
  else (acquireWriter r io).andThen (appendWith r io) w

/-- The flusher thread stops for good when its flush fails. -/
def flusherTick (io : WalIo) (w : Wal) : Wal :=
  match w.writer with
  | none => w
  | some _ => if io.flush = false then { w with poisoned := true } else w

/-- The log over the segments before its writer exists -/
def ofDir (cfg : WalConfig) (dir : WalDir) (active pending : Nat) : Wal where
  cfg := cfg
  dir := dir
  segments := dir.map fun _ _ => ()
  segmentSizes := dir.map fun _ => Segment.size
  activeBytes := 0
  retainedBytes := (dir.entries.map fun p => p.2.size).sum
  writer := none
  active := active
  pendingCursor := pending
  poisoned := false
  retired := []

/-- The cursor after the last record of the last segment, which counts as empty if its header cannot be read -/
def nextCursor (lastFirst : Nat) (seg : Segment) : Nat :=
  if seg.header then (seg.records.getLast?.map fun r => r.cursor + 1).getD lastFirst else lastFirst

/-- `Wal::open`, on a file system that answers every call; `active` is what `active.dat` holds. -/
def «open» (cfg : WalConfig) (dir : WalDir) (active : Nat) : Except WalError Wal :=
  match dir.last? with
  | none => .ok (ofDir cfg dir active 0)
  | some (lastFirst, seg) =>
    let next := nextCursor lastFirst seg
    if next = lastFirst then .ok (ofDir cfg dir lastFirst lastFirst)
    else
      -- no record comes before the name of its segment, so the last segment is now the active one, which is not retained
      match createDeferred next .ok (ofDir cfg dir active next) with
      | (w, .ok _) => .ok w
      | (_, .error e) => .error e

/-- The records of the log -/
def log (w : Wal) : List Record := w.dir.records

/-- Every record the log has ever held -/
def history (w : Wal) : List Record := w.retired ++ w.log

/-- A segment has room for any record of a ring with slots of `slotSize` bytes. -/
structure Fits (cfg : WalConfig) (slotSize : Nat) : Prop where
  payload_le : slotSize ≤ MAX_PAYLOAD_LEN
  segment_le : SEGMENT_HEADER_LEN + alignRecordLen (RECORD_FRAMING + slotSize) ≤ cfg.segmentSizeMax

/-! ### What an append needs and keeps -/

/-- The writer `first` writes the last segment of the directory, which has records unless `first` is the pending
cursor. -/
def Active (w : Wal) (first : Nat) : Prop :=
  ∃ closed seg, w.dir.entries = closed ++ [(first, seg)] ∧ seg.size = w.cfg.segmentSizeMax ∧ w.activeBytes = seg.tail ∧
    (first < w.pendingCursor ∨ first = w.pendingCursor ∧ seg.tail = SEGMENT_HEADER_LEN)

/-- The log, opened with the configuration `cfg`, takes a record at its pending cursor. -/
structure Ready (cfg : WalConfig) (w : Wal) : Prop where
  cfg_eq : w.cfg = cfg
  enabled : cfg.enabled = true
  healthy : w.poisoned = false
  segments : w.segments.keys = w.dir.keys
  closed : w.writer = none → ∀ p ∈ w.dir.entries, p.1 < w.pendingCursor
  active : ∀ first, w.writer = some first → w.Active first

/-- What the log shows -/
def asLog (cfg : WalConfig) : AppendLog Wal Record := ⟨Ready cfg, pendingCursor, history⟩

/-- A fault, after which a later append finds the log as it was -/
abbrev Kept (cfg : WalConfig) (io : WalIo) : Wal → Wal → Prop := (asLog cfg).Kept (io ≠ .ok)

/-- The log is as it was and has a writer whose segment has room for `room` bytes. -/
structure Prepared (cfg : WalConfig) (room : Nat) (w w' : Wal) : Prop where
  same : (asLog cfg).Same w w'
  writer : w'.writer ≠ none
  room : w'.activeBytes + room ≤ cfg.segmentSizeMax

/-- The faults after which the log still takes records: no segment file is left without its writer, and no record
without its publish. -/
structure Harmless (cfg : WalConfig) (io : WalIo) : Prop where
  map : io.map = true
  storeActive : io.storeActive = true
  each : cfg.fsyncPolicy = .each → io.flush = true

theorem Harmless.ok (cfg : WalConfig) : Harmless cfg .ok := ⟨rfl, rfl, fun _ => rfl⟩

variable {cfg : WalConfig} {w w' w'' : Wal} {r : Record} {io : WalIo} {first room : Nat}

theorem history_of_last {closed : List (Nat × Segment)} {k : Nat} {s : Segment}
    (hdir : w.dir.entries = closed ++ [(k, s)]) :
    w.history = w.retired ++ (closed.flatMap fun p => p.2.records) ++ s.records := by
  simp only [history, log, WalDir.records_of_last hdir, List.append_assoc]

/-! ### Creating segments -/

/-- Nothing stands in the way of a file named by the pending cursor. -/
theorem createFile_ends (h : w.Ready cfg) (hw : w.writer = none)
    (hsize : SEGMENT_HEADER_LEN + RECORD_FRAMING ≤ cfg.segmentSizeMax) (hio : io.map = true) :
    Ends (createFile w.pendingCursor io) w
      (fun w' => w' = w.addFile w.pendingCursor) (Kept cfg io w) := by
  have hnew : w.pendingCursor ∉ w.dir.keys := by
    intro hmem
    obtain ⟨seg, hseg⟩ := SortedMap.mem_keys.1 hmem
    exact lt_irrefl _ (h.closed hw _ hseg)
  unfold Ends createFile
  rw [h.cfg_eq, if_neg (not_lt.2 hsize)]
  by_cases hc : io.createNew = false
  · rw [if_pos (.inl hc)]
    refine ⟨?_, .refl h⟩
    rintro rfl
    cases hc
  · rw [if_neg (not_or.2 ⟨hc, hnew⟩), if_neg (by simp [hio])]

/-- The log with the new file as its active segment -/
theorem prepared_activate (h : w.Ready cfg) (hw : w.writer = none)
    (hroom : SEGMENT_HEADER_LEN + room ≤ cfg.segmentSizeMax) (sizes : SortedMap Nat Nat) (retained active : Nat) :
    Prepared cfg room w (activate w.pendingCursor { w.addFile w.pendingCursor with
      segmentSizes := sizes, retainedBytes := retained, active := active }) := by
  have hlt := h.closed hw
  have hdir := SortedMap.entries_insert_of_lt (Segment.empty w.cfg.segmentSizeMax) hlt
  have hkeys : ∀ p ∈ w.segments.entries, p.1 < w.pendingCursor := by
    rintro ⟨k, u⟩ hp
    have hk : k ∈ w.dir.keys := h.segments ▸ SortedMap.mem_keys.2 ⟨u, hp⟩
    obtain ⟨seg, hseg⟩ := SortedMap.mem_keys.1 hk
    exact hlt _ hseg
  refine ⟨⟨⟨h.cfg_eq, h.enabled, h.healthy, ?_, nofun, ?_⟩, rfl, ?_⟩, nofun, hroom⟩
  · have hsegments := h.segments
    simp only [SortedMap.keys] at hsegments
    simp [activate, addFile, SortedMap.keys, hdir, SortedMap.entries_insert_of_lt () hkeys, hsegments]
  · rintro first ⟨⟩
    exact ⟨_, _, hdir, rfl, rfl, .inr ⟨rfl, rfl⟩⟩
  · simp only [asLog]
    rw [history_of_last hdir]
    simp [activate, addFile, history, log, WalDir.records, Segment.empty]

theorem createDeferred_ends (h : w.Ready cfg) (hw : w.writer = none)
    (hsize : SEGMENT_HEADER_LEN + RECORD_FRAMING ≤ cfg.segmentSizeMax)
    (hroom : SEGMENT_HEADER_LEN + room ≤ cfg.segmentSizeMax) (hio : io.map = true) :
    Ends (createDeferred w.pendingCursor io) w (Prepared cfg room w) (Kept cfg io w) := by
  have hactivate : Ends ((createFile w.pendingCursor io).andThen fun w' => (w'.activate w.pendingCursor, .ok ())) w
      (fun w' => w' = (w.addFile w.pendingCursor).activate w.pendingCursor) (Kept cfg io w) := by
    refine (createFile_ends h hw hsize hio).andThen fun w' hw' => ?_
    rw [hw']
    rfl
  refine hactivate.andThen fun w' hw' => ?_
  have hprep := prepared_activate h hw hroom w.segmentSizes w.retainedBytes w.pendingCursor
  rw [hw']
  simp only [Ends, storeActive]
  cases hs : io.storeFirst with
  | true => exact hprep
  | false =>
    -- the writer is there, only the append has failed
    refine ⟨?_, hprep.same⟩
    rintro rfl
    cases hs

/-- The log between two writers -/
theorem Ready.closeWriter (h : w.Ready cfg) (hw : w.writer = some first) (hfirst : first < w.pendingCursor) :
    (asLog cfg).Same w (w.closeWriter first) := by
  obtain ⟨closed, seg, hdir, -⟩ := h.active first hw
  have hdir' := SortedMap.entries_modify_last hdir Segment.writeSkipToEnd
  have hdir'' : (w.closeWriter first).dir.entries = closed ++ [(first, seg.writeSkipToEnd)] := hdir'
  refine ⟨⟨h.cfg_eq, h.enabled, h.healthy, ?_, fun _ p hp => ?_, nofun⟩, rfl, ?_⟩
  · simpa [Wal.closeWriter] using h.segments
  · have hlt := SortedMap.lt_of_entries_append hdir'
    simp only [hdir'', List.mem_append, List.mem_singleton] at hp
    rcases hp with hp | rfl
    · exact (hlt p hp).trans hfirst
    · exact hfirst
  · simp only [asLog]
    rw [history_of_last hdir'', history_of_last hdir, Segment.records_writeSkipToEnd]
    rfl

theorem rotateLocked_ends (h : w.Ready cfg) (hw : w.writer = some first) (hfirst : first < w.pendingCursor)
    (hsize : SEGMENT_HEADER_LEN + RECORD_FRAMING ≤ cfg.segmentSizeMax)
    (hroom : SEGMENT_HEADER_LEN + room ≤ cfg.segmentSizeMax) (hio : Harmless cfg io) :
    Ends (rotateLocked w.pendingCursor io) w (Prepared cfg room w) (Kept cfg io w) := by
  have hsame := h.closeWriter hw hfirst
  have hcreate : Ends (createFile w.pendingCursor io) (w.closeWriter first)
      (fun w' => w' = (w.closeWriter first).addFile w.pendingCursor) (Kept cfg io (w.closeWriter first)) :=
    createFile_ends hsame.ready rfl hsize hio.map
  have hstore : Ends ((createFile w.pendingCursor io).andThen (storeActive w.pendingCursor io.storeActive))
      (w.closeWriter first)
      (fun w' => w' = { (w.closeWriter first).addFile w.pendingCursor with active := w.pendingCursor })
      (Kept cfg io (w.closeWriter first)) := by
    refine hcreate.andThen fun w' hw' => ?_
    simp [Ends, storeActive, hio.storeActive, hw']
  have hrotate : Ends (((createFile w.pendingCursor io).andThen (storeActive w.pendingCursor io.storeActive)).andThen
      fun w' => ((w'.retain first ((w.dir.lookup first).elim 0 Segment.tail)).activate w.pendingCursor, .ok ()))
      (w.closeWriter first) (Prepared cfg room (w.closeWriter first)) (Kept cfg io (w.closeWriter first)) := by
    refine hstore.andThen fun w' hw' => ?_
    rw [hw']
    exact prepared_activate hsame.ready rfl hroom _ _ _
  simp only [Ends, rotateLocked, hw]
  exact hrotate.mono (fun _ h => ⟨hsame.trans h.same, h.writer, h.room⟩) (fun _ h => hsame.kept h)

theorem Fits.record_le {n : Nat} (h : Fits cfg n) (hr : r.payload.length ≤ n) :
    SEGMENT_HEADER_LEN + recordBytes r ≤ cfg.segmentSizeMax :=
  (Nat.add_le_add_left (alignRecordLen_mono (Nat.add_le_add_left hr _)) _).trans h.segment_le

theorem Fits.header_le {n : Nat} (h : Fits cfg n) : SEGMENT_HEADER_LEN + RECORD_FRAMING ≤ cfg.segmentSizeMax := by
  have hfit := h.segment_le
  have hle : RECORD_FRAMING ≤ alignRecordLen (RECORD_FRAMING + n) := by
    unfold alignRecordLen
    omega
  omega

theorem acquireWriter_ends {n : Nat} (h : w.Ready cfg) (hr : r.cursor = w.pendingCursor) (hfits : Fits cfg n)
    (hn : r.payload.length ≤ n) (hio : Harmless cfg io) :
    Ends (acquireWriter r io) w (Prepared cfg (recordBytes r) w) (Kept cfg io w) := by
  have hroom := hfits.record_le hn
  have hsize := hfits.header_le
  cases hw : w.writer with
  | none =>
    have hcreate := createDeferred_ends h hw hsize hroom hio.map
    rw [← hr] at hcreate
    simpa only [Ends, acquireWriter, hw] using hcreate
  | some first =>
    by_cases hfull : w.cfg.segmentSizeMax < w.activeBytes + recordBytes r
    · have hfirst : first < w.pendingCursor := by
        obtain ⟨closed, seg, -, -, hbytes, hlt | ⟨-, hempty⟩⟩ := h.active first hw
        · exact hlt
        · -- an empty segment has room for the record
          rw [h.cfg_eq, hbytes, hempty] at hfull
          omega
      have hrotate := rotateLocked_ends h hw hfirst hsize hroom hio
      rw [← hr] at hrotate
      simpa only [Ends, acquireWriter, hw, if_pos hfull] using hrotate
    · simp only [Ends, acquireWriter, hw, if_neg hfull]
      exact ⟨.refl h, by simp [hw], h.cfg_eq ▸ not_lt.1 hfull⟩

/-! ### Writing a record -/

/-- The record has been added, by the writer of the log. -/
structure Wrote (cfg : WalConfig) (r : Record) (w w' : Wal) : Prop where
  adds : (asLog cfg).Adds r w w'
  writer : w'.writer ≠ none

/-- A writer with room commits the record. -/
theorem write_of_room (h : w.Ready cfg) (hw : w.writer = some first)
    (hroom : w.activeBytes + recordBytes r ≤ cfg.segmentSizeMax) (hr : r.cursor = w.pendingCursor) (io : WalIo) :
    ∃ w', write first r io w = (w', .ok ()) ∧ Wrote cfg r w (w'.recorded first r) := by
  obtain ⟨closed, seg, hdir, hsize, hbytes, hfirst⟩ := h.active first hw
  obtain ⟨seg', hput, hsize', hrecords⟩ : ∃ seg', seg.append r = some seg' ∧ seg'.size = seg.size ∧
      seg'.records = seg.records ++ [r] := by
    refine ⟨_, if_neg ?_, rfl, rfl⟩
    rw [hsize, h.cfg_eq, ← hbytes]
    exact not_lt.2 hroom
  have hdir' := SortedMap.entries_modify_last hdir fun _ => seg'
  refine ⟨{ w with dir := w.dir.modify first fun _ => seg' }, ?_, ⟨⟨?_, ?_, ?_⟩, ?_⟩⟩
  · simp only [write, put, SortedMap.lookup_last hdir, Option.bind_some, hput]
  · refine ⟨h.cfg_eq, h.enabled, h.healthy, by simpa [recorded] using h.segments, fun hn => ?_, fun second hsecond => ?_⟩
    · simp [recorded, hw] at hn
    · obtain rfl : first = second := by simpa [recorded, hw] using hsecond
      refine ⟨closed, seg', hdir', hsize'.trans hsize, ?_, .inl ?_⟩
      · simp [recorded, SortedMap.lookup_last hdir']
      · simp only [recorded]
        omega
  · simp [asLog, recorded, hr]
  · have hdir'' : (recorded first r { w with dir := w.dir.modify first fun _ => seg' }).dir.entries =
        closed ++ [(first, seg')] := hdir'
    simp only [asLog]
    rw [history_of_last hdir'', history_of_last hdir, hrecords]
    simp [recorded]
  · simp [recorded, hw]

/-! ### Retention -/

/-- Retention deletes the first segment of the directory, which is not the active one. -/
theorem Ready.retire {k : Nat} (h : w.Ready cfg) (hw : w.writer = some first)
    (hk : w.segments.keys.find? (fun k => some k ≠ w.writer) = some k) : (asLog cfg).Same w (w.retire k) := by
  obtain ⟨closed, seg, hdir, hsize, hbytes, hfirst⟩ := h.active first hw
  cases closed with
  | nil =>
    -- only the active segment is left
    rw [h.segments, SortedMap.keys_eq hdir] at hk
    simp [hw] at hk
  | cons p closed =>
    obtain ⟨k₀, seg₀⟩ := p
    have hne : k₀ ≠ first := ne_of_lt (SortedMap.lt_of_entries_append hdir (k₀, seg₀) (List.mem_cons_self ..))
    have hkeys : w.segments.keys = k₀ :: (closed.map Prod.fst ++ [first]) := by
      rw [h.segments, SortedMap.keys_eq hdir]
      simp
    obtain rfl : k₀ = k := by
      rw [hkeys] at hk
      simpa [hw, hne] using hk
    have hdir' : (w.retire k₀).dir.entries = closed ++ [(first, seg)] := SortedMap.entries_erase_head hdir
    refine ⟨⟨h.cfg_eq, h.enabled, h.healthy, ?_, fun hn => ?_, fun second hsecond => ?_⟩, rfl, ?_⟩
    · rw [SortedMap.keys_eq hdir']
      simp only [Wal.retire, SortedMap.keys_erase_head hkeys]
      simp
    · simp [Wal.retire, hw] at hn
    · obtain rfl : first = second := by simpa [Wal.retire, hw] using hsecond
      exact ⟨closed, seg, hdir', hsize, hbytes, hfirst⟩
    · simp only [asLog]
      rw [history_of_last hdir', history_of_last hdir]
      simp [Wal.retire, SortedMap.lookup_head hdir]

theorem Wrote.enforceRetention {rounds : Nat} (h : Wrote cfg r w w') : Wrote cfg r w (w'.enforceRetention rounds) := by
  induction rounds generalizing w' with
  | zero => exact h
  | succ rounds ih =>
    unfold Wal.enforceRetention
    split
    · exact h
    · split
      · rename_i k hk
        obtain ⟨first, hw⟩ := Option.ne_none_iff_exists'.1 h.writer
        exact ih ⟨h.adds.same (Ready.retire h.adds.ready hw hk), h.writer⟩
      · exact h

/-! ### The append -/

theorem appendWith_ends (h : Prepared cfg (recordBytes r) w w') (hr : r.cursor = w.pendingCursor)
    (hio : cfg.fsyncPolicy = .each → io.flush = true) :
    Ends (appendWith r io) w' ((asLog cfg).Adds r w) (Kept cfg io w) := by
  obtain ⟨first, hw⟩ := Option.ne_none_iff_exists'.1 h.writer
  obtain ⟨w₁, hwrite, hwrote⟩ := write_of_room h.same.ready hw h.room (hr.trans h.same.next.symm) io
  have hkept : Wrote cfg r w' ((w₁.recorded first r).enforceRetention w₁.segments.keys.length) :=
    hwrote.enforceRetention
  have hcfg := hkept.adds.ready.cfg_eq
  have hflush : ¬(cfg.fsyncPolicy = .each ∧ io.flush = false) := by
    rintro ⟨heach, hflush⟩
    simp [hio heach] at hflush
  simp only [Ends, appendWith, hw, Attempt.andThen, hwrite, syncEach, hcfg, if_neg hflush]
  exact h.same.adds hkept.adds

/-- An append at the pending cursor adds its record, or fails and leaves the log as it was. -/
theorem append_ends {n ts : Nat} {payload : Bytes} (h : w.Ready cfg) (hfits : Fits cfg n) (hn : payload.length ≤ n)
    (hio : Harmless cfg io) : Ends (append w.pendingCursor ts payload io) w
      ((asLog cfg).Adds ⟨w.pendingCursor, ts, payload⟩ w) (Kept cfg io w) := by
  have hlen : ¬MAX_PAYLOAD_LEN < payload.length := not_lt.2 (hn.trans hfits.payload_le)
  have henabled : w.cfg.enabled = true := h.cfg_eq ▸ h.enabled
  simp only [Ends, append, henabled, Bool.true_eq_false, if_false, if_neg hlen, h.healthy]
  exact (acquireWriter_ends h rfl hfits hn hio).andThen fun w' hw' => appendWith_ends hw' rfl hio.each

/-- The flusher thread goes on. -/
def FlusherSurvives (io : WalIo) : Prop := io.flush = true

theorem Ready.flusherTick (h : w.Ready cfg) (hio : FlusherSurvives io) : (asLog cfg).Same w (w.flusherTick io) := by
  have heq : w.flusherTick io = w := by
    unfold Wal.flusherTick
    split
    · rfl
    · rw [if_neg (by rw [hio]; decide)]
  rw [heq]
  exact .refl h

/-! ### Opening a log -/

/-- The newest segment, if there is one, holds a record. -/
def NewestHolds (dir : WalDir) : Prop := ∀ k seg, dir.last? = some (k, seg) → k < nextCursor k seg

theorem ofDir_ready {dir : WalDir} {active pending : Nat} (hcfg : cfg.enabled = true)
    (hlt : ∀ p ∈ dir.entries, p.1 < pending) : (ofDir cfg dir active pending).Ready cfg :=
  ⟨rfl, hcfg, rfl, by simp [ofDir], fun _ => hlt, nofun⟩

theorem open_ready {n active : Nat} {dir : WalDir} (h : «open» cfg dir active = .ok w) (hcfg : cfg.enabled = true)
    (hfits : Fits cfg n) (hdir : NewestHolds dir) : w.Ready cfg := by
  unfold «open» at h
  cases hlast : dir.last? with
  | none =>
    simp only [hlast, Except.ok.injEq] at h
    subst h
    have hnil : dir.entries = [] := List.getLast?_eq_none_iff.1 hlast
    exact ofDir_ready hcfg (by simp [hnil])
  | some p =>
    obtain ⟨k, seg⟩ := p
    have hnext : k < nextCursor k seg := hdir k seg hlast
    have hlt : ∀ p ∈ dir.entries, p.1 < nextCursor k seg := fun p hp => (SortedMap.le_of_last? hlast hp).trans_lt hnext
    have hcreate : Ends (createDeferred (nextCursor k seg) .ok) (ofDir cfg dir active (nextCursor k seg))
        (Prepared cfg 0 _) (Kept cfg .ok _) :=
      createDeferred_ends (ofDir_ready hcfg hlt) rfl hfits.header_le
        (le_trans (Nat.add_le_add_left (Nat.zero_le _) _) hfits.header_le) rfl
    simp only [hlast, if_neg hnext.ne'] at h
    rcases hcreate.cases with ⟨w', heq, hprep⟩ | ⟨w', e, heq, hkept⟩
    · rw [heq] at h
      cases h
      exact hprep.same.ready
    · exact absurd rfl hkept.fault

end Wal

end Mmbus.V2
