import Mmbus.Lib.AppendLog
import Mmbus.Lib.SortedMap
import Mmbus.Ring

/-!
# The write-ahead log

The v0.1 log: a directory of segment files named by their first cursor, the last of them written through a
`BufWriter`.  Records are the unit: the buffer reaches the file record by record, and what a write that fails has left
of a record behind it is a flag of the segment.  What the system calls of an operation answer is an argument (`WalIo`).

`Wal.append_ends` is what the publisher needs to know of an append: whatever fails, short of a fault that leaves a
segment file without its writer, loses records or damages the file, either the record has been added or nothing has
changed, and a later append succeeds.
-/

namespace Mmbus

open Attempt

def RECORD_FRAMING : Nat := 28

def MAX_RECORD_LEN : Nat := 16 * 1024 * 1024

def MAX_PAYLOAD_LEN : Nat := MAX_RECORD_LEN - RECORD_FRAMING

def SEGMENT_HEADER_LEN : Nat := 32

/-- The capacity of a `BufWriter` -/
def BUF_CAPACITY : Nat := 8 * 1024

structure Record where
  cursor : Nat
  ts : Nat
  payload : Bytes
  deriving DecidableEq

/-- The bytes of a record in a segment -/
def Record.len (r : Record) : Nat := RECORD_FRAMING + r.payload.length

inductive FsyncPolicy
  | none
  | batched
  | each
  deriving DecidableEq

structure WalConfig where
  enabled : Bool
  fsyncPolicy : FsyncPolicy
  segmentSizeMax : Nat
  retentionBytes : Nat

/-- A segment of the log has room for any record of a ring with slots of `slotSize` bytes. -/
structure WalConfig.Fits (cfg : WalConfig) (slotSize : Nat) : Prop where
  payload_le : slotSize ≤ MAX_PAYLOAD_LEN
  segment_le : SEGMENT_HEADER_LEN + RECORD_FRAMING + slotSize ≤ cfg.segmentSizeMax

inductive WalError
  | io
  | reader
  | cursorTooOld (requested oldest : Nat)
  | cursorRegressed (got expected : Nat)
  | poisoned
  | payloadTooLarge (len : Nat)
  deriving DecidableEq

/-- A segment file: whether its header is complete, its records, and whether part of a record follows them. -/
structure Segment where
  header : Bool
  records : List Record
  torn : Bool
  deriving DecidableEq

namespace Segment

def empty : Segment := ⟨true, [], false⟩

/-- The length of an intact segment file -/
def len (s : Segment) : Nat := SEGMENT_HEADER_LEN + (s.records.map Record.len).sum

/-- No reader gets past the part of a record. -/
def append (rs : List Record) (s : Segment) : Segment := if s.torn then s else { s with records := s.records ++ rs }

/-- Part of a record at the end -/
def tear (s : Segment) : Segment := { s with torn := true }

/-- `recover_truncate` on a segment with a complete header -/
def recover (s : Segment) : Segment := { s with torn := false }

theorem append_of_intact {s : Segment} (h : s.torn = false) (rs : List Record) :
    s.append rs = { s with records := s.records ++ rs } := by
  simp [append, h]

end Segment

/-- The segment files of the directory `wal`, by first cursor -/
abbrev WalDir := SortedMap Nat Segment

/-- The records in the files -/
def WalDir.records (dir : WalDir) : List Record := dir.entries.flatMap fun p => p.2.records

theorem WalDir.records_of_last {dir : WalDir} {closed : List (Nat × Segment)} {k : Nat} {s : Segment}
    (h : dir.entries = closed ++ [(k, s)]) : dir.records = (closed.flatMap fun p => p.2.records) ++ s.records := by
  simp [records, h]

/-- The writer of the active segment.  `buffer` has not reached the file. -/
structure SegmentWriter where
  first : Nat
  buffer : List Record
  pending : Nat
  bytesWritten : Nat

/-- What the system calls of an operation answer: the creation of a segment file, the writing of its header (if that
fails, `headerWritten` tells whether the header is complete), the flush and the sync that close a segment (if the flush
fails, the drop of the `BufWriter` tries once more), the flush that makes room in the buffer, a write past the buffer,
and the flush and the sync of `FsyncPolicy::Each`.  A flush that fails has moved some records, and a write that fails
may have left part of a record. -/
structure WalIo where
  createNew : Bool
  header : Bool
  headerWritten : Bool
  closeFlush : Bool
  dropFlush : Bool
  closeSync : Bool
  drain : Bool
  direct : Bool
  flush : Bool
  sync : Bool
  moved : Nat
  torn : Bool
  deriving DecidableEq

/-- No call fails. -/
def WalIo.ok : WalIo := ⟨true, true, true, true, true, true, true, true, true, true, 0, false⟩

structure Wal where
  cfg : WalConfig
  dir : WalDir
  /-- `Inner::segments`; the paths follow from the keys. -/
  segments : SortedMap Nat Unit
  segmentSizes : SortedMap Nat Nat
  activeBytes : Nat
  retainedBytes : Nat
  writer : Option SegmentWriter
  pendingCursor : Nat
  poisoned : Bool
  /-- The records that retention has deleted (no process reads this) -/
  retired : List Record

namespace Wal

/-- `SegmentWriter::create` for the active segment.  A file with the name must not exist. -/
def createSegment (first : Nat) (io : WalIo) : Attempt WalError Wal := fun w =>
  if io.createNew = false ∨ first ∈ w.dir.keys then (w, .error .io)
  else if io.header = false then
    ({ w with dir := w.dir.insert first { Segment.empty with header := io.headerWritten } }, .error .io)
  else
    ({ w with
      dir := w.dir.insert first .empty
      segments := w.segments.insert first ()
      activeBytes := SEGMENT_HEADER_LEN
      writer := some ⟨first, [], first, SEGMENT_HEADER_LEN⟩ }, .ok ())

/-- Move the first `n` records of the buffer into the file. -/
def moveBuffer (n : Nat) (w : Wal) : Wal :=
  match w.writer with
  | some wr => { w with
      dir := w.dir.modify wr.first (Segment.append (wr.buffer.take n))
      writer := some { wr with buffer := wr.buffer.drop n } }
  | none => w

def flushBuffer (w : Wal) : Wal :=
  match w.writer with
  | some wr => w.moveBuffer wr.buffer.length
  | none => w

/-- A write of the writer has left part of a record in the file. -/
def tear (w : Wal) : Wal :=
  match w.writer with
  | some wr => { w with dir := w.dir.modify wr.first Segment.tear }
  | none => w

/-- Deferred creation of the writer -/
def ensureWriter (cursor : Nat) (io : WalIo) : Attempt WalError Wal := fun w =>
  match w.writer with
  | some _ => (w, .ok ())
  | none => createSegment cursor io w

/-- `SegmentWriter::close`, and the accounting of the closed segment -/
def closeWriter (io : WalIo) : Attempt WalError Wal := fun w =>
  match w.writer with
  | none => (w, .ok ())
  | some wr =>
    if io.closeFlush = false then
      let left := if io.dropFlush then w.flushBuffer else
        let w := w.moveBuffer io.moved
        if io.torn then w.tear else w
      ({ left with writer := none }, .error .io)
    else if io.closeSync = false then ({ w.flushBuffer with writer := none }, .error .io)
    else
      ({ w.flushBuffer with
        writer := none
        segmentSizes := w.segmentSizes.insert wr.first wr.bytesWritten
        retainedBytes := w.retainedBytes + wr.bytesWritten }, .ok ())

def rotateLocked (newFirst : Nat) (io : WalIo) : Attempt WalError Wal :=
  (closeWriter io).andThen (createSegment newFirst io)

/-- Rotate before a record that would exceed `segment_size_max`. -/
def rotateIfFull (r : Record) (io : WalIo) : Attempt WalError Wal := fun w =>
  if w.cfg.segmentSizeMax < w.activeBytes + r.len then rotateLocked r.cursor io w else (w, .ok ())

/-- The record is the writer's last. -/
def recorded (r : Record) (w : Wal) : Wal :=
  match w.writer with
  | some wr => { w with
      writer := some { wr with bytesWritten := wr.bytesWritten + r.len, pending := r.cursor + 1 }
      activeBytes := wr.bytesWritten + r.len
      pendingCursor := r.cursor + 1 }
  | none => w

/-- The record into the buffer -/
def buffered (r : Record) (w : Wal) : Wal :=
  match w.writer with
  | some wr => { w with writer := some { wr with buffer := wr.buffer ++ [r] } }
  | none => w

/-- The record into the file -/
def written (r : Record) (w : Wal) : Wal :=
  match w.writer with
  | some wr => { w with dir := w.dir.modify wr.first (Segment.append [r]) }
  | none => w

/-- `BufWriter::write_all_cold` -/
def writeAllCold (spare : Nat) (r : Record) (io : WalIo) : Attempt WalError Wal := fun w =>
  if spare < r.len ∧ io.drain = false then (w.moveBuffer io.moved, .error .io)
  else
    let w := if spare < r.len then w.flushBuffer else w
    if r.len < BUF_CAPACITY then ((w.buffered r).recorded r, .ok ())
    else if io.direct = false then (if io.torn then w.tear else w, .error .io)
    else ((w.written r).recorded r, .ok ())

/-- `SegmentWriter::append`, with `BufWriter::write_all` -/
def write (r : Record) (io : WalIo) : Attempt WalError Wal := fun w =>
  match w.writer with
  | none => (w, .error .io) -- not reached: the caller has made sure of a writer
  | some wr =>
    let spare := BUF_CAPACITY - (wr.buffer.map Record.len).sum
    if r.cursor ≠ wr.pending then (w, .error (.cursorRegressed r.cursor wr.pending))
    else if r.len < spare then ((w.buffered r).recorded r, .ok ())
    else writeAllCold spare r io w

/-- The inline fsync of `FsyncPolicy::Each` -/
def syncEach (io : WalIo) : Attempt WalError Wal := fun w =>
  if w.cfg.fsyncPolicy = .each then
    if io.flush = false then (w.moveBuffer io.moved, .error .io)
    else if io.sync = false then (w.flushBuffer, .error .io)
    else (w.flushBuffer, .ok ())
  else (w, .ok ())

/-- Delete the segment `k`. -/
def retire (k : Nat) (w : Wal) : Wal :=
  { w with
    dir := w.dir.erase k
    segments := w.segments.erase k
    segmentSizes := w.segmentSizes.erase k
    retainedBytes := w.retainedBytes - (w.segmentSizes.lookup k).getD 0
    retired := w.retired ++ ((w.dir.lookup k).map Segment.records).getD [] }

/-- `enforce_retention_locked`: each round deletes a segment, so as many rounds as there are segments are enough. -/
def enforceRetention : (rounds : Nat) → Wal → Wal
  | 0, w => w
  | rounds + 1, w =>
    if w.retainedBytes + w.activeBytes ≤ w.cfg.retentionBytes then w
    else
      match w.segments.keys.find? fun k => some k ≠ w.writer.map SegmentWriter.first with
      | some k => enforceRetention rounds (w.retire k)
      | none => w

def append (cursor ts : Nat) (payload : Bytes) (io : WalIo) : Attempt WalError Wal := fun w =>
  let r : Record := ⟨cursor, ts, payload⟩
  if w.cfg.enabled = false then (w, .ok ())
  else if MAX_PAYLOAD_LEN < payload.length then (w, .error (.payloadTooLarge payload.length))
  else if w.poisoned then (w, .error .poisoned)
  else
    ((((ensureWriter cursor io).andThen (rotateIfFull r io)).andThen (write r io)).andThen (syncEach io)).andThen
      (fun w => (w.enforceRetention w.segments.keys.length, .ok ())) w

/-- Rotate without a record. -/
def bumpGeneration (io : WalIo) : Attempt WalError Wal := fun w =>
  match w.writer with
  | some wr => rotateLocked wr.pending io w
  | none => (w, .ok ())

/-- `oldest_cursor` -/
def oldestCursor (w : Wal) : Nat := w.segments.keys.head?.getD 0

/-- One round of the flusher thread, which stops for good when its flush or its sync fails -/
def flusherTick (io : WalIo) (w : Wal) : Wal :=
  match w.writer with
  | none => w
  | some _ =>
    if io.flush = false then { w.moveBuffer io.moved with poisoned := true }
    else if io.sync = false then { w.flushBuffer with poisoned := true }
    else w.flushBuffer

/-- The log over recovered segments before its writer exists -/
def ofDir (cfg : WalConfig) (dir : WalDir) (pending : Nat) : Wal where
  cfg := cfg
  dir := dir
  segments := dir.map fun _ _ => ()
  segmentSizes := dir.map fun _ => Segment.len
  activeBytes := 0
  retainedBytes := (dir.entries.map fun p => p.2.len).sum
  writer := none
  pendingCursor := pending
  poisoned := false
  retired := []

/-- The cursor after the last record of the last segment -/
def nextCursor (lastFirst : Nat) (seg : Segment) : Nat :=
  (seg.records.getLast?.map fun r => r.cursor + 1).getD lastFirst

/-- `Wal::open`, on a file system that answers every call -/
def «open» (cfg : WalConfig) (dir : WalDir) : Except WalError Wal :=
  if dir.entries.any fun p => !p.2.header then .error .reader
  else
    let dir : WalDir := dir.map fun _ => Segment.recover
    match dir.last? with
    | none => .ok (ofDir cfg dir 0)
    | some (lastFirst, seg) =>
      let next := nextCursor lastFirst seg
      if next = lastFirst then .ok (ofDir cfg dir lastFirst)
      else
        match createSegment next .ok (ofDir cfg dir next) with
        | (w, .ok _) => .ok w
        | (_, .error e) => .error e

/-- `Drop for Wal`: the directory after the last flush -/
def drop (w : Wal) : WalDir := if w.cfg.enabled then w.flushBuffer.dir else w.dir

/-- The records of the log: those in the files, and those in the buffer -/
def log (w : Wal) : List Record := w.dir.records ++ (w.writer.map SegmentWriter.buffer).getD []

/-- Every record the log has ever held -/
def history (w : Wal) : List Record := w.retired ++ w.log

/-! ### What an append needs and keeps -/

/-- `wr` writes the last segment of the directory, which has records unless its first cursor is the pending one. -/
structure Active (w : Wal) (wr : SegmentWriter) : Prop where
  last : ∃ closed seg, w.dir.entries = closed ++ [(wr.first, seg)]
  pending : wr.pending = w.pendingCursor
  bytes : w.activeBytes = wr.bytesWritten
  first : wr.first < w.pendingCursor ∨ wr.first = w.pendingCursor ∧ wr.bytesWritten = SEGMENT_HEADER_LEN

/-- The log, opened with the configuration `cfg`, takes a record at its pending cursor. -/
structure Ready (cfg : WalConfig) (w : Wal) : Prop where
  cfg_eq : w.cfg = cfg
  enabled : cfg.enabled = true
  healthy : w.poisoned = false
  segments : w.segments.keys = w.dir.keys
  intact : ∀ p ∈ w.dir.entries, p.2.torn = false
  closed : w.writer = none → ∀ p ∈ w.dir.entries, p.1 < w.pendingCursor
  active : ∀ wr, w.writer = some wr → w.Active wr

/-- What the log shows -/
def asLog (cfg : WalConfig) : AppendLog Wal Record := ⟨Ready cfg, pendingCursor, history⟩

/-- A fault, after which a later append finds the log as it was -/
abbrev Kept (cfg : WalConfig) (io : WalIo) : Wal → Wal → Prop := (asLog cfg).Kept (io ≠ .ok)

/-- The log is as it was and has a writer. -/
structure Prepared (cfg : WalConfig) (w w' : Wal) : Prop where
  same : (asLog cfg).Same w w'
  writer : w'.writer ≠ none

/-- The faults after which the log still takes records: a flush that makes room, or a call that creates no file and
leaves no record behind. -/
structure Harmless (cfg : WalConfig) (io : WalIo) : Prop where
  header : io.header = true
  close : io.closeFlush = true ∨ io.dropFlush = true
  direct : io.direct = true ∨ io.torn = false
  each : cfg.fsyncPolicy = .each → io.flush = true ∧ io.sync = true

theorem Harmless.ok (cfg : WalConfig) : Harmless cfg .ok := ⟨rfl, .inl rfl, .inl rfl, fun _ => ⟨rfl, rfl⟩⟩

variable {cfg : WalConfig} {w w' w'' : Wal} {wr : SegmentWriter} {r : Record} {io : WalIo}

theorem history_of_last {closed : List (Nat × Segment)} {k : Nat} {s : Segment}
    (hdir : w.dir.entries = closed ++ [(k, s)]) : w.history =
      w.retired ++ (closed.flatMap fun p => p.2.records) ++ s.records ++ (w.writer.map SegmentWriter.buffer).getD [] := by
  simp only [history, log, WalDir.records_of_last hdir, List.append_assoc]

/-! ### The buffer -/

theorem moveBuffer_some (hw : w.writer = some wr) (n : Nat) : w.moveBuffer n = { w with
    dir := w.dir.modify wr.first (Segment.append (wr.buffer.take n))
    writer := some { wr with buffer := wr.buffer.drop n } } := by
  simp only [moveBuffer, hw]

/-- Moving records from the buffer into the file changes nothing that matters. -/
theorem Ready.moveBuffer (h : w.Ready cfg) (n : Nat) : (asLog cfg).Same w (w.moveBuffer n) := by
  cases hw : w.writer with
  | none =>
    have : w.moveBuffer n = w := by simp only [Wal.moveBuffer, hw]
    rw [this]
    exact .refl h
  | some wr =>
    obtain ⟨⟨closed, seg, hdir⟩, hpending, hbytes, hfirst⟩ := h.active wr hw
    have hseg : seg.torn = false := h.intact (wr.first, seg) (by simp [hdir])
    have hdir' := SortedMap.entries_modify_last hdir (Segment.append (wr.buffer.take n))
    rw [moveBuffer_some hw]
    refine ⟨⟨h.cfg_eq, h.enabled, h.healthy, by simpa using h.segments, fun p hp => ?_, nofun, ?_⟩, rfl, ?_⟩
    · simp only [hdir', List.mem_append, List.mem_singleton] at hp
      rcases hp with hp | rfl
      · exact h.intact p (by simp [hdir, hp])
      · simpa [Segment.append_of_intact hseg] using hseg
    · rintro wr' ⟨⟩
      exact ⟨⟨closed, _, hdir'⟩, hpending, hbytes, hfirst⟩
    · simp only [asLog]
      rw [history_of_last hdir', history_of_last hdir, Segment.append_of_intact hseg]
      simp [hw]

theorem Ready.flushBuffer (h : w.Ready cfg) : (asLog cfg).Same w w.flushBuffer := by
  unfold Wal.flushBuffer
  split
  · exact h.moveBuffer _
  · exact .refl h

@[simp] theorem moveBuffer_writer (n : Nat) :
    (w.moveBuffer n).writer = w.writer.map fun wr => { wr with buffer := wr.buffer.drop n } := by
  cases hw : w.writer <;> simp [moveBuffer, hw]

@[simp] theorem flushBuffer_writer : w.flushBuffer.writer = w.writer.map fun wr => { wr with buffer := [] } := by
  cases hw : w.writer <;> simp [flushBuffer, hw]

/-! ### Creating and closing segments -/

theorem createSegment_ends (h : w.Ready cfg) (hw : w.writer = none) (hio : io.header = true) :
    Ends (createSegment w.pendingCursor io) w (Prepared cfg w) (Kept cfg io w) := by
  have hlt := h.closed hw
  have hnew : w.pendingCursor ∉ w.dir.keys := by
    intro hmem
    obtain ⟨seg, hseg⟩ := SortedMap.mem_keys.1 hmem
    exact lt_irrefl _ (hlt _ hseg)
  unfold Ends createSegment
  by_cases hc : io.createNew = false
  · rw [if_pos (.inl hc)]
    refine ⟨?_, .refl h⟩
    rintro rfl
    cases hc
  · rw [if_neg (not_or.2 ⟨hc, hnew⟩), if_neg (by simp [hio])]
    have hdir := SortedMap.entries_insert_of_lt Segment.empty hlt
    have hkeys : ∀ p ∈ w.segments.entries, p.1 < w.pendingCursor := by
      rintro ⟨k, u⟩ hp
      have hk : k ∈ w.dir.keys := h.segments ▸ SortedMap.mem_keys.2 ⟨u, hp⟩
      obtain ⟨seg, hseg⟩ := SortedMap.mem_keys.1 hk
      exact hlt _ hseg
    refine ⟨⟨⟨h.cfg_eq, h.enabled, h.healthy, ?_, fun p hp => ?_, nofun, ?_⟩, rfl, ?_⟩, nofun⟩
    · have hsegments := h.segments
      simp only [SortedMap.keys] at hsegments
      simp [SortedMap.keys, hdir, SortedMap.entries_insert_of_lt () hkeys, hsegments]
    · simp only [hdir, List.mem_append, List.mem_singleton] at hp
      rcases hp with hp | rfl
      · exact h.intact p hp
      · rfl
    · rintro wr ⟨⟩
      exact ⟨⟨_, _, hdir⟩, rfl, rfl, .inr ⟨rfl, rfl⟩⟩
    · simp only [asLog]
      rw [history_of_last hdir]
      simp [history, log, hw, WalDir.records, Segment.empty]

theorem ensureWriter_ends (h : w.Ready cfg) (hio : io.header = true) :
    Ends (ensureWriter w.pendingCursor io) w (Prepared cfg w) (Kept cfg io w) := by
  cases hw : w.writer with
  | some wr =>
    simp only [Ends, ensureWriter, hw]
    exact ⟨.refl h, by simp [hw]⟩
  | none => simpa only [Ends, ensureWriter, hw] using createSegment_ends h hw hio

/-- A writer with an empty buffer may go, if its segment has records. -/
private theorem Ready.closed_of (h : w.Ready cfg) (hw : w.writer = some wr) (hbuf : wr.buffer = [])
    (hfirst : wr.first < w.pendingCursor) (sizes : SortedMap Nat Nat) (retained : Nat) :
    (asLog cfg).Same w { w with writer := none, segmentSizes := sizes, retainedBytes := retained } := by
  obtain ⟨closed, seg, hdir⟩ := (h.active wr hw).last
  refine ⟨⟨h.cfg_eq, h.enabled, h.healthy, h.segments, h.intact, fun _ p hp => ?_, nofun⟩, rfl, ?_⟩
  · have hlt := SortedMap.lt_of_entries_append hdir
    simp only [hdir, List.mem_append, List.mem_singleton] at hp
    rcases hp with hp | rfl
    · exact (hlt p hp).trans hfirst
    · exact hfirst
  · simp [asLog, history, log, hw, hbuf]

theorem closeWriter_ends (h : w.Ready cfg) (hfirst : ∀ wr, w.writer = some wr → wr.first < w.pendingCursor)
    (hclose : io.closeFlush = true ∨ io.dropFlush = true) :
    Ends (closeWriter io) w (fun w' => (asLog cfg).Same w w' ∧ w'.writer = none) (Kept cfg io w) := by
  cases hw : w.writer with
  | none =>
    simp only [Ends, closeWriter, hw]
    exact ⟨.refl h, trivial⟩
  | some wr =>
    -- the writer is dropped after a flush that has emptied the buffer
    have hflushed (sizes : SortedMap Nat Nat) (retained : Nat) :
        (asLog cfg).Same w { w.flushBuffer with writer := none, segmentSizes := sizes, retainedBytes := retained } := by
      have hf := h.flushBuffer
      have hw' : w.flushBuffer.writer = some { wr with buffer := [] } := by simp [hw]
      have hfirst' : wr.first < w.flushBuffer.pendingCursor := (hfirst wr hw).trans_eq hf.next.symm
      exact hf.trans (Ready.closed_of hf.ready hw' rfl hfirst' sizes retained)
    simp only [Ends, closeWriter, hw]
    by_cases hcf : io.closeFlush = false
    · have hdrop : io.dropFlush = true := by simpa [hcf] using hclose
      simp only [hcf, hdrop, if_true]
      refine ⟨?_, hflushed _ _⟩
      rintro rfl
      cases hcf
    · by_cases hcs : io.closeSync = false
      · simp only [hcf, hcs, if_true]
        refine ⟨?_, hflushed _ _⟩
        rintro rfl
        cases hcs
      · simp only [hcf, hcs]
        exact ⟨hflushed (w.segmentSizes.insert wr.first wr.bytesWritten) (w.retainedBytes + wr.bytesWritten), rfl⟩

theorem rotateLocked_ends (h : w.Ready cfg) (hfirst : ∀ wr, w.writer = some wr → wr.first < w.pendingCursor)
    (hio : Harmless cfg io) : Ends (rotateLocked w.pendingCursor io) w (Prepared cfg w) (Kept cfg io w) := by
  refine (closeWriter_ends h hfirst hio.close).andThen fun w' ⟨hsame, hnone⟩ => ?_
  have hc := createSegment_ends hsame.ready hnone hio.header
  have hnext : w'.pendingCursor = w.pendingCursor := hsame.next
  rw [hnext] at hc
  exact hc.mono (fun _ h => ⟨hsame.trans h.same, h.writer⟩) (fun _ h => hsame.kept h)

theorem rotateIfFull_ends {n : Nat} (h : w.Ready cfg) (hw : w.writer ≠ none) (hr : r.cursor = w.pendingCursor)
    (hfits : cfg.Fits n) (hn : r.payload.length ≤ n) (hio : Harmless cfg io) :
    Ends (rotateIfFull r io) w (Prepared cfg w) (Kept cfg io w) := by
  by_cases hfull : w.cfg.segmentSizeMax < w.activeBytes + r.len
  · have hfirst : ∀ wr, w.writer = some wr → wr.first < w.pendingCursor := by
      intro wr hwr
      obtain ⟨-, -, hbytes, hlt | ⟨-, hempty⟩⟩ := h.active wr hwr
      · exact hlt
      · -- an empty segment has room for the record
        have hroom := hfits.segment_le
        have hlen : r.len = RECORD_FRAMING + r.payload.length := rfl
        rw [h.cfg_eq] at hfull
        omega
    have hrot := rotateLocked_ends h hfirst hio
    rw [← hr] at hrot
    simpa only [Ends, rotateIfFull, if_pos hfull] using hrot
  · simp only [Ends, rotateIfFull, if_neg hfull]
    exact ⟨.refl h, hw⟩

/-! ### Writing a record -/

/-- The record has been added, by the writer of the log. -/
structure Wrote (cfg : WalConfig) (r : Record) (w w' : Wal) : Prop where
  adds : (asLog cfg).Adds r w w'
  writer : w'.writer ≠ none

theorem wrote_buffered (h : w.Ready cfg) (hw : w.writer ≠ none) (hr : r.cursor = w.pendingCursor) :
    Wrote cfg r w ((w.buffered r).recorded r) := by
  obtain ⟨wr, hw⟩ := Option.ne_none_iff_exists'.1 hw
  obtain ⟨⟨closed, seg, hdir⟩, -, -, hfirst⟩ := h.active wr hw
  simp only [recorded, buffered, hw]
  refine ⟨⟨⟨h.cfg_eq, h.enabled, h.healthy, h.segments, h.intact, nofun, ?_⟩, ?_, ?_⟩, nofun⟩
  · rintro wr' ⟨⟩
    exact ⟨⟨closed, seg, hdir⟩, rfl, rfl, .inl (by simp only; omega)⟩
  · simp [asLog, hr]
  · simp [asLog, history, log, hw]

theorem wrote_written (h : w.Ready cfg) (hw : w.writer = some wr) (hbuf : wr.buffer = [])
    (hr : r.cursor = w.pendingCursor) : Wrote cfg r w ((w.written r).recorded r) := by
  obtain ⟨⟨closed, seg, hdir⟩, -, -, hfirst⟩ := h.active wr hw
  have hseg : seg.torn = false := h.intact (wr.first, seg) (by simp [hdir])
  have hdir' := SortedMap.entries_modify_last hdir (Segment.append [r])
  simp only [recorded, written, hw]
  refine ⟨⟨⟨h.cfg_eq, h.enabled, h.healthy, by simpa using h.segments, fun p hp => ?_, nofun, ?_⟩, ?_, ?_⟩, nofun⟩
  · simp only [hdir', List.mem_append, List.mem_singleton] at hp
    rcases hp with hp | rfl
    · exact h.intact p (by simp [hdir, hp])
    · simpa [Segment.append_of_intact hseg] using hseg
  · rintro wr' ⟨⟩
    exact ⟨⟨closed, _, hdir'⟩, rfl, rfl, .inl (by simp only; omega)⟩
  · simp [asLog, hr]
  · simp only [asLog]
    rw [history_of_last hdir', history_of_last hdir, Segment.append_of_intact hseg]
    simp [hw, hbuf]

theorem writeAllCold_ends {spare : Nat} (h : w.Ready cfg) (hw : w.writer = some wr)
    (hspare : spare = BUF_CAPACITY - (wr.buffer.map Record.len).sum) (hr : r.cursor = w.pendingCursor)
    (hio : io.direct = true ∨ io.torn = false) :
    Ends (writeAllCold spare r io) w (Wrote cfg r w) (Kept cfg io w) := by
  by_cases hdrain : spare < r.len ∧ io.drain = false
  · simp only [Ends, writeAllCold, if_pos hdrain]
    refine ⟨?_, h.moveBuffer _⟩
    rintro rfl
    exact absurd hdrain.2 (by decide)
  · -- the log before the record is written, its buffer emptied if the record does not fit
    obtain ⟨w₁, hw₁, hsame, wr₁, hsome, hempty⟩ : ∃ w₁, (if spare < r.len then w.flushBuffer else w) = w₁ ∧
        (asLog cfg).Same w w₁ ∧ ∃ wr₁, w₁.writer = some wr₁ ∧ (BUF_CAPACITY ≤ r.len → wr₁.buffer = []) := by
      by_cases hlt : spare < r.len
      · exact ⟨_, if_pos hlt, h.flushBuffer, _, by rw [flushBuffer_writer, hw]; rfl, fun _ => rfl⟩
      · refine ⟨_, if_neg hlt, .refl h, wr, hw, fun hcap => ?_⟩
        -- a record as long as the buffer fits only when nothing is buffered
        cases hb : wr.buffer with
        | nil => rfl
        | cons q l =>
          have hq : RECORD_FRAMING ≤ q.len := Nat.le_add_right ..
          have hpos : 0 < RECORD_FRAMING := by decide
          have hcappos : 0 < BUF_CAPACITY := by decide
          rw [hb, List.map_cons, List.sum_cons] at hspare
          omega
    have hr₁ : r.cursor = w₁.pendingCursor := hr.trans hsame.next.symm
    simp only [Ends, writeAllCold, if_neg hdrain, hw₁]
    by_cases hsmall : r.len < BUF_CAPACITY
    · have hwrote := wrote_buffered hsame.ready (by simp [hsome]) hr₁
      simp only [if_pos hsmall]
      exact ⟨hsame.adds hwrote.adds, hwrote.writer⟩
    · by_cases hdirect : io.direct = false
      · have htorn : io.torn = false := by simpa [hdirect] using hio
        simp only [if_neg hsmall, if_pos hdirect, htorn]
        refine ⟨?_, hsame⟩
        rintro rfl
        cases hdirect
      · have hwrote := wrote_written hsame.ready hsome (hempty (not_lt.1 hsmall)) hr₁
        simp only [if_neg hsmall, if_neg hdirect]
        exact ⟨hsame.adds hwrote.adds, hwrote.writer⟩

theorem write_ends (h : w.Ready cfg) (hw : w.writer ≠ none) (hr : r.cursor = w.pendingCursor)
    (hio : io.direct = true ∨ io.torn = false) :
    Ends (write r io) w (Wrote cfg r w) (Kept cfg io w) := by
  obtain ⟨wr, hw⟩ := Option.ne_none_iff_exists'.1 hw
  have hpending : r.cursor = wr.pending := hr.trans (h.active wr hw).pending.symm
  by_cases hspare : r.len < BUF_CAPACITY - (wr.buffer.map Record.len).sum
  · simp only [Ends, write, hw, hpending, ne_eq, not_true_eq_false, if_false, if_pos hspare]
    exact wrote_buffered h (by simp [hw]) hr
  · simpa only [Ends, write, hw, hpending, ne_eq, not_true_eq_false, if_false, if_neg hspare]
      using writeAllCold_ends h hw rfl hr hio

theorem syncEach_ends (h : Wrote cfg r w w') (hio : cfg.fsyncPolicy = .each → io.flush = true ∧ io.sync = true) :
    Ends (syncEach io) w' (Wrote cfg r w) (Kept cfg io w) := by
  by_cases heach : w'.cfg.fsyncPolicy = .each
  · obtain ⟨hflush, hsync⟩ := hio (h.adds.ready.cfg_eq ▸ heach)
    simp only [Ends, syncEach, if_pos heach, hflush, hsync, Bool.true_eq_false, if_false]
    exact ⟨h.adds.same (Ready.flushBuffer h.adds.ready), by simpa using h.writer⟩
  · simpa only [Ends, syncEach, if_neg heach] using h

/-! ### Retention -/

/-- Retention deletes the first segment of the directory, which is not the active one. -/
theorem Ready.retire {k : Nat} (h : w.Ready cfg) (hw : w.writer = some wr)
    (hk : w.segments.keys.find? (fun k => some k ≠ w.writer.map SegmentWriter.first) = some k) :
    (asLog cfg).Same w (w.retire k) := by
  obtain ⟨⟨closed, seg, hdir⟩, hpending, hbytes, hfirst⟩ := h.active wr hw
  cases closed with
  | nil =>
    -- only the active segment is left
    rw [h.segments, SortedMap.keys_eq hdir] at hk
    simp [hw] at hk
  | cons p closed =>
    obtain ⟨k₀, seg₀⟩ := p
    have hne : k₀ ≠ wr.first := ne_of_lt (SortedMap.lt_of_entries_append hdir (k₀, seg₀) (List.mem_cons_self ..))
    have hkeys : w.segments.keys = k₀ :: (closed.map Prod.fst ++ [wr.first]) := by
      rw [h.segments, SortedMap.keys_eq hdir]
      simp
    obtain rfl : k₀ = k := by
      rw [hkeys] at hk
      simpa [hw, hne] using hk
    have hdir' : (w.dir.erase k₀).entries = closed ++ [(wr.first, seg)] := SortedMap.entries_erase_head hdir
    refine ⟨⟨h.cfg_eq, h.enabled, h.healthy, ?_, fun p hp => h.intact p ?_, fun hn => ?_, ?_⟩, rfl, ?_⟩
    · simp only [Wal.retire, SortedMap.keys_erase_head hkeys, SortedMap.keys_eq hdir']
      simp
    · simp only [Wal.retire, hdir'] at hp
      rw [hdir]
      exact List.mem_cons_of_mem _ hp
    · simp [Wal.retire, hw] at hn
    · intro wr' hwr'
      obtain rfl : wr = wr' := by simpa [Wal.retire, hw] using hwr'
      exact ⟨⟨closed, seg, hdir'⟩, hpending, hbytes, hfirst⟩
    · have hdir'' : (w.retire k₀).dir.entries = closed ++ [(wr.first, seg)] := hdir'
      simp only [asLog]
      rw [history_of_last hdir'', history_of_last hdir]
      simp [Wal.retire, SortedMap.lookup_head hdir]

theorem Wrote.enforceRetention {rounds : Nat} (h : Wrote cfg r w w') : Wrote cfg r w (w'.enforceRetention rounds) := by
  induction rounds generalizing w' with
  | zero => exact h
  | succ rounds ih =>
    unfold Wal.enforceRetention
    split
    · exact h
    · split
      · rename_i k hk
        obtain ⟨wr, hw⟩ := Option.ne_none_iff_exists'.1 h.writer
        exact ih ⟨h.adds.same (Ready.retire h.adds.ready hw hk), h.writer⟩
      · exact h

/-! ### The append -/

/-- An append at the pending cursor adds its record, or fails and leaves the log as it was. -/
theorem append_ends {n ts : Nat} {payload : Bytes} (h : w.Ready cfg) (hfits : cfg.Fits n) (hn : payload.length ≤ n)
    (hio : Harmless cfg io) : Ends (append w.pendingCursor ts payload io) w
      ((asLog cfg).Adds ⟨w.pendingCursor, ts, payload⟩ w) (Kept cfg io w) := by
  have hlen : ¬MAX_PAYLOAD_LEN < payload.length := not_lt.2 (hn.trans hfits.payload_le)
  have henabled : w.cfg.enabled = true := h.cfg_eq ▸ h.enabled
  simp only [Ends, append, henabled, Bool.true_eq_false, if_false, if_neg hlen, h.healthy]
  generalize hr : (⟨w.pendingCursor, ts, payload⟩ : Record) = r
  have hcursor : r.cursor = w.pendingCursor := by rw [← hr]
  have hpayload : r.payload.length ≤ n := by rwa [← hr]
  have hroom : Ends ((ensureWriter w.pendingCursor io).andThen (rotateIfFull r io)) w (Prepared cfg w)
      (Kept cfg io w) := by
    refine (ensureWriter_ends h hio.header).andThen fun w' hprepared => ?_
    obtain ⟨hsame, hw'⟩ := hprepared
    have hrotate := rotateIfFull_ends hsame.ready hw' (hcursor.trans hsame.next.symm) hfits hpayload hio
    exact hrotate.mono (fun _ h => ⟨hsame.trans h.same, h.writer⟩) (fun _ h => hsame.kept h)
  have hwrite : Ends (((ensureWriter w.pendingCursor io).andThen (rotateIfFull r io)).andThen (write r io)) w
      (Wrote cfg r w) (Kept cfg io w) := by
    refine hroom.andThen fun w' hprepared => ?_
    obtain ⟨hsame, hw'⟩ := hprepared
    have hwrite := write_ends hsame.ready hw' (hcursor.trans hsame.next.symm) hio.direct
    exact hwrite.mono (fun _ h => ⟨hsame.adds h.adds, h.writer⟩) (fun _ h => hsame.kept h)
  have hsync : Ends ((((ensureWriter w.pendingCursor io).andThen (rotateIfFull r io)).andThen (write r io)).andThen
      (syncEach io)) w (Wrote cfg r w) (Kept cfg io w) :=
    hwrite.andThen fun w' hw' => syncEach_ends hw' hio.each
  exact hsync.andThen fun w' hw' => hw'.enforceRetention.adds

/-- The flusher thread goes on. -/
def FlusherSurvives (io : WalIo) : Prop := io.flush = true ∧ io.sync = true

theorem Ready.flusherTick (h : w.Ready cfg) (hio : FlusherSurvives io) : (asLog cfg).Same w (w.flusherTick io) := by
  unfold Wal.flusherTick
  split
  · exact .refl h
  · simpa only [hio.1, hio.2, Bool.true_eq_false, if_false] using h.flushBuffer

/-! ### Opening a log -/

/-- The newest segment, if there is one, holds a record. -/
def NewestHolds (dir : WalDir) : Prop := ∀ k seg, dir.last? = some (k, seg) → k < nextCursor k seg

theorem ofDir_ready {dir : WalDir} {pending : Nat} (hcfg : cfg.enabled = true)
    (hintact : ∀ p ∈ dir.entries, p.2.torn = false) (hlt : ∀ p ∈ dir.entries, p.1 < pending) :
    (ofDir cfg dir pending).Ready cfg :=
  ⟨rfl, hcfg, rfl, by simp [ofDir], hintact, fun _ => hlt, nofun⟩

theorem open_ready {dir : WalDir} (h : «open» cfg dir = .ok w) (hcfg : cfg.enabled = true)
    (hdir : NewestHolds dir) : w.Ready cfg := by
  have hintact : ∀ p ∈ (dir.map fun _ => Segment.recover).entries, p.2.torn = false := by
    intro p hp
    obtain ⟨q, -, rfl⟩ := List.mem_map.1 hp
    rfl
  unfold «open» at h
  split at h
  · cases h
  · cases hlast : (dir.map fun _ => Segment.recover).last? with
    | none =>
      simp only [hlast, Except.ok.injEq] at h
      subst h
      have hnil : (dir.map fun _ => Segment.recover).entries = [] := List.getLast?_eq_none_iff.1 hlast
      exact ofDir_ready hcfg hintact (by simp [hnil])
    | some p =>
      obtain ⟨k, seg⟩ := p
      have hnext : k < nextCursor k seg := by
        obtain ⟨⟨k', seg'⟩, hlast', heq⟩ := Option.map_eq_some_iff.1 ((List.getLast?_map ..).symm.trans hlast)
        cases heq
        exact hdir k' seg' hlast'
      have hlt : ∀ p ∈ (dir.map fun _ => Segment.recover).entries, p.1 < nextCursor k seg :=
        fun p hp => (SortedMap.le_of_last? hlast hp).trans_lt hnext
      have hcreate : Ends (createSegment (nextCursor k seg) .ok)
          (ofDir cfg (dir.map fun _ => Segment.recover) (nextCursor k seg)) _ _ :=
        createSegment_ends (ofDir_ready hcfg hintact hlt) rfl rfl
      simp only [hlast, if_neg hnext.ne'] at h
      rcases hcreate.cases with ⟨w', heq, hprep⟩ | ⟨w', e, heq, hkept⟩
      · rw [heq] at h
        cases h
        exact hprep.same.ready
      · exact absurd rfl hkept.fault

end Wal

end Mmbus
