import Mmbus.Codec
import Mmbus.Sessions

/-!
# The log in files of bytes

The v0.1 log once more, with the bytes of its files and of the buffer, on a file system that answers every call.  What
this log does the log of `Wal` does as well (`append_simulates`, `open_simulates`): its files hold the encoded records
(`Images`).
-/

namespace Mmbus.File

open Attempt ByteMemory

/-- The writer of the active segment.  `buffer` has not reached the file. -/
structure SegmentWriter where
  first : Nat
  buffer : Bytes
  pending : Nat
  bytesWritten : Nat

structure Wal where
  cfg : WalConfig
  files : SortedMap Nat Bytes
  segments : SortedMap Nat Unit
  segmentSizes : SortedMap Nat Nat
  activeBytes : Nat
  retainedBytes : Nat
  writer : Option SegmentWriter
  pendingCursor : Nat

namespace Wal

/-- `SegmentWriter::create` for the active segment, at the time `created` -/
def createSegment (first created : Nat) : Attempt WalError Wal := fun w =>
  if first ∈ w.files.keys then (w, .error .io)
  else
    ({ w with
      files := w.files.insert first (encodeSegmentHeader first created)
      segments := w.segments.insert first ()
      activeBytes := SEGMENT_HEADER_LEN
      writer := some ⟨first, [], first, SEGMENT_HEADER_LEN⟩ }, .ok ())

/-- `BufWriter::flush` -/
def flushBuffer (w : Wal) : Wal :=
  match w.writer with
  | some wr => { w with
      files := w.files.modify wr.first (· ++ wr.buffer)
      writer := some { wr with buffer := [] } }
  | none => w

/-- Deferred creation of the writer -/
def ensureWriter (cursor created : Nat) : Attempt WalError Wal := fun w =>
  match w.writer with
  | some _ => (w, .ok ())
  | none => createSegment cursor created w

/-- `SegmentWriter::close`, and the accounting of the closed segment -/
def closeWriter : Attempt WalError Wal := fun w =>
  match w.writer with
  | none => (w, .ok ())
  | some wr =>
    ({ w.flushBuffer with
      writer := none
      segmentSizes := w.segmentSizes.insert wr.first wr.bytesWritten
      retainedBytes := w.retainedBytes + wr.bytesWritten }, .ok ())

def rotateLocked (newFirst created : Nat) : Attempt WalError Wal := closeWriter.andThen (createSegment newFirst created)

/-- Rotate before a record that would exceed `segment_size_max`. -/
def rotateIfFull (r : Record) (created : Nat) : Attempt WalError Wal := fun w =>
  if w.cfg.segmentSizeMax < w.activeBytes + (RECORD_FRAMING + r.payload.length) then rotateLocked r.cursor created w
  else (w, .ok ())

/-- Bytes into the buffer -/
def buffered (bs : Bytes) (w : Wal) : Wal :=
  match w.writer with
  | some wr => { w with writer := some { wr with buffer := wr.buffer ++ bs } }
  | none => w

/-- Bytes into the file -/
def written (bs : Bytes) (w : Wal) : Wal :=
  match w.writer with
  | some wr => { w with files := w.files.modify wr.first (· ++ bs) }
  | none => w

/-- `BufWriter::write_all` -/
def writeAll (bs : Bytes) (w : Wal) : Wal :=
  match w.writer with
  | none => w
  | some wr =>
    let spare := BUF_CAPACITY - wr.buffer.length
    if bs.length < spare then w.buffered bs
    else
      let w := if spare < bs.length then w.flushBuffer else w
      if bs.length < BUF_CAPACITY then w.buffered bs else w.written bs

/-- The bookkeeping of the writer, and of the log, after the record of `len` bytes at `cursor` -/
def recorded (cursor len : Nat) (w : Wal) : Wal :=
  match w.writer with
  | some wr => { w with
      writer := some { wr with bytesWritten := wr.bytesWritten + len, pending := cursor + 1 }
      activeBytes := wr.bytesWritten + len
      pendingCursor := cursor + 1 }
  | none => w

section
variable (crc32c : Bytes → UInt32)

/-- `SegmentWriter::append` -/
def write (r : Record) : Attempt WalError Wal := fun w =>
  match w.writer with
  | none => (w, .error .io) -- not reached: the caller has made sure of a writer
  | some wr =>
    let scratch := encodeRecord crc32c r
    if r.cursor ≠ wr.pending then (w, .error (.cursorRegressed r.cursor wr.pending))
    else ((w.writeAll scratch).recorded r.cursor scratch.length, .ok ())

/-- The inline fsync of `FsyncPolicy::Each` -/
def syncEach : Attempt WalError Wal := fun w =>
  (if w.cfg.fsyncPolicy = .each then w.flushBuffer else w, .ok ())

/-- Delete the segment `k`. -/
def retire (k : Nat) (w : Wal) : Wal :=
  { w with
    files := w.files.erase k
    segments := w.segments.erase k
    segmentSizes := w.segmentSizes.erase k
    retainedBytes := w.retainedBytes - (w.segmentSizes.lookup k).getD 0 }

/-- `enforce_retention_locked`: each round deletes a segment, so as many rounds as there are segments are enough. -/
def enforceRetention : (rounds : Nat) → Wal → Wal
  | 0, w => w
  | rounds + 1, w =>
    if w.retainedBytes + w.activeBytes ≤ w.cfg.retentionBytes then w
    else
      match w.segments.keys.find? fun k => some k ≠ w.writer.map SegmentWriter.first with
      | some k => enforceRetention rounds (w.retire k)
      | none => w

/-- `Wal::append`, at the time `created` -/
def append (cursor ts : Nat) (payload : Bytes) (created : Nat) : Attempt WalError Wal := fun w =>
  let r : Record := ⟨cursor, ts, payload⟩
  if w.cfg.enabled = false then (w, .ok ())
  else if MAX_PAYLOAD_LEN < payload.length then (w, .error (.payloadTooLarge payload.length))
  else
    ((((ensureWriter cursor created).andThen (rotateIfFull r created)).andThen (write crc32c r)).andThen
      syncEach).andThen (fun w => (w.enforceRetention w.segments.keys.length, .ok ())) w

/-- The log over recovered files before its writer exists -/
def ofFiles (cfg : WalConfig) (files : SortedMap Nat Bytes) (pending : Nat) : Wal where
  cfg := cfg
  files := files
  segments := files.map fun _ _ => ()
  segmentSizes := files.map fun _ => List.length
  activeBytes := 0
  retainedBytes := (files.entries.map fun p => p.2.length).sum
  writer := none
  pendingCursor := pending

/-- `recover_truncate` on every file -/
def recoverFiles (files : SortedMap Nat Bytes) : Except WalError (SortedMap Nat Bytes) :=
  if files.entries.any fun p => (recoverTruncate crc32c p.2).toOption.isNone then .error .reader
  else .ok (files.map fun _ bytes => (recoverTruncate crc32c bytes).toOption.getD [])

/-- The cursor after the last record of the last segment -/
def nextCursor (lastFirst : Nat) (bytes : Bytes) : Except WalError Nat :=
  match FileReader.open bytes with
  | .ok rd => .ok (((rd.iter crc32c).getLast?.map fun r => r.cursor + 1).getD lastFirst)
  | .error _ => .error .reader

/-- `Wal::open`, at the time `created` -/
def «open» (cfg : WalConfig) (files : SortedMap Nat Bytes) (created : Nat) : Except WalError Wal :=
  match recoverFiles crc32c files with
  | .error e => .error e
  | .ok files =>
    match files.last? with
    | none => .ok (ofFiles cfg files 0)
    | some (lastFirst, bytes) =>
      match nextCursor crc32c lastFirst bytes with
      | .error e => .error e
      | .ok next =>
        if next = lastFirst then .ok (ofFiles cfg files lastFirst)
        else
          match createSegment next created (ofFiles cfg files next) with
          | (w, .ok _) => .ok w
          | (_, .error e) => .error e

end

/-- `Wal::fsync` -/
def fsync (w : Wal) : Wal := w.flushBuffer

/-- `Drop for Wal`: the files after the last flush -/
def drop (w : Wal) : SortedMap Nat Bytes := if w.cfg.enabled then w.fsync.files else w.files

end Wal

/-! ### The records in the bytes -/

section
variable (crc32c : Bytes → UInt32)

/-- The files with the records of `dir`, made at the times `created` -/
def encodeDir (created : Nat → Nat) (dir : WalDir) : SortedMap Nat Bytes :=
  dir.map fun k s => encodeSegment crc32c k (created k) s.records

/-- The segment files have complete headers and whole records. -/
def Plain (dir : WalDir) : Prop :=
  ∀ p ∈ dir.entries, p.2.header = true ∧ p.2.torn = false ∧ ∀ r ∈ p.2.records, r.WellFormed

/-- The writer with the bytes of its buffer -/
def encodeWriter (wr : Mmbus.SegmentWriter) : SegmentWriter :=
  ⟨wr.first, encodeRecords crc32c wr.buffer, wr.pending, wr.bytesWritten⟩

/-- The log `fw` holds, in bytes, what `w` holds in records. -/
structure Images (fw : Wal) (w : Mmbus.Wal) : Prop where
  cfg : fw.cfg = w.cfg
  files : ∃ created, fw.files = encodeDir crc32c created w.dir
  segments : fw.segments = w.segments
  segmentSizes : fw.segmentSizes = w.segmentSizes
  activeBytes : fw.activeBytes = w.activeBytes
  retainedBytes : fw.retainedBytes = w.retainedBytes
  writer : fw.writer = w.writer.map (encodeWriter crc32c)
  pendingCursor : fw.pendingCursor = w.pendingCursor
  healthy : w.poisoned = false
  plain : Plain w.dir
  buffered : ∀ wr, w.writer = some wr → ∀ r ∈ wr.buffer, r.WellFormed

end

variable {crc32c : Bytes → UInt32} {fw fw' : Wal} {w : Mmbus.Wal} {wr : Mmbus.SegmentWriter} {r : Record}

theorem Images.keys (h : Images crc32c fw w) : fw.files.keys = w.dir.keys := by
  obtain ⟨created, hfiles⟩ := h.files
  rw [hfiles, encodeDir, SortedMap.keys_map]

theorem plain_insert {dir : WalDir} (h : Plain dir) (k : Nat) : Plain (dir.insert k .empty) := by
  intro p hp
  rcases SortedMap.mem_insertEntry hp with rfl | hp
  · exact ⟨rfl, rfl, nofun⟩
  · exact h p hp

theorem encodeDir_insert {dir : WalDir} {created : Nat → Nat} {k : Nat} (hk : k ∉ dir.keys) (now : Nat) :
    (encodeDir crc32c created dir).insert k (encodeSegmentHeader k now) =
      encodeDir crc32c (Function.update created k now) (dir.insert k .empty) := by
  have hold : encodeDir crc32c created dir = encodeDir crc32c (Function.update created k now) dir := by
    refine SortedMap.map_congr fun p hp => ?_
    have hne : p.1 ≠ k := by
      rintro rfl
      exact hk (SortedMap.mem_keys.2 ⟨p.2, hp⟩)
    rw [Function.update_of_ne hne]
  rw [hold, encodeDir, encodeDir, SortedMap.map_insert]
  simp [encodeSegment, Segment.empty]

theorem createSegment_simulates {first now : Nat} : Simulates (Images crc32c) (Images crc32c) (Wal.createSegment first now)
    (Mmbus.Wal.createSegment first .ok) := by
  intro fw w fw' h hs
  unfold Wal.createSegment at hs
  split at hs
  · cases hs
  · rename_i hnew
    cases hs
    have hkeys : first ∉ w.dir.keys := h.keys ▸ hnew
    obtain ⟨created, hfiles⟩ := h.files
    have hcreate : Mmbus.Wal.createSegment first .ok w = ({ w with
        dir := w.dir.insert first .empty
        segments := w.segments.insert first ()
        activeBytes := SEGMENT_HEADER_LEN
        writer := some ⟨first, [], first, SEGMENT_HEADER_LEN⟩ }, .ok ()) := by
      simp only [Mmbus.Wal.createSegment, hkeys, show WalIo.ok.createNew = true from rfl,
        show WalIo.ok.header = true from rfl, Bool.true_eq_false, or_self, if_false]
    refine ⟨_, hcreate, h.cfg, ⟨Function.update created first now, ?_⟩, ?_, h.segmentSizes, rfl, h.retainedBytes, rfl,
      h.pendingCursor, h.healthy, plain_insert h.plain first, ?_⟩
    · simp only [hfiles, encodeDir_insert hkeys]
    · simp only [h.segments]
    · rintro wr' ⟨⟩
      exact List.forall_mem_nil _

theorem encodeDir_modify {dir : WalDir} (hdir : Plain dir) (created : Nat → Nat) (k : Nat) (rs : List Record) :
    (encodeDir crc32c created dir).modify k (· ++ encodeRecords crc32c rs) =
      encodeDir crc32c created (dir.modify k (Segment.append rs)) := by
  rw [encodeDir, encodeDir]
  refine (SortedMap.map_modify k fun s hs => ?_).symm
  rw [Segment.append_of_intact (hdir (k, s) hs).2.1, encodeSegment, encodeSegment, encodeRecords_append,
    List.append_assoc]

theorem Plain.modify {dir : WalDir} (h : Plain dir) (k : Nat) {rs : List Record} (hrs : ∀ r ∈ rs, r.WellFormed) :
    Plain (dir.modify k (Segment.append rs)) := by
  intro p hp
  obtain ⟨q, hq, rfl⟩ := List.mem_map.1 hp
  obtain ⟨hheader, htorn, hrecords⟩ := h q hq
  by_cases hk : q.1 = k
  · simp only [hk, if_true, Segment.append_of_intact htorn]
    refine ⟨hheader, htorn, fun r hr => ?_⟩
    rcases List.mem_append.1 hr with hr | hr
    · exact hrecords r hr
    · exact hrs r hr
  · simp only [hk, if_false]
    exact ⟨hheader, htorn, hrecords⟩

theorem Images.writer_none (h : Images crc32c fw w) (hw : fw.writer = none) : w.writer = none := by
  simpa [h.writer] using hw

theorem Images.writer_some (h : Images crc32c fw w) {fwr : SegmentWriter} (hw : fw.writer = some fwr) :
    ∃ wr, w.writer = some wr ∧ fwr = encodeWriter crc32c wr := by
  rw [h.writer] at hw
  obtain ⟨wr, hwr, heq⟩ := Option.map_eq_some_iff.1 hw
  exact ⟨wr, hwr, heq.symm⟩

theorem Images.flushBuffer (h : Images crc32c fw w) : Images crc32c fw.flushBuffer w.flushBuffer := by
  cases hw : w.writer with
  | none =>
    have hfw : fw.writer = none := by rw [h.writer, hw, Option.map_none]
    simpa only [Wal.flushBuffer, Mmbus.Wal.flushBuffer, hfw, hw] using h
  | some wr =>
    have hfw : fw.writer = some (encodeWriter crc32c wr) := by rw [h.writer, hw, Option.map_some]
    obtain ⟨created, hfiles⟩ := h.files
    simp only [Wal.flushBuffer, Mmbus.Wal.flushBuffer, hfw, hw, Mmbus.Wal.moveBuffer_some hw, List.take_length,
      List.drop_length]
    refine ⟨h.cfg, ⟨created, ?_⟩, h.segments, h.segmentSizes, h.activeBytes, h.retainedBytes, rfl, h.pendingCursor,
      h.healthy, h.plain.modify wr.first (h.buffered wr hw), ?_⟩
    · rw [hfiles, ← encodeDir_modify h.plain]
      rfl
    · rintro wr' ⟨⟩
      exact List.forall_mem_nil _

theorem ensureWriter_simulates {cursor now : Nat} : Simulates (Images crc32c) (Images crc32c) (Wal.ensureWriter cursor now)
    (Mmbus.Wal.ensureWriter cursor .ok) := by
  intro fw w fw' h hs
  unfold Wal.ensureWriter at hs
  split at hs
  · rename_i fwr hfw
    cases hs
    obtain ⟨wr, hw, -⟩ := h.writer_some hfw
    exact ⟨w, by simp only [Mmbus.Wal.ensureWriter, hw], h⟩
  · rename_i hfw
    obtain ⟨w', hw', himages⟩ := createSegment_simulates fw w fw' h hs
    exact ⟨w', by simpa only [Mmbus.Wal.ensureWriter, h.writer_none hfw] using hw', himages⟩

theorem closeWriter_simulates : Simulates (Images crc32c) (Images crc32c) Wal.closeWriter (Mmbus.Wal.closeWriter .ok) := by
  intro fw w fw' h hs
  unfold Wal.closeWriter at hs
  split at hs
  · rename_i hfw
    cases hs
    exact ⟨w, by simp only [Mmbus.Wal.closeWriter, h.writer_none hfw], h⟩
  · rename_i fwr hfw
    cases hs
    obtain ⟨wr, hw, rfl⟩ := h.writer_some hfw
    have hf := h.flushBuffer
    have hclose : Mmbus.Wal.closeWriter .ok w = ({ w.flushBuffer with
        writer := none
        segmentSizes := w.segmentSizes.insert wr.first wr.bytesWritten
        retainedBytes := w.retainedBytes + wr.bytesWritten }, .ok ()) := by
      simp only [Mmbus.Wal.closeWriter, hw, show WalIo.ok.closeFlush = true from rfl,
        show WalIo.ok.closeSync = true from rfl, Bool.true_eq_false, if_false]
    refine ⟨_, hclose, hf.cfg, hf.files, hf.segments, ?_, hf.activeBytes, ?_, rfl, hf.pendingCursor, hf.healthy, hf.plain,
      fun _ h => by cases h⟩
    · simp only [h.segmentSizes, encodeWriter]
    · simp only [h.retainedBytes, encodeWriter]

theorem rotateIfFull_simulates {now : Nat} : Simulates (Images crc32c) (Images crc32c) (Wal.rotateIfFull r now)
    (Mmbus.Wal.rotateIfFull r .ok) := by
  intro fw w fw' h hs
  have hlen : RECORD_FRAMING + r.payload.length = r.len := rfl
  unfold Wal.rotateIfFull at hs
  rw [h.cfg, h.activeBytes, hlen] at hs
  split at hs
  · rename_i hfull
    obtain ⟨w', hw', himages⟩ := closeWriter_simulates.andThen createSegment_simulates fw w fw' h hs
    exact ⟨w', by rwa [Mmbus.Wal.rotateIfFull, if_pos hfull], himages⟩
  · rename_i hfull
    cases hs
    exact ⟨w, by rw [Mmbus.Wal.rotateIfFull, if_neg hfull], h⟩

/-! ### Writing a record -/

theorem Images.buffered' (h : Images crc32c fw w) (hr : r.WellFormed) (hw : w.writer = some wr) :
    Images crc32c ((fw.buffered (encodeRecord crc32c r)).recorded r.cursor r.len) ((w.buffered r).recorded r) := by
  have hfw : fw.writer = some (encodeWriter crc32c wr) := by rw [h.writer, hw, Option.map_some]
  simp only [Wal.buffered, Mmbus.Wal.buffered, Wal.recorded, Mmbus.Wal.recorded, hfw, hw]
  refine ⟨h.cfg, h.files, h.segments, h.segmentSizes, rfl, h.retainedBytes, ?_, rfl, h.healthy, h.plain, ?_⟩
  · simp only [encodeWriter, Option.map_some, encodeRecords_append, encodeRecords_cons, encodeRecords_nil, List.append_nil]
  · rintro wr' ⟨⟩ q hq
    rcases List.mem_append.1 hq with hq | hq
    · exact h.buffered wr hw q hq
    · exact List.mem_singleton.1 hq ▸ hr

theorem Images.written (h : Images crc32c fw w) (hr : r.WellFormed) (hw : w.writer = some wr) :
    Images crc32c ((fw.written (encodeRecord crc32c r)).recorded r.cursor r.len) ((w.written r).recorded r) := by
  have hfw : fw.writer = some (encodeWriter crc32c wr) := by rw [h.writer, hw, Option.map_some]
  obtain ⟨created, hfiles⟩ := h.files
  have hone : encodeRecord crc32c r = encodeRecords crc32c [r] := by
    rw [encodeRecords_cons, encodeRecords_nil, List.append_nil]
  simp only [Wal.written, Mmbus.Wal.written, Wal.recorded, Mmbus.Wal.recorded, hfw, hw]
  refine ⟨h.cfg, ⟨created, ?_⟩, h.segments, h.segmentSizes, rfl, h.retainedBytes, rfl, rfl, h.healthy,
    h.plain.modify wr.first (by simpa using hr), ?_⟩
  · rw [hfiles, hone, ← encodeDir_modify h.plain]
    rfl
  · rintro wr' ⟨⟩
    exact h.buffered wr hw

theorem write_simulates (hr : r.WellFormed) : Simulates (Images crc32c) (Images crc32c) (Wal.write crc32c r) (Mmbus.Wal.write r .ok) := by
  intro fw w fw' h hs
  unfold Wal.write at hs
  split at hs
  · cases hs
  · rename_i fwr hfw
    obtain ⟨wr, hw, rfl⟩ := h.writer_some hfw
    have hlen : (encodeRecords crc32c wr.buffer).length = (wr.buffer.map Record.len).sum := length_encodeRecords ..
    simp only [encodeWriter, length_encodeRecord] at hs
    split at hs
    · cases hs
    · rename_i hcursor
      cases hs
      simp only [Mmbus.Wal.write, hw, hcursor, if_false, Wal.writeAll, hfw, encodeWriter, length_encodeRecord, hlen]
      by_cases hspare : r.len < BUF_CAPACITY - (wr.buffer.map Record.len).sum
      · simp only [if_pos hspare]
        exact ⟨_, rfl, h.buffered' hr hw⟩
      · simp only [if_neg hspare, Mmbus.Wal.writeAllCold, show WalIo.ok.drain = true from rfl,
          show WalIo.ok.direct = true from rfl, Bool.true_eq_false, and_false, if_false]
        -- the log before the record is written, its buffer emptied if the record does not fit
        obtain ⟨fw₁, w₁, hfw₁, hw₁, h₁, wr₁, hsome⟩ : ∃ fw₁ w₁,
            (if BUF_CAPACITY - (wr.buffer.map Record.len).sum < r.len then fw.flushBuffer else fw) = fw₁ ∧
            (if BUF_CAPACITY - (wr.buffer.map Record.len).sum < r.len then w.flushBuffer else w) = w₁ ∧
            Images crc32c fw₁ w₁ ∧ ∃ wr₁, w₁.writer = some wr₁ := by
          by_cases hlt : BUF_CAPACITY - (wr.buffer.map Record.len).sum < r.len
          · exact ⟨_, _, if_pos hlt, if_pos hlt, h.flushBuffer, _, by rw [Mmbus.Wal.flushBuffer_writer, hw]; rfl⟩
          · exact ⟨_, _, if_neg hlt, if_neg hlt, h, wr, hw⟩
        rw [hfw₁, hw₁]
        by_cases hsmall : r.len < BUF_CAPACITY
        · simp only [if_pos hsmall]
          exact ⟨_, rfl, h₁.buffered' hr hsome⟩
        · simp only [if_neg hsmall]
          exact ⟨_, rfl, h₁.written hr hsome⟩

theorem syncEach_simulates : Simulates (Images crc32c) (Images crc32c) Wal.syncEach (Mmbus.Wal.syncEach .ok) := by
  intro fw w fw' h hs
  cases hs
  rw [h.cfg]
  by_cases heach : w.cfg.fsyncPolicy = .each
  · simp only [if_pos heach, Mmbus.Wal.syncEach, show WalIo.ok.flush = true from rfl, show WalIo.ok.sync = true from rfl,
      Bool.true_eq_false, if_false]
    exact ⟨_, rfl, h.flushBuffer⟩
  · simp only [if_neg heach, Mmbus.Wal.syncEach]
    exact ⟨_, rfl, h⟩

theorem Images.retire (h : Images crc32c fw w) (k : Nat) : Images crc32c (fw.retire k) (w.retire k) := by
  obtain ⟨created, hfiles⟩ := h.files
  refine ⟨h.cfg, ⟨created, ?_⟩, ?_, ?_, h.activeBytes, ?_, h.writer, h.pendingCursor, h.healthy, ?_, h.buffered⟩
  · simp only [Wal.retire, Mmbus.Wal.retire, hfiles, encodeDir, SortedMap.map_erase]
  · simp only [Wal.retire, Mmbus.Wal.retire, h.segments]
  · simp only [Wal.retire, Mmbus.Wal.retire, h.segmentSizes]
  · simp only [Wal.retire, Mmbus.Wal.retire, h.retainedBytes, h.segmentSizes]
  · exact fun p hp => h.plain p (List.mem_of_mem_filter hp)

theorem Images.enforceRetention {rounds : Nat} (h : Images crc32c fw w) :
    Images crc32c (fw.enforceRetention rounds) (w.enforceRetention rounds) := by
  induction rounds generalizing fw w with
  | zero => exact h
  | succ rounds ih =>
    have hwriter : fw.writer.map SegmentWriter.first = w.writer.map Mmbus.SegmentWriter.first := by
      rw [h.writer, Option.map_map]
      rfl
    unfold Wal.enforceRetention Mmbus.Wal.enforceRetention
    rw [h.cfg, h.activeBytes, h.retainedBytes, h.segments, hwriter]
    by_cases hle : w.retainedBytes + w.activeBytes ≤ w.cfg.retentionBytes
    · rw [if_pos hle, if_pos hle]
      exact h
    · rw [if_neg hle, if_neg hle]
      cases w.segments.keys.find? fun k => some k ≠ w.writer.map Mmbus.SegmentWriter.first with
      | none => exact h
      | some k => exact ih (h.retire k)

/-- A successful append -/
theorem append_simulates {cursor ts now : Nat} {payload : Bytes} (hcursor : cursor < 2 ^ 64) (hts : ts < 2 ^ 64) :
    Simulates (Images crc32c) (Images crc32c) (Wal.append crc32c cursor ts payload now) (Mmbus.Wal.append cursor ts payload .ok) := by
  intro fw w fw' h hs
  unfold Wal.append at hs
  rw [h.cfg] at hs
  unfold Mmbus.Wal.append
  split at hs
  · rename_i hdisabled
    cases hs
    exact ⟨w, by rw [if_pos hdisabled], h⟩
  · rename_i henabled
    split at hs
    · cases hs
    · rename_i hlen
      have hr : Record.WellFormed ⟨cursor, ts, payload⟩ := ⟨hcursor, hts, not_lt.1 hlen⟩
      have hretention : Simulates (Images crc32c) (Images crc32c) (fun w => (w.enforceRetention w.segments.keys.length, .ok ()))
          (fun w => (w.enforceRetention w.segments.keys.length, (.ok () : Except WalError Unit))) := by
        intro fw w fw' h hs
        cases hs
        exact ⟨_, rfl, by rw [h.segments]; exact h.enforceRetention⟩
      have hchain := (((ensureWriter_simulates.andThen rotateIfFull_simulates).andThen (write_simulates hr)).andThen
        syncEach_simulates).andThen hretention fw w fw' h hs
      simp only [if_neg henabled, if_neg hlen, h.healthy, Bool.false_eq_true, if_false]
      exact hchain

/-! ### Opening the log -/

theorem recoverFiles_encode {dir : WalDir} (hdir : Plain dir) (created : Nat → Nat) :
    Wal.recoverFiles crc32c (encodeDir crc32c created dir) = .ok (encodeDir crc32c created dir) := by
  have hrecover : ∀ p ∈ dir.entries, recoverTruncate crc32c (encodeSegment crc32c p.1 (created p.1) p.2.records) =
      .ok (encodeSegment crc32c p.1 (created p.1) p.2.records) := fun p hp => recoverTruncate_encode (hdir p hp).2.2
  have hany : ((encodeDir crc32c created dir).entries.any
      fun p => (recoverTruncate crc32c p.2).toOption.isNone) = false := by
    rw [List.any_eq_false]
    intro q hq
    obtain ⟨p, hp, rfl⟩ := List.mem_map.1 hq
    simp [hrecover p hp, Except.toOption]
  rw [Wal.recoverFiles, if_neg (by simp [hany]), encodeDir, SortedMap.map_map]
  refine congrArg Except.ok (SortedMap.map_congr fun p hp => ?_)
  rw [hrecover p hp]
  rfl

theorem Plain.recover {dir : WalDir} (h : Plain dir) : dir.map (fun _ => Segment.recover) = dir := by
  refine SortedMap.map_eq_self fun p hp => ?_
  have htorn := (h p hp).2.1
  cases hseg : p.2
  simp_all [Segment.recover]

theorem ofFiles_images {cfg : WalConfig} {dir : WalDir} {pending : Nat} (hdir : Plain dir) (created : Nat → Nat) :
    Images crc32c (Wal.ofFiles cfg (encodeDir crc32c created dir) pending) (Mmbus.Wal.ofDir cfg dir pending) := by
  have hlen : ∀ p ∈ dir.entries, (encodeSegment crc32c p.1 (created p.1) p.2.records).length = p.2.len := by
    intro p _
    rw [encodeSegment, List.length_append, length_encodeSegmentHeader, length_encodeRecords, Segment.len]
  refine ⟨rfl, ⟨created, rfl⟩, ?_, ?_, rfl, ?_, rfl, rfl, rfl, hdir, fun _ h => by cases h⟩
  · simp only [Wal.ofFiles, Mmbus.Wal.ofDir, encodeDir, SortedMap.map_map]
  · simp only [Wal.ofFiles, Mmbus.Wal.ofDir, encodeDir, SortedMap.map_map]
    exact SortedMap.map_congr hlen
  · simp only [Wal.ofFiles, Mmbus.Wal.ofDir, encodeDir, SortedMap.map, List.map_map]
    exact congrArg List.sum (List.map_congr_left hlen)

theorem nextCursor_encode {k now : Nat} {seg : Segment} (h : ∀ r ∈ seg.records, r.WellFormed) :
    Wal.nextCursor crc32c k (encodeSegment crc32c k now seg.records) = .ok (Mmbus.Wal.nextCursor k seg) := by
  have hbefore : (⟨encodeSegment crc32c k now seg.records, SEGMENT_HEADER_LEN, false⟩ : FileReader).Before crc32c
      seg.records := FileReader.before_open h
  rw [Wal.nextCursor, FileReader.open_encode]
  simp only [hbefore.iter, Mmbus.Wal.nextCursor]

/-- A successful open -/
theorem open_simulates {cfg : WalConfig} {dir : WalDir} {created : Nat → Nat} {now : Nat} (hdir : Plain dir)
    (hs : Wal.open crc32c cfg (encodeDir crc32c created dir) now = .ok fw) :
    ∃ w, Mmbus.Wal.open cfg dir = .ok w ∧ Images crc32c fw w := by
  have hany : (dir.entries.any fun p => !p.2.header) = false := by
    simpa [List.any_eq_false] using fun k seg hp => (hdir (k, seg) hp).1
  unfold Wal.open at hs
  rw [recoverFiles_encode hdir] at hs
  simp only [encodeDir, SortedMap.last?_map] at hs
  simp only [Mmbus.Wal.open, hany, Bool.false_eq_true, if_false, hdir.recover]
  cases hlast : dir.last? with
  | none =>
    simp only [hlast, Option.map_none, Except.ok.injEq] at hs
    exact ⟨_, rfl, hs ▸ ofFiles_images hdir created⟩
  | some p =>
    obtain ⟨k, seg⟩ := p
    have hmem : (k, seg) ∈ dir.entries := by
      obtain ⟨closed, hentries⟩ := SortedMap.last?_eq_some hlast
      simp [hentries]
    simp only [hlast, Option.map_some, nextCursor_encode (hdir _ hmem).2.2] at hs
    split at hs
    · rename_i heq
      cases hs
      exact ⟨_, by simp only [if_pos heq], ofFiles_images hdir created⟩
    · rename_i hne
      split at hs
      · rename_i w₁ _ hcreate
        cases hs
        obtain ⟨w, hw, himages⟩ := createSegment_simulates _ _ _ (ofFiles_images hdir created) hcreate
        exact ⟨w, by simp only [if_neg hne, hw], himages⟩
      · cases hs

end Mmbus.File
