import Mmbus.WalV2

/-!
# Logs up to their timestamps

A log whose timestamps are all set to zero, and that an append does to it what it does to the log itself
(`Wal.append_untimed`, `V2.Wal.append_untimed`): the time of a record decides nothing.
-/

namespace Mmbus

open Attempt

def Record.untimed (r : Record) : Record := { r with ts := 0 }

@[simp] theorem Record.len_untimed (r : Record) : r.untimed.len = r.len := rfl

@[simp] theorem Record.cursor_untimed (r : Record) : r.untimed.cursor = r.cursor := rfl

/-! ### The v0.1 log -/

def Segment.untimed (s : Segment) : Segment := { s with records := s.records.map Record.untimed }

def SegmentWriter.untimed (wr : SegmentWriter) : SegmentWriter := { wr with buffer := wr.buffer.map Record.untimed }

namespace Wal

def untimed (w : Wal) : Wal :=
  { w with
    dir := w.dir.map fun _ => Segment.untimed
    writer := w.writer.map SegmentWriter.untimed
    retired := w.retired.map Record.untimed }

@[simp] theorem untimed_cfg (w : Wal) : w.untimed.cfg = w.cfg := rfl

@[simp] theorem untimed_activeBytes (w : Wal) : w.untimed.activeBytes = w.activeBytes := rfl

@[simp] theorem untimed_retainedBytes (w : Wal) : w.untimed.retainedBytes = w.retainedBytes := rfl

@[simp] theorem untimed_segments (w : Wal) : w.untimed.segments = w.segments := rfl

@[simp] theorem untimed_poisoned (w : Wal) : w.untimed.poisoned = w.poisoned := rfl

theorem untimed_append (rs : List Record) (s : Segment) :
    (s.append rs).untimed = s.untimed.append (rs.map Record.untimed) := by
  unfold Segment.append
  split
  · rename_i h
    rw [if_pos (show s.untimed.torn = true from h)]
  · rename_i h
    rw [if_neg (show ¬s.untimed.torn = true from h)]
    simp [Segment.untimed]

theorem untimed_modify (dir : WalDir) (k : Nat) (rs : List Record) :
    ((dir.modify k (Segment.append rs)).map fun _ => Segment.untimed) =
      (dir.map fun _ => Segment.untimed).modify k (Segment.append (rs.map Record.untimed)) :=
  SortedMap.map_modify k fun s _ => untimed_append rs s

theorem createSegment_untimed (first : Nat) (io : WalIo) : Lifts untimed (createSegment first io) (createSegment first io) := by
  intro w
  unfold createSegment
  rw [show w.untimed.dir = w.dir.map fun _ => Segment.untimed from rfl, SortedMap.keys_map]
  split_ifs
  · rfl
  · simp only [untimed, Prod.map, SortedMap.map_insert]
    rfl
  · simp only [untimed, Prod.map, SortedMap.map_insert]
    rfl

theorem moveBuffer_untimed (n : Nat) (w : Wal) : w.untimed.moveBuffer n = (w.moveBuffer n).untimed := by
  cases hw : w.writer with
  | none => simp [moveBuffer, untimed, hw]
  | some wr => simp [moveBuffer, untimed, hw, SegmentWriter.untimed, untimed_modify, List.map_take, List.map_drop]

theorem flushBuffer_untimed (w : Wal) : w.untimed.flushBuffer = w.flushBuffer.untimed := by
  cases hw : w.writer with
  | none => simp [flushBuffer, untimed, hw]
  | some wr =>
    have hsome : w.untimed.writer = some wr.untimed := by simp [untimed, hw]
    rw [flushBuffer, hsome, flushBuffer, hw]
    simp only [SegmentWriter.untimed, List.length_map]
    exact moveBuffer_untimed ..

theorem tear_untimed (w : Wal) : w.untimed.tear = w.tear.untimed := by
  cases hw : w.writer with
  | none => simp [tear, untimed, hw]
  | some wr =>
    simp only [tear, untimed, hw, Option.map_some]
    have hmodify : ((w.dir.modify wr.first Segment.tear).map fun _ => Segment.untimed) =
        (w.dir.map fun _ => Segment.untimed).modify wr.first Segment.tear := SortedMap.map_modify _ fun _ _ => rfl
    rw [hmodify]
    rfl

theorem ensureWriter_untimed (cursor : Nat) (io : WalIo) : Lifts untimed (ensureWriter cursor io) (ensureWriter cursor io) := by
  intro w
  cases hw : w.writer with
  | none => simpa [ensureWriter, untimed, hw] using createSegment_untimed cursor io w
  | some wr => simp [ensureWriter, untimed, hw]

theorem closeWriter_untimed (io : WalIo) : Lifts untimed (closeWriter io) (closeWriter io) := by
  intro w
  cases hw : w.writer with
  | none => simp [closeWriter, untimed, hw]
  | some wr =>
    have hsome : w.untimed.writer = some wr.untimed := by simp [untimed, hw]
    simp only [closeWriter, hw, hsome, flushBuffer_untimed, moveBuffer_untimed]
    split_ifs
    · rfl
    · rw [tear_untimed]
      rfl
    · rfl
    · rfl
    · rfl

theorem rotateIfFull_untimed (r : Record) (io : WalIo) : Lifts untimed (rotateIfFull r io) (rotateIfFull r.untimed io) := by
  intro w
  unfold rotateIfFull
  by_cases hfull : w.cfg.segmentSizeMax < w.activeBytes + r.len
  · rw [if_pos hfull, if_pos (show w.untimed.cfg.segmentSizeMax < w.untimed.activeBytes + r.untimed.len from hfull)]
    exact ((closeWriter_untimed io).andThen (createSegment_untimed r.cursor io)) w
  · rw [if_neg hfull, if_neg (show ¬w.untimed.cfg.segmentSizeMax < w.untimed.activeBytes + r.untimed.len from hfull)]
    rfl

theorem buffered_recorded_untimed (r : Record) (w : Wal) :
    (w.untimed.buffered r.untimed).recorded r.untimed = ((w.buffered r).recorded r).untimed := by
  cases hw : w.writer with
  | none => simp [buffered, recorded, untimed, hw]
  | some wr => simp [buffered, recorded, untimed, hw, SegmentWriter.untimed, Record.untimed, Record.len]

theorem written_recorded_untimed (r : Record) (w : Wal) :
    (w.untimed.written r.untimed).recorded r.untimed = ((w.written r).recorded r).untimed := by
  cases hw : w.writer with
  | none => simp [written, recorded, untimed, hw]
  | some wr => simp [written, recorded, untimed, hw, SegmentWriter.untimed, Record.untimed, Record.len, untimed_modify]

theorem writeAllCold_untimed (spare : Nat) (r : Record) (io : WalIo) :
    Lifts untimed (writeAllCold spare r io) (writeAllCold spare r.untimed io) := by
  intro w
  simp only [writeAllCold, Record.len_untimed, moveBuffer_untimed, flushBuffer_untimed]
  split_ifs <;> first
    | rfl
    | simp only [buffered_recorded_untimed, written_recorded_untimed, tear_untimed]; rfl

theorem write_untimed (r : Record) (io : WalIo) : Lifts untimed (write r io) (write r.untimed io) := by
  intro w
  cases hw : w.writer with
  | none => simp [write, untimed, hw]
  | some wr =>
    have hsome : w.untimed.writer = some wr.untimed := by simp [untimed, hw]
    have hlen : (wr.untimed.buffer.map Record.len).sum = (wr.buffer.map Record.len).sum := by
      simp only [SegmentWriter.untimed, List.map_map]
      rfl
    simp only [write, hw, hsome, hlen, Record.len_untimed, buffered_recorded_untimed]
    rw [show wr.untimed.pending = wr.pending from rfl, show r.untimed.cursor = r.cursor from rfl]
    split_ifs
    · rfl
    · rfl
    · exact writeAllCold_untimed _ r io w

theorem syncEach_untimed (io : WalIo) : Lifts untimed (syncEach io) (syncEach io) := by
  intro w
  simp only [syncEach, moveBuffer_untimed, flushBuffer_untimed]
  rw [untimed_cfg]
  split_ifs <;> rfl

theorem retire_untimed (k : Nat) (w : Wal) : w.untimed.retire k = (w.retire k).untimed := by
  simp only [retire, untimed, SortedMap.map_erase, SortedMap.lookup_map, List.map_append, Wal.mk.injEq, true_and]
  cases w.dir.lookup k <;> rfl

theorem enforceRetention_untimed (rounds : Nat) (w : Wal) :
    w.untimed.enforceRetention rounds = (w.enforceRetention rounds).untimed := by
  induction rounds generalizing w with
  | zero => rfl
  | succ rounds ih =>
    have hwriter : w.untimed.writer.map SegmentWriter.first = w.writer.map SegmentWriter.first := by
      simp only [untimed, Option.map_map]
      rfl
    simp only [enforceRetention, hwriter, untimed_cfg, untimed_activeBytes, untimed_retainedBytes, untimed_segments]
    split
    · rfl
    · split
      · rw [retire_untimed, ih]
      · rfl

/-- What an append does to a log without times -/
theorem append_untimed (cursor ts : Nat) (payload : Bytes) (io : WalIo) :
    Lifts untimed (append cursor ts payload io) (append cursor 0 payload io) := by
  intro w
  unfold append
  by_cases henabled : w.cfg.enabled = false
  · rw [if_pos henabled, if_pos (show w.untimed.cfg.enabled = false from henabled)]
    rfl
  rw [if_neg henabled, if_neg (show ¬w.untimed.cfg.enabled = false from henabled)]
  by_cases hlength : MAX_PAYLOAD_LEN < payload.length
  · rw [if_pos hlength, if_pos hlength]
    rfl
  rw [if_neg hlength, if_neg hlength]
  by_cases hpoisoned : w.poisoned = true
  · rw [if_pos hpoisoned, if_pos (show w.untimed.poisoned = true from hpoisoned)]
    rfl
  · rw [if_neg hpoisoned, if_neg (show ¬w.untimed.poisoned = true from hpoisoned)]
    refine (((((ensureWriter_untimed cursor io).andThen (rotateIfFull_untimed ⟨cursor, ts, payload⟩ io)).andThen
      (write_untimed ⟨cursor, ts, payload⟩ io)).andThen (syncEach_untimed io)).andThen ?_) w
    intro w
    simp only [untimed_segments, enforceRetention_untimed]
    rfl

end Wal

/-! ### The v0.2 log -/

namespace V2

def Segment.untimed (s : Segment) : Segment := { s with records := s.records.map Record.untimed }

theorem recordBytes_untimed (r : Record) : recordBytes r.untimed = recordBytes r := rfl

theorem Segment.append_untimed (r : Record) (s : Segment) :
    s.untimed.append r.untimed = (s.append r).map Segment.untimed := by
  unfold Segment.append
  by_cases hfull : s.size < s.tail + recordBytes r
  · rw [if_pos hfull, if_pos (show s.untimed.size < s.untimed.tail + recordBytes r.untimed from hfull)]
    rfl
  · rw [if_neg hfull, if_neg (show ¬s.untimed.size < s.untimed.tail + recordBytes r.untimed from hfull)]
    simp [Segment.untimed, recordBytes_untimed]

namespace Wal

def untimed (w : Wal) : Wal :=
  { w with dir := w.dir.map fun _ => Segment.untimed, retired := w.retired.map Record.untimed }

theorem untimed_dir (w : Wal) : w.untimed.dir = w.dir.map fun _ => Segment.untimed := rfl

theorem createFile_untimed (first : Nat) (io : WalIo) : Lifts untimed (createFile first io) (createFile first io) := by
  intro w
  unfold createFile
  rw [untimed_dir, SortedMap.keys_map, show w.untimed.cfg = w.cfg from rfl]
  split_ifs
  · rfl
  · rfl
  · simp only [untimed, Prod.map, SortedMap.map_insert]
    rfl
  · simp only [addFile, untimed, Prod.map, SortedMap.map_insert]
    rfl

theorem storeActive_untimed (first : Nat) (answer : Bool) :
    Lifts untimed (storeActive first answer) (storeActive first answer) := fun _ => rfl

theorem createDeferred_untimed (first : Nat) (io : WalIo) :
    Lifts untimed (createDeferred first io) (createDeferred first io) :=
  ((createFile_untimed first io).andThen fun _ => rfl).andThen (storeActive_untimed first io.storeFirst)

theorem closeWriter_untimed (first : Nat) (w : Wal) : w.untimed.closeWriter first = (w.closeWriter first).untimed := by
  simp only [closeWriter, untimed, Wal.mk.injEq, true_and, and_true]
  refine (SortedMap.map_modify first fun s _ => ?_).symm
  unfold Segment.writeSkipToEnd
  by_cases hfull : s.size < s.tail + 4
  · rw [if_pos hfull, if_pos (show s.untimed.size < s.untimed.tail + 4 from hfull)]
  · rw [if_neg hfull, if_neg (show ¬s.untimed.size < s.untimed.tail + 4 from hfull)]
    rfl

theorem tail_untimed (w : Wal) (first : Nat) :
    (w.untimed.dir.lookup first).elim 0 Segment.tail = (w.dir.lookup first).elim 0 Segment.tail := by
  rw [untimed_dir, SortedMap.lookup_map]
  cases w.dir.lookup first <;> rfl

theorem rotateLocked_untimed (newFirst : Nat) (io : WalIo) : Lifts untimed (rotateLocked newFirst io) (rotateLocked newFirst io) := by
  intro w
  cases hw : w.writer with
  | none => simpa [rotateLocked, untimed, hw] using createDeferred_untimed newFirst io w
  | some first =>
    have hsome : w.untimed.writer = some first := hw
    simp only [rotateLocked, hw, hsome, tail_untimed, closeWriter_untimed]
    refine (((createFile_untimed newFirst io).andThen (storeActive_untimed newFirst io.storeActive)).andThen ?_) _
    exact fun _ => rfl

theorem acquireWriter_untimed (r : Record) (io : WalIo) : Lifts untimed (acquireWriter r io) (acquireWriter r.untimed io) := by
  intro w
  cases hw : w.writer with
  | none => simpa [acquireWriter, untimed, hw] using createDeferred_untimed r.cursor io w
  | some first =>
    have hsome : w.untimed.writer = some first := hw
    simp only [acquireWriter, hw, hsome]
    by_cases hfull : w.cfg.segmentSizeMax < w.activeBytes + recordBytes r
    · rw [if_pos hfull, if_pos (show w.untimed.cfg.segmentSizeMax < w.untimed.activeBytes + recordBytes r.untimed from hfull)]
      exact rotateLocked_untimed r.cursor io w
    · rw [if_neg hfull, if_neg (show ¬w.untimed.cfg.segmentSizeMax < w.untimed.activeBytes + recordBytes r.untimed from hfull)]
      rfl

theorem put_untimed (first : Nat) (r : Record) (w : Wal) : w.untimed.put first r.untimed = (w.put first r).map untimed := by
  unfold put
  rw [untimed_dir, SortedMap.lookup_map]
  cases hseg : w.dir.lookup first with
  | none => rfl
  | some seg =>
    simp only [Option.map_some, Option.bind_some, Segment.append_untimed]
    cases seg.append r with
    | none => rfl
    | some seg' =>
      simp only [Option.map_some, untimed, Option.some.injEq, Wal.mk.injEq, true_and, and_true]
      have hmodify : ((w.dir.modify first fun _ => seg').map fun _ => Segment.untimed) =
          (w.dir.map fun _ => Segment.untimed).modify first fun _ => seg'.untimed :=
        SortedMap.map_modify first fun _ _ => rfl
      exact hmodify.symm

theorem write_untimed (first : Nat) (r : Record) (io : WalIo) : Lifts untimed (write first r io) (write first r.untimed io) := by
  intro w
  unfold write
  rw [put_untimed]
  cases w.put first r with
  | some w' => rfl
  | none =>
    refine ((rotateLocked_untimed r.cursor io).andThen ?_) w
    intro w
    dsimp only
    rw [show w.untimed.writer = w.writer from rfl]
    cases w.writer with
    | none => rfl
    | some second =>
      simp only [Option.bind_some, put_untimed]
      cases w.put second r <;> rfl

theorem retire_untimed (k : Nat) (w : Wal) : w.untimed.retire k = (w.retire k).untimed := by
  simp only [retire, untimed, SortedMap.map_erase, SortedMap.lookup_map, List.map_append, Wal.mk.injEq, true_and]
  cases w.dir.lookup k <;> rfl

theorem enforceRetention_untimed (rounds : Nat) (w : Wal) :
    w.untimed.enforceRetention rounds = (w.enforceRetention rounds).untimed := by
  induction rounds generalizing w with
  | zero => rfl
  | succ rounds ih =>
    unfold enforceRetention
    by_cases hwithin : w.retainedBytes + w.activeBytes ≤ w.cfg.retentionBytes
    · rw [if_pos hwithin,
        if_pos (show w.untimed.retainedBytes + w.untimed.activeBytes ≤ w.untimed.cfg.retentionBytes from hwithin)]
    · rw [if_neg hwithin,
        if_neg (show ¬w.untimed.retainedBytes + w.untimed.activeBytes ≤ w.untimed.cfg.retentionBytes from hwithin)]
      rw [show w.untimed.segments = w.segments from rfl, show w.untimed.writer = w.writer from rfl]
      split
      · rw [retire_untimed, ih]
      · rfl

theorem appendWith_untimed (r : Record) (io : WalIo) : Lifts untimed (appendWith r io) (appendWith r.untimed io) := by
  intro w
  cases hw : w.writer with
  | none => simp [appendWith, untimed, hw]
  | some first =>
    have hsome : w.untimed.writer = some first := hw
    simp only [appendWith, hw, hsome]
    refine (((write_untimed first r io).andThen ?_).andThen ?_) w
    · intro w
      have hrecorded : w.untimed.recorded first r.untimed = (w.recorded first r).untimed := by
        simp only [recorded, tail_untimed]
        rfl
      simp only [hrecorded, enforceRetention_untimed]
      rfl
    · exact fun _ => rfl

/-- What an append does to a log without times -/
theorem append_untimed (cursor ts : Nat) (payload : Bytes) (io : WalIo) :
    Lifts untimed (append cursor ts payload io) (append cursor 0 payload io) := by
  intro w
  unfold append
  by_cases henabled : w.cfg.enabled = false
  · rw [if_pos henabled, if_pos (show w.untimed.cfg.enabled = false from henabled)]
    rfl
  rw [if_neg henabled, if_neg (show ¬w.untimed.cfg.enabled = false from henabled)]
  by_cases hlength : MAX_PAYLOAD_LEN < payload.length
  · rw [if_pos hlength, if_pos hlength]
    rfl
  rw [if_neg hlength, if_neg hlength]
  by_cases hpoisoned : w.poisoned = true
  · rw [if_pos hpoisoned, if_pos (show w.untimed.poisoned = true from hpoisoned)]
    rfl
  · rw [if_neg hpoisoned, if_neg (show ¬w.untimed.poisoned = true from hpoisoned)]
    exact ((acquireWriter_untimed ⟨cursor, ts, payload⟩ io).andThen (appendWith_untimed ⟨cursor, ts, payload⟩ io)) w

end Wal

end V2

end Mmbus
