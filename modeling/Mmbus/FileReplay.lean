import Mmbus.Lib.Replays
import Mmbus.FileLog

/-!
# Reading the files of the log

`Wal::read_from` and `WalReplayer` on the bytes of the files.  On files that hold encoded records (`encodeDir`) a replay
returns the records of its segments from its floor on.
-/

namespace Mmbus.File

open ByteMemory Replays

/-- The segment files, opened and read by `SegmentReader`.  The errors go through `From<ReaderError>`. -/
def source (crc32c : Bytes → UInt32) (files : SortedMap Nat Bytes) : Source WalError Record FileReader where
  «open» k :=
    match files.lookup k with
    | none => .error .io
    | some bytes =>
      match FileReader.open bytes with
      | .ok rd => .ok rd
      | .error _ => .error .reader
  next rd :=
    match rd.nextRecord crc32c with
    | (some (.ok r), rd) => (some (.ok r), rd)
    | (some (.error _), rd) => (some (.error .reader), rd)
    | (none, rd) => (none, rd)
  -- a record takes a byte at least
  rounds rd := rd.bytes.length
  number := Record.cursor

abbrev WalReplayer := Replayer FileReader

/-- `WalReplayer::next` -/
def WalReplayer.next (crc32c : Bytes → UInt32) (files : SortedMap Nat Bytes) (p : WalReplayer) :
    Option (Except WalError Record) × WalReplayer := (source crc32c files).replayNext p

/-- The calls of `next` return the records `rs` one after the other, and then nothing. -/
abbrev WalReplayer.Yields (crc32c : Bytes → UInt32) (files : SortedMap Nat Bytes) : WalReplayer → List Record → Prop :=
  (source crc32c files).Yields

/-- `Wal::read_from` -/
def Wal.readFrom (cursor : Nat) (w : Wal) : Except WalError WalReplayer :=
  match segmentsFrom w.segments.keys cursor with
  | .ok segments => .ok ⟨segments, cursor, none⟩
  | .error oldest => .error (.cursorTooOld cursor oldest)

/-- `Wal::oldest_cursor` -/
def Wal.oldestCursor (w : Wal) : Nat := w.segments.keys.head?.getD 0

theorem Wal.readFrom_too_old {w : Wal} {c : Nat} (h : c < w.oldestCursor) :
    w.readFrom c = .error (.cursorTooOld c w.oldestCursor) := by
  cases hhead : w.segments.keys.head? with
  | none =>
    rw [oldestCursor, hhead] at h
    exact absurd h (Nat.not_lt_zero c)
  | some oldest =>
    have holdest : w.oldestCursor = oldest := by rw [oldestCursor, hhead, Option.getD_some]
    rw [holdest] at h ⊢
    rw [readFrom, segmentsFrom_too_old hhead h]

variable {crc32c : Bytes → UInt32}

theorem source_serves (crc32c : Bytes → UInt32) (files : SortedMap Nat Bytes) :
    (source crc32c files).Serves (FileReader.Before crc32c) where
  nil h := by simp only [source, h.nextRecord_nil]
  cons h := by
    obtain ⟨rd', hnext, hrd', -⟩ := h.nextRecord_cons
    exact ⟨rd', by simp only [source, hnext], hrd'⟩
  le_rounds {rd rs} h := by
    obtain ⟨pre, hbytes, -⟩ := h.bytes
    have := length_le_encodeRecords crc32c rs
    simp only [source, hbytes, List.length_append]
    omega

/-- Every segment of the directory can be opened, and has its records. -/
theorem source_open {dir : WalDir} (hdir : Plain dir) (created : Nat → Nat) {p : Nat × List Record}
    (hp : p ∈ dir.chapters) : ∃ rd, (source crc32c (encodeDir crc32c created dir)).open p.1 = .ok rd ∧
      rd.Before crc32c p.2 := by
  obtain ⟨q, hq, rfl⟩ := List.mem_map.1 hp
  have hfile : (encodeDir crc32c created dir).lookup q.1 = some (encodeSegment crc32c q.1 (created q.1) q.2.records) := by
    rw [encodeDir, SortedMap.lookup_map, SortedMap.lookup_of_mem hq]
    rfl
  refine ⟨⟨encodeSegment crc32c q.1 (created q.1) q.2.records, SEGMENT_HEADER_LEN, false⟩, ?_,
    FileReader.before_open (hdir q hq).2.2⟩
  simp only [source, hfile, FileReader.open_encode]

end Mmbus.File
