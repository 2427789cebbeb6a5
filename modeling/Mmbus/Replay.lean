import Mmbus.Wal

/-!
# Reading the log

`WalReader` and `WalReplayer` of the v0.1 log.  A reader takes the list of segments there are when it is opened; the
replayer opens one segment after the other and reads of each what was in the file when it opened it.
-/

namespace Mmbus

/-- An open `SegmentReader`: the records it has yet to read, and whether part of a record follows them -/
structure SegmentReader where
  records : List Record
  torn : Bool

structure WalReplayer where
  /-- The segments not yet opened -/
  segments : List Nat
  cursorFloor : Nat
  current : Option SegmentReader

namespace WalReplayer

/-- What a call of `next` returns: the end of the replay, an error, or a record -/
abbrev Item := Option (Except WalError Record)

/-- The next record of an open segment from the floor on, or the error it ends with; `none` is the end of the segment. -/
def read (floor : Nat) (segments : List Nat) (reader : SegmentReader) : Option (Item × WalReplayer) :=
  match reader.records.dropWhile fun r => r.cursor < floor with
  | r :: rest => some (some (.ok r), ⟨segments, floor, some { reader with records := rest }⟩)
  | [] => if reader.torn then some (some (.error .reader), ⟨segments, floor, some ⟨[], false⟩⟩) else none

/-- Open segments until one yields something. -/
def openFrom (dir : WalDir) (floor : Nat) : List Nat → Item × WalReplayer
  | [] => (none, ⟨[], floor, none⟩)
  | k :: segments =>
    match dir.lookup k with
    | none => (some (.error .io), ⟨segments, floor, none⟩)
    | some seg =>
      if seg.header = false then (some (.error .reader), ⟨segments, floor, none⟩)
      else (read floor segments ⟨seg.records, seg.torn⟩).getD (openFrom dir floor segments)

/-- `WalReplayer::next`, while the directory is `dir` -/
def next (dir : WalDir) (p : WalReplayer) : Item × WalReplayer :=
  (p.current.bind (read p.cursorFloor p.segments)).getD (openFrom dir p.cursorFloor p.segments)

end WalReplayer

/-- `WalReader::open` and `read_from`, on a directory that has segments: the replay begins in the last segment whose
first cursor is at most `cursor`. -/
def WalDir.readFrom (dir : WalDir) (cursor : Nat) : Except WalError WalReplayer :=
  match dir.keys with
  | [] => .ok ⟨[], cursor, none⟩
  | oldest :: _ =>
    if cursor < oldest then .error (.cursorTooOld cursor oldest)
    else
      let containing := ((dir.keys.filter fun k => k ≤ cursor).getLast?).getD oldest
      .ok ⟨dir.keys.filter fun k => containing ≤ k, cursor, none⟩

end Mmbus
