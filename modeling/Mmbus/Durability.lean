import Mmbus.Wal
import Mmbus.Lib.Transition

/-!
# The durable cursor of the v0.1 log

Appends, fsyncs and the flusher thread, which flushes under the lock and syncs a clone of the file handle outside of it,
on a file system that answers every call.  What has been appended is kept with the file that it went to, and what a sync
has covered with the file that was synced.

A rotation syncs the segment that it closes, so what is not synced yet is in the active segment (`Inv.placed`).  Records
below the durable cursor are synced as long as no append begins a segment below it (`durable_synced`); the check of the
cursor comes after the rotation, so such an append is taken (`not_durable`).
-/

namespace Mmbus

/-- The records in the segment file `k` -/
def Wal.fileRecords (w : Wal) (k : Nat) : List Record := ((w.dir.lookup k).map Segment.records).getD []

namespace Durability

open Attempt Transition Wal

/-! ### The log with its syncs -/

/-- Where the flusher thread is: it has flushed and cloned the handle of a file, or synced it -/
inductive Flusher
  | idle
  | cloned (first : Nat) (records : List Record) (pending : Nat)
  | synced (pending : Nat)

/-- The cursor that the flusher thread is going to store -/
def Flusher.pending : Flusher → Option Nat
  | .idle => none
  | .cloned _ _ pending | .synced pending => some pending

/-- The log, its durable cursor and its flusher thread; what has been appended to which file, and what a completed sync of
a file has covered (no process reads these two) -/
structure State where
  wal : Wal
  durable : Nat
  flusher : Flusher
  appended : List (Nat × Record)
  synced : Nat → List Record

/-- A new log in an empty directory -/
def init (cfg : WalConfig) : State := ⟨ofDir cfg .empty 0, 0, .idle, [], fun _ => []⟩

/-- The file `k` has been synced while it held `rs`. -/
def addSynced (k : Nat) (rs : List Record) (synced : Nat → List Record) : Nat → List Record :=
  Function.update synced k (synced k ++ rs)

/-- `SegmentWriter::fsync` of the active segment, if there is one -/
def syncActive (w : Wal) (synced : Nat → List Record) : Nat → List Record :=
  match w.writer with
  | some wr => addSynced wr.first (w.flushBuffer.fileRecords wr.first) synced
  | none => synced

/-- The record would exceed `segment_size_max`. -/
def Full (w : Wal) (r : Record) : Prop := w.cfg.segmentSizeMax < w.activeBytes + r.len

instance (w : Wal) (r : Record) : Decidable (Full w r) := inferInstanceAs (Decidable (_ < _))

/-- The end of `append` after the record has been written: the inline fsync, and retention -/
def finish (s : State) : State :=
  let s := if s.wal.cfg.fsyncPolicy = .each then
      { s with
        wal := s.wal.flushBuffer
        synced := syncActive s.wal s.synced
        durable := (s.wal.writer.map SegmentWriter.pending).getD s.durable }
    else s
  { s with wal := s.wal.enforceRetention s.wal.segments.keys.length }

/-- `append` from the rotation on, which syncs the segment that it closes -/
def appendTo (r : Record) (s : State) : State :=
  let synced := if Full s.wal r then syncActive s.wal s.synced else s.synced
  match rotateIfFull r .ok s.wal with
  | (w, .error _) => { s with wal := w, synced := synced }
  | (w, .ok _) =>
    match write r .ok w with
    | (w, .error _) => { s with wal := w, synced := synced }
    | (w, .ok _) => finish { s with
        wal := w
        synced := synced
        appended := s.appended ++ [((w.writer.map SegmentWriter.first).getD 0, r)] }

/-- `Wal::append` -/
def append (r : Record) (s : State) : State :=
  if s.wal.cfg.enabled = false ∨ MAX_PAYLOAD_LEN < r.payload.length ∨ s.wal.poisoned then s
  else
    match ensureWriter r.cursor .ok s.wal with
    | (w, .error _) => { s with wal := w }
    | (w, .ok _) => appendTo r { s with wal := w }

/-- `Wal::fsync` -/
def fsync (s : State) : State :=
  { s with
    wal := s.wal.flushBuffer
    synced := syncActive s.wal s.synced
    durable := (s.wal.writer.map SegmentWriter.pending).getD s.durable }

inductive Act
  | append (r : Record)
  | fsync
  /-- The flusher thread flushes and clones the handle, syncs it, and stores the durable cursor. -/
  | flush
  | sync
  | store

def step (s : State) : Act → Option State
  | .append r => some (append r s)
  | .fsync => some (fsync s)
  | .flush =>
    match s.flusher, s.wal.writer with
    | .idle, some wr =>
      if s.wal.cfg.fsyncPolicy = .batched then
        some { s with
          wal := s.wal.flushBuffer
          flusher := .cloned wr.first (s.wal.flushBuffer.fileRecords wr.first) wr.pending }
      else none
    | _, _ => none
  | .sync =>
    match s.flusher with
    | .cloned first rs pending => some { s with flusher := .synced pending, synced := addSynced first rs s.synced }
    | _ => none
  | .store =>
    match s.flusher with
    | .synced pending => some { s with flusher := .idle, durable := pending }
    | _ => none

variable {s s' : State} {w w' : Wal} {wr : SegmentWriter} {r : Record} {k c : Nat}

/-- The log takes the record as `Wal.append` says. -/
theorem append_wal (r : Record) (s : State) : (append r s).wal = (s.wal.append r.cursor r.ts r.payload .ok).1 := by
  unfold append Wal.append
  by_cases henabled : s.wal.cfg.enabled = false
  · rw [if_pos (.inl henabled), if_pos henabled]
  by_cases hlen : MAX_PAYLOAD_LEN < r.payload.length
  · rw [if_pos (.inr (.inl hlen)), if_neg henabled, if_pos hlen]
  by_cases hpoisoned : s.wal.poisoned = true
  · rw [if_pos (.inr (.inr hpoisoned)), if_neg henabled, if_neg hlen, if_pos hpoisoned]
  rw [if_neg (by simp [henabled, hlen, hpoisoned]), if_neg henabled, if_neg hlen, if_neg hpoisoned]
  simp only [andThen]
  cases hensure : ensureWriter r.cursor .ok s.wal with
  | mk w₁ e₁ =>
    cases e₁ with
    | error e => rfl
    | ok _ =>
      simp only [appendTo]
      cases hrotate : rotateIfFull r .ok w₁ with
      | mk w₂ e₂ =>
        cases e₂ with
        | error e => rfl
        | ok _ =>
          simp only
          cases hwrite : write r .ok w₂ with
          | mk w₃ e₃ =>
            cases e₃ with
            | error e => rfl
            | ok _ =>
              simp only [finish, syncEach]
              by_cases heach : w₃.cfg.fsyncPolicy = .each
              · simp [heach, show WalIo.ok.flush = true from rfl, show WalIo.ok.sync = true from rfl]
              · simp [heach]

/-! ### What is not synced yet -/

/-- The file of the active segment is there, and what is appended to it can be read. -/
def Intact (w : Wal) : Prop := ∀ wr, w.writer = some wr → ∃ seg, w.dir.lookup wr.first = some seg ∧ seg.torn = false

/-- The records of the active segment, in the file and in the buffer -/
def held (w : Wal) (k : Nat) : List Record :=
  match w.writer with
  | some wr => if wr.first = k then w.fileRecords k ++ wr.buffer else []
  | none => []

theorem held_none (hw : w.writer = none) : held w k = [] := by
  simp [held, hw]

theorem held_active (hw : w.writer = some wr) : held w wr.first = w.fileRecords wr.first ++ wr.buffer := by
  simp [held, hw]

theorem eq_first_of_held (hw : w.writer = some wr) (h : r ∈ held w k) : k = wr.first := by
  by_contra hne
  simp [held, hw, Ne.symm hne] at h

theorem fileRecords_append {seg : Segment} {dir : WalDir} (rs : List Record) (hw : w.dir.lookup k = some seg)
    (hseg : seg.torn = false) (hdir : dir = w.dir.modify k (Segment.append rs)) :
    dir.lookup k = some { seg with records := seg.records ++ rs } ∧
      ((dir.lookup k).map Segment.records).getD [] = w.fileRecords k ++ rs := by
  have hlookup : dir.lookup k = some { seg with records := seg.records ++ rs } := by
    rw [hdir, SortedMap.lookup_modify, hw, Option.map_some, Segment.append_of_intact hseg]
  refine ⟨hlookup, ?_⟩
  rw [hlookup, Wal.fileRecords, hw]
  rfl

/-- A flush moves records from the buffer to the file. -/
theorem flush_held (h : Intact w) : Intact w.flushBuffer ∧ (∀ k, held w.flushBuffer k = held w k) ∧
    ∀ wr, w.writer = some wr → w.flushBuffer.fileRecords wr.first = held w wr.first ∧
      w.flushBuffer.writer = some { wr with buffer := [] } := by
  cases hw : w.writer with
  | none =>
    have : w.flushBuffer = w := by simp only [Wal.flushBuffer, hw]
    rw [this]
    exact ⟨h, fun _ => rfl, (by simp)⟩
  | some wr =>
    obtain ⟨seg, hseg, htorn⟩ := h wr hw
    have hflush : w.flushBuffer = { w with
        dir := w.dir.modify wr.first (Segment.append wr.buffer)
        writer := some { wr with buffer := [] } } := by
      simp only [Wal.flushBuffer, hw, moveBuffer_some hw, List.take_length, List.drop_length]
    obtain ⟨hlookup, hrecords⟩ := fileRecords_append wr.buffer hseg htorn rfl
    rw [hflush]
    refine ⟨?_, fun k => ?_, ?_⟩
    · rintro _ ⟨⟩
      exact ⟨_, hlookup, htorn⟩
    · by_cases hk : wr.first = k
      · subst hk
        simp only [held, hw, if_true, List.append_nil]
        exact hrecords
      · simp [held, hw, hk]
    · rintro _ ⟨⟩
      exact ⟨hrecords.trans (held_active hw).symm, rfl⟩

theorem flush_cfg (w : Wal) : w.flushBuffer.cfg = w.cfg := by
  unfold Wal.flushBuffer
  split
  · rename_i wr hw
    rw [moveBuffer_some hw]
  · rfl

/-- What a sync of the active segment covers -/
theorem mem_syncActive (h : Intact w) {synced : Nat → List Record} :
    (r ∈ synced k → r ∈ syncActive w synced k) ∧ (r ∈ held w k → r ∈ syncActive w synced k) := by
  unfold syncActive
  cases hw : w.writer with
  | none => exact ⟨id, fun hr => by simp [held_none hw] at hr⟩
  | some wr =>
    obtain ⟨-, -, hfile⟩ := flush_held h
    refine ⟨fun hr => ?_, fun hr => ?_⟩
    · by_cases hk : k = wr.first
      · subst hk
        simp [addSynced, hr]
      · simpa [addSynced, hk] using hr
    · obtain rfl := eq_first_of_held hw hr
      simp [addSynced, (hfile wr hw).1, hr]

/-- A new segment -/
theorem createSegment_held (hs : createSegment c .ok w = (w', .ok ())) :
    w'.cfg = w.cfg ∧ w'.writer = some ⟨c, [], c, SEGMENT_HEADER_LEN⟩ ∧ Intact w' := by
  unfold createSegment at hs
  split at hs
  · cases hs
  · cases hs
    refine ⟨rfl, rfl, ?_⟩
    rintro _ ⟨⟩
    exact ⟨.empty, SortedMap.lookup_insert .., rfl⟩

theorem createSegment_fails {e : WalError} (hs : createSegment c .ok w = (w', .error e)) : w' = w := by
  unfold createSegment at hs
  split at hs <;> cases hs
  rfl

theorem ensureWriter_held (h : Intact w) {res : Except WalError Unit} (hs : ensureWriter c .ok w = (w', res)) :
    w'.cfg = w.cfg ∧ Intact w' ∧ (w.writer ≠ none → w' = w) ∧
      (res = .ok () → w.writer = none → ∃ wr, w'.writer = some wr ∧ wr.pending = c) ∧
      ∀ e, res = .error e → w' = w := by
  unfold ensureWriter at hs
  split at hs
  · rename_i wr hw
    cases hs
    exact ⟨rfl, h, fun _ => rfl, fun _ hnone => by simp [hw] at hnone, nofun⟩
  · rename_i hw
    cases res with
    | ok _ =>
      obtain ⟨hcfg, hwriter, hintact⟩ := createSegment_held hs
      exact ⟨hcfg, hintact, fun hne => absurd hw hne, fun _ _ => ⟨_, hwriter, rfl⟩, nofun⟩
    | error e =>
      obtain rfl := createSegment_fails hs
      exact ⟨rfl, h, fun _ => rfl, nofun, fun _ _ => rfl⟩

/-- A rotation, which leaves no writer when it fails -/
theorem rotateIfFull_held (h : Intact w) {res : Except WalError Unit} (hs : rotateIfFull r .ok w = (w', res)) :
    w'.cfg = w.cfg ∧ Intact w' ∧ (¬Full w r → w' = w ∧ res = .ok ()) ∧
      (Full w r → (res = .ok () → ∃ wr, w'.writer = some wr ∧ wr.pending = r.cursor) ∧
        (res ≠ .ok () → w'.writer = none)) := by
  unfold rotateIfFull at hs
  by_cases hfull : Full w r
  · rw [if_pos (show w.cfg.segmentSizeMax < _ from hfull)] at hs
    have hclosed : ∃ l, closeWriter .ok w = (l, .ok ()) ∧ l.cfg = w.cfg ∧ l.writer = none := by
      unfold closeWriter
      cases hw : w.writer with
      | none => exact ⟨w, rfl, rfl, hw⟩
      | some wr => exact ⟨_, rfl, flush_cfg w, rfl⟩
    obtain ⟨l, hclose, hcfg, hnone⟩ := hclosed
    simp only [rotateLocked, andThen, hclose] at hs
    cases res with
    | ok _ =>
      obtain ⟨hcfg', hwriter, hintact⟩ := createSegment_held hs
      exact ⟨hcfg'.trans hcfg, hintact, fun hnot => absurd hfull hnot,
        fun _ => ⟨fun _ => ⟨_, hwriter, rfl⟩, fun hne => absurd rfl hne⟩⟩
    | error e =>
      obtain rfl := createSegment_fails hs
      have hintact : Intact w' := fun wr hwr => by simp [hnone] at hwr
      exact ⟨hcfg, hintact, fun hnot => absurd hfull hnot, fun _ => ⟨(by simp), fun _ => hnone⟩⟩
  · rw [if_neg (show ¬w.cfg.segmentSizeMax < _ from hfull)] at hs
    cases hs
    exact ⟨rfl, h, fun _ => ⟨rfl, rfl⟩, fun hnot => absurd hnot hfull⟩

/-- The record is the last that the active segment holds. -/
structure Put (r : Record) (wr : SegmentWriter) (w w' : Wal) : Prop where
  cfg : w'.cfg = w.cfg
  intact : Intact w'
  writer : ∃ wr', w'.writer = some wr' ∧ wr'.first = wr.first ∧ wr'.pending = r.cursor + 1
  held : held w' wr.first = held w wr.first ++ [r]

theorem put_buffered (h : Intact w) (hw : w.writer = some wr) : Put r wr w ((w.buffered r).recorded r) := by
  have heq : (w.buffered r).recorded r = { w with
      writer := some ⟨wr.first, wr.buffer ++ [r], r.cursor + 1, wr.bytesWritten + r.len⟩
      activeBytes := wr.bytesWritten + r.len
      pendingCursor := r.cursor + 1 } := by simp only [Wal.buffered, hw, Wal.recorded]
  rw [heq]
  refine ⟨rfl, ?_, ⟨_, rfl, rfl, rfl⟩, ?_⟩
  · rintro _ ⟨⟩
    exact h wr hw
  · rw [held_active hw]
    simp only [held, if_true, Wal.fileRecords, List.append_assoc]

theorem put_written (h : Intact w) (hw : w.writer = some wr) (hempty : wr.buffer = []) :
    Put r wr w ((w.written r).recorded r) := by
  obtain ⟨seg, hseg, htorn⟩ := h wr hw
  have heq : (w.written r).recorded r = { w with
      dir := w.dir.modify wr.first (Segment.append [r])
      writer := some ⟨wr.first, wr.buffer, r.cursor + 1, wr.bytesWritten + r.len⟩
      activeBytes := wr.bytesWritten + r.len
      pendingCursor := r.cursor + 1 } := by simp only [Wal.written, hw, Wal.recorded]
  obtain ⟨hlookup, hrecords⟩ := fileRecords_append [r] hseg htorn rfl
  rw [heq]
  refine ⟨rfl, ?_, ⟨_, rfl, rfl, rfl⟩, ?_⟩
  · rintro _ ⟨⟩
    exact ⟨_, hlookup, htorn⟩
  · rw [held_active hw, hempty, List.append_nil]
    simp only [held, if_true, List.append_nil]
    exact hrecords

theorem Put.of_flush (h : Intact w) (hp : Put r { wr with buffer := [] } w.flushBuffer w') :
    Put r wr w w' := by
  obtain ⟨-, hheld, -⟩ := flush_held h
  exact ⟨hp.cfg.trans (flush_cfg w), hp.intact, hp.writer, hp.held.trans (by rw [hheld])⟩

theorem write_put (h : Intact w) (hw : w.writer = some wr) (hs : write r .ok w = (w', .ok ())) :
    r.cursor = wr.pending ∧ Put r wr w w' := by
  simp only [write, hw] at hs
  by_cases hcursor : r.cursor = wr.pending
  · refine ⟨hcursor, ?_⟩
    rw [if_neg (not_not.2 hcursor)] at hs
    by_cases hroom : r.len < BUF_CAPACITY - (wr.buffer.map Record.len).sum
    · rw [if_pos hroom] at hs
      cases hs
      exact put_buffered h hw
    · rw [if_neg hroom] at hs
      simp only [writeAllCold, show WalIo.ok.drain = true from rfl, show WalIo.ok.direct = true from rfl,
        Bool.true_eq_false, and_false, if_false] at hs
      obtain ⟨hintact, -, hflush⟩ := flush_held h
      obtain ⟨-, hwriter⟩ := hflush wr hw
      by_cases hspare : BUF_CAPACITY - (wr.buffer.map Record.len).sum < r.len
      · rw [if_pos hspare] at hs
        split at hs <;> cases hs
        · exact .of_flush h (put_buffered hintact hwriter)
        · exact .of_flush h (put_written hintact hwriter rfl)
      · rw [if_neg hspare] at hs
        split at hs <;> cases hs
        · exact put_buffered h hw
        · rename_i hlarge
          refine put_written h hw ?_
          -- the record is as long as the whole buffer, which is empty
          cases hbuffer : wr.buffer with
          | nil => rfl
          | cons q qs =>
            have hcapacity : BUF_CAPACITY = 8192 := rfl
            have hlen : q.len = 28 + q.payload.length := rfl
            rw [hbuffer, List.map_cons, List.sum_cons] at hroom hspare
            omega
  · rw [if_pos hcursor] at hs
    cases hs

/-- A record is refused only for its cursor. -/
theorem write_fails {e : WalError} (hw : w.writer = some wr) (hs : write r .ok w = (w', .error e)) :
    w' = w ∧ r.cursor ≠ wr.pending := by
  simp only [write, hw] at hs
  by_cases hcursor : r.cursor = wr.pending
  · rw [if_neg (not_not.2 hcursor)] at hs
    split at hs
    · cases hs
    · simp only [writeAllCold, show WalIo.ok.drain = true from rfl, show WalIo.ok.direct = true from rfl,
        Bool.true_eq_false, and_false, if_false] at hs
      split at hs <;> cases hs
  · rw [if_pos hcursor] at hs
    cases hs
    exact ⟨rfl, hcursor⟩

/-- Retention leaves the active segment alone. -/
theorem enforceRetention_held (h : Intact w) (rounds : Nat) : Intact (w.enforceRetention rounds) ∧
    (w.enforceRetention rounds).cfg = w.cfg ∧ (w.enforceRetention rounds).writer = w.writer ∧
    ∀ k, held (w.enforceRetention rounds) k = held w k := by
  induction rounds generalizing w with
  | zero => exact ⟨h, rfl, rfl, fun _ => rfl⟩
  | succ rounds ih =>
    unfold Wal.enforceRetention
    split
    · exact ⟨h, rfl, rfl, fun _ => rfl⟩
    · split
      · rename_i k hk
        have hother : ∀ wr, w.writer = some wr → wr.first ≠ k := by
          rintro wr hw rfl
          have := List.find?_some hk
          simp [hw] at this
        have hfile : ∀ wr, w.writer = some wr → (w.retire k).dir.lookup wr.first = w.dir.lookup wr.first :=
          fun wr hw => SortedMap.lookup_erase (hother wr hw)
        have hintact : Intact (w.retire k) := fun wr hw => by
          rw [hfile wr hw]
          exact h wr hw
        obtain ⟨hintact', hcfg, hwriter, hheld⟩ := ih hintact
        refine ⟨hintact', hcfg, hwriter, fun j => (hheld j).trans ?_⟩
        unfold held
        split
        · rename_i wr hw
          have hw' : w.writer = some wr := hw
          simp only [hw']
          split
          · rename_i hj
            rw [← hj, Wal.fileRecords, Wal.fileRecords, hfile wr hw']
          · rfl
        · rename_i hw
          have hw' : w.writer = none := hw
          simp only [hw']
      · exact ⟨h, rfl, rfl, fun _ => rfl⟩

/-! ### What is below the durable cursor -/

/-- What is not synced is in the active segment; what the flusher thread is going to make durable is synced, or in the
file that it is going to sync. -/
structure Inv (s : State) : Prop where
  intact : Intact s.wal
  placed : ∀ {k r}, (k, r) ∈ s.appended → r ∈ s.synced k ∨ r ∈ held s.wal k
  durable : ∀ {k r}, (k, r) ∈ s.appended → r.cursor < s.durable → r ∈ s.synced k
  cloned : ∀ {first rs pending}, s.flusher = .cloned first rs pending → ∀ {k r}, (k, r) ∈ s.appended →
    r.cursor < pending → r ∈ s.synced k ∨ k = first ∧ r ∈ rs
  written : ∀ {pending}, s.flusher = .synced pending → ∀ {k r}, (k, r) ∈ s.appended → r.cursor < pending →
    r ∈ s.synced k
  batched : s.flusher.pending ≠ none → s.wal.cfg.fsyncPolicy = .batched

/-- The active segment takes no record below the durable cursor, nor below the one that is going to be durable. -/
def Above (s : State) : Prop := ∀ wr, s.wal.writer = some wr → s.durable ≤ wr.pending ∧
  ∀ pending, s.flusher.pending = some pending → pending ≤ wr.pending

/-- An append begins a segment. -/
def Begins (w : Wal) (r : Record) : Prop := w.writer = none ∨ Full w r

/-- An append that begins a segment does so with a cursor that is not below the durable one, nor below the one that the
flusher thread is going to store; under `FsyncPolicy::Each` it may. -/
def NotBelow (s : State) : Act → Prop
  | .append r => s.wal.cfg.fsyncPolicy ≠ .each → Begins s.wal r →
    s.durable ≤ r.cursor ∧ ∀ pending, s.flusher.pending = some pending → pending ≤ r.cursor
  | _ => True

theorem inv_init (cfg : WalConfig) : Inv (init cfg) ∧ Above (init cfg) :=
  ⟨⟨nofun, nofun, nofun, nofun, nofun, fun h => absurd rfl h⟩, nofun⟩

/-- The log and the syncs change; what the active segment held and holds no more has been synced. -/
theorem Inv.change (h : Inv s) {synced : Nat → List Record} (hintact : Intact w) (hcfg : w.cfg = s.wal.cfg)
    (hsynced : ∀ {k r}, r ∈ s.synced k → r ∈ synced k)
    (hheld : ∀ {k r}, r ∈ held s.wal k → r ∈ synced k ∨ r ∈ held w k) : Inv { s with wal := w, synced := synced } where
  intact := hintact
  placed hr := (h.placed hr).elim (fun hr => .inl (hsynced hr)) hheld
  durable hr hlt := hsynced (h.durable hr hlt)
  cloned hfl _ _ hr hlt := (h.cloned hfl hr hlt).imp_left hsynced
  written hfl _ _ hr hlt := hsynced (h.written hfl hr hlt)
  batched hfl := hcfg ▸ h.batched hfl

/-- Nothing from the cursor of the record on is durable, or going to be. -/
def Fresh (s : State) (r : Record) : Prop :=
  s.durable ≤ r.cursor ∧ ∀ pending, s.flusher.pending = some pending → pending ≤ r.cursor

/-- The record is written. -/
theorem Inv.put (h : Inv s) (hw : s.wal.writer = some wr) (hp : Put r wr s.wal w) (hfresh : Fresh s r) :
    Inv { s with wal := w, appended := s.appended ++ [(wr.first, r)] } := by
  have hcases {k : Nat} {q : Record} (hq : (k, q) ∈ s.appended ++ [(wr.first, r)]) :
      (k, q) ∈ s.appended ∨ k = wr.first ∧ q = r := by simpa using hq
  refine ⟨hp.intact, fun {k q} hq => ?_, fun {k q} hq hlt => ?_, fun {first rs pending} hfl k q hq hlt => ?_,
    fun {pending} hfl k q hq hlt => ?_, fun hfl => hp.cfg ▸ h.batched hfl⟩
  · rcases hcases hq with hq | ⟨rfl, rfl⟩
    · refine (h.placed hq).imp_right fun hheld => ?_
      obtain rfl := eq_first_of_held hw hheld
      rw [hp.held]
      exact List.mem_append_left _ hheld
    · rw [hp.held]
      exact .inr (by simp)
  · rcases hcases hq with hq | ⟨-, rfl⟩
    · exact h.durable hq hlt
    · exact absurd hlt (not_lt.2 hfresh.1)
  · rcases hcases hq with hq | ⟨-, rfl⟩
    · exact h.cloned hfl hq hlt
    · exact absurd hlt (not_lt.2 (hfresh.2 pending (by rw [hfl]; rfl)))
  · rcases hcases hq with hq | ⟨-, rfl⟩
    · exact h.written hfl hq hlt
    · exact absurd hlt (not_lt.2 (hfresh.2 pending (by rw [hfl]; rfl)))

/-- The active segment is synced, with all that has been appended. -/
theorem Inv.synced_all (hintact : Intact s.wal) (hbatched : s.flusher.pending ≠ none → s.wal.cfg.fsyncPolicy = .batched)
    (hplaced : ∀ {k r}, (k, r) ∈ s.appended → r ∈ s.synced k ∨ r ∈ held s.wal k) (d : Nat) :
    Inv { s with wal := s.wal.flushBuffer, synced := syncActive s.wal s.synced, durable := d } := by
  have hall {k : Nat} {r : Record} (hr : (k, r) ∈ s.appended) : r ∈ syncActive s.wal s.synced k :=
    (hplaced hr).elim (mem_syncActive hintact).1 (mem_syncActive hintact).2
  exact ⟨(flush_held hintact).1, fun hr => .inl (hall hr), fun hr _ => hall hr, fun _ _ _ hr _ => .inl (hall hr),
    fun _ _ _ hr _ => hall hr, fun hfl => (flush_cfg s.wal).symm ▸ hbatched hfl⟩

theorem Inv.retention (h : Inv s) (rounds : Nat) : Inv { s with wal := s.wal.enforceRetention rounds } := by
  obtain ⟨hintact, hcfg, -, hheld⟩ := enforceRetention_held h.intact rounds
  exact h.change hintact hcfg id fun hr => .inr (hheld _ ▸ hr)

theorem Above.retention (h : Above s) (hintact : Intact s.wal) (rounds : Nat) :
    Above { s with wal := s.wal.enforceRetention rounds } := by
  obtain ⟨-, -, hwriter, -⟩ := enforceRetention_held hintact rounds
  intro wr hw
  exact h wr (hwriter ▸ hw)

/-- A record that has been written -/
theorem Inv.finish (h : Inv s) (hw : s.wal.writer = some wr) (hp : Put r wr s.wal w)
    (hfresh : s.wal.cfg.fsyncPolicy ≠ .each → Fresh s r) :
    Inv (finish { s with wal := w, appended := s.appended ++ [(wr.first, r)] }) ∧
      Above (finish { s with wal := w, appended := s.appended ++ [(wr.first, r)] }) := by
  obtain ⟨wr', hw', -, hpending⟩ := hp.writer
  unfold Durability.finish
  by_cases heach : s.wal.cfg.fsyncPolicy = .each
  · have heach' : w.cfg.fsyncPolicy = .each := hp.cfg ▸ heach
    have hidle : s.flusher.pending = none := by
      by_contra hne
      rw [h.batched hne] at heach
      cases heach
    simp only [heach', if_true]
    have hplaced {k : Nat} {q : Record} (hq : (k, q) ∈ s.appended ++ [(wr.first, r)]) : q ∈ s.synced k ∨ q ∈ held w k := by
      rcases (by simpa using hq : (k, q) ∈ s.appended ∨ k = wr.first ∧ q = r) with hq | ⟨rfl, rfl⟩
      · refine (h.placed hq).imp_right fun hheld => ?_
        obtain rfl := eq_first_of_held hw hheld
        rw [hp.held]
        exact List.mem_append_left _ hheld
      · rw [hp.held]
        exact .inr (by simp)
    have hsynced := Inv.synced_all (s := { s with wal := w, appended := s.appended ++ [(wr.first, r)] }) hp.intact
      (fun hfl => absurd hidle hfl) hplaced ((w.writer.map SegmentWriter.pending).getD s.durable)
    refine ⟨hsynced.retention _, Above.retention (fun wr₂ hw₂ => ?_) hsynced.intact _⟩
    have hflush : w.flushBuffer.writer = some { wr' with buffer := [] } := ((flush_held hp.intact).2.2 wr' hw').2
    rw [hflush] at hw₂
    cases hw₂
    refine ⟨?_, fun pending hfl => by simp [hidle] at hfl⟩
    rw [hw']
    exact le_rfl
  · have heach' : w.cfg.fsyncPolicy ≠ .each := hp.cfg ▸ heach
    have hnew := hfresh heach
    have hput := h.put hw hp hnew
    simp only [heach', if_false]
    refine ⟨hput.retention _, Above.retention (fun wr₂ hw₂ => ?_) hput.intact _⟩
    obtain rfl : wr' = wr₂ := Option.some.inj (hw'.symm.trans hw₂)
    obtain ⟨hdurable, hflusher⟩ := hnew
    have hdurable' : s.durable ≤ wr'.pending := by omega
    refine ⟨hdurable', fun pending hfl => ?_⟩
    have hle := hflusher pending hfl
    omega

/-- From the rotation on.  Above the durable cursor is the active segment, or it begins with the record. -/
theorem Inv.appendTo (h : Inv s) (hw : s.wal.writer ≠ none)
    (habove : Above s ∨ ∃ wr, s.wal.writer = some wr ∧ wr.pending = r.cursor)
    (hfresh : s.wal.cfg.fsyncPolicy ≠ .each → (Full s.wal r ∨ ∃ wr, s.wal.writer = some wr ∧ wr.pending = r.cursor) →
      Fresh s r) : Inv (appendTo r s) ∧ Above (appendTo r s) := by
  unfold Durability.appendTo
  have hsync {k : Nat} {q : Record} (hq : q ∈ s.synced k) :
      q ∈ (if Full s.wal r then syncActive s.wal s.synced else s.synced) k := by
    split
    · exact (mem_syncActive h.intact).1 hq
    · exact hq
  simp only
  cases hrotate : rotateIfFull r .ok s.wal with
  | mk w₂ res =>
    obtain ⟨hcfg, hintact, hsame, hnew⟩ := rotateIfFull_held h.intact hrotate
    have hheld {k : Nat} {q : Record} (hq : q ∈ held s.wal k) :
        q ∈ (if Full s.wal r then syncActive s.wal s.synced else s.synced) k ∨ q ∈ held w₂ k := by
      by_cases hfull : Full s.wal r
      · rw [if_pos hfull]
        exact .inl ((mem_syncActive h.intact).2 hq)
      · rw [(hsame hfull).1]
        exact .inr hq
    have hrotated := h.change (w := w₂) hintact hcfg hsync hheld
    cases res with
    | error e =>
      refine ⟨hrotated, fun wr hwr => ?_⟩
      by_cases hfull : Full s.wal r
      · rw [(hnew hfull).2 nofun] at hwr
        cases hwr
      · cases (hsame hfull).2
    | ok u =>
      have hwriter : ∃ wr₂, w₂.writer = some wr₂ ∧ (Full s.wal r → wr₂.pending = r.cursor) := by
        by_cases hfull : Full s.wal r
        · obtain ⟨wr₂, hwr₂, hpending⟩ := (hnew hfull).1 rfl
          exact ⟨wr₂, hwr₂, fun _ => hpending⟩
        · obtain ⟨wr₂, hwr₂⟩ := Option.ne_none_iff_exists'.1 hw
          exact ⟨wr₂, by rw [(hsame hfull).1, hwr₂], fun hnot => absurd hnot hfull⟩
      obtain ⟨wr₂, hwr₂, hpending₂⟩ := hwriter
      simp only
      cases hwrite : write r .ok w₂ with
      | mk w₃ res =>
        cases res with
        | error e =>
          obtain ⟨rfl, hother⟩ := write_fails hwr₂ hwrite
          refine ⟨hrotated, fun wr hwr => ?_⟩
          obtain rfl : wr₂ = wr := Option.some.inj (hwr₂.symm.trans hwr)
          -- the writer has another pending cursor, so the segment is not a new one
          have hfull : ¬Full s.wal r := fun hfull => hother (hpending₂ hfull).symm
          have hwr' : s.wal.writer = some wr₂ := by rw [← (hsame hfull).1, hwr₂]
          rcases habove with habove | ⟨wr', hwr'', heq⟩
          · exact habove wr₂ hwr'
          · obtain rfl : wr₂ = wr' := Option.some.inj (hwr'.symm.trans hwr'')
            exact absurd heq.symm hother
        | ok v =>
          obtain ⟨hcursor, hput⟩ := write_put hintact hwr₂ hwrite
          obtain ⟨wr₃, hwr₃, hfirst, -⟩ := hput.writer
          have hplace : (w₃.writer.map SegmentWriter.first).getD 0 = wr₂.first := by
            rw [hwr₃, Option.map_some, Option.getD_some, hfirst]
          simp only [hplace]
          refine hrotated.finish hwr₂ hput fun heach => hfresh (hcfg ▸ heach) ?_
          by_cases hfull : Full s.wal r
          · exact .inl hfull
          · exact .inr ⟨wr₂, by rw [← (hsame hfull).1, hwr₂], hcursor.symm⟩

theorem Inv.append (h : Inv s) (habove : Above s) (hc : NotBelow s (.append r)) :
    Inv (append r s) ∧ Above (append r s) := by
  unfold Durability.append
  split
  · exact ⟨h, habove⟩
  · cases hensure : ensureWriter r.cursor .ok s.wal with
    | mk w res =>
      obtain ⟨hcfg, hintact, hsame, hnew, herror⟩ := ensureWriter_held h.intact hensure
      cases res with
      | error e =>
        obtain rfl := herror e rfl
        exact ⟨h, habove⟩
      | ok _ =>
        by_cases hw : s.wal.writer = none
        · obtain ⟨wr, hwr, hpending⟩ := hnew rfl hw
          have hcreated := h.change (w := w) hintact hcfg id fun hr => by simp [held_none hw] at hr
          exact hcreated.appendTo (by simp [hwr]) (.inr ⟨wr, hwr, hpending⟩) fun heach _ => hc (hcfg ▸ heach) (.inl hw)
        · obtain rfl := hsame hw
          refine h.appendTo hw (.inl habove) fun heach hbegins => ?_
          rcases hbegins with hfull | ⟨wr, hwr, hpending⟩
          · exact hc heach (.inr hfull)
          · rw [Fresh, ← hpending]
            exact habove wr hwr

theorem Inv.step {a : Act} (h : Inv s) (habove : Above s) (hc : NotBelow s a) (hs : Durability.step s a = some s') :
    Inv s' ∧ Above s' := by
  have hflushed : ∀ wr, s.wal.flushBuffer.writer = some wr → ∃ wr', s.wal.writer = some wr' ∧ wr.pending = wr'.pending := by
    intro wr hwr
    cases hw : s.wal.writer with
    | none =>
      simp only [Wal.flushBuffer, hw] at hwr
      cases hwr
    | some wr' =>
      rw [((flush_held h.intact).2.2 wr' hw).2] at hwr
      cases hwr
      exact ⟨wr', rfl, rfl⟩
  cases a with
  | append r =>
    cases hs
    exact h.append habove hc
  | fsync =>
    cases hs
    refine ⟨Inv.synced_all h.intact h.batched h.placed _, fun wr hwr => ?_⟩
    obtain ⟨wr', hwr', hpending⟩ := hflushed wr hwr
    refine ⟨?_, fun pending hfl => ?_⟩
    · simp only [Durability.fsync, hwr', Option.map_some, Option.getD_some, hpending]
      exact le_rfl
    · rw [hpending]
      exact (habove wr' hwr').2 pending hfl
  | flush =>
    simp only [Durability.step] at hs
    split at hs
    · rename_i wr hidle hw
      split at hs
      · rename_i hbatched
        cases hs
        obtain ⟨hintact, hheld, hfile⟩ := flush_held h.intact
        have hplaced {k : Nat} {r : Record} (hr : (k, r) ∈ s.appended) :
            r ∈ s.synced k ∨ k = wr.first ∧ r ∈ s.wal.flushBuffer.fileRecords wr.first := by
          refine (h.placed hr).imp_right fun hr => ?_
          obtain rfl := eq_first_of_held hw hr
          exact ⟨rfl, by rwa [(hfile wr hw).1]⟩
        refine ⟨⟨hintact, fun hr => (h.placed hr).imp_right fun hr => by rwa [hheld], h.durable, ?_,
          (fun h => by cases h), fun _ => ?_⟩, fun wr' hwr' => ?_⟩
        · rintro _ _ _ ⟨⟩ k r hr -
          exact hplaced hr
        · rw [flush_cfg]
          exact hbatched
        · obtain ⟨wr'', hwr'', hpending⟩ := hflushed wr' hwr'
          obtain rfl : wr = wr'' := Option.some.inj (hw.symm.trans hwr'')
          refine ⟨hpending ▸ (habove wr hw).1, ?_⟩
          rintro _ ⟨⟩
          exact hpending.ge
      · cases hs
    · cases hs
  | sync =>
    simp only [Durability.step] at hs
    split at hs
    · rename_i first rs pending hfl
      cases hs
      have hsynced {k : Nat} {r : Record} (hr : r ∈ s.synced k) : r ∈ addSynced first rs s.synced k := by
        by_cases hk : k = first
        · subst hk
          simp [addSynced, hr]
        · simpa [addSynced, hk] using hr
      refine ⟨⟨h.intact, fun hr => (h.placed hr).imp_left hsynced, fun hr hlt => hsynced (h.durable hr hlt),
        (fun h => by cases h), ?_, fun _ => h.batched (by simp [hfl, Flusher.pending])⟩, fun wr hwr => ⟨(habove wr hwr).1, ?_⟩⟩
      · rintro _ ⟨⟩ k r hr hlt
        rcases h.cloned hfl hr hlt with hold | ⟨rfl, hmem⟩
        · exact hsynced hold
        · simp [addSynced, hmem]
      · rintro _ ⟨⟩
        exact (habove wr hwr).2 pending (by rw [hfl]; rfl)
    · cases hs
  | store =>
    simp only [Durability.step] at hs
    split at hs
    · rename_i pending hfl
      cases hs
      refine ⟨⟨h.intact, h.placed, fun hr hlt => h.written hfl hr hlt, (fun h => by cases h), (fun h => by cases h),
        fun hne => absurd rfl hne⟩,
        fun wr hwr => ⟨(habove wr hwr).2 pending (by rw [hfl]; rfl), fun _ h => by cases h⟩⟩
    · cases hs

/-- Every record below the durable cursor has been flushed to its file, and a sync of the file after that has returned, as
long as no append begins a segment below the durable cursor or below the one that the flusher thread is about to store. -/
theorem durable_synced (cfg : WalConfig) (acts : List Act) (s : State)
    (hc : Meets Durability.step NotBelow (init cfg) acts) (h : run Durability.step (init cfg) acts = some s) (k : Nat)
    (r : Record) (hr : (k, r) ∈ s.appended) (hlt : r.cursor < s.durable) : r ∈ s.synced k := by
  have hinv : Inv s ∧ Above s := run_invariant_when (fun s => Inv s ∧ Above s) NotBelow
    (fun _ _ _ hi hc hs => hi.1.step hi.2 hc hs) hc (inv_init cfg) h
  exact hinv.1.durable hr hlt

/-- Segments of two small records -/
def twoRecords : WalConfig := ⟨true, .batched, 100, 1000⟩

/-- The flusher thread syncs the first of two records. -/
def oneSynced : List Act := [.append ⟨0, 7, []⟩, .flush, .append ⟨1, 7, []⟩, .sync, .store]

theorem durable_synced_first : ∃ s, run Durability.step (init twoRecords) oneSynced = some s ∧ s.durable = 1 ∧
    (⟨0, 7, []⟩ : Record) ∈ s.synced 0 := by
  obtain ⟨s, hs, hout⟩ := Option.map_eq_some_iff.1 (show (run Durability.step (init twoRecords) oneSynced).map
    (fun s => (s.appended, s.durable)) = some ([(0, ⟨0, 7, []⟩), (0, ⟨1, 7, []⟩)], 1) by decide +kernel)
  obtain ⟨happended, hdurable⟩ := Prod.mk.inj hout
  have hc : Meets Durability.step NotBelow (init twoRecords) oneSynced := by
    refine Meets.mono (C := fun s a => (match a with
      | .append r => decide (s.durable ≤ r.cursor) && s.flusher.pending.all fun p => decide (p ≤ r.cursor)
      | _ => true) = true) (fun t a ht => ?_) (by decide +kernel)
    cases a with
    | append r =>
      simp only [Bool.and_eq_true, decide_eq_true_eq, Option.all_eq_true_iff_get] at ht
      intro _ _
      refine ⟨ht.1, fun pending hp => ?_⟩
      simpa [hp] using ht.2
    | _ => trivial
  refine ⟨s, hs, hdurable, durable_synced twoRecords oneSynced s hc hs 0 ⟨0, 7, []⟩ (by simp [happended]) ?_⟩
  rw [hdurable]
  exact Nat.one_pos

/-- Two records are durable, and an append that rotates the segment takes the cursor of the second one again. -/
theorem not_durable : ¬∀ (cfg : WalConfig) (acts : List Act) (s : State),
    run Durability.step (init cfg) acts = some s →
    ∀ k r, (k, r) ∈ s.appended → r.cursor < s.durable → r ∈ s.synced k := by
  intro h
  obtain ⟨s, hs, hout⟩ := Option.map_eq_some_iff.1 (show (run Durability.step (init twoRecords)
    [.append ⟨0, 7, []⟩, .append ⟨1, 7, []⟩, .fsync, .append ⟨1, 8, []⟩]).map
      (fun s => (s.appended.getLast?, s.durable, s.synced 1)) = some (some (1, ⟨1, 8, []⟩), 2, []) by decide +kernel)
  obtain ⟨hlast, hout⟩ := Prod.mk.inj hout
  obtain ⟨hdurable, hsynced⟩ := Prod.mk.inj hout
  have hmem := h twoRecords _ s hs 1 ⟨1, 8, []⟩ (List.mem_of_getLast? hlast) (by rw [hdurable]; decide)
  rw [hsynced] at hmem
  cases hmem

end Durability

end Mmbus
