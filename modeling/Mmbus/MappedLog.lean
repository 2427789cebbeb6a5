import Mmbus.MappedCalls
import Mmbus.SessionsV2

/-!
# The log in mapped files

The memory-mapped log once more, on the bytes of its files and on a file system that answers every call.  What this log
does the log of `V2.Wal` does as well (`append_simulates`, `open_simulates`): its files are the segments of that one
(`Images`).
-/

namespace Mmbus.V2.File

open Attempt FlagBit Replays

/-- The segment files, opened and read by `MmapSegmentReader` -/
def source (crc32c : Bytes → UInt32) (files : SortedMap Nat Mapping) : Source ReaderError Record OpenSegment where
  «open» k :=
    match files.lookup k with
    | none => .error .io
    | some s =>
      match MmapSegmentReader.open s.size s.mem with
      | .ok rd => .ok ⟨s.size, s.mem, rd⟩
      | .error e => .error e
  next f := f.next crc32c
  rounds f := f.size
  number := Record.cursor

/-- The arguments of an append -/
structure Call where
  cursor : UInt64
  ts : UInt64
  payload : Bytes

def Call.record (c : Call) : Record := ⟨c.cursor.toNat, c.ts.toNat, c.payload⟩

structure Wal where
  cfg : WalConfig
  files : SortedMap Nat Mapping
  segments : SortedMap Nat Unit
  segmentSizes : SortedMap Nat Nat
  activeBytes : Nat
  retainedBytes : Nat
  writer : Option Nat
  active : Nat
  pendingCursor : Nat

namespace Wal

/-- `MmapSegmentWriter::create` -/
def createFile (first : Nat) : Attempt WalError Wal := fun w =>
  if w.cfg.segmentSizeMax < SEGMENT_HEADER_LEN + RECORD_FRAMING then (w, .error .segmentTooSmall)
  else if first ∈ w.files.keys then (w, .error .io)
  else
    match Mapping.create w.cfg.segmentSizeMax first with
    | some s => ({ w with files := w.files.insert first s }, .ok ())
    | none => (w, .error .io) -- no file is that long

/-- The new segment becomes the active one. -/
def activate (first : Nat) (w : Wal) : Wal :=
  { w with segments := w.segments.insert first (), activeBytes := SEGMENT_HEADER_LEN, writer := some first }

def storeActive (first : Nat) : Attempt WalError Wal := fun w => ({ w with active := first }, .ok ())

/-- Deferred creation of the writer -/
def createDeferred (first : Nat) : Attempt WalError Wal :=
  ((createFile first).andThen fun w => (w.activate first, .ok ())).andThen (storeActive first)

/-- The accounting of a closed segment -/
def retain (first finalBytes : Nat) (w : Wal) : Wal :=
  { w with
    segmentSizes := w.segmentSizes.insert first finalBytes
    retainedBytes := w.retainedBytes + finalBytes }

/-- Delete the segment `k`. -/
def retire (k : Nat) (w : Wal) : Wal :=
  { w with
    files := w.files.erase k
    segments := w.segments.erase k
    segmentSizes := w.segmentSizes.erase k
    retainedBytes := wrappingSub 64 w.retainedBytes ((w.segmentSizes.lookup k).getD 0) }

/-- `enforce_retention_locked`: each round deletes a segment, so as many rounds as there are segments are enough. -/
def enforceRetention : (rounds : Nat) → Wal → Wal
  | 0, w => w
  | rounds + 1, w =>
    if w.retainedBytes + w.activeBytes ≤ w.cfg.retentionBytes then w
    else
      match w.segments.keys.find? fun k => some k ≠ w.writer with
      | some k => enforceRetention rounds (w.retire k)
      | none => w

/-- The bookkeeping after a record written by the writer `first` -/
def recorded (first : Nat) (c : Call) (w : Wal) : Wal :=
  { w with pendingCursor := c.cursor.toNat + 1, activeBytes := (w.files.lookup first).elim 0 Mapping.tail }

section
variable (crc32c : Bytes → UInt32)

/-- Take the writer `first` and mark the end of its segment. -/
def closeWriter (first : Nat) (w : Wal) : Wal :=
  { w with writer := none, files := w.files.modify first (Mapping.writeSkipToEnd crc32c) }

def rotateLocked (newFirst : Nat) : Attempt WalError Wal := fun w =>
  match w.writer with
  | none => createDeferred newFirst w
  | some first =>
    let finalBytes := (w.files.lookup first).elim 0 Mapping.tail
    ((createFile newFirst).andThen (storeActive newFirst)).andThen
      (fun w => ((w.retain first finalBytes).activate newFirst, .ok ())) (w.closeWriter crc32c first)

/-- The slow path of an append: create the writer, or rotate before a record that does not fit. -/
def acquireWriter (c : Call) : Attempt WalError Wal := fun w =>
  match w.writer with
  | none => createDeferred c.cursor.toNat w
  | some _ =>
    if w.cfg.segmentSizeMax < w.activeBytes + recordBytes c.record then rotateLocked crc32c c.cursor.toNat w
    else (w, .ok ())

/-- The append of the writer with the first cursor `first` -/
def put (first : Nat) (c : Call) (w : Wal) : Option Wal :=
  match (w.files.lookup first).bind (Mapping.append crc32c c.cursor c.ts c.payload) with
  | some s => some { w with files := w.files.modify first fun _ => s }
  | none => none

/-- Write the record; a segment that is full after all is rotated, once. -/
def write (first : Nat) (c : Call) : Attempt WalError Wal := fun w =>
  match w.put crc32c first c with
  | some w => (w, .ok ())
  | none =>
    (rotateLocked crc32c c.cursor.toNat).andThen (fun w =>
      match w.writer.bind fun second => w.put crc32c second c with
      | some w => (w, .ok ())
      | none => (w, .error (.payloadTooLarge c.payload.length))) w

/-- The rest of an append, with the writer it has acquired.  The inline flush of `FsyncPolicy::Each` changes nothing that
a process sees. -/
def appendWith (c : Call) : Attempt WalError Wal := fun w =>
  match w.writer with
  | none => (w, .error .io) -- not reached: a writer has been acquired
  | some first =>
    (write crc32c first c).andThen (fun w =>
      ((w.recorded first c).enforceRetention w.segments.keys.length, .ok ())) w

/-- `Wal::append` -/
def append (c : Call) : Attempt WalError Wal := fun w =>
  if w.cfg.enabled = false then (w, .ok ())
  else if MAX_PAYLOAD_LEN < c.payload.length then (w, .error (.payloadTooLarge c.payload.length))
  else (acquireWriter crc32c c).andThen (appendWith crc32c c) w

/-- The log over the files before its writer exists -/
def ofFiles (cfg : WalConfig) (files : SortedMap Nat Mapping) (active pending : Nat) : Wal where
  cfg := cfg
  files := files
  segments := files.map fun _ _ => ()
  segmentSizes := files.map fun _ => Mapping.size
  activeBytes := 0
  retainedBytes := (files.entries.map fun p => p.2.size).sum
  writer := none
  active := active
  pendingCursor := pending

/-- The cursor after the last record of the last segment, which counts as empty if its header cannot be read -/
def nextCursor (files : SortedMap Nat Mapping) (lastFirst : Nat) (s : Mapping) : Nat :=
  match MmapSegmentReader.open s.size s.mem with
  | .ok rd =>
    (((source crc32c files).entries s.size ⟨s.size, s.mem, rd⟩).getLast?.map fun r => r.cursor + 1).getD lastFirst
  | .error _ => lastFirst

/-- `Wal::open`; `active` is what `active.dat` holds. -/
def «open» (cfg : WalConfig) (files : SortedMap Nat Mapping) (active : Nat) : Except WalError Wal :=
  match files.last? with
  | none => .ok (ofFiles cfg files active 0)
  | some (lastFirst, s) =>
    let next := nextCursor crc32c files lastFirst s
    if next = lastFirst then .ok (ofFiles cfg files lastFirst lastFirst)
    else
      match createDeferred next (ofFiles cfg files active next) with
      | (w, .ok _) => .ok w
      | (_, .error e) => .error e

end

/-- `Wal::fsync` changes nothing that a process sees. -/
def fsync (w : Wal) : Wal := w

end Wal

/-! ### The records in the files -/

/-- The log `w` holds, in segments of records, what `fw` holds in mapped files; the file of a writer is between two
calls. -/
structure Images (crc32c : Bytes → UInt32) (fw : Wal) (w : V2.Wal) : Prop where
  cfg : fw.cfg = w.cfg
  dir : w.dir = fw.files.map fun _ => Mapping.segment
  segments : fw.segments = w.segments
  segmentSizes : fw.segmentSizes = w.segmentSizes
  activeBytes : fw.activeBytes = w.activeBytes
  retainedBytes : fw.retainedBytes = w.retainedBytes
  writer : fw.writer = w.writer
  active : fw.active = w.active
  pendingCursor : fw.pendingCursor = w.pendingCursor
  healthy : w.poisoned = false
  mapped : ∀ p ∈ fw.files.entries, p.2.Mapped crc32c p.1
  idle : ∀ k s, fw.writer = some k → fw.files.lookup k = some s → ∃ full, s.writer = .idle full

variable {crc32c : Bytes → UInt32} {fw fw' : Wal} {w : V2.Wal} {c : Call} {first : Nat}

theorem Images.keys (h : Images crc32c fw w) : w.dir.keys = fw.files.keys := by
  rw [h.dir, SortedMap.keys_map]

theorem Images.lookup (h : Images crc32c fw w) (k : Nat) :
    w.dir.lookup k = (fw.files.lookup k).map Mapping.segment := by
  rw [h.dir, SortedMap.lookup_map]

/-- Both logs see the same tail. -/
theorem Images.tail (h : Images crc32c fw w) (k : Nat) :
    (w.dir.lookup k).elim 0 Segment.tail = (fw.files.lookup k).elim 0 Mapping.tail := by
  rw [h.lookup]
  cases fw.files.lookup k <;> rfl

/-- A file is added, and no writer yet. -/
theorem createFile_simulates : Simulates (fun fw w => Images crc32c fw w ∧ w.writer = none)
    (fun fw w => Images crc32c fw w ∧ w.writer = none ∧
      ∀ s, fw.files.lookup first = some s → ∃ full, s.writer = .idle full)
    (Wal.createFile first) (V2.Wal.createFile first .ok) := by
  rintro fw w fw' ⟨h, hw⟩ hs
  unfold Wal.createFile at hs
  rw [h.cfg] at hs
  split at hs
  · cases hs
  · rename_i hsize
    split at hs
    · cases hs
    · rename_i hnew
      split at hs
      · rename_i s hcreate
        cases hs
        obtain ⟨hmapped, hsegment, hidle⟩ : s.Mapped crc32c first ∧ s.segment = .empty w.cfg.segmentSizeMax ∧
            s.writer = .idle false := Mapping.create_segment hcreate
        have hnew' : ¬(WalIo.ok.createNew = false ∨ first ∈ w.dir.keys) := by
          rintro (h' | h')
          · cases h'
          · exact hnew (h.keys ▸ h')
        have hfile : V2.Wal.createFile first .ok w = (w.addFile first, .ok ()) := by
          rw [V2.Wal.createFile, if_neg hsize, if_neg hnew', if_neg (by decide)]
        refine ⟨_, hfile, ⟨rfl, ?_, h.segments, h.segmentSizes, h.activeBytes, h.retainedBytes, h.writer, h.active,
          h.pendingCursor, h.healthy, ?_, ?_⟩, hw, ?_⟩
        · simp only [V2.Wal.addFile, h.dir, SortedMap.map_insert, hsegment]
        · intro p hp
          rcases SortedMap.mem_insertEntry hp with rfl | hp
          · exact hmapped
          · exact h.mapped p hp
        · intro k s' hk
          rw [show fw.writer = none from h.writer.trans hw] at hk
          cases hk
        · intro s' hs'
          have hmem := SortedMap.lookup_eq_some hs'
          rcases SortedMap.mem_insertEntry hmem with heq | hmem
          · cases heq
            exact ⟨false, hidle⟩
          · exact absurd (SortedMap.mem_keys.2 ⟨s', hmem⟩) hnew
      · cases hs

/-- The new segment has a writer. -/
theorem Images.activate (h : Images crc32c fw w)
    (hidle : ∀ s, fw.files.lookup first = some s → ∃ full, s.writer = .idle full) :
    Images crc32c (fw.activate first) (w.activate first) := by
  refine ⟨h.cfg, h.dir, ?_, h.segmentSizes, rfl, h.retainedBytes, rfl, h.active, h.pendingCursor, h.healthy, h.mapped, ?_⟩
  · simp only [Wal.activate, V2.Wal.activate, h.segments]
  · rintro k s ⟨⟩ hs
    exact hidle s hs

theorem createDeferred_simulates : Simulates (fun fw w => Images crc32c fw w ∧ w.writer = none) (Images crc32c)
    (Wal.createDeferred first) (V2.Wal.createDeferred first .ok) := by
  refine (createFile_simulates.andThen (T := Images crc32c) ?_).andThen ?_
  · rintro fw w fw' ⟨h, -, hidle⟩ hs
    cases hs
    exact ⟨_, rfl, h.activate hidle⟩
  · intro fw w fw' h hs
    cases hs
    exact ⟨_, rfl, h.cfg, h.dir, h.segments, h.segmentSizes, h.activeBytes, h.retainedBytes, h.writer, rfl,
      h.pendingCursor, h.healthy, h.mapped, h.idle⟩

theorem Images.closeWriter (h : Images crc32c fw w) (hw : fw.writer = some first) :
    Images crc32c (fw.closeWriter crc32c first) (w.closeWriter first) := by
  have hskip : ∀ s, (first, s) ∈ fw.files.entries → (s.writeSkipToEnd crc32c).Mapped crc32c first ∧
      (s.writeSkipToEnd crc32c).segment = s.segment.writeSkipToEnd := by
    intro s hs
    obtain ⟨full, hidle⟩ := h.idle first s hw (SortedMap.lookup_of_mem hs)
    exact (h.mapped _ hs).writeSkipToEnd hidle
  refine ⟨h.cfg, ?_, h.segments, h.segmentSizes, h.activeBytes, h.retainedBytes, rfl, h.active, h.pendingCursor, h.healthy,
    ?_, nofun⟩
  · simp only [Wal.closeWriter, V2.Wal.closeWriter, h.dir]
    exact (SortedMap.map_modify first fun s hs => (hskip s hs).2).symm
  · intro p hp
    obtain ⟨q, hq, rfl⟩ := List.mem_map.1 hp
    obtain ⟨k, s⟩ := q
    by_cases hk : k = first
    · subst hk
      simpa using (hskip s hq).1
    · simpa [hk] using h.mapped (k, s) hq

theorem rotateLocked_simulates : Simulates (Images crc32c) (Images crc32c) (Wal.rotateLocked crc32c first)
    (V2.Wal.rotateLocked first .ok) := by
  intro fw w fw' h hs
  unfold Wal.rotateLocked at hs
  unfold V2.Wal.rotateLocked
  cases hw : fw.writer with
  | none =>
    simp only [hw, ← h.writer] at hs ⊢
    exact createDeferred_simulates fw w fw' ⟨h, h.writer ▸ hw⟩ hs
  | some old =>
    simp only [hw, ← h.writer, h.tail old] at hs ⊢
    refine (createFile_simulates.andThen (T := fun fw w => Images crc32c fw w ∧
      ∀ s, fw.files.lookup first = some s → ∃ full, s.writer = .idle full) ?_).andThen ?_ _ _ fw' ⟨h.closeWriter hw, rfl⟩ hs
    · rintro fw w fw' ⟨h, -, hidle⟩ hs
      cases hs
      exact ⟨_, rfl, ⟨h.cfg, h.dir, h.segments, h.segmentSizes, h.activeBytes, h.retainedBytes, h.writer, rfl,
        h.pendingCursor, h.healthy, h.mapped, h.idle⟩, hidle⟩
    · rintro fw w fw' ⟨h, hidle⟩ hs
      cases hs
      refine ⟨_, rfl, Images.activate ⟨h.cfg, h.dir, h.segments, ?_, h.activeBytes, ?_, h.writer, h.active,
        h.pendingCursor, h.healthy, h.mapped, h.idle⟩ hidle⟩
      · simp only [Wal.retain, V2.Wal.retain, h.segmentSizes]
      · simp only [Wal.retain, V2.Wal.retain, h.retainedBytes]

theorem acquireWriter_simulates : Simulates (Images crc32c) (Images crc32c) (Wal.acquireWriter crc32c c)
    (V2.Wal.acquireWriter c.record .ok) := by
  intro fw w fw' h hs
  unfold Wal.acquireWriter at hs
  unfold V2.Wal.acquireWriter
  cases hw : fw.writer with
  | none =>
    simp only [hw, ← h.writer] at hs ⊢
    exact createDeferred_simulates fw w fw' ⟨h, h.writer ▸ hw⟩ hs
  | some first =>
    simp only [hw, ← h.writer, ← h.cfg, ← h.activeBytes] at hs ⊢
    split at hs
    · rename_i hfull
      obtain ⟨w', hw', himages⟩ := rotateLocked_simulates fw w fw' h hs
      exact ⟨w', by rw [if_pos hfull]; exact hw', himages⟩
    · rename_i hfull
      cases hs
      exact ⟨w, by rw [if_neg hfull], h⟩

/-! ### Writing a record -/

theorem put_simulates (h : Images crc32c fw w) (hw : fw.writer = some first) (hlen : c.payload.length ≤ MAX_PAYLOAD_LEN) :
    (∀ fw', fw.put crc32c first c = some fw' → ∃ w', w.put first c.record = some w' ∧ Images crc32c fw' w') ∧
      (fw.put crc32c first c = none → w.put first c.record = none) := by
  simp only [Wal.put, V2.Wal.put, h.lookup first]
  cases hs : fw.files.lookup first with
  | none => exact ⟨(fun _ h => by cases h), fun _ => rfl⟩
  | some s =>
    obtain ⟨full, hidle⟩ := h.idle first s hw hs
    have hmapped := h.mapped _ (SortedMap.lookup_eq_some hs)
    simp only [Option.map_some, Option.bind_some]
    cases happend : s.append crc32c c.cursor c.ts c.payload with
    | none =>
      refine ⟨(fun _ h => by cases h), fun _ => ?_⟩
      have hfull : s.segment.append c.record = none := hmapped.append_none hidle hlen happend
      rw [hfull]
    | some s' =>
      obtain ⟨hmapped', hidle', hsegment⟩ := hmapped.append_some hidle hlen happend
      have hsegment' : s.segment.append c.record = some s'.segment := hsegment
      refine ⟨?_, fun h => by cases h⟩
      rintro _ ⟨⟩
      rw [hsegment']
      refine ⟨_, rfl, h.cfg, ?_, h.segments, h.segmentSizes, h.activeBytes, h.retainedBytes, h.writer, h.active,
        h.pendingCursor, h.healthy, ?_, ?_⟩
      · simp only [h.dir]
        exact (SortedMap.map_modify (f := fun _ => Mapping.segment) (g := fun _ => s') first fun _ _ => rfl).symm
      · intro p hp
        obtain ⟨q, hq, rfl⟩ := List.mem_map.1 hp
        obtain ⟨k, t⟩ := q
        by_cases hk : k = first
        · subst hk
          simpa using hmapped'
        · simpa [hk] using h.mapped (k, t) hq
      · intro k t hk ht
        obtain rfl : first = k := Option.some.inj (hw.symm.trans hk)
        rw [SortedMap.modify, SortedMap.lookup_map, hs] at ht
        simp only [if_true, Option.map_some, Option.some.injEq] at ht
        exact ⟨false, ht ▸ hidle'⟩

theorem write_simulates (hlen : c.payload.length ≤ MAX_PAYLOAD_LEN) :
    Simulates (fun fw w => Images crc32c fw w ∧ fw.writer = some first) (Images crc32c) (Wal.write crc32c first c)
      (V2.Wal.write first c.record .ok) := by
  rintro fw w fw' ⟨h, hw⟩ hs
  obtain ⟨hsome, hnone⟩ := put_simulates h hw hlen
  unfold Wal.write at hs
  unfold V2.Wal.write
  split at hs
  · rename_i hput
    cases hs
    obtain ⟨w', hw', himages⟩ := hsome _ hput
    exact ⟨w', by rw [hw'], himages⟩
  · rename_i hput
    rw [hnone hput]
    refine rotateLocked_simulates.andThen (T := Images crc32c) ?_ fw w fw' h hs
    intro fw w fw' h hs
    cases hw : fw.writer with
    | none => simp [hw] at hs
    | some second =>
      have hw' : w.writer = some second := h.writer ▸ hw
      simp only [hw, hw', Option.bind_some] at hs ⊢
      split at hs
      · rename_i hput
        cases hs
        obtain ⟨w', hw', himages⟩ := (put_simulates h hw hlen).1 _ hput
        exact ⟨w', by rw [hw'], himages⟩
      · cases hs

theorem Images.retire (h : Images crc32c fw w) (k : Nat) : Images crc32c (fw.retire k) (w.retire k) := by
  refine ⟨h.cfg, ?_, ?_, ?_, h.activeBytes, ?_, h.writer, h.active, h.pendingCursor, h.healthy,
    fun p hp => h.mapped p (List.mem_of_mem_filter hp), fun j s hj hs => h.idle j s hj ?_⟩
  · simp only [Wal.retire, V2.Wal.retire, h.dir, SortedMap.map_erase]
  · simp only [Wal.retire, V2.Wal.retire, h.segments]
  · simp only [Wal.retire, V2.Wal.retire, h.segmentSizes]
  · simp only [Wal.retire, V2.Wal.retire, h.retainedBytes, h.segmentSizes]
  · exact SortedMap.lookup_of_mem (List.mem_of_mem_filter (SortedMap.lookup_eq_some hs))

theorem Images.enforceRetention {rounds : Nat} (h : Images crc32c fw w) :
    Images crc32c (fw.enforceRetention rounds) (w.enforceRetention rounds) := by
  induction rounds generalizing fw w with
  | zero => exact h
  | succ rounds ih =>
    unfold Wal.enforceRetention V2.Wal.enforceRetention
    rw [h.cfg, h.activeBytes, h.retainedBytes, h.segments, h.writer]
    by_cases hle : w.retainedBytes + w.activeBytes ≤ w.cfg.retentionBytes
    · rw [if_pos hle, if_pos hle]
      exact h
    · rw [if_neg hle, if_neg hle]
      cases w.segments.keys.find? fun k => some k ≠ w.writer with
      | none => exact h
      | some k => exact ih (h.retire k)

theorem Images.recorded (h : Images crc32c fw w) : Images crc32c (fw.recorded first c) (w.recorded first c.record) :=
  ⟨h.cfg, h.dir, h.segments, h.segmentSizes, (h.tail first).symm, h.retainedBytes, h.writer, h.active, rfl, h.healthy,
    h.mapped, h.idle⟩

theorem appendWith_simulates (hlen : c.payload.length ≤ MAX_PAYLOAD_LEN) : Simulates (Images crc32c) (Images crc32c)
    (Wal.appendWith crc32c c) (V2.Wal.appendWith c.record .ok) := by
  intro fw w fw' h hs
  unfold Wal.appendWith at hs
  unfold V2.Wal.appendWith
  cases hw : fw.writer with
  | none =>
    simp only [hw] at hs
    cases hs
  | some first =>
    simp only [hw, ← h.writer] at hs ⊢
    have hretain : Simulates (Images crc32c) (Images crc32c)
        (fun w => ((w.recorded first c).enforceRetention w.segments.keys.length, .ok ()))
        (fun w => ((w.recorded first c.record).enforceRetention w.segments.keys.length,
          (.ok () : Except WalError Unit))) := by
      intro fw w fw' h hs
      cases hs
      exact ⟨_, rfl, by rw [h.segments]; exact h.recorded.enforceRetention⟩
    obtain ⟨w', hw', himages⟩ := (write_simulates hlen).andThen hretain fw w fw' ⟨h, hw⟩ hs
    refine ⟨w', andThen_eq_ok.2 ⟨w', hw', ?_⟩, himages⟩
    simp [V2.Wal.syncEach, WalIo.ok]

/-- A successful append -/
theorem append_simulates : Simulates (Images crc32c) (Images crc32c) (Wal.append crc32c c)
    (V2.Wal.append c.cursor.toNat c.ts.toNat c.payload .ok) := by
  intro fw w fw' h hs
  unfold Wal.append at hs
  rw [h.cfg] at hs
  unfold V2.Wal.append
  split at hs
  · rename_i hdisabled
    cases hs
    exact ⟨w, by rw [if_pos hdisabled], h⟩
  · rename_i henabled
    split at hs
    · cases hs
    · rename_i hlen
      simp only [if_neg henabled, if_neg hlen, h.healthy, Bool.false_eq_true, if_false]
      exact acquireWriter_simulates.andThen (appendWith_simulates (not_lt.1 hlen)) fw w fw' h hs

/-! ### Opening the log -/

theorem source_serves (crc32c : Bytes → UInt32) (files : SortedMap Nat Mapping) :
    (source crc32c files).Serves (OpenSegment.Before crc32c) where
  nil h := h.next_nil
  cons h := by
    obtain ⟨f', hnext, hf', -⟩ := h.next_cons
    exact ⟨f', hnext, hf'⟩
  le_rounds h := h.length_le

theorem nextCursor_mapped {files : SortedMap Nat Mapping} {k : Nat} {s : Mapping} (h : s.Mapped crc32c k) :
    Wal.nextCursor crc32c files k s = V2.Wal.nextCursor k s.segment := by
  have hentries := (source_serves crc32c files).entries (OpenSegment.before_open h)
    (OpenSegment.before_open h).length_le
  simp only [Wal.nextCursor, open_mapped h, V2.Wal.nextCursor, Mapping.segment, if_true]
  rw [hentries]

theorem ofFiles_images {cfg : WalConfig} {files : SortedMap Nat Mapping} {active pending : Nat}
    (hmapped : ∀ p ∈ files.entries, p.2.Mapped crc32c p.1) :
    Images crc32c (Wal.ofFiles cfg files active pending)
      (V2.Wal.ofDir cfg (files.map fun _ => Mapping.segment) active pending) := by
  refine ⟨rfl, rfl, ?_, ?_, rfl, ?_, rfl, rfl, rfl, rfl, hmapped, fun _ _ h => by cases h⟩
  · simp only [Wal.ofFiles, V2.Wal.ofDir, SortedMap.map_map]
  · simp only [Wal.ofFiles, V2.Wal.ofDir, SortedMap.map_map]
    rfl
  · simp only [Wal.ofFiles, V2.Wal.ofDir, SortedMap.map, List.map_map]
    rfl

/-- A successful open -/
theorem open_simulates {cfg : WalConfig} {files : SortedMap Nat Mapping} {active : Nat}
    (hmapped : ∀ p ∈ files.entries, p.2.Mapped crc32c p.1) (hs : Wal.open crc32c cfg files active = .ok fw) :
    ∃ w, V2.Wal.open cfg (files.map fun _ => Mapping.segment) active = .ok w ∧ Images crc32c fw w := by
  unfold Wal.open at hs
  simp only [V2.Wal.open, SortedMap.last?_map]
  cases hlast : files.last? with
  | none =>
    simp only [hlast, Except.ok.injEq] at hs
    exact ⟨_, rfl, hs ▸ ofFiles_images hmapped⟩
  | some p =>
    obtain ⟨k, s⟩ := p
    have hmem : (k, s) ∈ files.entries := by
      obtain ⟨closed, hentries⟩ := SortedMap.last?_eq_some hlast
      simp [hentries]
    simp only [hlast, nextCursor_mapped (hmapped _ hmem)] at hs
    simp only [Option.map_some]
    split at hs
    · rename_i heq
      cases hs
      exact ⟨_, by simp only [if_pos heq], ofFiles_images hmapped⟩
    · rename_i hne
      split at hs
      · rename_i fw₁ _ hcreate
        cases hs
        obtain ⟨w, hw, himages⟩ := createDeferred_simulates _ _ _ ⟨ofFiles_images hmapped, rfl⟩ hcreate
        exact ⟨w, by simp only [if_neg hne, hw], himages⟩
      · cases hs

end Mmbus.V2.File
