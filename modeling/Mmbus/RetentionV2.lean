import Mathlib.Algebra.Order.BigOperators.Group.List
import Mathlib.Algebra.Order.Group.Nat
import Mmbus.RefusalsV2

/-!
# What a restart does to the accounts of the memory-mapped log

A rotation counts a closed segment by the bytes used in it, and an open by the length of its file, which is
preallocated.  So the accounts survive a drop and an open exactly if the files have no unused room
(`retained_by_restart_iff`): then the total grows by the header of an empty segment at most, and the next append deletes
nothing unless its own bytes exceed the limit.
-/

namespace Mmbus.V2.Wal

open Attempt Transition FlagBit

/-- `total_wal_bytes` -/
def totalWalBytes (w : Wal) : Nat := w.retainedBytes + w.activeBytes

/-- The used bytes of each segment, as the log counts them: those of the closed segments and of the active one -/
def used (w : Wal) : SortedMap Nat Nat :=
  match w.writer with
  | some first => w.segmentSizes.insert first w.activeBytes
  | none => w.segmentSizes

/-- What `active_bytes` still counts of a segment whose rotation has failed -/
def leftover (w : Wal) : Nat :=
  match w.writer with
  | some _ => 0
  | none => w.activeBytes

/-- The bytes of the files that are not used -/
def unused (w : Wal) : Nat := (w.dir.entries.map fun p => p.2.size - (w.used.lookup p.1).getD 0).sum

/-- The header of the segment that the next open creates, which it does behind records -/
def nextHeader (w : Wal) : Nat :=
  match w.dir.last? with
  | none => 0
  | some (lastFirst, seg) => if nextCursor lastFirst seg = lastFirst then 0 else SEGMENT_HEADER_LEN

/-- The files have no room left, but for what a header takes. -/
def Packed (w : Wal) : Prop := w.unused + w.nextHeader ≤ SEGMENT_HEADER_LEN + w.leftover

instance (w : Wal) : Decidable w.Packed := inferInstanceAs (Decidable (_ ≤ _))

/-- What an append may add to the total: its record, and the header of a segment -/
def ownBytes (payload : Bytes) : Nat := SEGMENT_HEADER_LEN + alignRecordLen (RECORD_FRAMING + payload.length)

/-- A drop and an open leave the total as it is, but for a header, and the first append after them deletes no segment
unless its own bytes take the total over the limit. -/
def RetainedByRestart (w : Wal) : Prop :=
  ∃ w₁ h, w.call .reopen = some w₁ ∧ h ≤ SEGMENT_HEADER_LEN ∧ w₁.totalWalBytes = w.totalWalBytes + h ∧
    ∀ cursor ts payload, w₁.pendingCursor ≤ cursor → w.totalWalBytes ≤ w.cfg.retentionBytes →
      (∀ k ∈ w₁.segments.keys, k ∈ (append cursor ts payload .ok w₁).1.segments.keys) ∨
        w.cfg.retentionBytes < w.totalWalBytes + h + ownBytes payload

/-- The cursors of the publisher do not go back. -/
def Monotone (w : Wal) : LogCall → Prop
  | .append cursor _ _ => w.pendingCursor ≤ cursor
  | .bumpGeneration | .flush | .reopen => True

instance (w : Wal) : ∀ a, Decidable (w.Monotone a)
  | .append cursor _ _ => inferInstanceAs (Decidable (w.pendingCursor ≤ cursor))
  | .bumpGeneration | .flush | .reopen => .isTrue trivial

/-- A call of the publisher on the log.  The byte counters are words. -/
def step (w : Wal) (a : LogCall) : Option Wal :=
  if w.Monotone a ∧ w.totalWalBytes < 2 ^ 64 then w.call a else none

variable {cfg : WalConfig} {w w' : Wal} {r : Record} {first k : Nat}

/-! ### The accounts -/

/-- The sizes of the closed segments.  No record of a segment comes before its name. -/
structure Tallied (w : Wal) : Prop where
  sizes : ∀ k n, w.segmentSizes.lookup k = some n → ∃ seg, w.dir.lookup k = some seg ∧ n ≤ seg.size
  retained : w.retainedBytes = (w.segmentSizes.entries.map Prod.snd).sum
  room : ∀ k ∈ w.dir.keys, SEGMENT_HEADER_LEN + RECORD_FRAMING ≤ w.cfg.segmentSizeMax
  named : ∀ k seg, w.dir.lookup k = some seg → ∀ r ∈ seg.records, k ≤ r.cursor

/-- The accounts of the closed segments and of the active one, or of the last active one when there is none -/
structure Counts (w : Wal) : Prop extends w.Tallied where
  active : ∀ first, w.writer = some first → w.segmentSizes.lookup first = none ∧ ∃ seg, w.dir.lookup first = some seg ∧
    seg.tail = w.activeBytes ∧ seg.tail ≤ seg.size ∧ seg.size = w.cfg.segmentSizeMax
  closed : w.writer = none → w.activeBytes = 0 ∨ ∃ k seg, w.segmentSizes.lookup k = none ∧
    w.dir.lookup k = some seg ∧ w.activeBytes ≤ seg.size

/-- The active segment is not named by a cursor that is still to come. -/
def Ahead (w : Wal) : Prop := ∀ first, w.writer = some first → first ≤ w.pendingCursor

theorem ahead_of_none (hw : w.writer = none) : w.Ahead := by
  intro first hfirst
  rw [hw] at hfirst
  cases hfirst

/-- What is used is in the files. -/
theorem Counts.used_le (h : w.Counts) {n : Nat} (hn : w.used.lookup k = some n) :
    ∃ seg, w.dir.lookup k = some seg ∧ n ≤ seg.size := by
  unfold used at hn
  cases hw : w.writer with
  | none =>
    rw [hw] at hn
    exact h.sizes k n hn
  | some first =>
    rw [hw] at hn
    by_cases hk : k = first
    · subst hk
      obtain ⟨-, seg, hseg, htail, hle, -⟩ := h.active k hw
      rw [SortedMap.lookup_insert, Option.some.injEq] at hn
      exact ⟨seg, hseg, by omega⟩
    · rw [SortedMap.lookup_insert_of_ne hk] at hn
      exact h.sizes k n hn

/-- The total is what is used, and what is left of a failed rotation. -/
theorem Counts.total_eq (h : w.Counts) : w.totalWalBytes = (w.used.entries.map Prod.snd).sum + w.leftover := by
  unfold totalWalBytes used leftover
  rw [h.retained]
  cases hw : w.writer with
  | none => rfl
  | some first => rw [SortedMap.sum_insert (SortedMap.not_mem_keys_of_lookup (h.active first hw).1), Nat.add_zero]

private theorem sum_sub_add {l : List (Nat × Segment)} {f g : Nat × Segment → Nat} (h : ∀ p ∈ l, g p ≤ f p) :
    (l.map fun p => f p - g p).sum + (l.map g).sum = (l.map f).sum := by
  induction l with
  | nil => rfl
  | cons p l ih =>
    have hp := h p (List.mem_cons_self ..)
    have hl := ih fun q hq => h q (List.mem_cons_of_mem _ hq)
    simp only [List.map_cons, List.sum_cons]
    omega

/-- The files are what is used and what is not. -/
theorem Counts.files_eq (h : w.Counts) :
    w.unused + (w.used.entries.map Prod.snd).sum = (w.dir.entries.map fun p => p.2.size).sum := by
  have hkeys : ∀ k ∈ w.used.keys, k ∈ w.dir.keys := by
    intro k hk
    obtain ⟨n, hn⟩ := SortedMap.mem_keys.1 hk
    obtain ⟨seg, hseg, -⟩ := h.used_le (SortedMap.lookup_of_mem hn)
    exact SortedMap.mem_keys_of_lookup hseg
  rw [unused, ← SortedMap.sum_lookup hkeys]
  refine sum_sub_add fun p hp => ?_
  cases hn : w.used.lookup p.1 with
  | none => exact Nat.zero_le _
  | some n =>
    obtain ⟨seg, hseg, hle⟩ := h.used_le hn
    rw [SortedMap.lookup_of_mem hp, Option.some.injEq] at hseg
    rw [hseg]
    exact hle

/-- A segment whose rotation has failed is not counted as used. -/
theorem Counts.leftover_le (h : w.Counts) : w.leftover ≤ w.unused := by
  unfold leftover
  cases hw : w.writer with
  | some first => exact Nat.zero_le _
  | none =>
    rcases h.closed hw with hzero | ⟨k, seg, hnone, hseg, hle⟩
    · simp only [hzero, Nat.zero_le]
    · have hmem : seg.size - (w.used.lookup k).getD 0 ∈
          w.dir.entries.map fun p => p.2.size - (w.used.lookup p.1).getD 0 :=
        List.mem_map.2 ⟨(k, seg), SortedMap.lookup_eq_some hseg, rfl⟩
      have hterm := List.le_sum_of_mem hmem
      have hused : w.used.lookup k = none := by
        rw [used, hw]
        exact hnone
      rw [hused] at hterm
      exact hle.trans hterm

/-! ### Creating and closing segments -/

@[simp] theorem size_writeSkipToEnd (s : Segment) : s.writeSkipToEnd.size = s.size := by
  unfold Segment.writeSkipToEnd
  split <;> rfl

/-- The log has gone on without deleting anything, and counts at most the header of an empty segment more. -/
structure Fresh (w : Wal) (first : Nat) (w' : Wal) : Prop where
  counts : w'.Counts
  cfg : w'.cfg = w.cfg
  writer : w'.writer = some first
  pending : w'.pendingCursor = w.pendingCursor
  segments : ∀ k ∈ w.segments.keys, k ∈ w'.segments.keys
  total : w'.totalWalBytes ≤ w.totalWalBytes + SEGMENT_HEADER_LEN
  retained : w'.retainedBytes ≤ w.totalWalBytes

/-- An attempt has failed, and the log counts what it did. -/
structure Failed (w w' : Wal) : Prop where
  counts : w'.Counts
  writer : w'.writer = none
  segments : w'.segments = w.segments

theorem Tallied.addFile (h : w.Tallied) (hnew : first ∉ w.dir.keys)
    (hsize : SEGMENT_HEADER_LEN + RECORD_FRAMING ≤ w.cfg.segmentSizeMax) : (w.addFile first).Tallied where
  sizes k n hn := by
    obtain ⟨seg, hseg, hle⟩ := h.sizes k n hn
    have hk : k ≠ first := fun heq => hnew (heq ▸ SortedMap.mem_keys_of_lookup hseg)
    exact ⟨seg, (SortedMap.lookup_insert_of_ne hk ..).trans hseg, hle⟩
  retained := h.retained
  room _ _ := hsize
  named k seg hseg := by
    by_cases hk : k = first
    · subst hk
      obtain rfl : Segment.empty w.cfg.segmentSizeMax = seg :=
        Option.some.inj ((SortedMap.lookup_insert ..).symm.trans hseg)
      exact fun r hr => absurd hr List.not_mem_nil
    · exact h.named k seg ((SortedMap.lookup_insert_of_ne hk ..).symm.trans hseg)

/-- The new segment becomes the active one. -/
theorem Tallied.activate (h : w.Tallied) (hnone : w.segmentSizes.lookup first = none)
    (hseg : w.dir.lookup first = some (.empty w.cfg.segmentSizeMax)) : (w.activate first).Counts where
  toTallied := ⟨h.sizes, h.retained, h.room, h.named⟩
  active first' hw := by
    obtain rfl : first = first' := Option.some.inj hw
    have hroom := h.room first (SortedMap.mem_keys_of_lookup hseg)
    refine ⟨hnone, _, hseg, rfl, ?_, rfl⟩
    simp only [Segment.empty]
    omega
  closed hw := by cases hw

theorem Counts.storeActive (h : w.Counts) (first : Nat) : Counts { w with active := first } :=
  ⟨⟨h.sizes, h.retained, h.room, h.named⟩, h.active, h.closed⟩

theorem Tallied.sizes_none (h : w.Tallied) (hnew : first ∉ w.dir.keys) : w.segmentSizes.lookup first = none := by
  cases hn : w.segmentSizes.lookup first with
  | none => rfl
  | some n =>
    obtain ⟨seg, hseg, -⟩ := h.sizes first n hn
    exact absurd (SortedMap.mem_keys_of_lookup hseg) hnew

/-- A segment file is created, or nothing is. -/
theorem createFile_cases (first : Nat) (w : Wal) :
    createFile first .ok w = (w.addFile first, .ok ()) ∧ first ∉ w.dir.keys ∧
        SEGMENT_HEADER_LEN + RECORD_FRAMING ≤ w.cfg.segmentSizeMax ∨
      ∃ e, createFile first .ok w = (w, .error e) ∧
        (first ∈ w.dir.keys ∨ w.cfg.segmentSizeMax < SEGMENT_HEADER_LEN + RECORD_FRAMING) := by
  by_cases hsize : w.cfg.segmentSizeMax < SEGMENT_HEADER_LEN + RECORD_FRAMING
  · exact .inr ⟨_, createFile_of_small hsize, .inr hsize⟩
  · by_cases hmem : first ∈ w.dir.keys
    · exact .inr ⟨_, createFile_of_mem (Nat.le_of_not_lt hsize) hmem, .inl hmem⟩
    · exact .inl ⟨createFile_eq (Nat.le_of_not_lt hsize) hmem, hmem, Nat.le_of_not_lt hsize⟩

theorem createDeferred_eq (hnew : first ∉ w.dir.keys)
    (hsize : SEGMENT_HEADER_LEN + RECORD_FRAMING ≤ w.cfg.segmentSizeMax) :
    createDeferred first .ok w = ({ (w.addFile first).activate first with active := first }, .ok ()) :=
  andThen_eq_ok.2 ⟨_, andThen_eq_ok.2 ⟨_, createFile_eq hsize hnew, rfl⟩, rfl⟩

/-- What the deferred creation of a writer adds to the accounts -/
theorem Tallied.createDeferred (h : w.Tallied) (hnew : first ∉ w.dir.keys)
    (hsize : SEGMENT_HEADER_LEN + RECORD_FRAMING ≤ w.cfg.segmentSizeMax) :
    Fresh w first { (w.addFile first).activate first with active := first } := by
  have hcounts : ((w.addFile first).activate first).Counts :=
    (h.addFile hnew hsize).activate (h.sizes_none hnew) (SortedMap.lookup_insert ..)
  refine ⟨hcounts.storeActive first, rfl, rfl, rfl, ?_, ?_, ?_⟩
  · exact fun k hk => SortedMap.mem_keys_insert_of_mem hk _
  · exact Nat.add_le_add_right (Nat.le_add_right ..) _
  · exact Nat.le_add_right ..

theorem createDeferred_counts (h : w.Tallied) (first : Nat) :
    Ends (createDeferred first .ok) w (Fresh w first) (fun w' => w' = w) := by
  rcases createFile_cases first w with ⟨-, hnew, hsize⟩ | ⟨e, hcreate, -⟩
  · rw [Ends, createDeferred_eq hnew hsize]
    exact h.createDeferred hnew hsize
  · have hdone : createDeferred first .ok w = (w, .error e) := createDeferred_of_error hcreate
    rw [Ends, hdone]

theorem lookup_closeWriter {seg : Segment} (hseg : w.dir.lookup first = some seg) :
    (w.closeWriter first).dir.lookup first = some seg.writeSkipToEnd := by
  rw [Wal.closeWriter, SortedMap.lookup_modify, hseg]
  rfl

/-- The writer is taken, and its segment closed. -/
theorem Counts.closeWriter (h : w.Counts) (hw : w.writer = some first) : (w.closeWriter first).Counts := by
  obtain ⟨hnone, seg, hseg, htail, hle, -⟩ := h.active first hw
  have hlookup := lookup_closeWriter hseg
  refine ⟨⟨fun k n hn => ?_, h.retained, fun k hk => h.room k (by simpa [Wal.closeWriter] using hk),
    fun k seg' hseg' => ?_⟩, fun _ hnow => (by cases hnow), fun _ => .inr ⟨first, _, hnone, hlookup, ?_⟩⟩
  · obtain ⟨seg', hseg', hle'⟩ := h.sizes k n hn
    have hk : k ≠ first := SortedMap.ne_of_lookup hn hnone
    exact ⟨seg', (SortedMap.lookup_modify_of_ne hk _).trans hseg', hle'⟩
  · by_cases hk : k = first
    · subst hk
      obtain rfl : seg.writeSkipToEnd = seg' := Option.some.inj (hlookup.symm.trans hseg')
      rw [Segment.records_writeSkipToEnd]
      exact h.named k seg hseg
    · exact h.named k seg' ((SortedMap.lookup_modify_of_ne hk _).symm.trans hseg')
  · rw [size_writeSkipToEnd]
    show w.activeBytes ≤ seg.size
    omega

theorem rotateLocked_counts (h : w.Counts) (hw : w.writer = some first) (newFirst : Nat) :
    Ends (rotateLocked newFirst .ok) w (Fresh w newFirst) (Failed w) := by
  obtain ⟨hnone, seg, hseg, htail, hle, -⟩ := h.active first hw
  have hclosed := h.closeWriter hw
  have hlookup := lookup_closeWriter hseg
  have hfinal : (w.dir.lookup first).elim 0 Segment.tail = w.activeBytes := by rw [hseg, ← htail]; rfl
  simp only [Ends, rotateLocked, hw]
  rcases createFile_cases newFirst (w.closeWriter first) with ⟨hcreate, hnew, hsize⟩ | ⟨e, hcreate, -⟩
  · have hne : first ≠ newFirst := fun heq => hnew (heq ▸ SortedMap.mem_keys_of_lookup hlookup)
    have hadded := hclosed.toTallied.addFile hnew hsize
    have hretained : (((w.closeWriter first).addFile newFirst).retain first w.activeBytes).Tallied := by
      refine ⟨fun k n hn => ?_, ?_, hadded.room, hadded.named⟩
      · by_cases hk : k = first
        · subst hk
          obtain rfl : w.activeBytes = n := Option.some.inj ((SortedMap.lookup_insert ..).symm.trans hn)
          refine ⟨_, (SortedMap.lookup_insert_of_ne hne ..).trans hlookup, ?_⟩
          rw [size_writeSkipToEnd, ← htail]
          exact hle
        · exact hadded.sizes k n ((SortedMap.lookup_insert_of_ne hk ..).symm.trans hn)
      · have hsum := SortedMap.sum_insert (SortedMap.not_mem_keys_of_lookup hnone) w.activeBytes
        have hbefore := h.retained
        show w.retainedBytes + w.activeBytes = ((w.segmentSizes.insert first w.activeBytes).entries.map Prod.snd).sum
        omega
    have hnewNone : (w.segmentSizes.insert first w.activeBytes).lookup newFirst = none :=
      (SortedMap.lookup_insert_of_ne hne.symm ..).trans (hclosed.toTallied.sizes_none hnew)
    have hcounts := hretained.activate hnewNone (SortedMap.lookup_insert ..)
    have hstore : ((createFile newFirst .ok).andThen (storeActive newFirst WalIo.ok.storeActive)) (w.closeWriter first) =
        ({ (w.closeWriter first).addFile newFirst with active := newFirst }, .ok ()) := andThen_of_ok hcreate
    rw [andThen_of_ok hstore, hfinal]
    refine ⟨hcounts.storeActive newFirst, rfl, rfl, rfl, ?_, ?_, ?_⟩
    · exact fun k hk => SortedMap.mem_keys_insert_of_mem hk _
    · exact Nat.le_refl _
    · exact Nat.le_refl _
  · have hfailed : ((createFile newFirst .ok).andThen (storeActive newFirst WalIo.ok.storeActive)) (w.closeWriter first) =
        (w.closeWriter first, .error e) := andThen_of_error hcreate
    rw [andThen_of_error hfailed]
    exact ⟨hclosed, rfl, rfl⟩

/-- What an append has to write with: a writer with room, or one of an empty segment named by the record -/
theorem acquireWriter_counts (h : w.Counts) (r : Record) :
    Ends (acquireWriter r .ok) w
      (fun w' => Fresh w r.cursor w' ∨ w' = w ∧ w.writer ≠ none ∧ w.activeBytes + recordBytes r ≤ w.cfg.segmentSizeMax)
      (Failed w) := by
  cases hw : w.writer with
  | none =>
    have hcreate : acquireWriter r .ok w = createDeferred r.cursor .ok w := by simp only [acquireWriter, hw]
    refine Ends.congr ((createDeferred_counts h.toTallied r.cursor).mono (fun w' hw' => .inl hw') fun w' hw' => ?_)
      hcreate
    rw [hw']
    exact ⟨h, hw, rfl⟩
  | some first =>
    by_cases hfull : w.cfg.segmentSizeMax < w.activeBytes + recordBytes r
    · have hrotate : acquireWriter r .ok w = rotateLocked r.cursor .ok w := by
        simp only [acquireWriter, hw, if_pos hfull]
      exact Ends.congr ((rotateLocked_counts h hw r.cursor).mono (fun w' hw' => .inl hw') fun w' hw' => hw') hrotate
    · have hsame : acquireWriter r .ok w = (w, .ok ()) := by simp only [acquireWriter, hw, if_neg hfull]
      rw [Ends, hsame]
      exact .inr ⟨rfl, Option.some_ne_none first, Nat.le_of_not_lt hfull⟩

/-! ### Writing the record -/

/-- The writer takes a record that has room. -/
theorem put_of_room (h : w.Counts) (hw : w.writer = some first) (hfirst : first ≤ r.cursor)
    (hroom : w.activeBytes + recordBytes r ≤ w.cfg.segmentSizeMax) :
    ∃ seg, seg.tail = w.activeBytes + recordBytes r ∧ seg.size = w.cfg.segmentSizeMax ∧
      (∀ r' ∈ seg.records, first ≤ r'.cursor) ∧
      w.put first r = some { w with dir := w.dir.modify first fun _ => seg } := by
  obtain ⟨-, seg, hseg, htail, hle, hsize⟩ := h.active first hw
  have happend : seg.append r = some { seg with records := seg.records ++ [r], tail := seg.tail + recordBytes r } :=
    if_neg (by omega)
  refine ⟨{ seg with records := seg.records ++ [r], tail := seg.tail + recordBytes r }, ?_, hsize, ?_, ?_⟩
  · rw [← htail]
  · intro r' hr'
    rcases List.mem_append.1 hr' with hr' | hr'
    · exact h.named first seg hseg r' hr'
    · rwa [List.mem_singleton.1 hr']
  · rw [put, hseg, Option.bind_some, happend]

theorem put_of_full (h : w.Counts) (hw : w.writer = some first)
    (hfull : w.cfg.segmentSizeMax < w.activeBytes + recordBytes r) : w.put first r = none := by
  obtain ⟨-, seg, hseg, htail, hle, hsize⟩ := h.active first hw
  have happend : seg.append r = none := if_pos (by omega)
  rw [put, hseg, Option.bind_some, happend]

/-- The log after the record, before the retention -/
theorem Counts.recorded (h : w.Counts) (hw : w.writer = some first)
    (hroom : w.activeBytes + recordBytes r ≤ w.cfg.segmentSizeMax) {seg : Segment}
    (htail : seg.tail = w.activeBytes + recordBytes r) (hsize : seg.size = w.cfg.segmentSizeMax)
    (hnamed : ∀ r' ∈ seg.records, first ≤ r'.cursor) :
    (Wal.recorded first r { w with dir := w.dir.modify first fun _ => seg }).Counts ∧
      (Wal.recorded first r { w with dir := w.dir.modify first fun _ => seg }).activeBytes =
        w.activeBytes + recordBytes r := by
  obtain ⟨hnone, seg₀, hseg₀, -⟩ := h.active first hw
  have hlookup : (w.dir.modify first fun _ => seg).lookup first = some seg := by
    rw [SortedMap.lookup_modify, hseg₀]
    rfl
  have hactive : (Wal.recorded first r { w with dir := w.dir.modify first fun _ => seg }).activeBytes = seg.tail := by
    simp only [Wal.recorded, hlookup, Option.elim_some]
  refine ⟨⟨⟨fun k n hn => ?_, h.retained, fun k hk => h.room k (by simpa [Wal.recorded] using hk),
    fun k seg' hseg' => ?_⟩, fun first' hw' => ?_, fun hnow => ?_⟩, hactive.trans htail⟩
  · obtain ⟨seg', hseg', hle⟩ := h.sizes k n hn
    have hk : k ≠ first := SortedMap.ne_of_lookup hn hnone
    exact ⟨seg', (SortedMap.lookup_modify_of_ne hk _).trans hseg', hle⟩
  · by_cases hk : k = first
    · subst hk
      obtain rfl : seg = seg' := Option.some.inj (hlookup.symm.trans hseg')
      exact hnamed
    · exact h.named k seg' ((SortedMap.lookup_modify_of_ne hk _).symm.trans hseg')
  · obtain rfl : first = first' := Option.some.inj (hw.symm.trans hw')
    exact ⟨hnone, seg, hlookup, hactive.symm, by omega, hsize⟩
  · have hboth : some first = none := hw.symm.trans hnow
    cases hboth

/-! ### Retention -/

theorem Counts.retire (h : w.Counts) (hw : w.writer = some first) (hk : first ≠ k) (hlt : w.retainedBytes < 2 ^ 64) :
    (w.retire k).Counts ∧ (w.retire k).retainedBytes ≤ w.retainedBytes := by
  have hsum := SortedMap.sum_erase (m := w.segmentSizes) k
  have hretained := h.retained
  have hpruned : (w.retire k).retainedBytes = w.retainedBytes - (w.segmentSizes.lookup k).getD 0 :=
    wrappingSub_of_le (by omega) hlt
  refine ⟨⟨⟨fun j n hn => ?_, ?_, fun j hj => h.room j (SortedMap.mem_keys_erase.1 hj).1,
    fun j seg hseg => h.named j seg (SortedMap.lookup_erase_eq_some hseg).2⟩, fun first' hw' => ?_, fun hnow => ?_⟩, by omega⟩
  · obtain ⟨hjk, hn'⟩ := SortedMap.lookup_erase_eq_some hn
    obtain ⟨seg, hseg, hle⟩ := h.sizes j n hn'
    exact ⟨seg, (SortedMap.lookup_erase hjk).trans hseg, hle⟩
  · rw [hpruned]
    show _ = ((w.segmentSizes.erase k).entries.map Prod.snd).sum
    omega
  · obtain rfl : first = first' := Option.some.inj (hw.symm.trans hw')
    obtain ⟨hnone, seg, hseg, hrest⟩ := h.active first hw
    exact ⟨(SortedMap.lookup_erase hk).trans hnone, seg, (SortedMap.lookup_erase hk).trans hseg, hrest⟩
  · have hboth : some first = none := hw.symm.trans hnow
    cases hboth

/-- Retention deletes nothing of a log within its limit. -/
theorem enforceRetention_of_within (hwithin : w.totalWalBytes ≤ w.cfg.retentionBytes) (rounds : Nat) :
    w.enforceRetention rounds = w := by
  cases rounds with
  | zero => rfl
  | succ rounds => exact if_pos hwithin

theorem writer_enforceRetention (rounds : Nat) (w : Wal) :
    (w.enforceRetention rounds).writer = w.writer ∧ (w.enforceRetention rounds).pendingCursor = w.pendingCursor := by
  induction rounds generalizing w with
  | zero => exact ⟨rfl, rfl⟩
  | succ rounds ih =>
    unfold enforceRetention
    split
    · exact ⟨rfl, rfl⟩
    · split
      · rename_i k _
        exact ih (w.retire k)
      · exact ⟨rfl, rfl⟩

theorem enforceRetention_counts (h : w.Counts) (hw : w.writer = some first) (hlt : w.retainedBytes < 2 ^ 64)
    (rounds : Nat) : (w.enforceRetention rounds).Counts := by
  induction rounds generalizing w with
  | zero => exact h
  | succ rounds ih =>
    unfold enforceRetention
    split
    · exact h
    · split
      · rename_i k hk
        have hne : first ≠ k := by
          have hfound := List.find?_some hk
          rw [hw] at hfound
          rintro rfl
          simp at hfound
        obtain ⟨hcounts, hle⟩ := h.retire hw hne hlt
        exact ih hcounts hw (hle.trans_lt hlt)
      · exact h

/-! ### Calls -/

/-- A link of an append has kept the accounts, if what is retained by then, `counted` bytes at most, is a word, and has
deleted nothing unless the total and the bytes `own` exceed the limit. -/
structure Spends (counted own : Nat) (w w' : Wal) : Prop where
  counts : counted < 2 ^ 64 → w'.Counts
  ahead : w'.Ahead
  segments : (∀ k ∈ w.segments.keys, k ∈ w'.segments.keys) ∨ w.cfg.retentionBytes < w.totalWalBytes + own

theorem Failed.spends (h : Failed w w') (counted own : Nat) : Spends counted own w w' :=
  ⟨fun _ => h.counts, ahead_of_none h.writer, .inl fun _ hk => h.segments ▸ hk⟩

theorem Spends.refl (h : w.Counts) (hahead : w.Ahead) (counted own : Nat) : Spends counted own w w :=
  ⟨fun _ => h, hahead, .inl fun _ hk => hk⟩

/-- The record is written by a writer that has room for it. -/
theorem appendWith_of_room (h : w.Counts) (hw : w.writer = some first) (hfirst : first ≤ r.cursor)
    (hroom : w.activeBytes + recordBytes r ≤ w.cfg.segmentSizeMax) :
    Spends w.retainedBytes (recordBytes r) w (appendWith r .ok w).1 := by
  obtain ⟨seg, htail, hsize, hnamed, hput⟩ := put_of_room h hw hfirst hroom
  obtain ⟨hcounts, hactive⟩ := h.recorded hw hroom htail hsize hnamed
  have hwrite : write first r .ok w = ({ w with dir := w.dir.modify first fun _ => seg }, .ok ()) := by
    simp only [write, hput]
  have hdone : (appendWith r .ok w).1 =
      (Wal.recorded first r { w with dir := w.dir.modify first fun _ => seg }).enforceRetention w.segments.keys.length := by
    have hrecorded : ((write first r .ok).andThen fun w =>
        ((w.recorded first r).enforceRetention w.segments.keys.length, .ok ())) w = (_, .ok ()) := andThen_of_ok hwrite
    rw [appendWith_eq hw, andThen_of_ok hrecorded]
    rfl
  rw [hdone]
  obtain ⟨hwriter, hpending⟩ := writer_enforceRetention w.segments.keys.length
    (Wal.recorded first r { w with dir := w.dir.modify first fun _ => seg })
  refine ⟨fun hlt => enforceRetention_counts hcounts hw hlt _, fun first' hw' => ?_, ?_⟩
  · obtain rfl : first = first' := Option.some.inj (hw.symm.trans (hwriter.symm.trans hw'))
    rw [hpending]
    exact Nat.le_succ_of_le hfirst
  by_cases hwithin : w.totalWalBytes + recordBytes r ≤ w.cfg.retentionBytes
  · refine .inl fun k hk => ?_
    rw [enforceRetention_of_within]
    · exact hk
    · rw [totalWalBytes, hactive]
      show w.retainedBytes + _ ≤ w.cfg.retentionBytes
      unfold totalWalBytes at hwithin
      omega
  · exact .inr (Nat.lt_of_not_le hwithin)

/-- A record that does not fit the empty segment with its name is refused, for a rotation cannot create that segment
again. -/
theorem appendWith_of_full (h : w.Counts) (hw : w.writer = some r.cursor)
    (hfull : w.cfg.segmentSizeMax < w.activeBytes + recordBytes r) : Failed w (appendWith r .ok w).1 := by
  obtain ⟨-, seg, hseg, -⟩ := h.active r.cursor hw
  have hmem : r.cursor ∈ (w.closeWriter r.cursor).dir.keys := by
    rw [Wal.closeWriter, SortedMap.keys_modify]
    exact SortedMap.mem_keys_of_lookup hseg
  have hrotate : ∃ e, rotateLocked r.cursor .ok w = (w.closeWriter r.cursor, .error e) := by
    rcases createFile_cases r.cursor (w.closeWriter r.cursor) with ⟨-, hnew, -⟩ | ⟨e, hcreate, -⟩
    · exact absurd hmem hnew
    · refine ⟨e, ?_⟩
      simp only [rotateLocked, hw]
      exact andThen_of_error (andThen_of_error hcreate)
  obtain ⟨e, hrotate⟩ := hrotate
  have hwrite : write r.cursor r .ok w = (w.closeWriter r.cursor, .error e) := by
    simp only [write, put_of_full h hw hfull]
    exact andThen_of_error hrotate
  have hdone : appendWith r .ok w = (w.closeWriter r.cursor, .error e) := by
    rw [appendWith_eq hw]
    exact andThen_of_error (andThen_of_error hwrite)
  rw [hdone]
  exact ⟨h.closeWriter hw, rfl, rfl⟩

theorem append_spends {cursor : Nat} (h : w.Counts) (hahead : w.Ahead) (hcursor : w.pendingCursor ≤ cursor) (ts : Nat)
    (payload : Bytes) : Spends w.totalWalBytes (ownBytes payload) w (append cursor ts payload .ok w).1 := by
  cases henabled : w.cfg.enabled with
  | false =>
    simp only [append, henabled, if_true]
    exact .refl h hahead ..
  | true =>
    by_cases hlen : MAX_PAYLOAD_LEN < payload.length
    · simp only [append, henabled, if_pos hlen, Bool.true_eq_false, if_false]
      exact .refl h hahead ..
    cases hpoisoned : w.poisoned with
    | true =>
      simp only [append, henabled, hpoisoned, if_neg hlen, Bool.true_eq_false, if_false, if_true]
      exact .refl h hahead ..
    | false =>
      rw [append_eq henabled hlen hpoisoned]
      rcases (acquireWriter_counts h ⟨cursor, ts, payload⟩).cases with ⟨w₁, hacquire, hw₁⟩ | ⟨w₁, e, hacquire, hw₁⟩
      · rw [andThen_of_ok hacquire]
        rcases hw₁ with hfresh | ⟨rfl, hsome, hroom⟩
        · by_cases hroom : w₁.activeBytes + recordBytes ⟨cursor, ts, payload⟩ ≤ w₁.cfg.segmentSizeMax
          · have hspends := appendWith_of_room hfresh.counts hfresh.writer (Nat.le_refl _) hroom
            refine ⟨fun hlt => hspends.counts (hfresh.retained.trans_lt hlt), hspends.ahead, ?_⟩
            refine hspends.segments.imp (fun hkept k hk => hkept k (hfresh.segments k hk)) fun hover => ?_
            have htotal := hfresh.total
            rw [hfresh.cfg] at hover
            simp only [ownBytes, recordBytes] at hover ⊢
            omega
          · have hfailed := appendWith_of_full hfresh.counts hfresh.writer (Nat.lt_of_not_le hroom)
            refine ⟨fun _ => hfailed.counts, ahead_of_none hfailed.writer, .inl fun k hk => ?_⟩
            rw [hfailed.segments]
            exact hfresh.segments k hk
        · obtain ⟨first, hw⟩ := Option.ne_none_iff_exists'.1 hsome
          have hspends := appendWith_of_room h hw ((hahead first hw).trans hcursor) hroom
          refine ⟨fun hlt => hspends.counts ((Nat.le_add_right ..).trans_lt hlt), hspends.ahead, ?_⟩
          refine hspends.segments.imp_right fun hover => ?_
          exact hover.trans_le (Nat.add_le_add_left (Nat.le_add_left ..) _)
      · rw [andThen_of_error hacquire]
        exact hw₁.spends ..

theorem bumpGeneration_counts (h : w.Counts) (hahead : w.Ahead) :
    (Wal.bumpGeneration .ok w).1.Counts ∧ (Wal.bumpGeneration .ok w).1.Ahead := by
  cases hw : w.writer with
  | none =>
    simp only [bumpGeneration, hw]
    exact ⟨h, hahead⟩
  | some first =>
    simp only [bumpGeneration, hw]
    rcases (rotateLocked_counts h hw w.pendingCursor).cases with ⟨w', hrotate, hw'⟩ | ⟨w', e, hrotate, hw'⟩
    · rw [hrotate]
      refine ⟨hw'.counts, fun first' hfirst' => ?_⟩
      obtain rfl : w.pendingCursor = first' := Option.some.inj (hw'.writer.symm.trans hfirst')
      exact hw'.pending.ge
    · rw [hrotate]
      exact ⟨hw'.counts, ahead_of_none hw'.writer⟩

/-! ### Opening -/

/-- An open counts the lengths of the files. -/
theorem ofDir_tallied (h : w.Tallied) (active pending : Nat) : (ofDir w.cfg w.dir active pending).Tallied where
  sizes k n hn := by
    have hmap : (w.dir.map fun _ => Segment.size).lookup k = some n := hn
    rw [SortedMap.lookup_map] at hmap
    obtain ⟨seg, hseg, rfl⟩ := Option.map_eq_some_iff.1 hmap
    exact ⟨seg, hseg, Nat.le_refl _⟩
  retained := by
    simp only [ofDir, SortedMap.map, List.map_map]
    rfl
  room := h.room
  named := h.named

theorem ofDir_counts (h : w.Tallied) (active pending : Nat) : (ofDir w.cfg w.dir active pending).Counts :=
  ⟨ofDir_tallied h active pending, fun _ hw => (by cases hw), fun _ => .inl rfl⟩

/-- The segment that an open creates is the last one. -/
theorem Tallied.lt_nextCursor {lastFirst : Nat} {seg : Segment} (h : w.Tallied)
    (hlast : w.dir.last? = some (lastFirst, seg)) (hnext : nextCursor lastFirst seg ≠ lastFirst) :
    lastFirst < nextCursor lastFirst seg := by
  have hlookup : w.dir.lookup lastFirst = some seg := SortedMap.lookup_of_mem (List.mem_of_getLast? hlast)
  unfold nextCursor at hnext ⊢
  split at hnext
  · rename_i hheader
    rw [if_pos hheader]
    cases hr : seg.records.getLast? with
    | none =>
      rw [hr] at hnext
      exact absurd rfl hnext
    | some r => exact Nat.lt_succ_of_le (h.named lastFirst seg hlookup r (List.mem_of_getLast? hr))
  · exact absurd rfl hnext

/-- An open counts the files. -/
theorem Tallied.reopen (h : w.Tallied) : ∃ w₁, w.call .reopen = some w₁ ∧ w₁.Counts ∧ w₁.Ahead ∧
    w₁.cfg = w.cfg ∧ w₁.totalWalBytes = (w.dir.entries.map fun p => p.2.size).sum + w.nextHeader := by
  cases hlast : w.dir.last? with
  | none =>
    refine ⟨_, ?_, ofDir_counts h w.active 0, ahead_of_none rfl, rfl, ?_⟩
    · simp only [call, Wal.open, hlast, Except.toOption]
    · simp only [nextHeader, hlast]
      rfl
  | some p =>
    obtain ⟨lastFirst, seg⟩ := p
    by_cases hnext : nextCursor lastFirst seg = lastFirst
    · refine ⟨_, ?_, ofDir_counts h lastFirst lastFirst, ahead_of_none rfl, rfl, ?_⟩
      · simp only [call, Wal.open, hlast, if_pos hnext, Except.toOption]
      · simp only [nextHeader, hlast, if_pos hnext]
        rfl
    · have hnew : nextCursor lastFirst seg ∉ w.dir.keys := by
        intro hmem
        obtain ⟨seg', hseg'⟩ := SortedMap.mem_keys.1 hmem
        exact absurd (SortedMap.le_of_last? hlast hseg') (Nat.not_le_of_lt (h.lt_nextCursor hlast hnext))
      have hmem : lastFirst ∈ w.dir.keys := SortedMap.mem_keys.2 ⟨seg, List.mem_of_getLast? hlast⟩
      have htallied := ofDir_tallied h w.active (nextCursor lastFirst seg)
      have hroom := h.room lastFirst hmem
      refine ⟨_, ?_, (htallied.createDeferred hnew hroom).counts, fun first hw => ?_, rfl, ?_⟩
      · simp only [call, Wal.open, hlast, if_neg hnext, createDeferred_eq (w := ofDir ..) hnew hroom, Except.toOption]
      · exact (Option.some.inj hw).ge
      · simp only [nextHeader, hlast, if_neg hnext]
        rfl

/-! ### Runs -/

theorem create_counts (cfg : WalConfig) : (create cfg).Counts := by
  have htallied : Tallied (create cfg) :=
    ⟨fun k n hn => (by cases hn), rfl, fun k hk => absurd hk List.not_mem_nil, fun k seg hseg => (by cases hseg)⟩
  exact ⟨htallied, fun _ hw => (by cases hw), fun _ => .inl rfl⟩

theorem step_counts {a : LogCall} (h : w.Counts ∧ w.Ahead) (hs : w.step a = some w') : w'.Counts ∧ w'.Ahead := by
  obtain ⟨hcounts, hahead⟩ := h
  unfold step at hs
  split at hs
  · rename_i hguard
    obtain ⟨hmonotone, hlt⟩ := hguard
    cases a with
    | append cursor ts payload =>
      cases hs
      have hspends := append_spends hcounts hahead hmonotone ts payload
      exact ⟨hspends.counts hlt, hspends.ahead⟩
    | bumpGeneration =>
      cases hs
      exact bumpGeneration_counts hcounts hahead
    | flush =>
      cases hs
      rw [flusherTick_ok]
      exact ⟨hcounts, hahead⟩
    | reopen =>
      obtain ⟨w₁, hreopen, hcounts₁, hahead₁, -⟩ := hcounts.toTallied.reopen
      rw [hreopen] at hs
      cases hs
      exact ⟨hcounts₁, hahead₁⟩
  · cases hs

/-- The accounts are right in every run. -/
theorem run_counts {acts : List LogCall} (hr : run step (create cfg) acts = some w) : w.Counts :=
  (run_invariant (fun w => w.Counts ∧ w.Ahead) (fun _ _ _ => step_counts) ⟨create_counts cfg, ahead_of_none rfl⟩ hr).1

/-- Behind records, a log with a writer is packed exactly if it uses every byte of its files. -/
theorem Counts.packed_iff_filled (h : w.Counts) (hw : w.writer = some first)
    (hrecords : w.nextHeader = SEGMENT_HEADER_LEN) :
    w.Packed ↔ ∀ p ∈ w.dir.entries, p.2.size = (w.used.lookup p.1).getD 0 := by
  have hleftover : w.leftover = 0 := by simp only [leftover, hw]
  have hpacked : w.Packed ↔ w.unused = 0 := by
    rw [Packed, hrecords, hleftover]
    omega
  rw [hpacked, unused, List.sum_eq_zero_iff]
  refine ⟨fun hall p hp => ?_, fun hall n hn => ?_⟩
  · have hzero := hall _ (List.mem_map_of_mem hp)
    cases hn : w.used.lookup p.1 with
    | none => simpa [hn] using hzero
    | some n =>
      obtain ⟨seg, hseg, hle⟩ := h.used_le hn
      rw [SortedMap.lookup_of_mem hp, Option.some.injEq] at hseg
      rw [hn, Option.getD_some] at hzero
      rw [Option.getD_some, hseg]
      rw [hseg] at hzero
      omega
  · obtain ⟨p, hp, rfl⟩ := List.mem_map.1 hn
    rw [hall p hp, Nat.sub_self]

/-- The accounts survive a restart exactly if the files have no room left in them that the next open could count. -/
theorem retained_by_restart_iff {acts : List LogCall} (hr : run step (create cfg) acts = some w) :
    w.RetainedByRestart ↔ w.Packed := by
  have hcounts := run_counts hr
  have htotal := hcounts.total_eq
  have hfiles := hcounts.files_eq
  obtain ⟨w₁, hreopen, hcounts₁, hahead₁, hcfg, htotal₁⟩ := hcounts.toTallied.reopen
  refine ⟨fun ⟨w₂, header, hreopen₂, hle, hheader, _⟩ => ?_, fun hpacked => ?_⟩
  · obtain rfl : w₁ = w₂ := Option.some.inj (hreopen.symm.trans hreopen₂)
    unfold Packed
    omega
  · have hleftover := hcounts.leftover_le
    unfold Packed at hpacked
    refine ⟨w₁, w.unused + w.nextHeader - w.leftover, hreopen, by omega, by omega, fun cursor ts payload hcursor _ => ?_⟩
    refine (append_spends hcounts₁ hahead₁ hcursor ts payload).segments.imp_right fun hover => ?_
    rw [hcfg] at hover
    omega

theorem retained_by_restart_tinySegments :
    ∃ w, run step (create tinySegments) [.append 0 0 [1], .append 1 0 [2]] = some w ∧ w.RetainedByRestart := by
  have hr : run step (create tinySegments) [.append 0 0 [1], .append 1 0 [2]] = some _ := rfl
  exact ⟨_, hr, (retained_by_restart_iff hr).2 (by decide)⟩

/-- The limit has room for two records in a segment each, but not for the file of a segment. -/
def roomySegments : WalConfig := ⟨true, .each, 256, 200⟩

theorem retained_by_restart_fails : ∃ w w₁, run step (create roomySegments) [.append 0 0 [1]] = some w ∧
    w.call .reopen = some w₁ ∧ w.totalWalBytes = 64 ∧ w₁.totalWalBytes = 288 ∧ w₁.segments.keys = [0, 1] ∧
    w.totalWalBytes + SEGMENT_HEADER_LEN + ownBytes [2] ≤ w.cfg.retentionBytes ∧
    (append 1 0 [2] .ok w₁).1.segments.keys = [1] ∧ ¬w.RetainedByRestart := by
  refine ⟨_, _, rfl, rfl, by decide, by decide, by decide, by decide, by decide, ?_⟩
  rintro ⟨w₁, header, hreopen, hle, htotal, -⟩
  cases hreopen
  have hover : 288 = 64 + header := htotal
  have hheader : header ≤ 32 := hle
  omega

end Mmbus.V2.Wal
