import Mmbus.Lib.Transition
import Mmbus.Wal

/-!
# The accounts of the retention

`retained_bytes`, the recorded segment sizes and the segment files of the v0.1 log, over runs of appends and rotations on
a file system where any call may fail.  A file that `remove_file` does not remove stays behind the log's back.

`accounts_exact`: the accounts are exact and retention deletes in order, unless a segment is not closed properly, a header
is not written, a file is not removed, or a segment is created below the oldest one.
-/

namespace Mmbus

open Attempt Transition

namespace Wal

/-- The first cursor of the active segment -/
def active (w : Wal) : Option Nat := w.writer.map SegmentWriter.first

/-- The accounts agree with the directory. -/
structure Books (w : Wal) : Prop where
  segments : w.segments.keys = w.dir.keys
  active_mem : ∀ wr, w.writer = some wr → wr.first ∈ w.dir.keys ∧ wr.first ≤ wr.pending
  sizes : ∀ k, k ∈ w.segmentSizes.keys ↔ k ∈ w.dir.keys ∧ w.active ≠ some k
  retained : w.retainedBytes = (w.segmentSizes.entries.map Prod.snd).sum

/-- Only records have been moved or added. -/
structure SameBooks (w w' : Wal) : Prop where
  cfg : w'.cfg = w.cfg
  dir : w'.dir.keys = w.dir.keys
  segments : w'.segments = w.segments
  sizes : w'.segmentSizes = w.segmentSizes
  retained : w'.retainedBytes = w.retainedBytes
  writer : ∀ wr', w'.writer = some wr' → ∃ wr, w.writer = some wr ∧ wr'.first = wr.first ∧ wr.pending ≤ wr'.pending
  writer_some : w.writer ≠ none → w'.writer ≠ none

/-- The accounts are right, files have been created, none of them below the oldest, and none deleted. -/
structure Extends (w w' : Wal) : Prop where
  books : w'.Books
  cfg : w'.cfg = w.cfg
  dir : ∀ k ∈ w.dir.keys, k ∈ w'.dir.keys
  oldest : ∀ k ∈ w'.dir.keys, w.oldestCursor ≤ k

/-- Files have been deleted, in order, and not the active one. -/
structure Shrinks (w w' : Wal) : Prop where
  cfg : w'.cfg = w.cfg
  active : w'.active = w.active
  dir : ∀ k ∈ w'.dir.keys, k ∈ w.dir.keys
  in_order : ∀ k ∈ w.dir.keys, k ∉ w'.dir.keys →
    w.active ≠ some k ∧ ∀ k' ∈ w'.dir.keys, w.active ≠ some k' → k < k'

variable {w w' w'' : Wal} {wr : SegmentWriter} {r : Record} {io : WalIo} {k first : Nat}

/-! ### The oldest cursor -/

theorem oldestCursor_le (h : w.Books) (hk : k ∈ w.dir.keys) : w.oldestCursor ≤ k := by
  have hasc := w.segments.keys_ascending
  rw [← h.segments] at hk
  unfold oldestCursor
  cases hkeys : w.segments.keys with
  | nil =>
    rw [hkeys] at hk
    cases hk
  | cons k₀ ks =>
    rw [hkeys] at hk hasc
    rcases List.mem_cons.1 hk with rfl | hk
    · exact Nat.le_refl _
    · exact Nat.le_of_lt ((List.pairwise_cons.1 hasc).1 k hk)

theorem oldestCursor_mem (h : w.Books) (hk : k ∈ w.dir.keys) : w.oldestCursor ∈ w.dir.keys := by
  rw [← h.segments] at hk ⊢
  unfold oldestCursor
  cases hkeys : w.segments.keys with
  | nil =>
    rw [hkeys] at hk
    cases hk
  | cons k₀ ks => exact List.mem_cons_self ..

/-- The oldest cursor does not fall as long as no file is created below it and some file is left. -/
theorem oldestCursor_mono (h' : w'.Books) (hle : ∀ k ∈ w'.dir.keys, w.oldestCursor ≤ k)
    (hleft : w'.dir.keys = [] → w.oldestCursor = 0) : w.oldestCursor ≤ w'.oldestCursor := by
  cases hkeys : w'.dir.keys with
  | nil =>
    rw [hleft hkeys]
    exact Nat.zero_le _
  | cons k ks => exact hle _ (oldestCursor_mem h' (k := k) (by rw [hkeys]; exact List.mem_cons_self ..))

theorem oldestCursor_of_nil (h : w.Books) (hnil : w.dir.keys = []) : w.oldestCursor = 0 := by
  unfold oldestCursor
  rw [h.segments, hnil]
  rfl

theorem Extends.refl (h : w.Books) : Extends w w := ⟨h, rfl, fun _ hk => hk, fun _ hk => oldestCursor_le h hk⟩

theorem Extends.oldestCursor_le (h : w.Books) (hw : Extends w w') : w.oldestCursor ≤ w'.oldestCursor := by
  refine oldestCursor_mono hw.books hw.oldest fun hnil => oldestCursor_of_nil h ?_
  rw [List.eq_nil_iff_forall_not_mem]
  intro k hk
  have := hw.dir k hk
  rw [hnil] at this
  cases this

theorem Extends.trans (h : w.Books) (hw : Extends w w') (hw' : Extends w' w'') : Extends w w'' :=
  ⟨hw'.books, hw'.cfg.trans hw.cfg, fun k hk => hw'.dir k (hw.dir k hk),
    fun k hk => (hw.oldestCursor_le h).trans (hw'.oldest k hk)⟩

/-! ### Records -/

theorem SameBooks.refl (w : Wal) : SameBooks w w := ⟨rfl, rfl, rfl, rfl, rfl, fun wr' h => ⟨wr', h, rfl, le_rfl⟩, id⟩

theorem SameBooks.trans (h : SameBooks w w') (h' : SameBooks w' w'') : SameBooks w w'' where
  cfg := h'.cfg.trans h.cfg
  dir := h'.dir.trans h.dir
  segments := h'.segments.trans h.segments
  sizes := h'.sizes.trans h.sizes
  retained := h'.retained.trans h.retained
  writer := fun wr'' hwr'' => by
    obtain ⟨wr', hwr', hfirst', hle'⟩ := h'.writer wr'' hwr''
    obtain ⟨wr, hwr, hfirst, hle⟩ := h.writer wr' hwr'
    exact ⟨wr, hwr, hfirst'.trans hfirst, hle.trans hle'⟩
  writer_some := fun hw => h'.writer_some (h.writer_some hw)

theorem SameBooks.active (h : SameBooks w w') : w'.active = w.active := by
  unfold Wal.active
  cases hw' : w'.writer with
  | none =>
    have hnone : w.writer = none := Classical.byContradiction fun hw => h.writer_some hw hw'
    rw [hnone]
  | some wr' =>
    obtain ⟨wr, hwr, hfirst, -⟩ := h.writer wr' hw'
    rw [hwr, Option.map_some, Option.map_some, hfirst]

theorem SameBooks.oldestCursor (h : SameBooks w w') : w'.oldestCursor = w.oldestCursor := by
  rw [Wal.oldestCursor, Wal.oldestCursor, h.segments]

theorem SameBooks.extends (h : SameBooks w w') (hw : w.Books) : Extends w w' where
  books :=
    { segments := by rw [h.segments, h.dir, hw.segments]
      active_mem := fun wr' hwr' => by
        obtain ⟨wr, hwr, hfirst, hle⟩ := h.writer wr' hwr'
        obtain ⟨hmem, hpending⟩ := hw.active_mem wr hwr
        rw [hfirst, h.dir]
        exact ⟨hmem, hpending.trans hle⟩
      sizes := fun k => by rw [h.sizes, h.dir, h.active, hw.sizes]
      retained := by rw [h.retained, h.sizes, hw.retained] }
  cfg := h.cfg
  dir := fun k hk => by rwa [h.dir]
  oldest := fun k hk => oldestCursor_le hw (by rwa [← h.dir])

theorem sameBooks_moveBuffer (n : Nat) : SameBooks w (w.moveBuffer n) := by
  unfold moveBuffer
  split
  · rename_i wr hwr
    refine ⟨rfl, SortedMap.keys_modify .., rfl, rfl, rfl, ?_, fun _ => nofun⟩
    rintro wr' ⟨⟩
    exact ⟨wr, hwr, rfl, le_rfl⟩
  · exact .refl w

theorem sameBooks_flushBuffer : SameBooks w w.flushBuffer := by
  unfold flushBuffer
  split
  · exact sameBooks_moveBuffer _
  · exact .refl w

theorem sameBooks_tear : SameBooks w w.tear := by
  unfold tear
  split
  · rename_i wr hwr
    exact ⟨rfl, SortedMap.keys_modify .., rfl, rfl, rfl, fun wr' h => ⟨wr', h, rfl, le_rfl⟩, id⟩
  · exact .refl w

theorem sameBooks_buffered : SameBooks w (w.buffered r) := by
  unfold buffered
  split
  · rename_i wr hwr
    refine ⟨rfl, rfl, rfl, rfl, rfl, ?_, fun _ => nofun⟩
    rintro wr' ⟨⟩
    exact ⟨wr, hwr, rfl, le_rfl⟩
  · exact .refl w

theorem sameBooks_written : SameBooks w (w.written r) := by
  unfold written
  split
  · exact ⟨rfl, SortedMap.keys_modify .., rfl, rfl, rfl, fun wr' h => ⟨wr', h, rfl, le_rfl⟩, id⟩
  · exact .refl w

theorem sameBooks_recorded (hr : ∀ wr, w.writer = some wr → wr.pending = r.cursor) : SameBooks w (w.recorded r) := by
  unfold recorded
  split
  · rename_i wr hwr
    refine ⟨rfl, rfl, rfl, rfl, rfl, ?_, fun _ => nofun⟩
    rintro wr' ⟨⟩
    exact ⟨wr, hwr, rfl, (hr wr hwr).trans_le (Nat.le_succ _)⟩
  · exact .refl w

theorem sameBooks_writeAllCold {spare : Nat} (hr : ∀ wr, w.writer = some wr → wr.pending = r.cursor) :
    SameBooks w (writeAllCold spare r io w).1 := by
  unfold writeAllCold
  split
  · exact sameBooks_moveBuffer _
  · -- the log before the record is written
    obtain ⟨w₁, hw₁, hsame, hr₁⟩ : ∃ w₁, (if spare < r.len then w.flushBuffer else w) = w₁ ∧ SameBooks w w₁ ∧
        ∀ wr, w₁.writer = some wr → wr.pending = r.cursor := by
      by_cases hlt : spare < r.len
      · refine ⟨_, if_pos hlt, sameBooks_flushBuffer, fun wr hwr => ?_⟩
        rw [flushBuffer_writer] at hwr
        obtain ⟨wr', hwr', rfl⟩ := Option.map_eq_some_iff.1 hwr
        exact hr wr' hwr'
      · exact ⟨_, if_neg hlt, .refl w, hr⟩
    simp only [hw₁]
    split
    · refine (hsame.trans sameBooks_buffered).trans (sameBooks_recorded fun wr hwr => ?_)
      unfold buffered at hwr
      split at hwr
      · rename_i wr₁ hwr₁
        cases hwr
        exact hr₁ wr₁ hwr₁
      · exact hr₁ wr hwr
    · split
      · split
        · exact hsame.trans sameBooks_tear
        · exact hsame
      · refine (hsame.trans sameBooks_written).trans (sameBooks_recorded fun wr hwr => hr₁ wr ?_)
        unfold written at hwr
        split at hwr
        · exact hwr
        · exact hwr

theorem sameBooks_write : SameBooks w (write r io w).1 := by
  unfold write
  split
  · exact .refl w
  · rename_i wr hwr
    dsimp only
    by_cases hcursor : r.cursor = wr.pending
    · have hr : ∀ wr', w.writer = some wr' → wr'.pending = r.cursor := fun wr' hwr' => by
        rw [hwr, Option.some.injEq] at hwr'
        rw [← hwr', hcursor]
      rw [if_neg (not_not.2 hcursor)]
      split
      · refine sameBooks_buffered.trans (sameBooks_recorded fun wr' hwr' => ?_)
        simp only [buffered, hwr, Option.some.injEq] at hwr'
        rw [← hwr', hcursor]
      · exact sameBooks_writeAllCold hr
    · rw [if_pos hcursor]
      exact .refl w

theorem sameBooks_syncEach : SameBooks w (syncEach io w).1 := by
  unfold syncEach
  split
  · split
    · exact sameBooks_moveBuffer _
    · split <;> exact sameBooks_flushBuffer
  · exact .refl w

theorem sameBooks_flusherTick : SameBooks w (w.flusherTick io) := by
  have hpoisoned : ∀ {w₁}, SameBooks w w₁ → SameBooks w { w₁ with poisoned := true } :=
    fun h => ⟨h.cfg, h.dir, h.segments, h.sizes, h.retained, h.writer, h.writer_some⟩
  unfold flusherTick
  split
  · exact .refl w
  · split
    · exact hpoisoned (sameBooks_moveBuffer _)
    · split
      · exact hpoisoned sameBooks_flushBuffer
      · exact sameBooks_flushBuffer

/-! ### Segments -/

/-- What the creation of a segment must not run into, if its file can be created: an error while the header is written,
and a segment that is older. -/
def Creates (first : Nat) (io : WalIo) (w : Wal) : Prop :=
  io.createNew = true → first ∉ w.dir.keys → io.header = true ∧ w.oldestCursor ≤ first

theorem Books.create (h : w.Books) (hw : w.writer = none) (hfresh : first ∉ w.dir.keys) : Books { w with
    dir := w.dir.insert first .empty
    segments := w.segments.insert first ()
    activeBytes := SEGMENT_HEADER_LEN
    writer := some ⟨first, [], first, SEGMENT_HEADER_LEN⟩ } where
  segments := SortedMap.keys_eq_of_mem fun k => by
    rw [SortedMap.mem_keys_insert_iff, SortedMap.mem_keys_insert_iff, h.segments]
  active_mem := by
    rintro wr ⟨⟩
    exact ⟨SortedMap.mem_keys_insert .., le_rfl⟩
  sizes := fun k => by
    have hactive : w.active = none := by rw [active, hw]; rfl
    show k ∈ w.segmentSizes.keys ↔ k ∈ (w.dir.insert first .empty).keys ∧ some first ≠ some k
    rw [SortedMap.mem_keys_insert_iff, h.sizes, hactive]
    refine ⟨fun hk => ⟨.inr hk.1, fun heq => hfresh (Option.some.inj heq ▸ hk.1)⟩, fun hk => ⟨?_, nofun⟩⟩
    rcases hk.1 with heq | hmem
    · exact absurd (congrArg some heq.symm) hk.2
    · exact hmem
  retained := h.retained

theorem createSegment_extends (h : w.Books) (hw : w.writer = none) (hc : w.Creates first io) :
    Ends (createSegment first io) w
      (fun w' => Extends w w' ∧ w'.writer ≠ none ∧ w'.activeBytes = SEGMENT_HEADER_LEN ∧ first ∈ w'.dir.keys ∧
        io.createNew = true ∧ first ∉ w.dir.keys)
      (Extends w) := by
  unfold Ends createSegment
  by_cases hfail : io.createNew = false ∨ first ∈ w.dir.keys
  · rw [if_pos hfail]
    exact .refl h
  · obtain ⟨hnew, hfresh⟩ := not_or.1 hfail
    obtain ⟨hheader, hold⟩ := hc (Bool.eq_true_of_not_eq_false hnew) hfresh
    rw [if_neg hfail, if_neg (by simp [hheader])]
    refine ⟨⟨h.create hw hfresh, rfl, fun k hk => SortedMap.mem_keys_insert_of_mem hk _, fun k hk => ?_⟩,
      nofun, rfl, SortedMap.mem_keys_insert .., Bool.eq_true_of_not_eq_false hnew, hfresh⟩
    rcases SortedMap.mem_keys_insert_iff.1 hk with rfl | hk
    · exact hold
    · exact oldestCursor_le h hk

/-- A segment that is closed properly is accounted for. -/
theorem closeWriter_extends (h : w.Books) (hclose : w.writer ≠ none → io.closeFlush = true ∧ io.closeSync = true) :
    Ends (closeWriter io) w
      (fun w' => Extends w w' ∧ w'.writer = none ∧ w'.dir.keys = w.dir.keys ∧ w'.oldestCursor = w.oldestCursor)
      fun _ => False := by
  unfold Ends closeWriter
  cases hw : w.writer with
  | none => exact ⟨.refl h, hw, rfl, rfl⟩
  | some wr =>
    obtain ⟨hflush, hsync⟩ := hclose (by rw [hw]; nofun)
    simp only [hflush, hsync, Bool.true_eq_false, if_false]
    obtain ⟨hmem, -⟩ := h.active_mem wr hw
    have hactive : w.active = some wr.first := by rw [active, hw]; rfl
    have hfresh : wr.first ∉ w.segmentSizes.keys := fun hin => ((h.sizes _).1 hin).2 hactive
    have hsame := sameBooks_flushBuffer (w := w)
    refine ⟨⟨⟨?_, nofun, fun k => ?_, ?_⟩, hsame.cfg, fun k hk => ?_, fun k hk => ?_⟩, trivial, hsame.dir, ?_⟩
    · show w.flushBuffer.segments.keys = w.flushBuffer.dir.keys
      rw [hsame.segments, hsame.dir, h.segments]
    · show k ∈ (w.segmentSizes.insert wr.first wr.bytesWritten).keys ↔ k ∈ w.flushBuffer.dir.keys ∧ none ≠ some k
      rw [SortedMap.mem_keys_insert_iff, hsame.dir, h.sizes, hactive, ne_eq, Option.some.injEq]
      refine ⟨fun hk => ⟨?_, nofun⟩, fun hk => ?_⟩
      · rcases hk with rfl | hk
        · exact hmem
        · exact hk.1
      · by_cases heq : k = wr.first
        · exact .inl heq
        · exact .inr ⟨hk.1, fun h => heq h.symm⟩
    · show w.retainedBytes + wr.bytesWritten = _
      rw [SortedMap.sum_insert hfresh, h.retained]
    · show k ∈ w.flushBuffer.dir.keys
      rwa [hsame.dir]
    · have hk' : k ∈ w.flushBuffer.dir.keys := hk
      rw [hsame.dir] at hk'
      exact oldestCursor_le h hk'
    · exact hsame.oldestCursor

theorem rotateLocked_extends (h : w.Books) (hclose : w.writer ≠ none → io.closeFlush = true ∧ io.closeSync = true)
    (hc : w.Creates first io) :
    Ends (rotateLocked first io) w (fun w' => Extends w w' ∧ w'.writer ≠ none) (Extends w) := by
  refine Ends.andThen (Ends.mono (closeWriter_extends h hclose) (fun _ => id) (fun _ => False.elim)) fun w' hw' => ?_
  obtain ⟨hext, hnone, hdir, hold⟩ := hw'
  have hc' : w'.Creates first io := fun hnew hfresh => by
    rw [hold]
    exact hc hnew (hdir ▸ hfresh)
  exact (createSegment_extends hext.books hnone hc').mono (fun w'' h'' => ⟨hext.trans h h''.1, h''.2.1⟩)
    fun w'' h'' => hext.trans h h''

/-! ### Retention -/

theorem Shrinks.trans (h : Shrinks w w') (h' : Shrinks w' w'') : Shrinks w w'' where
  cfg := h'.cfg.trans h.cfg
  active := h'.active.trans h.active
  dir := fun k hk => h.dir k (h'.dir k hk)
  in_order := fun k hk hgone => by
    by_cases hmem : k ∈ w'.dir.keys
    · obtain ⟨hne, hlt⟩ := h'.in_order k hmem hgone
      rw [h.active] at hne hlt
      exact ⟨hne, hlt⟩
    · obtain ⟨hne, hlt⟩ := h.in_order k hk hmem
      exact ⟨hne, fun k' hk' => hlt k' (h'.dir k' hk')⟩

theorem Books.retire (h : w.Books) (hne : w.active ≠ some k) : (w.retire k).Books where
  segments := SortedMap.keys_eq_of_mem fun j => by
    rw [Wal.retire, SortedMap.mem_keys_erase, SortedMap.mem_keys_erase, h.segments]
  active_mem := fun wr hwr => by
    have hwr' : w.writer = some wr := hwr
    obtain ⟨hmem, hle⟩ := h.active_mem wr hwr'
    refine ⟨SortedMap.mem_keys_erase.2 ⟨hmem, fun heq => hne ?_⟩, hle⟩
    rw [Wal.active, hwr', ← heq]
    rfl
  sizes := fun j => by
    show j ∈ (w.segmentSizes.erase k).keys ↔ j ∈ (w.dir.erase k).keys ∧ w.active ≠ some j
    rw [SortedMap.mem_keys_erase, SortedMap.mem_keys_erase, h.sizes]
    exact and_right_comm
  retained := by
    have hsum := SortedMap.sum_erase (m := w.segmentSizes) k
    have hretained := h.retained
    show w.retainedBytes - (w.segmentSizes.lookup k).getD 0 = _
    simp only [Wal.retire]
    omega

/-- The segment that a round of the retention deletes is the oldest that is not active. -/
theorem shrinks_retire (h : w.Books) (hk : w.segments.keys.find? (fun k => some k ≠ w.writer.map SegmentWriter.first) =
    some k) : w.active ≠ some k ∧ k ∈ w.dir.keys ∧ Shrinks w (w.retire k) := by
  have hne : w.active ≠ some k := fun heq => by
    have := List.find?_some hk
    simp only [ne_eq, decide_not, Bool.not_eq_true', decide_eq_false_iff_not] at this
    exact this heq.symm
  have hmem : k ∈ w.dir.keys := h.segments ▸ List.mem_of_find?_eq_some hk
  refine ⟨hne, hmem, rfl, rfl, fun j hj => (SortedMap.mem_keys_erase.1 hj).1, fun j hj hgone => ?_⟩
  obtain rfl : j = k := Classical.byContradiction fun hjk => hgone (SortedMap.mem_keys_erase.2 ⟨hj, hjk⟩)
  refine ⟨hne, fun k' hk' hactive => ?_⟩
  obtain ⟨hk', hkk'⟩ := SortedMap.mem_keys_erase.1 hk'
  obtain ⟨-, before, after, hsplit, hbefore⟩ := List.find?_eq_some_iff_append.1 hk
  have hasc := w.segments.keys_ascending
  rw [← h.segments, hsplit] at hk'
  rw [hsplit] at hasc
  rcases List.mem_append.1 hk' with hin | hin
  · -- the segments passed over are active
    have := hbefore k' hin
    simp only [ne_eq, decide_not, Bool.not_not, decide_eq_true_eq] at this
    exact absurd this.symm hactive
  · rcases List.mem_cons.1 hin with heq | hin
    · exact absurd heq hkk'
    · exact (List.pairwise_cons.1 (List.pairwise_append.1 hasc).2.1).1 k' hin

/-- The total is within the limit, or only the active segment is left. -/
def Within (w : Wal) : Prop :=
  w.retainedBytes + w.activeBytes ≤ w.cfg.retentionBytes ∨ ∀ k ∈ w.dir.keys, w.active = some k

theorem enforceRetention_shrinks (rounds : Nat) (h : w.Books) :
    (w.enforceRetention rounds).Books ∧ Shrinks w (w.enforceRetention rounds) ∧
      (w.segments.keys.length ≤ rounds → (w.enforceRetention rounds).Within) := by
  induction rounds generalizing w with
  | zero =>
    refine ⟨h, ⟨rfl, rfl, fun _ hk => hk, fun _ hk hgone => absurd hk hgone⟩, fun hnone => .inr fun k hk => ?_⟩
    have hk' : k ∈ w.dir.keys := hk
    rw [← h.segments, List.length_eq_zero_iff.1 (Nat.le_zero.1 hnone)] at hk'
    cases hk'
  | succ rounds ih =>
    unfold enforceRetention
    split
    · rename_i hwithin
      exact ⟨h, ⟨rfl, rfl, fun _ hk => hk, fun _ hk hgone => absurd hk hgone⟩, fun _ => .inl hwithin⟩
    · split
      · rename_i k hk
        obtain ⟨hne, hmem, hshrinks⟩ := shrinks_retire h hk
        obtain ⟨hbooks, hrest, hwithin⟩ := ih (h.retire hne)
        refine ⟨hbooks, hshrinks.trans hrest, fun hlength => hwithin ?_⟩
        have hfewer : (w.segments.erase k).keys.length < w.segments.keys.length :=
          SortedMap.length_keys_erase (h.segments ▸ hmem)
        show (w.segments.erase k).keys.length ≤ rounds
        omega
      · rename_i hnone
        refine ⟨h, ⟨rfl, rfl, fun _ hk => hk, fun _ hk hgone => absurd hk hgone⟩, fun _ => .inr fun k hk => ?_⟩
        have := List.find?_eq_none.1 hnone k (h.segments ▸ hk)
        simp only [ne_eq, decide_not, Bool.not_eq_true', decide_eq_false_iff_not, not_not] at this
        exact this.symm

/-! ### Appends -/

/-- What an append must not run into -/
def AppendCounted (cursor : Nat) (payload : Bytes) (io : WalIo) (w : Wal) : Prop :=
  (w.writer = none → w.Creates cursor io ∧ (io.createNew = true → cursor ∉ w.dir.keys →
    w.cfg.segmentSizeMax < SEGMENT_HEADER_LEN + (RECORD_FRAMING + payload.length) →
      io.closeFlush = true ∧ io.closeSync = true)) ∧
  (w.writer ≠ none → w.cfg.segmentSizeMax < w.activeBytes + (RECORD_FRAMING + payload.length) →
    io.closeFlush = true ∧ io.closeSync = true ∧ w.Creates cursor io)

/-- The log has been extended and has a writer. -/
structure Writes (w w' : Wal) : Prop where
  extends_ : Extends w w'
  writer : w'.writer ≠ none

theorem Writes.sameBooks (h : w.Books) (hw : Writes w w') (hsame : SameBooks w' w'') : Writes w w'' :=
  ⟨hw.extends_.trans h (hsame.extends hw.extends_.books), hsame.writer_some hw.writer⟩

theorem makeRoom_extends (h : w.Books) (hc : w.AppendCounted r.cursor r.payload io) :
    Ends ((ensureWriter r.cursor io).andThen (rotateIfFull r io)) w (Writes w) (Extends w) := by
  have hlen : r.len = RECORD_FRAMING + r.payload.length := rfl
  cases hw : w.writer with
  | none =>
    obtain ⟨hcreates, hclose⟩ := hc.1 hw
    have hensure : ensureWriter r.cursor io w = createSegment r.cursor io w := by simp only [ensureWriter, hw]
    refine ((createSegment_extends h hw hcreates).congr hensure).andThen fun w' hw' => ?_
    obtain ⟨hext, hsome, hbytes, hmem, hnew, hfresh⟩ := hw'
    by_cases hfull : w'.cfg.segmentSizeMax < w'.activeBytes + r.len
    · have hfull' := hfull
      rw [hext.cfg, hbytes, hlen] at hfull'
      have hrotate := rotateLocked_extends hext.books (fun _ => hclose hnew hfresh hfull')
        fun _ habsent => absurd hmem habsent
      have hrotate' := hrotate.mono (fun w'' h'' => (⟨hext.trans h h''.1, h''.2⟩ : Writes w w'')) fun _ h'' => hext.trans h h''
      exact hrotate'.congr (by simp only [rotateIfFull, if_pos hfull])
    · simp only [Ends, rotateIfFull, if_neg hfull]
      exact ⟨hext, hsome⟩
  | some wr =>
    have hsome : w.writer ≠ none := by simp [hw]
    have hensure : Ends (ensureWriter r.cursor io) w (fun w' => w' = w) (Extends w) := by
      simp only [Ends, ensureWriter, hw]
    refine hensure.andThen fun w' hw' => ?_
    subst hw'
    by_cases hfull : w'.cfg.segmentSizeMax < w'.activeBytes + r.len
    · obtain ⟨hflush, hsync, hcreates⟩ := hc.2 hsome hfull
      have hrotate := rotateLocked_extends h (fun _ => ⟨hflush, hsync⟩) hcreates
      exact (hrotate.mono (fun w'' h'' => (⟨h''.1, h''.2⟩ : Writes w' w'')) fun _ => id).congr
        (by simp only [rotateIfFull, if_pos hfull])
    · simp only [Ends, rotateIfFull, if_neg hfull]
      exact ⟨.refl h, hsome⟩

/-- What an append or a rotation has done: files created, then files deleted -/
structure Accounts (w w' : Wal) : Prop where
  books : w'.Books
  between : ∃ w₁, Extends w w₁ ∧ Shrinks w₁ w'
  left : w'.dir.keys = [] → w.dir.keys = []

theorem Extends.accounts (h : Extends w w') : Accounts w w' where
  books := h.books
  between := ⟨w', h, rfl, rfl, fun _ hk => hk, fun _ hk hgone => absurd hk hgone⟩
  left := fun hnil => List.eq_nil_iff_forall_not_mem.2 fun k hk => by
    have := h.dir k hk
    rw [hnil] at this
    cases this

/-- An append extends the log, and then deletes segments in order until the total is within the limit. -/
theorem append_accounts {cursor : Nat} {payload : Bytes} (ts : Nat) (h : w.Books) (henabled : w.cfg.enabled = true)
    (hc : payload.length ≤ MAX_PAYLOAD_LEN → w.poisoned = false → w.AppendCounted cursor payload io) :
    Accounts w (append cursor ts payload io w).1 ∧
      ((append cursor ts payload io w).2 = .ok () → (append cursor ts payload io w).1.Within) := by
  unfold append
  rw [if_neg (by simp [henabled])]
  by_cases hlength : MAX_PAYLOAD_LEN < payload.length
  · rw [if_pos hlength]
    exact ⟨(Extends.refl h).accounts, nofun⟩
  rw [if_neg hlength]
  by_cases hpoisoned : w.poisoned = true
  · rw [if_pos hpoisoned]
    exact ⟨(Extends.refl h).accounts, nofun⟩
  rw [if_neg hpoisoned]
  generalize hr : (⟨cursor, ts, payload⟩ : Record) = r
  have hcounted : w.AppendCounted r.cursor r.payload io := by
    rw [← hr]
    exact hc (Nat.not_lt.1 hlength) (Bool.eq_false_iff.2 hpoisoned)
  have hcursor : cursor = r.cursor := by rw [← hr]
  rw [hcursor]
  have hstep : ∀ {f : Attempt WalError Wal} {w₁ : Wal}, Writes w w₁ → SameBooks w₁ (f w₁).1 →
      Ends f w₁ (Writes w) (Extends w) := fun hw₁ hsame =>
    (Ends.of_fst (Writes.sameBooks h hw₁ hsame)).mono (fun _ => id) fun _ => Writes.extends_
  have hwrite : Ends (((ensureWriter r.cursor io).andThen (rotateIfFull r io)).andThen (write r io)) w (Writes w)
      (Extends w) := (makeRoom_extends h hcounted).andThen fun w₁ hw₁ => hstep hw₁ sameBooks_write
  have hsync : Ends ((((ensureWriter r.cursor io).andThen (rotateIfFull r io)).andThen (write r io)).andThen
      (syncEach io)) w (Writes w) (Extends w) := hwrite.andThen fun w₁ hw₁ => hstep hw₁ sameBooks_syncEach
  have hretain : Ends (((((ensureWriter r.cursor io).andThen (rotateIfFull r io)).andThen (write r io)).andThen
      (syncEach io)).andThen fun w => (w.enforceRetention w.segments.keys.length, .ok ())) w
      (fun w' => Accounts w w' ∧ w'.Within) (Extends w) := by
    refine hsync.andThen fun w₁ hw₁ => ?_
    obtain ⟨hbooks, hshrinks, hwithin⟩ := enforceRetention_shrinks w₁.segments.keys.length hw₁.extends_.books
    refine ⟨⟨hbooks, ⟨w₁, hw₁.extends_, hshrinks⟩, fun hnil => ?_⟩, hwithin le_rfl⟩
    -- the active segment is left
    obtain ⟨wr, hwr⟩ := Option.ne_none_iff_exists'.1 hw₁.writer
    have hactive : (w₁.enforceRetention w₁.segments.keys.length).active = some wr.first := by
      rw [hshrinks.active, active, hwr]
      rfl
    obtain ⟨wr', hwr', -⟩ := Option.map_eq_some_iff.1 hactive
    have hmem := (hbooks.active_mem wr' hwr').1
    rw [hnil] at hmem
    cases hmem
  rcases hretain.cases with ⟨w', heq, haccounts, hwithin⟩ | ⟨w', e, heq, hext⟩
  · rw [heq]
    exact ⟨haccounts, fun _ => hwithin⟩
  · rw [heq]
    exact ⟨hext.accounts, nofun⟩

theorem bumpGeneration_accounts (h : w.Books) (hc : ∀ wr, w.writer = some wr → io.closeFlush = true ∧
    io.closeSync = true ∧ (io.createNew = true → wr.pending ∉ w.dir.keys → io.header = true)) :
    Accounts w (w.bumpGeneration io).1 := by
  unfold bumpGeneration
  split
  · rename_i wr hwr
    obtain ⟨hflush, hsync, hheader⟩ := hc wr hwr
    obtain ⟨hmem, hle⟩ := h.active_mem wr hwr
    have hrotate := rotateLocked_extends h (fun _ => ⟨hflush, hsync⟩)
      fun hnew hfresh => ⟨hheader hnew hfresh, (oldestCursor_le h hmem).trans hle⟩
    rcases hrotate.cases with ⟨w', heq, hext, -⟩ | ⟨w', e, heq, hext⟩
    · rw [heq]
      exact hext.accounts
    · rw [heq]
      exact hext.accounts
  · exact (Extends.refl h).accounts

theorem open_books {cfg : WalConfig} {dir : WalDir} (h : «open» cfg dir = .ok w) : w.Books ∧ w.cfg = cfg := by
  have hofDir : ∀ (dir : WalDir) (pending : Nat), (ofDir cfg dir pending).Books := fun dir pending =>
    { segments := by simp [ofDir]
      active_mem := nofun
      sizes := fun k => by simp [ofDir, active]
      retained := by simp [ofDir, SortedMap.map, Function.comp_def] }
  unfold «open» at h
  split at h
  · cases h
  · dsimp only at h
    split at h
    · cases h
      exact ⟨hofDir _ _, rfl⟩
    · split at h
      · cases h
        exact ⟨hofDir _ _, rfl⟩
      · split at h
        · rename_i hcreate
          cases h
          unfold createSegment at hcreate
          split at hcreate
          · cases hcreate
          · rename_i hfresh
            cases hcreate
            exact ⟨(hofDir _ _).create rfl (not_or.1 hfresh).2, rfl⟩
        · cases h

end Wal

/-- A log, and the segment files that `remove_file` has failed to remove -/
structure Ledger where
  wal : Wal
  leftover : List Nat

namespace Ledger

variable {s s' : Ledger}

/-- The segment files of the directory, by first cursor -/
def files (s : Ledger) : List Nat := s.wal.dir.keys ++ s.leftover

/-- A file that was left behind is in the way of a new segment. -/
def onDisk (s : Ledger) (first : Nat) (io : WalIo) : WalIo :=
  { io with createNew := io.createNew && decide (first ∉ s.leftover) }

/-- A call, or a round of the flusher between two calls; `undeletable` are the files that `remove_file` cannot remove. -/
inductive Act
  | append (cursor ts : Nat) (payload : Bytes) (io : WalIo) (undeletable : Nat → Bool)
  | bumpGeneration (io : WalIo)
  | flusher (io : WalIo)

def append (s : Ledger) (cursor ts : Nat) (payload : Bytes) (io : WalIo) : Wal × Except WalError Unit :=
  s.wal.append cursor ts payload (s.onDisk cursor io)

def bumpGeneration (s : Ledger) (io : WalIo) : Wal :=
  (s.wal.bumpGeneration (s.onDisk ((s.wal.writer.map SegmentWriter.pending).getD 0) io)).1

def step (s : Ledger) : Act → Option Ledger
  | .append cursor ts payload io undeletable =>
    let wal := (s.append cursor ts payload io).1
    some ⟨wal, s.leftover ++ s.wal.dir.keys.filter fun k => decide (k ∉ wal.dir.keys) && undeletable k⟩
  | .bumpGeneration io => some { s with wal := s.bumpGeneration io }
  | .flusher io => some { s with wal := s.wal.flusherTick io }

/-- No segment is left with an unsynced end or without its header, none that retention deletes stays on disk, and none is
created below the oldest. -/
def Counted (s : Ledger) : Act → Prop
  | .append cursor ts payload io undeletable =>
    (payload.length ≤ MAX_PAYLOAD_LEN → s.wal.poisoned = false →
      s.wal.AppendCounted cursor payload (s.onDisk cursor io)) ∧
    ∀ k ∈ s.wal.dir.keys, k ∉ (s.append cursor ts payload io).1.dir.keys → undeletable k = false
  | .bumpGeneration io => ∀ wr, s.wal.writer = some wr → io.closeFlush = true ∧ io.closeSync = true ∧
      (io.createNew = true → wr.pending ∉ s.files → io.header = true)
  | .flusher _ => True

/-- The running total is the sum of the recorded sizes, and those are of the files that are not active. -/
structure Exact (s : Ledger) : Prop where
  retained : s.wal.retainedBytes = (s.wal.segmentSizes.entries.map Prod.snd).sum
  recorded : ∀ k, k ∈ s.wal.segmentSizes.keys ↔ k ∈ s.files ∧ s.wal.active ≠ some k

/-- What a call may do: a successful append ends within the limit or with the active segment alone, files are deleted oldest
first and never the active one, and the oldest cursor does not fall. -/
structure Retains (s : Ledger) (a : Act) (s' : Ledger) : Prop where
  within : ∀ cursor ts payload io undeletable, a = .append cursor ts payload io undeletable →
    (s.append cursor ts payload io).2 = .ok () →
      s'.wal.retainedBytes + s'.wal.activeBytes ≤ s'.wal.cfg.retentionBytes ∨ ∀ k ∈ s'.files, s'.wal.active = some k
  in_order : ∀ k ∈ s.files, k ∉ s'.files →
    s'.wal.active ≠ some k ∧ ∀ k' ∈ s'.files, s'.wal.active ≠ some k' → k < k'
  oldest : s.wal.oldestCursor ≤ s'.wal.oldestCursor

/-- What holds as long as nothing escapes the accounts -/
structure Kept (s : Ledger) : Prop where
  enabled : s.wal.cfg.enabled = true
  books : s.wal.Books
  leftover : s.leftover = []

theorem Kept.exact (h : s.Kept) : s.Exact := by
  refine ⟨h.books.retained, fun k => ?_⟩
  rw [files, h.leftover, List.append_nil]
  exact h.books.sizes k

theorem Kept.onDisk (h : s.Kept) (first : Nat) (io : WalIo) : s.onDisk first io = io := by
  simp [Ledger.onDisk, h.leftover]

theorem retains_of_accounts {a : Act} (h : s.Kept) (h' : s'.Kept) (haccounts : s.wal.Accounts s'.wal)
    (hwithin : ∀ cursor ts payload io undeletable, a = .append cursor ts payload io undeletable →
      (s.append cursor ts payload io).2 = .ok () → s'.wal.Within) : s.Retains a s' := by
  obtain ⟨w₁, hext, hshrinks⟩ := haccounts.between
  have hfiles : s.files = s.wal.dir.keys := by rw [files, h.leftover, List.append_nil]
  have hfiles' : s'.files = s'.wal.dir.keys := by rw [files, h'.leftover, List.append_nil]
  refine ⟨fun cursor ts payload io undeletable ha hok => ?_, fun k hk hgone => ?_, ?_⟩
  · rw [hfiles']
    exact hwithin cursor ts payload io undeletable ha hok
  · rw [hfiles] at hk
    rw [hfiles'] at hgone
    rw [hfiles', hshrinks.active]
    exact hshrinks.in_order k (hext.dir k hk) hgone
  · refine Wal.oldestCursor_mono h'.books (fun k hk => hext.oldest k (hshrinks.dir k hk)) fun hnil => ?_
    exact Wal.oldestCursor_of_nil h.books (haccounts.left hnil)

theorem step_kept {a : Act} (h : s.Kept) (hc : s.Counted a) (hs : s.step a = some s') : s'.Kept ∧ s.Retains a s' := by
  cases a with
  | append cursor ts payload io undeletable =>
    cases hs
    obtain ⟨hcounted, hdeleted⟩ := hc
    obtain ⟨haccounts, hwithin⟩ := Wal.append_accounts ts h.books h.enabled hcounted
    have hcfg : (s.append cursor ts payload io).1.cfg = s.wal.cfg := by
      obtain ⟨w₁, hext, hshrinks⟩ := haccounts.between
      exact hshrinks.cfg.trans hext.cfg
    have hkept : Kept ⟨(s.append cursor ts payload io).1, s.leftover ++ s.wal.dir.keys.filter fun k =>
        decide (k ∉ (s.append cursor ts payload io).1.dir.keys) && undeletable k⟩ := by
      refine ⟨by rw [← h.enabled, ← hcfg], haccounts.books, ?_⟩
      rw [h.leftover, List.nil_append, List.filter_eq_nil_iff]
      intro k hk hbad
      rw [Bool.and_eq_true, decide_eq_true_eq] at hbad
      rw [hdeleted k hk hbad.1] at hbad
      cases hbad.2
    refine ⟨hkept, retains_of_accounts h hkept haccounts ?_⟩
    rintro cursor' ts' payload' io' undeletable' ⟨⟩ hok
    exact hwithin hok
  | bumpGeneration io =>
    cases hs
    have haccounts : s.wal.Accounts (s.bumpGeneration io) := by
      refine Wal.bumpGeneration_accounts h.books fun wr hwr => ?_
      obtain ⟨hflush, hsync, hheader⟩ := hc wr hwr
      rw [h.onDisk]
      rw [files, h.leftover, List.append_nil] at hheader
      exact ⟨hflush, hsync, hheader⟩
    have hcfg : (s.bumpGeneration io).cfg = s.wal.cfg := by
      obtain ⟨w₁, hext, hshrinks⟩ := haccounts.between
      exact hshrinks.cfg.trans hext.cfg
    have hkept : Kept { s with wal := s.bumpGeneration io } :=
      ⟨by rw [← h.enabled, ← hcfg], haccounts.books, h.leftover⟩
    exact ⟨hkept, retains_of_accounts h hkept haccounts fun _ _ _ _ _ heq => (by cases heq)⟩
  | flusher io =>
    cases hs
    have hsame : Wal.SameBooks s.wal (s.wal.flusherTick io) := Wal.sameBooks_flusherTick
    have haccounts := (hsame.extends h.books).accounts
    have hkept : Kept { s with wal := s.wal.flusherTick io } :=
      ⟨by rw [← h.enabled, ← hsame.cfg], haccounts.books, h.leftover⟩
    exact ⟨hkept, retains_of_accounts h hkept haccounts fun _ _ _ _ _ heq => (by cases heq)⟩

/-- The accounts are exact along every run from `Wal::open` whose steps let nothing escape them. -/
theorem accounts_exact {cfg : WalConfig} {dir : WalDir} {w : Wal} {acts : List Act} {a : Act}
    (henabled : cfg.enabled = true) (hopen : Wal.open cfg dir = .ok w)
    (hc : Meets step Counted ⟨w, []⟩ (acts ++ [a])) (hr : run step ⟨w, []⟩ acts = some s) (hs : s.step a = some s') :
    s.Exact ∧ s'.Exact ∧ s.Retains a s' := by
  obtain ⟨hbooks, hcfg⟩ := Wal.open_books hopen
  have hinit : Kept ⟨w, []⟩ := ⟨by rw [hcfg, henabled], hbooks, rfl⟩
  have hkept : s.Kept := run_invariant_when Kept Counted (fun _ _ _ h hc hs => (step_kept h hc hs).1) hc.append_left
    hinit hr
  obtain ⟨hkept', hretains⟩ := step_kept hkept (hc.append_right hr).1 hs
  exact ⟨hkept.exact, hkept'.exact, hretains⟩

/-- Segments for one record of one byte, of which one may be kept -/
def tinyCfg : WalConfig := ⟨true, .none, 61, 100⟩

/-- A new log -/
def fresh : Ledger := ⟨Wal.ofDir tinyCfg .empty 0, []⟩

/-- An append that no system call fails -/
def appendOne (cursor : Nat) : Act := .append cursor 0 [1] .ok fun _ => false

/-- An append that no system call fails meets the condition, unless its cursor is below the oldest. -/
theorem counted_appendOne {cursor : Nat} (h : s.wal.oldestCursor ≤ cursor) : s.Counted (appendOne cursor) := by
  have hcreates : s.wal.Creates cursor (s.onDisk cursor .ok) := fun _ _ => ⟨rfl, h⟩
  exact ⟨fun _ _ => ⟨fun _ => ⟨hcreates, fun _ _ _ => ⟨rfl, rfl⟩⟩, fun _ _ => ⟨rfl, rfl, hcreates⟩⟩, fun _ _ _ => rfl⟩

/-- A new log that may keep two such segments -/
def freshOfTwo : Ledger := ⟨Wal.ofDir { tinyCfg with retentionBytes := 130 } .empty 0, []⟩

/-- The third append closes the second segment and deletes the first. -/
theorem accounts_exact_thirdAppend : ∃ s s', run step freshOfTwo [appendOne 0, appendOne 1] = some s ∧
    s.step (appendOne 2) = some s' ∧ s.files = [0, 1] ∧ s'.files = [1, 2] ∧ s.wal.retainedBytes = 61 ∧
    s'.wal.retainedBytes = 61 ∧ s'.wal.segmentSizes.keys = [1] ∧ s.Exact ∧ s'.Exact ∧ s.Retains (appendOne 2) s' := by
  have hopen : Wal.open { tinyCfg with retentionBytes := 130 } .empty = .ok freshOfTwo.wal := rfl
  have hc : Meets step Counted freshOfTwo ([appendOne 0, appendOne 1] ++ [appendOne 2]) := by
    refine ⟨counted_appendOne (by decide), fun s₁ h₁ => ?_⟩
    cases h₁
    refine ⟨counted_appendOne (by decide), fun s₂ h₂ => ?_⟩
    cases h₂
    exact ⟨counted_appendOne (by decide), fun _ _ => trivial⟩
  have h := accounts_exact rfl hopen hc rfl rfl
  exact ⟨_, _, rfl, rfl, by decide, by decide, by decide, by decide, by decide, h⟩

/-- A cursor that has regressed is refused by the writer of a segment, but not when the record opens one: the oldest cursor
falls.  And a file that is not removed is in no account. -/
theorem accounts_exact_fails :
    (∃ s s', run step fresh [appendOne 0, appendOne 1] = some s ∧ s.step (appendOne 0) = some s' ∧
      ¬s.Retains (appendOne 0) s') ∧
    ∃ s, run step fresh [appendOne 0, .append 1 0 [1] .ok fun _ => true] = some s ∧ ¬s.Exact := by
  refine ⟨?_, ?_⟩
  · obtain ⟨s, hr, hs⟩ := Option.map_eq_some_iff.1 (show (run step fresh [appendOne 0, appendOne 1]).map (fun s =>
      (s.wal.oldestCursor, (s.step (appendOne 0)).map fun s' => s'.wal.oldestCursor)) = some (1, some 0) by decide)
    obtain ⟨hold, hnext⟩ := Prod.mk.inj hs
    obtain ⟨s', hs', hold'⟩ := Option.map_eq_some_iff.1 hnext
    refine ⟨s, s', hr, hs', fun h => ?_⟩
    have := h.oldest
    omega
  · obtain ⟨s, hr, hs⟩ := Option.map_eq_some_iff.1 (show (run step fresh
      [appendOne 0, .append 1 0 [1] .ok fun _ => true]).map (fun s => (s.wal.segmentSizes.keys, s.files, s.wal.active)) =
        some ([], [1, 0], some 1) by decide)
    obtain ⟨hsizes, hrest⟩ := Prod.mk.inj hs
    obtain ⟨hfiles, hactive⟩ := Prod.mk.inj hrest
    refine ⟨s, hr, fun h => ?_⟩
    have hin := (h.recorded 0).2
    rw [hsizes, hfiles, hactive] at hin
    exact absurd (hin (by decide)) (by decide)

end Ledger

end Mmbus
