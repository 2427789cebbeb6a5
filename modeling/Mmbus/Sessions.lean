import Mmbus.Lib.Chapters
import Mmbus.Lib.Transition
import Mmbus.Wal

/-!
# Sessions on one log directory

The v0.1 log over its restarts.  A session opens the log, appends at its pending cursor, and ends by a drop or by a
crash: between two operations, or inside an append or an open after any of their system calls (`appendTrace`,
`openTrace`).  A crash may also take the end of the newest segment with it, which may then end in part of a record.

Whatever the sessions do, the segments on disk hold the records of consecutive cursors, each segment from the cursor on
that it is named by (`Log.Inv`).
-/

namespace Mmbus

open Attempt Chapters Transition

/-- The segments as chapters of the log -/
def WalDir.chapters (dir : WalDir) : List (Nat × List Record) := dir.entries.map fun p => (p.1, p.2.records)

/-- The segments hold consecutive records, each from its first cursor on. -/
def WalDir.Ordered (dir : WalDir) : Prop := ∃ n m, Covers Record.cursor n dir.chapters m

theorem WalDir.flatMap_chapters (dir : WalDir) : dir.chapters.flatMap Prod.snd = dir.records := by
  rw [chapters, List.flatMap_map]
  rfl

theorem WalDir.chapters_of_last {dir : WalDir} {closed : List (Nat × Segment)} {k : Nat} {s : Segment}
    (h : dir.entries = closed ++ [(k, s)]) :
    dir.chapters = (closed.map fun p => (p.1, p.2.records)) ++ [(k, s.records)] := by
  simp [chapters, h]

/-- What is left of the directory after a crash: of the newest segment the first `kept` records, and perhaps part of
the next one. -/
def WalDir.lose (kept : Nat) (torn : Bool) (dir : WalDir) : WalDir :=
  match dir.last? with
  | some (k, _) => dir.modify k fun s => { s with records := s.records.take kept, torn := torn }
  | none => dir

theorem WalDir.Ordered.lose {dir : WalDir} (h : dir.Ordered) (kept : Nat) (torn : Bool) :
    (dir.lose kept torn).Ordered := by
  obtain ⟨n, m, hcovers⟩ := h
  unfold WalDir.lose
  split
  · rename_i k s hlast
    obtain ⟨closed, hdir⟩ := SortedMap.last?_eq_some hlast
    have hdir' := SortedMap.entries_modify_last hdir
      fun s => { s with records := s.records.take kept, torn := torn }
    rw [WalDir.chapters_of_last hdir] at hcovers
    exact ⟨n, _, WalDir.chapters_of_last hdir' ▸ hcovers.cut kept⟩
  · exact ⟨n, m, hcovers⟩

namespace Wal

/-! ### The directories between the system calls -/

/-- `SegmentWriter::create`: the file, then its header -/
def createTrace (first : Nat) (w : Wal) : List WalDir :=
  [w.dir.insert first { Segment.empty with header := false }, w.dir.insert first .empty]

def ensureTrace (cursor : Nat) (w : Wal) : List WalDir :=
  match w.writer with
  | some _ => []
  | none => createTrace cursor w

def rotateTrace (r : Record) (w : Wal) : List WalDir :=
  if w.cfg.segmentSizeMax < w.activeBytes + r.len then w.flushBuffer.dir :: createTrace r.cursor w.flushBuffer else []

def writeTrace (r : Record) (w : Wal) : List WalDir :=
  match w.writer with
  | none => []
  | some wr =>
    let spare := BUF_CAPACITY - (wr.buffer.map Record.len).sum
    if r.len < spare then []
    else
      (if spare < r.len then [w.flushBuffer.dir] else []) ++
        if r.len < BUF_CAPACITY then [] else [((if spare < r.len then w.flushBuffer else w).written r).dir]

def syncTrace (w : Wal) : List WalDir := if w.cfg.fsyncPolicy = .each then [w.flushBuffer.dir] else []

def retentionTrace : (rounds : Nat) → Wal → List WalDir
  | 0, _ => []
  | rounds + 1, w =>
    if w.retainedBytes + w.activeBytes ≤ w.cfg.retentionBytes then []
    else
      match w.segments.keys.find? fun k => some k ≠ w.writer.map SegmentWriter.first with
      | some k => (w.retire k).dir :: retentionTrace rounds (w.retire k)
      | none => []

/-- The directories that a successful append passes through -/
def appendTrace (r : Record) (w : Wal) : List WalDir :=
  let ensured := (ensureWriter r.cursor .ok w).1
  let rotated := (rotateIfFull r .ok ensured).1
  let wrote := (write r .ok rotated).1
  let synced := (syncEach .ok wrote).1
  ensureTrace r.cursor w ++ rotateTrace r ensured ++ writeTrace r rotated ++ syncTrace wrote ++
    retentionTrace synced.segments.keys.length synced

/-- The directories that a successful open passes through.  Only the newest segment can end in part of a record, so
`recover_truncate` cuts one file. -/
def openTrace (cfg : WalConfig) (dir : WalDir) : List WalDir :=
  let dir : WalDir := dir.map fun _ => Segment.recover
  dir :: match dir.last? with
    | none => []
    | some (lastFirst, seg) =>
      let next := nextCursor lastFirst seg
      if next = lastFirst then [] else createTrace next (ofDir cfg dir next)

/-! ### The order of the records -/

/-- The records of the buffer -/
def buffer (w : Wal) : List Record := (w.writer.map SegmentWriter.buffer).getD []

/-- The segments hold consecutive records, the buffer those that follow, up to the pending cursor. -/
def Ordered (w : Wal) : Prop :=
  ∃ n m, Covers Record.cursor n w.dir.chapters m ∧ Numbered Record.cursor m w.buffer ∧
    w.pendingCursor = m + w.buffer.length

variable {cfg : WalConfig} {w w' : Wal} {wr : SegmentWriter} {r : Record} {n m : Nat}

theorem Ordered.dir (h : w.Ordered) : w.dir.Ordered := by
  obtain ⟨n, m, h, -⟩ := h
  exact ⟨n, m, h⟩

theorem Ordered.of_eq (h : w.Ordered) (hdir : w'.dir = w.dir) (hbuf : w'.buffer = w.buffer)
    (hpending : w'.pendingCursor = w.pendingCursor) : w'.Ordered := by
  unfold Ordered
  rw [hdir, hbuf, hpending]
  exact h

/-- A new segment, empty yet, is named by the pending cursor. -/
theorem covers_insert (h : w.Ready cfg) (ho : w.Ordered) (hw : w.writer = none) {s : Segment} (hs : s.records = []) :
    ∃ n, Covers Record.cursor n (WalDir.chapters (w.dir.insert w.pendingCursor s)) w.pendingCursor := by
  obtain ⟨n, m, hcovers, -, hpending⟩ := ho
  have hbuf : w.buffer = [] := by simp [buffer, hw]
  obtain rfl : w.pendingCursor = m := by simpa [hbuf] using hpending
  refine ⟨n, ?_⟩
  rw [WalDir.chapters_of_last (SortedMap.entries_insert_of_lt s (h.closed hw)), hs]
  exact hcovers.concat

theorem createTrace_ordered (h : w.Ready cfg) (ho : w.Ordered) (hw : w.writer = none) :
    ∀ d ∈ createTrace w.pendingCursor w, d.Ordered := by
  intro d hd
  simp only [createTrace, List.mem_cons, List.not_mem_nil, or_false] at hd
  rcases hd with rfl | rfl
  · obtain ⟨n, hcovers⟩ := covers_insert h ho hw (s := { Segment.empty with header := false }) rfl
    exact ⟨n, _, hcovers⟩
  · obtain ⟨n, hcovers⟩ := covers_insert h ho hw (s := .empty) rfl
    exact ⟨n, _, hcovers⟩

theorem createSegment_ordered (h : w.Ready cfg) (ho : w.Ordered) (hw : w.writer = none)
    (hs : createSegment w.pendingCursor .ok w = (w', .ok ())) : w'.Ordered := by
  obtain ⟨n, hcovers⟩ := covers_insert h ho hw (s := .empty) rfl
  unfold createSegment at hs
  split at hs
  · cases hs
  · split at hs
    · cases hs
    · cases hs
      exact ⟨n, w.pendingCursor, hcovers, numbered_nil, rfl⟩

/-- Moving the buffer into the file -/
theorem Ordered.flushBuffer (h : w.Ready cfg) (ho : w.Ordered) : w.flushBuffer.Ordered := by
  cases hw : w.writer with
  | none =>
    have : w.flushBuffer = w := by simp only [Wal.flushBuffer, hw]
    rwa [this]
  | some wr =>
    obtain ⟨n, m, hcovers, hbuf, hpending⟩ := ho
    obtain ⟨⟨closed, seg, hdir⟩, -, -, -⟩ := h.active wr hw
    have hseg : seg.torn = false := h.intact (wr.first, seg) (by simp [hdir])
    have hb : w.buffer = wr.buffer := by simp [buffer, hw]
    rw [WalDir.chapters_of_last hdir] at hcovers
    rw [hb] at hbuf hpending
    have hdir' := SortedMap.entries_modify_last hdir (Segment.append (wr.buffer.take wr.buffer.length))
    have hflush : w.flushBuffer = w.moveBuffer wr.buffer.length := by simp only [Wal.flushBuffer, hw]
    rw [hflush, moveBuffer_some hw]
    refine ⟨n, m + wr.buffer.length, ?_, by simp [buffer, numbered_nil], by simpa [buffer] using hpending⟩
    rw [WalDir.chapters_of_last hdir', Segment.append_of_intact hseg, List.take_length]
    exact hcovers.extend hbuf

/-! ### A successful append -/

/-- What a link of a successful append ends with, and what it passes through -/
structure Passes (Q : Wal → Prop) (trace : List WalDir) (w' : Wal) : Prop where
  ends : Q w'
  ordered : w'.Ordered
  trace : ∀ d ∈ trace, d.Ordered

theorem ensureWriter_passes (h : w.Ready cfg) (ho : w.Ordered) (hs : ensureWriter w.pendingCursor .ok w = (w', .ok ())) :
    Passes (Prepared cfg w) (ensureTrace w.pendingCursor w) w' := by
  have hensure : Ends (ensureWriter w.pendingCursor .ok) w (Prepared cfg w) (Kept cfg .ok w) := ensureWriter_ends h rfl
  have hends := hensure.of_eq_ok hs
  cases hw : w.writer with
  | some wr =>
    simp only [ensureWriter, hw] at hs
    cases hs
    exact ⟨hends, ho, by simp [ensureTrace, hw]⟩
  | none =>
    simp only [ensureWriter, hw] at hs
    refine ⟨hends, createSegment_ordered h ho hw hs, ?_⟩
    simp only [ensureTrace, hw]
    exact createTrace_ordered h ho hw

/-- A rotation that succeeds leaves records in the segment it closes. -/
theorem rotateIfFull_passes (h : w.Ready cfg) (ho : w.Ordered) (hw : w.writer = some wr) (hr : r.cursor = w.pendingCursor)
    (hs : rotateIfFull r .ok w = (w', .ok ())) : Passes (Prepared cfg w) (rotateTrace r w) w' := by
  unfold rotateIfFull at hs
  split at hs
  · rename_i hfull
    obtain ⟨w₁, hclose, hcreate⟩ := andThen_eq_ok.1 hs
    obtain ⟨⟨closed, seg, hdir⟩, -, -, hfirst⟩ := h.active wr hw
    have hflush := h.flushBuffer
    have hoflush := ho.flushBuffer h
    have hdir₁ : w₁.dir = w.flushBuffer.dir := by
      simp only [closeWriter, hw] at hclose
      cases hclose
      rfl
    have hlt : wr.first < w.pendingCursor := by
      refine hfirst.resolve_right ?_
      rintro ⟨heq, -⟩
      have hmem : r.cursor ∈ w₁.dir.keys := by
        rw [hdir₁, hr, ← heq, Wal.flushBuffer, hw]
        simp only [moveBuffer_some hw, SortedMap.keys_modify]
        exact SortedMap.mem_keys.2 ⟨seg, by simp [hdir]⟩
      simp only [createSegment, hmem, or_true, if_true] at hcreate
      cases hcreate
    have hends : ∀ wr', w.writer = some wr' → wr'.first < w.pendingCursor := by
      rintro wr' hwr'
      rw [hw] at hwr'
      cases hwr'
      exact hlt
    obtain ⟨hsame, hnone⟩ := (closeWriter_ends h hends (.inl rfl)).of_eq_ok hclose
    have hpending : r.cursor = w₁.pendingCursor := hr.trans hsame.next.symm
    have ho₁ : w₁.Ordered := by
      refine hoflush.of_eq hdir₁ ?_ (hsame.next.trans hflush.next.symm)
      simp [buffer, hnone, hw]
    rw [hpending] at hcreate
    have hcreated : Ends (createSegment w₁.pendingCursor .ok) w₁ (Prepared cfg w₁) (Kept cfg .ok w₁) :=
      createSegment_ends hsame.ready hnone rfl
    have hprep := hcreated.of_eq_ok hcreate
    refine ⟨⟨hsame.trans hprep.same, hprep.writer⟩, createSegment_ordered hsame.ready ho₁ hnone hcreate, ?_⟩
    intro d hd
    rw [rotateTrace, if_pos hfull] at hd
    rcases List.mem_cons.1 hd with rfl | hd
    · exact hoflush.dir
    · have htrace : createTrace r.cursor w.flushBuffer = createTrace w₁.pendingCursor w₁ := by
        simp only [createTrace, hdir₁, hpending]
      rw [htrace] at hd
      exact createTrace_ordered hsame.ready ho₁ hnone d hd
  · rename_i hfull
    cases hs
    exact ⟨⟨.refl h, by simp [hw]⟩, ho, by simp [rotateTrace, if_neg hfull]⟩

theorem Ordered.buffered (ho : w.Ordered) (hw : w.writer = some wr) (hr : r.cursor = w.pendingCursor) :
    ((w.buffered r).recorded r).Ordered := by
  obtain ⟨n, m, hcovers, hbuf, hpending⟩ := ho
  have hb : w.buffer = wr.buffer := by simp [buffer, hw]
  rw [hb] at hbuf hpending
  simp only [recorded, Wal.buffered, hw]
  refine ⟨n, m, hcovers, numbered_append.2 ⟨hbuf, numbered_singleton.2 (hr.trans hpending)⟩, ?_⟩
  simp only [buffer, Option.map_some, Option.getD_some, List.length_append, List.length_singleton]
  omega

theorem Ordered.written (h : w.Ready cfg) (ho : w.Ordered) (hw : w.writer = some wr) (hempty : wr.buffer = [])
    (hr : r.cursor = w.pendingCursor) : ((w.written r).recorded r).Ordered := by
  obtain ⟨n, m, hcovers, -, hpending⟩ := ho
  obtain ⟨⟨closed, seg, hdir⟩, -, -, -⟩ := h.active wr hw
  have hseg : seg.torn = false := h.intact (wr.first, seg) (by simp [hdir])
  have hdir' := SortedMap.entries_modify_last hdir (Segment.append [r])
  have hm : w.pendingCursor = m := by simpa [buffer, hw, hempty] using hpending
  rw [WalDir.chapters_of_last hdir] at hcovers
  simp only [recorded, Wal.written, hw]
  refine ⟨n, m + 1, ?_, by simp [buffer, hempty, numbered_nil], by simp [buffer, hempty]; omega⟩
  rw [WalDir.chapters_of_last hdir', Segment.append_of_intact hseg]
  exact hcovers.extend (show Numbered Record.cursor m [r] from numbered_singleton.2 (hr.trans hm))

theorem write_passes (h : w.Ready cfg) (ho : w.Ordered) (hw : w.writer = some wr) (hr : r.cursor = w.pendingCursor)
    (hs : write r .ok w = (w', .ok ())) : Passes (Wrote cfg r w) (writeTrace r w) w' := by
  have hwrite : Ends (write r .ok) w (Wrote cfg r w) (Kept cfg .ok w) := write_ends h (by simp [hw]) hr (.inl rfl)
  have hends := hwrite.of_eq_ok hs
  have hpending : r.cursor = wr.pending := hr.trans (h.active wr hw).pending.symm
  simp only [write, hw, hpending, ne_eq, not_true_eq_false, if_false] at hs
  simp only [writeTrace, hw]
  split at hs
  · rename_i hspare
    cases hs
    exact ⟨hends, ho.buffered hw hr, by simp [hspare]⟩
  · rename_i hspare
    -- the log before the record is written, its buffer emptied if the record does not fit
    obtain ⟨w₁, hw₁, hr₁, ho₁, wr₁, hsome, hempty⟩ : ∃ w₁,
        (if BUF_CAPACITY - (wr.buffer.map Record.len).sum < r.len then w.flushBuffer else w) = w₁ ∧
        (w₁.Ready cfg ∧ r.cursor = w₁.pendingCursor) ∧ w₁.Ordered ∧
        ∃ wr₁, w₁.writer = some wr₁ ∧ (BUF_CAPACITY ≤ r.len → wr₁.buffer = []) := by
      by_cases hlt : BUF_CAPACITY - (wr.buffer.map Record.len).sum < r.len
      · have hflush := h.flushBuffer
        exact ⟨_, if_pos hlt, ⟨hflush.ready, hr.trans hflush.next.symm⟩, ho.flushBuffer h, _,
          by rw [flushBuffer_writer, hw]; rfl, fun _ => rfl⟩
      · refine ⟨_, if_neg hlt, ⟨h, hr⟩, ho, wr, hw, fun hcap => ?_⟩
        -- a record as long as the buffer fits only when nothing is buffered
        cases hb : wr.buffer with
        | nil => rfl
        | cons q l =>
          have hq : RECORD_FRAMING ≤ q.len := Nat.le_add_right ..
          have hpos : 0 < RECORD_FRAMING := by decide
          have hcappos : 0 < BUF_CAPACITY := by decide
          rw [hb, List.map_cons, List.sum_cons] at hlt
          omega
    have hflushed : ∀ d ∈ if BUF_CAPACITY - (wr.buffer.map Record.len).sum < r.len then [w.flushBuffer.dir] else [],
        d.Ordered := by
      intro d hd
      split at hd
      · rw [List.mem_singleton.1 hd]
        exact (ho.flushBuffer h).dir
      · cases hd
    simp only [if_neg hspare, hw₁]
    simp only [writeAllCold, Bool.true_eq_false, and_false, if_false, hw₁, show WalIo.ok.drain = true from rfl,
      show WalIo.ok.direct = true from rfl] at hs
    split at hs
    · rename_i hsmall
      cases hs
      exact ⟨hends, ho₁.buffered hsome hr₁.2, by simpa [hsmall] using hflushed⟩
    · rename_i hsmall
      cases hs
      have hwritten := Ordered.written hr₁.1 ho₁ hsome (hempty (not_lt.1 hsmall)) hr₁.2
      refine ⟨hends, hwritten, fun d hd => ?_⟩
      rw [if_neg hsmall] at hd
      rcases List.mem_append.1 hd with hd | hd
      · exact hflushed d hd
      · rw [List.mem_singleton.1 hd]
        have hdir : ((w₁.written r).recorded r).dir = (w₁.written r).dir := by
          simp only [recorded, Wal.written, hsome]
        exact hdir ▸ hwritten.dir

theorem syncEach_passes {w₀ : Wal} (h : Wrote cfg r w₀ w) (ho : w.Ordered) (hs : syncEach .ok w = (w', .ok ())) :
    Passes (Wrote cfg r w₀) (syncTrace w) w' := by
  have hsync : Ends (syncEach .ok) w (Wrote cfg r w₀) (Kept cfg .ok w₀) := syncEach_ends h fun _ => ⟨rfl, rfl⟩
  have hends := hsync.of_eq_ok hs
  have hoflush := ho.flushBuffer h.adds.ready
  unfold syncEach at hs
  split at hs
  · rename_i heach
    cases hs
    refine ⟨hends, hoflush, fun d hd => ?_⟩
    rw [syncTrace, if_pos heach, List.mem_singleton] at hd
    exact hd ▸ hoflush.dir
  · rename_i heach
    cases hs
    exact ⟨hends, ho, by simp [syncTrace, heach]⟩

theorem Ordered.retire {k : Nat} (h : w.Ready cfg) (ho : w.Ordered) (hw : w.writer = some wr)
    (hk : w.segments.keys.find? (fun k => some k ≠ w.writer.map SegmentWriter.first) = some k) : (w.retire k).Ordered := by
  obtain ⟨n, m, hcovers, hbuf, hpending⟩ := ho
  obtain ⟨⟨closed, seg, hdir⟩, -, -, -⟩ := h.active wr hw
  cases closed with
  | nil =>
    -- only the active segment is left
    rw [h.segments, SortedMap.keys_eq hdir] at hk
    simp [hw] at hk
  | cons p closed =>
    obtain ⟨k₀, seg₀⟩ := p
    have hne : k₀ ≠ wr.first := ne_of_lt (SortedMap.lt_of_entries_append hdir (k₀, seg₀) (List.mem_cons_self ..))
    obtain rfl : k₀ = k := by
      rw [h.segments, SortedMap.keys_eq hdir] at hk
      simpa [hw, hne] using hk
    have hdir' : (w.dir.erase k₀).entries = closed ++ [(wr.first, seg)] := SortedMap.entries_erase_head hdir
    rw [WalDir.chapters, hdir] at hcovers
    obtain ⟨-, -, hrest⟩ := hcovers
    refine ⟨n + seg₀.records.length, m, ?_, hbuf, hpending⟩
    rw [WalDir.chapters, Wal.retire, hdir']
    exact hrest

theorem enforceRetention_passes {w₀ : Wal} (rounds : Nat) (h : Wrote cfg r w₀ w) (ho : w.Ordered) :
    Passes (Wrote cfg r w₀) (retentionTrace rounds w) (w.enforceRetention rounds) := by
  induction rounds generalizing w with
  | zero => exact ⟨h, ho, by simp [retentionTrace]⟩
  | succ rounds ih =>
    unfold Wal.enforceRetention retentionTrace
    by_cases hle : w.retainedBytes + w.activeBytes ≤ w.cfg.retentionBytes
    · rw [if_pos hle, if_pos hle]
      exact ⟨h, ho, by simp⟩
    · rw [if_neg hle, if_neg hle]
      cases hk : w.segments.keys.find? fun k => some k ≠ w.writer.map SegmentWriter.first with
      | none => exact ⟨h, ho, by simp⟩
      | some k =>
        obtain ⟨wr, hw⟩ := Option.ne_none_iff_exists'.1 h.writer
        have hretire := ho.retire h.adds.ready hw hk
        have hrest := ih ⟨h.adds.same (Ready.retire h.adds.ready hw hk), h.writer⟩ hretire
        refine ⟨hrest.ends, hrest.ordered, fun d hd => ?_⟩
        rcases List.mem_cons.1 hd with rfl | hd
        · exact hretire.dir
        · exact hrest.trace d hd

/-- A successful append keeps the order, in the end and all the way. -/
theorem append_passes {ts : Nat} {payload : Bytes} (h : w.Ready cfg) (ho : w.Ordered)
    (hs : append w.pendingCursor ts payload .ok w = (w', .ok ())) :
    Passes (Wrote cfg ⟨w.pendingCursor, ts, payload⟩ w) (appendTrace ⟨w.pendingCursor, ts, payload⟩ w) w' := by
  have henabled : w.cfg.enabled = true := h.cfg_eq ▸ h.enabled
  simp only [append, henabled, Bool.true_eq_false, if_false, h.healthy] at hs
  split at hs
  · cases hs
  · obtain ⟨w₄, hs, hretain⟩ := andThen_eq_ok.1 hs
    obtain ⟨w₃, hs, hsync⟩ := andThen_eq_ok.1 hs
    obtain ⟨w₂, hs, hwrite⟩ := andThen_eq_ok.1 hs
    obtain ⟨w₁, hensure, hrotate⟩ := andThen_eq_ok.1 hs
    cases hretain
    have h₁ := ensureWriter_passes h ho hensure
    obtain ⟨wr₁, hw₁⟩ := Option.ne_none_iff_exists'.1 h₁.ends.writer
    have h₂ := rotateIfFull_passes h₁.ends.same.ready h₁.ordered hw₁ h₁.ends.same.next.symm hrotate
    have hsame := h₁.ends.same.trans h₂.ends.same
    obtain ⟨wr₂, hw₂⟩ := Option.ne_none_iff_exists'.1 h₂.ends.writer
    have h₃ := write_passes hsame.ready h₂.ordered hw₂ hsame.next.symm hwrite
    have hwrote : Wrote cfg ⟨w.pendingCursor, ts, payload⟩ w w₃ := ⟨hsame.adds h₃.ends.adds, h₃.ends.writer⟩
    have h₄ := syncEach_passes hwrote h₃.ordered hsync
    have h₅ := enforceRetention_passes w₄.segments.keys.length h₄.ends h₄.ordered
    refine ⟨h₅.ends, h₅.ordered, fun d hd => ?_⟩
    simp only [appendTrace, hensure, hrotate, hwrite, hsync, List.mem_append] at hd
    rcases hd with (((hd | hd) | hd) | hd) | hd
    · exact h₁.trace d hd
    · exact h₂.trace d hd
    · exact h₃.trace d hd
    · exact h₄.trace d hd
    · exact h₅.trace d hd

/-! ### An open -/

/-- Every append fails: the segment that it would create is there. -/
structure Stuck (w : Wal) : Prop where
  writer : w.writer = none
  taken : w.pendingCursor ∈ w.dir.keys

theorem Stuck.append_fails (h : w.Stuck) (henabled : w.cfg.enabled = true) (ts : Nat) (payload : Bytes) :
    (append w.pendingCursor ts payload .ok w).2 ≠ .ok () := by
  have hensure : ensureWriter w.pendingCursor .ok w = (w, .error .io) := by
    simp only [ensureWriter, h.writer, createSegment, h.taken, or_true, if_true]
  simp only [append, henabled, Bool.true_eq_false, if_false]
  split
  · exact fun h => by cases h
  · split
    · exact fun h => by cases h
    · simp only [Attempt.andThen, hensure]
      exact fun h => by cases h

/-- The cursor after the records of the newest segment is the end of the log. -/
theorem nextCursor_eq {l : List (Nat × List Record)} {k : Nat} {seg : Segment}
    (h : Covers Record.cursor n (l ++ [(k, seg.records)]) m) : nextCursor k seg = m := by
  obtain ⟨-, hnum, rfl⟩ := covers_concat.1 h
  unfold nextCursor
  cases hlast : seg.records.getLast? with
  | none => simp [List.getLast?_eq_none_iff.1 hlast]
  | some r => exact hnum.getLast hlast

theorem chapters_recover (dir : WalDir) : WalDir.chapters (dir.map fun _ => Segment.recover) = dir.chapters := by
  simp [WalDir.chapters, SortedMap.map, Segment.recover, Function.comp_def]

theorem ofDir_ordered {dir : WalDir} (h : Covers Record.cursor n dir.chapters m) : (ofDir cfg dir m).Ordered :=
  ⟨n, m, h, numbered_nil, rfl⟩

/-- What an open of an ordered directory ends with -/
structure Opened (cfg : WalConfig) (dir : WalDir) (w : Wal) : Prop where
  cfg_eq : w.cfg = cfg
  ordered : w.Ordered
  ready : (∀ k seg, dir.last? = some (k, seg) → seg.records ≠ []) → w.Ready cfg
  stuck : ∀ k seg, dir.last? = some (k, seg) → seg.records = [] → w.Stuck
  pending : ∀ n m, Covers Record.cursor n dir.chapters m → dir.entries ≠ [] → w.pendingCursor = m
  fresh : dir.entries = [] → w.pendingCursor = 0

theorem open_passes {dir : WalDir} (henabled : cfg.enabled = true) (hdir : dir.Ordered)
    (hheader : ∀ p ∈ dir.entries, p.2.header = true) :
    ∃ w, «open» cfg dir = .ok w ∧ Opened cfg dir w ∧ ∀ d ∈ openTrace cfg dir, d.Ordered := by
  have hany : (dir.entries.any fun p => !p.2.header) = false := by
    simpa [List.any_eq_false] using fun k seg hp => hheader (k, seg) hp
  have hintact : ∀ p ∈ (dir.map fun _ => Segment.recover).entries, p.2.torn = false := by
    intro p hp
    obtain ⟨q, -, rfl⟩ := List.mem_map.1 hp
    rfl
  have hlast' : (dir.map fun _ => Segment.recover).last? = dir.last?.map fun p => (p.1, p.2.recover) :=
    List.getLast?_map ..
  obtain ⟨n, m, hcovers⟩ := hdir
  have hcovers' := hcovers
  rw [← chapters_recover] at hcovers'
  simp only [«open», hany, Bool.false_eq_true, if_false, openTrace]
  cases hlast : dir.last? with
  | none =>
    have hnil : dir.entries = [] := List.getLast?_eq_none_iff.1 hlast
    have hchapters : WalDir.chapters (dir.map fun _ => Segment.recover) = [] := by
      rw [chapters_recover, WalDir.chapters, hnil]
      rfl
    simp only [hlast', hlast, Option.map_none]
    refine ⟨_, rfl, ⟨rfl, ofDir_ordered (n := 0) (by rw [hchapters]; rfl), fun _ => ?_, fun _ _ h => ?_,
      fun _ _ _ h => absurd hnil h, fun _ => rfl⟩, ?_⟩
    · exact ofDir_ready henabled hintact (by simp [SortedMap.map, hnil])
    · cases hlast.symm.trans h
    · intro d hd
      rw [List.mem_singleton.1 hd]
      exact ⟨n, m, hcovers'⟩
  | some p =>
    obtain ⟨k, seg⟩ := p
    obtain ⟨closed, hentries⟩ := SortedMap.last?_eq_some hlast
    have hne : dir.entries ≠ [] := by simp [hentries]
    have hlast₁ := hlast'
    rw [hlast, Option.map_some] at hlast₁
    have hnext : nextCursor k seg.recover = m := by
      refine nextCursor_eq (n := n) (l := closed.map fun p => (p.1, p.2.records)) ?_
      rw [WalDir.chapters_of_last hentries] at hcovers
      exact hcovers
    have hpending : ∀ n' m', Covers Record.cursor n' dir.chapters m' → dir.entries ≠ [] → m = m' := by
      intro n' m' h _
      rw [WalDir.chapters_of_last hentries] at h
      rw [← hnext]
      exact nextCursor_eq h
    have hrecords : k + seg.records.length = m := by
      rw [WalDir.chapters_of_last hentries] at hcovers
      exact (covers_concat.1 hcovers).2.2.symm
    simp only [hlast₁, hnext]
    by_cases heq : m = k
    · -- the newest segment is empty
      have hempty : seg.records = [] := List.eq_nil_of_length_eq_zero (by omega)
      simp only [if_pos heq]
      refine ⟨_, rfl, ⟨rfl, ?_, fun h => absurd hempty (h k seg hlast), fun _ _ _ _ => ⟨rfl, ?_⟩, ?_,
        fun h => absurd h hne⟩, ?_⟩
      · exact heq ▸ ofDir_ordered hcovers'
      · show k ∈ (dir.map fun _ => Segment.recover).keys
        rw [SortedMap.keys_map, SortedMap.keys_eq hentries]
        simp
      · intro n' m' h h'
        exact heq ▸ hpending n' m' h h'
      · intro d hd
        rw [List.mem_singleton.1 hd]
        exact ⟨n, m, hcovers'⟩
    · have hsome : seg.records ≠ [] := by
        rintro hnil
        rw [hnil] at hrecords
        exact heq hrecords.symm
      have hlt : ∀ p ∈ (dir.map fun _ => Segment.recover).entries, p.1 < m := by
        intro p hp
        have hle := SortedMap.le_of_last? hlast₁ hp
        have hpos := List.length_pos_iff.2 hsome
        simp only at hle
        omega
      have hready : (ofDir cfg (dir.map fun _ => Segment.recover) m).Ready cfg := ofDir_ready henabled hintact hlt
      have hordered : (ofDir cfg (dir.map fun _ => Segment.recover) m).Ordered := ofDir_ordered hcovers'
      have hcreate : Ends (createSegment m .ok) (ofDir cfg (dir.map fun _ => Segment.recover) m) (Prepared cfg _)
          (Kept cfg .ok _) := createSegment_ends hready rfl rfl
      rcases hcreate.cases with ⟨w', hw', hprep⟩ | ⟨w', e, -, hkept⟩
      · have hw'' : createSegment m .ok (ofDir cfg (dir.map fun _ => Segment.recover) m) = (w', .ok ()) := hw'
        simp only [if_neg heq, hw'']
        refine ⟨w', rfl, ⟨hprep.same.ready.cfg_eq, createSegment_ordered hready hordered rfl hw', fun _ => hprep.same.ready,
          fun k' seg' h hnil => ?_, ?_, fun h => absurd h hne⟩, ?_⟩
        · rw [hlast] at h
          cases h
          exact absurd hnil hsome
        · intro n' m' h h'
          rw [← hpending n' m' h h']
          exact hprep.same.next
        · intro d hd
          rcases List.mem_cons.1 hd with rfl | hd
          · exact ⟨n, m, hcovers'⟩
          · exact createTrace_ordered hready hordered rfl d hd
      · exact absurd rfl hkept.fault

end Wal

/-! ### Sessions -/

/-- The log between two sessions and inside one -/
inductive Sessions
  | closed (dir : WalDir)
  | opened (w : Wal)

namespace Sessions

open Wal

/-- The steps of a session that opens and appends with success, a flush by `fsync` or by the flusher thread, and the
ends of a session: a drop, a crash between two operations, and a crash inside an append or an open after the system call
`i` of it. -/
inductive Act
  | «open» (cfg : WalConfig)
  | append (ts : Nat) (payload : Bytes)
  | flush
  | drop
  | crash (kept : Nat) (torn : Bool)
  | crashAppend (ts : Nat) (payload : Bytes) (i kept : Nat) (torn : Bool)
  | crashOpen (cfg : WalConfig) (i kept : Nat) (torn : Bool)

def step : Sessions → Act → Option Sessions
  | closed dir, .open cfg =>
    if cfg.enabled then
      match Wal.open cfg dir with
      | .ok w => some (opened w)
      | .error _ => none
    else none
  | closed dir, .crashOpen cfg i kept torn =>
    if cfg.enabled then
      match Wal.open cfg dir with
      | .ok _ => (openTrace cfg dir)[i]?.map fun d => closed (d.lose kept torn)
      | .error _ => none
    else none
  | opened w, .append ts payload =>
    match w.append w.pendingCursor ts payload .ok with
    | (w, .ok _) => some (opened w)
    | (_, .error _) => none
  | opened w, .crashAppend ts payload i kept torn =>
    match w.append w.pendingCursor ts payload .ok with
    | (_, .ok _) => (w.appendTrace ⟨w.pendingCursor, ts, payload⟩)[i]?.map fun d => closed (d.lose kept torn)
    | (_, .error _) => none
  | opened w, .flush => some (opened w.flushBuffer)
  | opened w, .drop => some (closed w.drop)
  | opened w, .crash kept torn => some (closed (w.dir.lose kept torn))
  | _, _ => none

/-- A directory without a log -/
def init : Sessions := closed .empty

/-- What every session leaves of the log -/
def Inv : Sessions → Prop
  | closed dir => dir.Ordered
  | opened w => w.cfg.enabled = true ∧ w.Ordered ∧ (w.Ready w.cfg ∨ w.Stuck)

theorem Inv.init : Inv init := ⟨0, 0, rfl⟩

theorem opened_of_open {cfg : WalConfig} {dir : WalDir} {w : Wal} (henabled : cfg.enabled = true)
    (hdir : dir.Ordered) (hs : Wal.open cfg dir = .ok w) : Opened cfg dir w ∧ ∀ d ∈ openTrace cfg dir, d.Ordered := by
  have hheader : ∀ p ∈ dir.entries, p.2.header = true := by
    intro p hp
    by_contra hne
    have hany : (dir.entries.any fun p => !p.2.header) = true :=
      List.any_eq_true.2 ⟨p, hp, by simpa using hne⟩
    simp [Wal.open, hany] at hs
  obtain ⟨w', hw', hopened, htrace⟩ := open_passes henabled hdir hheader
  rw [hw'] at hs
  cases hs
  exact ⟨hopened, htrace⟩

theorem Inv.step {s s' : Sessions} {a : Act} (h : s.Inv) (hs : s.step a = some s') : s'.Inv := by
  cases s with
  | closed dir =>
    cases a with
    | «open» cfg =>
      simp only [Sessions.step] at hs
      split at hs
      · rename_i henabled
        split at hs
        · rename_i w hopen
          cases hs
          obtain ⟨hopened, -⟩ := opened_of_open henabled h hopen
          refine ⟨hopened.cfg_eq ▸ henabled, hopened.ordered, ?_⟩
          by_cases hempty : ∀ k seg, dir.last? = some (k, seg) → seg.records ≠ []
          · exact .inl (hopened.cfg_eq ▸ hopened.ready hempty)
          · obtain ⟨k, seg, hlast, hnil⟩ : ∃ k seg, dir.last? = some (k, seg) ∧ seg.records = [] := by
              simpa using hempty
            exact .inr (hopened.stuck k seg hlast hnil)
        · cases hs
      · cases hs
    | crashOpen cfg i kept torn =>
      simp only [Sessions.step] at hs
      split at hs
      · rename_i henabled
        split at hs
        · rename_i w hopen
          obtain ⟨d, hd, rfl⟩ := Option.map_eq_some_iff.1 hs
          exact ((opened_of_open henabled h hopen).2 d (List.mem_of_getElem? hd)).lose kept torn
        · cases hs
      · cases hs
    | _ => cases hs
  | opened w =>
    obtain ⟨henabled, hordered, htakes⟩ := h
    -- a log that takes no record appends none
    have hready : ∀ {ts payload w'}, w.append w.pendingCursor ts payload .ok = (w', .ok ()) → w.Ready w.cfg := by
      intro ts payload w' happend
      refine htakes.resolve_right fun hstuck => hstuck.append_fails henabled ts payload ?_
      rw [happend]
    cases a with
    | append ts payload =>
      simp only [Sessions.step] at hs
      split at hs
      · rename_i w' _ happend
        cases hs
        have hpasses := append_passes (hready happend) hordered happend
        have hready' := hpasses.ends.adds.ready
        have hcfg : w'.cfg = w.cfg := hready'.cfg_eq
        exact ⟨hcfg ▸ henabled, hpasses.ordered, .inl (hcfg ▸ hready')⟩
      · cases hs
    | crashAppend ts payload i kept torn =>
      simp only [Sessions.step] at hs
      split at hs
      · rename_i w' _ happend
        obtain ⟨d, hd, rfl⟩ := Option.map_eq_some_iff.1 hs
        have hpasses := append_passes (hready happend) hordered happend
        exact (hpasses.trace d (List.mem_of_getElem? hd)).lose kept torn
      · cases hs
    | flush =>
      cases hs
      rcases htakes with hready | hstuck
      · have hflush := hready.flushBuffer
        have hcfg : w.flushBuffer.cfg = w.cfg := hflush.ready.cfg_eq
        exact ⟨hcfg ▸ henabled, hordered.flushBuffer hready, .inl (hcfg ▸ hflush.ready)⟩
      · have : w.flushBuffer = w := by simp only [Wal.flushBuffer, hstuck.writer]
        rw [this]
        exact ⟨henabled, hordered, .inr hstuck⟩
    | drop =>
      cases hs
      show w.drop.Ordered
      rw [Wal.drop, if_pos henabled]
      rcases htakes with hready | hstuck
      · exact (hordered.flushBuffer hready).dir
      · have : w.flushBuffer = w := by simp only [Wal.flushBuffer, hstuck.writer]
        rw [this]
        exact hordered.dir
    | crash kept torn =>
      cases hs
      exact hordered.dir.lose kept torn
    | _ => cases hs

theorem ordered_run {acts : List Act} {dir : WalDir} (hrun : run step init acts = some (closed dir)) : dir.Ordered :=
  run_invariant Inv (fun _ _ _ h hs => h.step hs) Inv.init hrun

/-- The segment files between two sessions -/
def files : Sessions → Option (List (Nat × Segment))
  | closed dir => some dir.entries
  | opened _ => none

theorem closed_of_files (acts : List Act) (l : List (Nat × Segment)) (h : (run step init acts).bind files = some l) :
    ∃ dir, run step init acts = some (closed dir) ∧ dir.entries = l := by
  obtain ⟨s, hrun, hfiles⟩ := Option.bind_eq_some_iff.1 h
  cases s with
  | opened w => cases hfiles
  | closed dir => exact ⟨dir, hrun, Option.some.inj hfiles⟩

end Sessions

/-! ### Reopening -/

/-- One past the last record on disk; without records the first cursor of the newest segment, or 0 -/
def WalDir.endCursor (dir : WalDir) : Nat :=
  match dir.records.getLast? with
  | some r => r.cursor + 1
  | none => (dir.last?.map Prod.fst).getD 0

/-- The log opens at its end and takes any record there that fits a segment. -/
def WalDir.Reopens (cfg : WalConfig) (dir : WalDir) : Prop :=
  ∃ w, Wal.open cfg dir = .ok w ∧ w.pendingCursor = dir.endCursor ∧
    ∀ ts payload, cfg.Fits payload.length → (w.append w.pendingCursor ts payload .ok).2 = .ok ()

/-- Every segment file has its header, and the newest one holds a record. -/
structure WalDir.Reopenable (dir : WalDir) : Prop where
  header : ∀ p ∈ dir.entries, p.2.header = true
  newest : ∀ k seg, dir.last? = some (k, seg) → seg.records ≠ []

theorem WalDir.endCursor_eq {dir : WalDir} {n m : Nat} (h : Covers Record.cursor n dir.chapters m)
    (hne : dir.records ≠ []) : dir.endCursor = m := by
  obtain ⟨hnum, hlen⟩ := h.flatMap
  rw [WalDir.flatMap_chapters] at hnum hlen
  obtain ⟨r, hr⟩ := Option.ne_none_iff_exists'.1 (fun hnone => hne (List.getLast?_eq_none_iff.1 hnone))
  simp only [WalDir.endCursor, hr]
  rw [hnum.getLast hr, hlen]

/-- An ordered directory reopens if and only if every header is complete and the newest segment is not empty. -/
theorem WalDir.Ordered.reopens_iff {cfg : WalConfig} {dir : WalDir} (h : dir.Ordered) (henabled : cfg.enabled = true)
    (hfits : cfg.Fits 0) : dir.Reopens cfg ↔ dir.Reopenable := by
  constructor
  · rintro ⟨w, hopen, -, htakes⟩
    have hheader : ∀ p ∈ dir.entries, p.2.header = true := by
      intro p hp
      by_contra hne
      have hany : (dir.entries.any fun p => !p.2.header) = true :=
        List.any_eq_true.2 ⟨p, hp, by simpa using hne⟩
      simp [Wal.open, hany] at hopen
    obtain ⟨w', hw', hopened, -⟩ := Wal.open_passes henabled h hheader
    rw [hopen] at hw'
    cases hw'
    refine ⟨hheader, fun k seg hlast hnil => ?_⟩
    have hstuck := hopened.stuck k seg hlast hnil
    exact hstuck.append_fails (hopened.cfg_eq ▸ henabled) 0 [] (htakes 0 [] hfits)
  · rintro ⟨hheader, hnewest⟩
    obtain ⟨w, hopen, hopened, -⟩ := Wal.open_passes henabled h hheader
    have hready := hopened.ready hnewest
    refine ⟨w, hopen, ?_, fun ts payload hpayload => ?_⟩
    · obtain ⟨n, m, hcovers⟩ := h
      cases hlast : dir.last? with
      | none =>
        have hnil : dir.entries = [] := List.getLast?_eq_none_iff.1 hlast
        rw [hopened.fresh hnil]
        simp [WalDir.endCursor, WalDir.records, hnil, hlast]
      | some p =>
        obtain ⟨closed, hentries⟩ := SortedMap.last?_eq_some hlast
        have hne : dir.entries ≠ [] := by simp [hentries]
        have hrecords : dir.records ≠ [] := by
          have := hnewest p.1 p.2 hlast
          simp [WalDir.records, hentries, this]
        rw [hopened.pending n m hcovers hne, WalDir.endCursor_eq hcovers hrecords]
    · have happend : Ends (Wal.append w.pendingCursor ts payload .ok) w _ _ :=
        Wal.append_ends hready hpayload le_rfl (.ok cfg)
      rcases happend.cases with ⟨w', hw', -⟩ | ⟨w', e, -, hkept⟩
      · rw [hw']
      · exact absurd rfl hkept.fault

end Mmbus
