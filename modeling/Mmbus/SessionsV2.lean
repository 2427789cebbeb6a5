import Mmbus.Sessions
import Mmbus.WalV2

/-!
# Sessions on one directory of the memory-mapped log

The counterpart of `Sessions` for the v0.2 log.  What a process has stored in a mapped file stays when it is killed, so
a crash leaves one of the directories that the operation passes through; a segment may be left without its size, its
header or its tail, or with a record that is reserved and not committed.

`logs_reopen_iff`: after any sessions a log reopens if and only if it is empty or its newest segment holds a record, and
in the v0.1 log every segment has its header.
-/

namespace Mmbus.V2

open Attempt Chapters Transition

deriving instance DecidableEq for Segment

/-- The segments as chapters of the log -/
def WalDir.chapters (dir : WalDir) : List (Nat × List Record) := dir.entries.map fun p => (p.1, p.2.records)

/-- The segments hold consecutive records, each from its first cursor on; a segment without its header holds none. -/
structure WalDir.Ordered (dir : WalDir) : Prop where
  covers : ∃ n m, Covers Record.cursor n dir.chapters m
  header : ∀ p ∈ dir.entries, p.2.header = false → p.2.records = []

theorem WalDir.flatMap_chapters (dir : WalDir) : dir.chapters.flatMap Prod.snd = dir.records := by
  rw [chapters, List.flatMap_map]
  rfl

theorem WalDir.chapters_of_last {dir : WalDir} {closed : List (Nat × Segment)} {k : Nat} {s : Segment}
    (h : dir.entries = closed ++ [(k, s)]) :
    dir.chapters = (closed.map fun p => (p.1, p.2.records)) ++ [(k, s.records)] := by
  simp [chapters, h]

/-- Changes of the last segment that leave its records alone -/
theorem WalDir.Ordered.modify_last {dir : WalDir} {closed : List (Nat × Segment)} {k : Nat} {s : Segment}
    (h : dir.Ordered) (hdir : dir.entries = closed ++ [(k, s)]) {f : Segment → Segment} (hrecords : (f s).records = s.records)
    (hheader : (f s).header = s.header) : WalDir.Ordered (dir.modify k f) := by
  have hdir' := SortedMap.entries_modify_last hdir f
  obtain ⟨⟨n, m, hcovers⟩, hhead⟩ := h
  refine ⟨⟨n, m, ?_⟩, fun p hp hnot => ?_⟩
  · rw [WalDir.chapters_of_last hdir', hrecords, ← WalDir.chapters_of_last hdir]
    exact hcovers
  · simp only [hdir', List.mem_append, List.mem_singleton] at hp
    rcases hp with hp | rfl
    · exact hhead p (by simp [hdir, hp]) hnot
    · rw [hrecords]
      exact hhead (k, s) (by simp [hdir]) (hheader ▸ hnot)

/-- A new segment at the end, without records yet -/
theorem WalDir.insert_ordered {dir : WalDir} {n m : Nat} {s : Segment} (hcovers : Covers Record.cursor n dir.chapters m)
    (hhead : ∀ p ∈ dir.entries, p.2.header = false → p.2.records = []) (hlt : ∀ p ∈ dir.entries, p.1 < m)
    (hs : s.records = []) : WalDir.Ordered (dir.insert m s) := by
  have hdir := SortedMap.entries_insert_of_lt s hlt
  refine ⟨⟨n, m, ?_⟩, fun p hp hnot => ?_⟩
  · rw [WalDir.chapters_of_last hdir, hs]
    exact hcovers.concat
  · simp only [hdir, List.mem_append, List.mem_singleton] at hp
    rcases hp with hp | rfl
    · exact hhead p hp hnot
    · exact hs

namespace Wal

/-! ### The directories between the system calls -/

/-- `MmapSegmentWriter::create`: the file, its size, its header, its tail -/
def createTrace (first : Nat) (w : Wal) : List WalDir :=
  [⟨0, false, [], 0, false⟩, ⟨w.cfg.segmentSizeMax, false, [], 0, false⟩, ⟨w.cfg.segmentSizeMax, true, [], 0, false⟩,
    .empty w.cfg.segmentSizeMax].map (w.dir.insert first)

/-- `rotate`: the reservation of the marker, the marker, the next segment -/
def rotateTrace (newFirst first : Nat) (w : Wal) : List WalDir :=
  w.dir.modify first (fun s => { s with tail := s.writeSkipToEnd.tail }) :: (w.closeWriter first).dir ::
    createTrace newFirst (w.closeWriter first)

def acquireTrace (r : Record) (w : Wal) : List WalDir :=
  match w.writer with
  | none => createTrace r.cursor w
  | some first =>
    if w.cfg.segmentSizeMax < w.activeBytes + recordBytes r then rotateTrace r.cursor first w else []

/-- The reservation of a record and its commit -/
def writeTrace (r : Record) (w : Wal) : List WalDir :=
  match w.writer with
  | none => []
  | some first =>
    [w.dir.modify first fun s => { s with tail := s.tail + recordBytes r },
      w.dir.modify first fun s => { s with records := s.records ++ [r], tail := s.tail + recordBytes r }]

def retentionTrace : (rounds : Nat) → Wal → List WalDir
  | 0, _ => []
  | rounds + 1, w =>
    if w.retainedBytes + w.activeBytes ≤ w.cfg.retentionBytes then []
    else
      match w.segments.keys.find? fun k => some k ≠ w.writer with
      | some k => (w.retire k).dir :: retentionTrace rounds (w.retire k)
      | none => []

/-- The directories that a successful append passes through -/
def appendTrace (r : Record) (w : Wal) : List WalDir :=
  let acquired := (acquireWriter r .ok w).1
  let wrote := (acquired.writer.elim acquired fun first => ((write first r .ok acquired).1.recorded first r))
  acquireTrace r w ++ writeTrace r acquired ++ retentionTrace wrote.segments.keys.length wrote

/-- The directories that a successful open passes through -/
def openTrace (cfg : WalConfig) (dir : WalDir) : List WalDir :=
  dir :: match dir.last? with
    | none => []
    | some (lastFirst, seg) =>
      let next := nextCursor lastFirst seg
      if next = lastFirst then [] else createTrace next (ofDir cfg dir 0 next)

/-! ### The order of the records -/

/-- The segments hold consecutive records up to the pending cursor; the active one has its header. -/
structure Ordered (w : Wal) : Prop where
  covers : ∃ n, Covers Record.cursor n w.dir.chapters w.pendingCursor
  header : ∀ p ∈ w.dir.entries, p.2.header = false → p.2.records = []
  active : ∀ p ∈ w.dir.entries, w.writer = some p.1 → p.2.header = true

variable {cfg : WalConfig} {w w' : Wal} {r : Record} {first n m : Nat}

theorem Ordered.dir (h : w.Ordered) : w.dir.Ordered := by
  obtain ⟨⟨n, hcovers⟩, hheader, -⟩ := h
  exact ⟨⟨n, _, hcovers⟩, hheader⟩

theorem createTrace_ordered (ho : w.Ordered) (hlt : ∀ p ∈ w.dir.entries, p.1 < w.pendingCursor) :
    ∀ d ∈ createTrace w.pendingCursor w, d.Ordered := by
  obtain ⟨⟨n, hcovers⟩, hheader, -⟩ := ho
  intro d hd
  obtain ⟨s, hs, rfl⟩ := List.mem_map.1 hd
  refine WalDir.insert_ordered hcovers hheader hlt ?_
  simp only [List.mem_cons, List.not_mem_nil, or_false] at hs
  rcases hs with rfl | rfl | rfl | rfl <;> rfl

/-- The log with the new file as its active segment -/
theorem activate_ordered (ho : w.Ordered) (hlt : ∀ p ∈ w.dir.entries, p.1 < w.pendingCursor)
    (sizes : SortedMap Nat Nat) (retained active : Nat) :
    (activate w.pendingCursor { w.addFile w.pendingCursor with
      segmentSizes := sizes, retainedBytes := retained, active := active }).Ordered := by
  obtain ⟨⟨n, hcovers⟩, hheader, -⟩ := ho
  have hnew := WalDir.insert_ordered hcovers hheader hlt (s := .empty w.cfg.segmentSizeMax) rfl
  have hdir := SortedMap.entries_insert_of_lt (Segment.empty w.cfg.segmentSizeMax) hlt
  refine ⟨⟨n, ?_⟩, hnew.header, fun p hp hwriter => ?_⟩
  · show Covers Record.cursor n (WalDir.chapters (w.dir.insert w.pendingCursor (.empty w.cfg.segmentSizeMax))) _
    rw [WalDir.chapters_of_last hdir]
    exact hcovers.concat
  · have hp' : p ∈ (w.dir.insert w.pendingCursor (.empty w.cfg.segmentSizeMax)).entries := hp
    simp only [hdir, List.mem_append, List.mem_singleton] at hp'
    rcases hp' with hp' | rfl
    · have heq : w.pendingCursor = p.1 := by simpa [activate] using hwriter
      exact absurd heq (hlt p hp').ne'
    · rfl

theorem createFile_ok (hs : createFile first .ok w = (w', .ok ())) : w' = w.addFile first ∧ first ∉ w.dir.keys ∧
    SEGMENT_HEADER_LEN + RECORD_FRAMING ≤ w.cfg.segmentSizeMax := by
  unfold createFile at hs
  split at hs
  · cases hs
  · rename_i hsize
    split at hs
    · cases hs
    · rename_i hnew
      simp only [show WalIo.ok.map = true from rfl, Bool.true_eq_false, if_false] at hs
      cases hs
      exact ⟨rfl, (not_or.1 hnew).2, not_lt.1 hsize⟩

/-! ### A successful append -/

/-- What a link of a successful append ends with, and what it passes through -/
structure Passes (Q : Wal → Prop) (trace : List WalDir) (w' : Wal) : Prop where
  ends : Q w'
  ordered : w'.Ordered
  trace : ∀ d ∈ trace, d.Ordered

/-- The log has a writer, and room for the record unless its segment is new. -/
structure Acquired (cfg : WalConfig) (r : Record) (w w' : Wal) : Prop where
  same : (asLog cfg).Same w w'
  writer : ∃ first, w'.writer = some first ∧
    (w'.activeBytes + recordBytes r ≤ cfg.segmentSizeMax ∨ first = w'.pendingCursor)

theorem createDeferred_passes (h : w.Ready cfg) (ho : w.Ordered) (hw : w.writer = none) (hr : r.cursor = w.pendingCursor)
    (hs : createDeferred r.cursor .ok w = (w', .ok ())) : Passes (Acquired cfg r w) (createTrace r.cursor w) w' := by
  rw [hr] at hs ⊢
  obtain ⟨w₁, hactivate, hstore⟩ := andThen_eq_ok.1 hs
  obtain ⟨w₂, hcreate, hactivated⟩ := andThen_eq_ok.1 hactivate
  obtain ⟨rfl, -, hsize⟩ := createFile_ok hcreate
  cases hactivated
  cases hstore
  have hroom : SEGMENT_HEADER_LEN + 0 ≤ cfg.segmentSizeMax := by
    rw [← h.cfg_eq]
    omega
  have hprep := prepared_activate h hw hroom w.segmentSizes w.retainedBytes w.pendingCursor
  refine ⟨⟨hprep.same, w.pendingCursor, rfl, .inr rfl⟩, ?_, createTrace_ordered ho (h.closed hw)⟩
  exact activate_ordered ho (h.closed hw) w.segmentSizes w.retainedBytes w.pendingCursor

theorem Ordered.closeWriter (ho : w.Ordered) {closed : List (Nat × Segment)} {seg : Segment}
    (hdir : w.dir.entries = closed ++ [(first, seg)]) : (w.closeWriter first).Ordered := by
  have hrecords := Segment.records_writeSkipToEnd seg
  have hheader : seg.writeSkipToEnd.header = seg.header := by
    unfold Segment.writeSkipToEnd
    split <;> rfl
  have hmod := ho.dir.modify_last hdir hrecords hheader
  have hdir' := SortedMap.entries_modify_last hdir Segment.writeSkipToEnd
  obtain ⟨⟨n, hcovers⟩, -, -⟩ := ho
  refine ⟨⟨n, ?_⟩, hmod.header, fun _ _ => nofun⟩
  show Covers Record.cursor n (WalDir.chapters (w.dir.modify first Segment.writeSkipToEnd)) _
  rw [WalDir.chapters_of_last hdir', hrecords, ← WalDir.chapters_of_last hdir]
  exact hcovers

/-- A rotation that succeeds leaves records in the segment it closes. -/
theorem rotateLocked_passes (h : w.Ready cfg) (ho : w.Ordered) (hw : w.writer = some first)
    (hr : r.cursor = w.pendingCursor) (hs : rotateLocked r.cursor .ok w = (w', .ok ())) :
    first < w.pendingCursor ∧ Passes (Acquired cfg r w) (rotateTrace r.cursor first w) w' := by
  obtain ⟨closed, seg, hdir, -, -, hfirst⟩ := h.active first hw
  simp only [rotateLocked, hw] at hs
  obtain ⟨w₁, hcreate, hactivated⟩ := andThen_eq_ok.1 hs
  obtain ⟨w₂, hcreate, hstore⟩ := andThen_eq_ok.1 hcreate
  obtain ⟨rfl, hnew, hsize⟩ := createFile_ok hcreate
  have hlt : first < w.pendingCursor := by
    refine hfirst.resolve_right ?_
    rintro ⟨heq, -⟩
    refine hnew ?_
    rw [hr, ← heq]
    simp only [Wal.closeWriter, SortedMap.keys_modify]
    exact SortedMap.mem_keys.2 ⟨seg, by simp [hdir]⟩
  have hsame := h.closeWriter hw hlt
  have hoclose := ho.closeWriter hdir
  have hpending : r.cursor = (w.closeWriter first).pendingCursor := hr
  have hclosed := Ready.closed hsame.ready rfl
  refine ⟨hlt, ?_⟩
  rw [hpending] at hstore hactivated ⊢
  cases hstore
  cases hactivated
  have hroom : SEGMENT_HEADER_LEN + 0 ≤ cfg.segmentSizeMax := by
    rw [← h.cfg_eq]
    exact (Nat.le_add_right ..).trans hsize
  have hprep := prepared_activate hsame.ready rfl hroom
    ((w.closeWriter first).segmentSizes.insert first ((w.dir.lookup first).elim 0 Segment.tail))
    ((w.closeWriter first).retainedBytes + (w.dir.lookup first).elim 0 Segment.tail) (w.closeWriter first).pendingCursor
  refine ⟨⟨hsame.trans hprep.same, _, rfl, .inr rfl⟩, ?_, fun d hd => ?_⟩
  · exact activate_ordered hoclose hclosed _ _ _
  · rcases List.mem_cons.1 hd with rfl | hd
    · exact ho.dir.modify_last hdir rfl rfl
    · rcases List.mem_cons.1 hd with rfl | hd
      · exact hoclose.dir
      · exact createTrace_ordered hoclose hclosed d hd

theorem acquireWriter_passes (h : w.Ready cfg) (ho : w.Ordered) (hr : r.cursor = w.pendingCursor)
    (hs : acquireWriter r .ok w = (w', .ok ())) : Passes (Acquired cfg r w) (acquireTrace r w) w' := by
  cases hw : w.writer with
  | none =>
    simp only [acquireWriter, hw] at hs
    simp only [acquireTrace, hw]
    exact createDeferred_passes h ho hw hr hs
  | some first =>
    simp only [acquireWriter, hw] at hs
    simp only [acquireTrace, hw]
    split at hs
    · rename_i hfull
      rw [if_pos hfull]
      exact (rotateLocked_passes h ho hw hr hs).2
    · rename_i hfull
      cases hs
      rw [if_neg hfull]
      refine ⟨⟨.refl h, first, hw, .inl ?_⟩, ho, by simp⟩
      rw [← h.cfg_eq]
      exact not_lt.1 hfull

/-- A record is written where there is room, or not at all. -/
theorem write_passes {w₀ : Wal} (h : Acquired cfg r w₀ w) (ho : w.Ordered) (hw : w.writer = some first)
    (hr : r.cursor = w.pendingCursor) (hs : write first r .ok w = (w', .ok ())) :
    Passes (Wrote cfg r w) (writeTrace r w) (w'.recorded first r) := by
  have hready : w.Ready cfg := h.same.ready
  obtain ⟨closed, seg, hdir, hsize, hbytes, -⟩ := hready.active first hw
  have hroom : w.activeBytes + recordBytes r ≤ cfg.segmentSizeMax := by
    by_contra hfull
    obtain ⟨first', hw', hroom | hnew⟩ := h.writer
    · exact hfull hroom
    · obtain rfl : first' = first := by simpa [hw] using hw'.symm
      have hput : w.put first' r = none := by
        have happend : seg.append r = none := by
          rw [Segment.append, if_pos (by rw [hsize, hready.cfg_eq, ← hbytes]; omega)]
        simp only [put, SortedMap.lookup_last hdir, Option.bind_some, happend]
      -- the rotation would create the segment once more
      simp only [write, hput] at hs
      obtain ⟨w₁, hrotate, -⟩ := andThen_eq_ok.1 hs
      exact absurd hnew (rotateLocked_passes hready ho hw hr hrotate).1.ne
  obtain ⟨w₁, hw₁, hwrote⟩ := write_of_room hready hw hroom hr .ok
  rw [hw₁] at hs
  cases hs
  have hheader := ho.active (first, seg) (by simp [hdir]) hw
  obtain ⟨⟨n, hcovers⟩, hhead, hactive⟩ := ho
  rw [WalDir.chapters_of_last hdir] at hcovers
  -- the directory with the record
  have hgrown : ∀ f : Segment → Segment, (f seg).records = seg.records ++ [r] → (f seg).header = seg.header →
      Covers Record.cursor n (WalDir.chapters (w.dir.modify first f)) (r.cursor + 1) ∧
        (∀ p ∈ (w.dir.modify first f).entries, p.2.header = false → p.2.records = []) ∧
        ∀ p ∈ (w.dir.modify first f).entries, some first = some p.1 → p.2.header = true := by
    intro f hrecords hhead'
    have hdir' := SortedMap.entries_modify_last hdir f
    refine ⟨?_, fun p hp hnot => ?_, fun p hp heq => ?_⟩
    · rw [WalDir.chapters_of_last hdir', hrecords, hr]
      exact hcovers.extend (show Numbered Record.cursor w.pendingCursor [r] from numbered_singleton.2 hr)
    · simp only [hdir', List.mem_append, List.mem_singleton] at hp
      rcases hp with hp | rfl
      · exact hhead p (by simp [hdir, hp]) hnot
      · rw [hhead', hheader] at hnot
        cases hnot
    · simp only [hdir', List.mem_append, List.mem_singleton] at hp
      rcases hp with hp | rfl
      · exact hactive p (by simp [hdir, hp]) (hw.trans heq)
      · exact hhead'.trans hheader
  have happend : seg.append r = some { seg with records := seg.records ++ [r], tail := seg.tail + recordBytes r } := by
    rw [Segment.append, if_neg (by rw [hsize, hready.cfg_eq, ← hbytes]; exact not_lt.2 hroom)]
  refine ⟨hwrote, ?_, fun d hd => ?_⟩
  · simp only [write, put, SortedMap.lookup_last hdir, Option.bind_some, happend] at hw₁
    cases hw₁
    obtain ⟨hc, hh, ha⟩ := hgrown (fun _ => { seg with records := seg.records ++ [r], tail := seg.tail + recordBytes r })
      rfl rfl
    exact ⟨⟨n, hc⟩, hh, fun p hp hwriter => ha p hp (hw.symm.trans hwriter)⟩
  · simp only [writeTrace, hw, List.mem_cons, List.not_mem_nil, or_false] at hd
    rcases hd with rfl | rfl
    · refine WalDir.Ordered.modify_last ⟨⟨n, w.pendingCursor, ?_⟩, hhead⟩ hdir rfl rfl
      rwa [WalDir.chapters_of_last hdir]
    · obtain ⟨hc, hh, -⟩ := hgrown (fun s => { s with records := s.records ++ [r], tail := s.tail + recordBytes r }) rfl rfl
      exact ⟨⟨n, _, hc⟩, hh⟩

theorem Ordered.retire {k : Nat} (h : w.Ready cfg) (ho : w.Ordered) (hw : w.writer = some first)
    (hk : w.segments.keys.find? (fun k => some k ≠ w.writer) = some k) : (w.retire k).Ordered := by
  obtain ⟨⟨n, hcovers⟩, hheader, hactive⟩ := ho
  obtain ⟨closed, seg, hdir, -⟩ := h.active first hw
  cases closed with
  | nil =>
    -- only the active segment is left
    rw [h.segments, SortedMap.keys_eq hdir] at hk
    simp [hw] at hk
  | cons p closed =>
    obtain ⟨k₀, seg₀⟩ := p
    have hne : k₀ ≠ first := ne_of_lt (SortedMap.lt_of_entries_append hdir (k₀, seg₀) (List.mem_cons_self ..))
    obtain rfl : k₀ = k := by
      rw [h.segments, SortedMap.keys_eq hdir] at hk
      simpa [hw, hne] using hk
    have hdir' : (w.dir.erase k₀).entries = closed ++ [(first, seg)] := SortedMap.entries_erase_head hdir
    have hmem : ∀ p ∈ (w.dir.erase k₀).entries, p ∈ w.dir.entries := by
      intro p hp
      rw [hdir'] at hp
      rw [hdir]
      exact List.mem_cons_of_mem _ hp
    rw [WalDir.chapters, hdir] at hcovers
    obtain ⟨-, -, hrest⟩ := hcovers
    refine ⟨⟨n + seg₀.records.length, ?_⟩, fun p hp => hheader p (hmem p hp), fun p hp => hactive p (hmem p hp)⟩
    rw [WalDir.chapters, Wal.retire, hdir']
    exact hrest

theorem enforceRetention_passes {w₀ : Wal} (rounds : Nat) (h : Wrote cfg r w₀ w) (ho : w.Ordered) :
    Passes (Wrote cfg r w₀) (retentionTrace rounds w) (w.enforceRetention rounds) := by
  induction rounds generalizing w with
  | zero => exact ⟨h, ho, by simp [retentionTrace]⟩
  | succ rounds ih =>
    unfold Wal.enforceRetention retentionTrace
    by_cases hle : w.retainedBytes + w.activeBytes ≤ w.cfg.retentionBytes
    · rw [if_pos hle, if_pos hle]
      exact ⟨h, ho, by simp⟩
    · rw [if_neg hle, if_neg hle]
      cases hk : w.segments.keys.find? fun k => some k ≠ w.writer with
      | none => exact ⟨h, ho, by simp⟩
      | some k =>
        obtain ⟨first, hw⟩ := Option.ne_none_iff_exists'.1 h.writer
        have hretire := ho.retire h.adds.ready hw hk
        have hrest := ih ⟨h.adds.same (Ready.retire h.adds.ready hw hk), h.writer⟩ hretire
        refine ⟨hrest.ends, hrest.ordered, fun d hd => ?_⟩
        rcases List.mem_cons.1 hd with rfl | hd
        · exact hretire.dir
        · exact hrest.trace d hd

/-- A successful append keeps the order, in the end and all the way. -/
theorem append_passes {ts : Nat} {payload : Bytes} (h : w.Ready cfg) (ho : w.Ordered)
    (hs : append w.pendingCursor ts payload .ok w = (w', .ok ())) :
    Passes (Wrote cfg ⟨w.pendingCursor, ts, payload⟩ w) (appendTrace ⟨w.pendingCursor, ts, payload⟩ w) w' := by
  have henabled : w.cfg.enabled = true := h.cfg_eq ▸ h.enabled
  simp only [append, henabled, Bool.true_eq_false, if_false, h.healthy] at hs
  split at hs
  · cases hs
  · obtain ⟨w₁, hacquire, hs⟩ := andThen_eq_ok.1 hs
    have h₁ := acquireWriter_passes h ho rfl hacquire
    obtain ⟨first, hw₁, -⟩ := h₁.ends.writer
    simp only [appendWith, hw₁] at hs
    obtain ⟨w₃, hs, hsync⟩ := andThen_eq_ok.1 hs
    obtain ⟨w₂, hwrite, hretain⟩ := andThen_eq_ok.1 hs
    cases hretain
    have hw₃ := (Prod.mk.inj hsync).1
    subst hw₃
    have h₂ := write_passes h₁.ends h₁.ordered hw₁ h₁.ends.same.next.symm hwrite
    have h₃ := enforceRetention_passes w₂.segments.keys.length h₂.ends h₂.ordered
    refine ⟨⟨h₁.ends.same.adds h₃.ends.adds, h₃.ends.writer⟩, h₃.ordered, fun d hd => ?_⟩
    simp only [appendTrace, hacquire, hw₁, Option.elim_some, hwrite, List.mem_append] at hd
    rcases hd with (hd | hd) | hd
    · exact h₁.trace d hd
    · exact h₂.trace d hd
    · exact h₃.trace d hd

/-! ### An open -/

/-- Every append fails: the segment that it would create is there. -/
structure Stuck (w : Wal) : Prop where
  writer : w.writer = none
  taken : w.pendingCursor ∈ w.dir.keys

theorem Stuck.append_fails (h : w.Stuck) (henabled : w.cfg.enabled = true) (ts : Nat) (payload : Bytes) :
    (append w.pendingCursor ts payload .ok w).2 ≠ .ok () := by
  intro hok
  simp only [append, henabled, Bool.true_eq_false, if_false] at hok
  split at hok
  · cases hok
  · split at hok
    · cases hok
    · rcases hs : (acquireWriter ⟨w.pendingCursor, ts, payload⟩ .ok).andThen
          (appendWith ⟨w.pendingCursor, ts, payload⟩ .ok) w with ⟨w', e⟩
      rw [hs] at hok
      cases hok
      obtain ⟨w₁, hacquire, -⟩ := andThen_eq_ok.1 hs
      simp only [acquireWriter, h.writer] at hacquire
      obtain ⟨w₂, hactivate, -⟩ := andThen_eq_ok.1 hacquire
      obtain ⟨w₃, hcreate, -⟩ := andThen_eq_ok.1 hactivate
      exact (createFile_ok hcreate).2.1 h.taken

/-- The cursor after the records of the newest segment is the end of the log. -/
theorem nextCursor_eq {l : List (Nat × List Record)} {k : Nat} {seg : Segment}
    (h : Covers Record.cursor n (l ++ [(k, seg.records)]) m) (hheader : seg.header = false → seg.records = []) :
    nextCursor k seg = m := by
  obtain ⟨-, hnum, rfl⟩ := covers_concat.1 h
  unfold nextCursor
  cases hlast : seg.records.getLast? with
  | none => simp [List.getLast?_eq_none_iff.1 hlast]
  | some r =>
    have hhead : seg.header = true := by
      by_contra hnot
      rw [hheader (by simpa using hnot)] at hlast
      cases hlast
    rw [if_pos hhead]
    exact hnum.getLast hlast

theorem ofDir_ordered {dir : WalDir} {active : Nat} (h : Covers Record.cursor n dir.chapters m)
    (hheader : ∀ p ∈ dir.entries, p.2.header = false → p.2.records = []) : (ofDir cfg dir active m).Ordered :=
  ⟨⟨n, h⟩, hheader, fun _ _ => nofun⟩

/-- What an open of an ordered directory ends with -/
structure Opened (cfg : WalConfig) (dir : WalDir) (w : Wal) : Prop where
  cfg_eq : w.cfg = cfg
  ordered : w.Ordered
  ready : (∀ k seg, dir.last? = some (k, seg) → seg.records ≠ []) → w.Ready cfg
  stuck : ∀ k seg, dir.last? = some (k, seg) → seg.records = [] → w.Stuck
  pending : ∀ n m, Covers Record.cursor n dir.chapters m → dir.entries ≠ [] → w.pendingCursor = m
  fresh : dir.entries = [] → w.pendingCursor = 0

/-- A session can begin only with segments that have room for their header and a record. -/
theorem size_of_open {dir : WalDir} {active : Nat} (hdir : dir.Ordered) (hs : «open» cfg dir active = .ok w)
    (hready : ∃ k seg, dir.last? = some (k, seg) ∧ seg.records ≠ []) :
    SEGMENT_HEADER_LEN + RECORD_FRAMING ≤ cfg.segmentSizeMax := by
  obtain ⟨k, seg, hlast, hsome⟩ := hready
  obtain ⟨closed, hentries⟩ := SortedMap.last?_eq_some hlast
  obtain ⟨⟨n, m, hcovers⟩, hheader⟩ := hdir
  rw [WalDir.chapters_of_last hentries] at hcovers
  have hnext := nextCursor_eq hcovers (hheader (k, seg) (by simp [hentries]))
  have hrecords : k + seg.records.length = m := (covers_concat.1 hcovers).2.2.symm
  have hpos := List.length_pos_iff.2 hsome
  simp only [«open», hlast, hnext, if_neg (show m ≠ k by omega)] at hs
  split at hs
  · rename_i w' _ hcreate
    obtain ⟨w₁, hactivate, -⟩ := andThen_eq_ok.1 hcreate
    obtain ⟨w₂, hfile, -⟩ := andThen_eq_ok.1 hactivate
    exact (createFile_ok hfile).2.2
  · cases hs

theorem open_passes {dir : WalDir} {active : Nat} (henabled : cfg.enabled = true) (hdir : dir.Ordered)
    (hs : «open» cfg dir active = .ok w) : Opened cfg dir w ∧ ∀ d ∈ openTrace cfg dir, d.Ordered := by
  have hdir' := hdir
  have hsize := size_of_open hdir hs
  obtain ⟨⟨n, m, hcovers⟩, hheader⟩ := hdir
  simp only [«open»] at hs
  simp only [openTrace]
  cases hlast : dir.last? with
  | none =>
    have hnil : dir.entries = [] := List.getLast?_eq_none_iff.1 hlast
    rw [hlast] at hs
    cases hs
    refine ⟨⟨rfl, ⟨⟨0, ?_⟩, hheader, fun _ _ h => by cases h⟩, fun _ => ?_, fun _ _ h => ?_,
      fun _ _ _ h => absurd hnil h, fun _ => rfl⟩, ?_⟩
    · show Covers Record.cursor 0 dir.chapters 0
      rw [WalDir.chapters, hnil]
      rfl
    · exact ofDir_ready henabled (by simp [hnil])
    · cases hlast.symm.trans h
    · intro d hd
      rw [List.mem_singleton.1 hd]
      exact hdir'
  | some p =>
    obtain ⟨k, seg⟩ := p
    obtain ⟨closed, hentries⟩ := SortedMap.last?_eq_some hlast
    have hne : dir.entries ≠ [] := by simp [hentries]
    have hseg : seg.header = false → seg.records = [] := hheader (k, seg) (by simp [hentries])
    have hcovers' := hcovers
    rw [WalDir.chapters_of_last hentries] at hcovers'
    have hnext : nextCursor k seg = m := nextCursor_eq hcovers' hseg
    have hpending : ∀ n' m', Covers Record.cursor n' dir.chapters m' → dir.entries ≠ [] → m = m' := by
      intro n' m' h _
      rw [WalDir.chapters_of_last hentries] at h
      rw [← hnext]
      exact nextCursor_eq h hseg
    have hrecords : k + seg.records.length = m := (covers_concat.1 hcovers').2.2.symm
    simp only [hlast, hnext] at hs ⊢
    by_cases heq : m = k
    · -- the newest segment is empty
      have hempty : seg.records = [] := List.eq_nil_of_length_eq_zero (by omega)
      rw [if_pos heq] at hs ⊢
      cases hs
      refine ⟨⟨rfl, ?_, fun h => absurd hempty (h k seg hlast), fun _ _ _ _ => ⟨rfl, ?_⟩, ?_,
        fun h => absurd h hne⟩, ?_⟩
      · exact heq ▸ ofDir_ordered hcovers hheader
      · show k ∈ dir.keys
        rw [SortedMap.keys_eq hentries]
        simp
      · intro n' m' h h'
        exact heq ▸ hpending n' m' h h'
      · intro d hd
        rw [List.mem_singleton.1 hd]
        exact hdir'
    · have hsome : seg.records ≠ [] := by
        rintro hnil
        rw [hnil] at hrecords
        exact heq hrecords.symm
      have hlt : ∀ p ∈ dir.entries, p.1 < m := by
        intro p hp
        have hle := SortedMap.le_of_last? hlast hp
        have hpos := List.length_pos_iff.2 hsome
        simp only at hle
        omega
      have hready : (ofDir cfg dir active m).Ready cfg := ofDir_ready henabled hlt
      have hordered : (ofDir cfg dir active m).Ordered := ofDir_ordered hcovers hheader
      rw [if_neg heq] at hs ⊢
      split at hs
      · rename_i w' _ hw'
        cases hs
        have hpasses := createDeferred_passes (r := ⟨m, 0, []⟩) hready hordered rfl rfl hw'
        have hsame := hpasses.ends.same
        refine ⟨⟨hsame.ready.cfg_eq, hpasses.ordered, fun _ => hsame.ready, fun k' seg' h hnil => ?_, ?_,
          fun h => absurd h hne⟩, ?_⟩
        · rw [hlast] at h
          cases h
          exact absurd hnil hsome
        · intro n' m' h h'
          rw [← hpending n' m' h h']
          exact hsame.next
        · intro d hd
          rcases List.mem_cons.1 hd with rfl | hd
          · exact hdir'
          · exact hpasses.trace d hd
      · cases hs

theorem open_ok {dir : WalDir} {active : Nat} (henabled : cfg.enabled = true) (hdir : dir.Ordered)
    (hsize : SEGMENT_HEADER_LEN + RECORD_FRAMING ≤ cfg.segmentSizeMax) : ∃ w, «open» cfg dir active = .ok w := by
  simp only [«open»]
  cases hlast : dir.last? with
  | none => exact ⟨_, rfl⟩
  | some p =>
    obtain ⟨k, seg⟩ := p
    by_cases heq : nextCursor k seg = k
    · simp only [if_pos heq]
      exact ⟨_, rfl⟩
    · obtain ⟨⟨n, m, hcovers⟩, hheader⟩ := hdir
      obtain ⟨closed, hentries⟩ := SortedMap.last?_eq_some hlast
      rw [WalDir.chapters_of_last hentries] at hcovers
      have hnext := nextCursor_eq hcovers (hheader (k, seg) (by simp [hentries]))
      have hrecords : k + seg.records.length = m := (covers_concat.1 hcovers).2.2.symm
      have hlt : ∀ p ∈ dir.entries, p.1 < nextCursor k seg := by
        intro p hp
        have hle := SortedMap.le_of_last? hlast hp
        simp only at hle
        omega
      have hcreate : Ends (createDeferred (nextCursor k seg) .ok) (ofDir cfg dir active (nextCursor k seg))
          (Prepared cfg 0 _) (Kept cfg .ok _) :=
        createDeferred_ends (ofDir_ready henabled hlt) rfl hsize ((Nat.le_add_right ..).trans hsize) rfl
      simp only [if_neg heq]
      rcases hcreate.cases with ⟨w', hw', -⟩ | ⟨w', e, -, hkept⟩
      · have hw'' : createDeferred (nextCursor k seg) .ok (ofDir cfg dir active (nextCursor k seg)) = (w', .ok ()) := hw'
        rw [hw'']
        exact ⟨w', rfl⟩
      · exact absurd rfl hkept.fault

end Wal

/-! ### Sessions -/

/-- The log between two sessions and inside one -/
inductive Sessions
  | closed (dir : WalDir)
  | opened (w : Wal)

namespace Sessions

open V2.Wal

/-- The steps of a session that opens and appends with success, and the ends of a session: a drop, a crash between two
operations, and a crash inside an append or an open after the step `i` of it.  What `active.dat` holds before an open
plays no role in it. -/
inductive Act
  | «open» (cfg : WalConfig) (active : Nat)
  | append (ts : Nat) (payload : Bytes)
  | drop
  | crash
  | crashAppend (ts : Nat) (payload : Bytes) (i : Nat)
  | crashOpen (cfg : WalConfig) (active i : Nat)

def step : Sessions → Act → Option Sessions
  | closed dir, .open cfg active =>
    if cfg.enabled then
      match Wal.open cfg dir active with
      | .ok w => some (opened w)
      | .error _ => none
    else none
  | closed dir, .crashOpen cfg active i =>
    if cfg.enabled then
      match Wal.open cfg dir active with
      | .ok _ => (openTrace cfg dir)[i]?.map closed
      | .error _ => none
    else none
  | opened w, .append ts payload =>
    match w.append w.pendingCursor ts payload .ok with
    | (w, .ok _) => some (opened w)
    | (_, .error _) => none
  | opened w, .crashAppend ts payload i =>
    match w.append w.pendingCursor ts payload .ok with
    | (_, .ok _) => (w.appendTrace ⟨w.pendingCursor, ts, payload⟩)[i]?.map closed
    | (_, .error _) => none
  | opened w, .drop => some (closed w.dir)
  | opened w, .crash => some (closed w.dir)
  | _, _ => none

/-- A directory without a log -/
def init : Sessions := closed .empty

/-- What every session leaves of the log -/
def Inv : Sessions → Prop
  | closed dir => dir.Ordered
  | opened w => w.cfg.enabled = true ∧ w.Ordered ∧ (w.Ready w.cfg ∨ w.Stuck)

theorem Inv.init : Inv init := ⟨⟨0, 0, rfl⟩, fun _ h => by cases h⟩

theorem Inv.step {s s' : Sessions} {a : Act} (h : s.Inv) (hs : s.step a = some s') : s'.Inv := by
  cases s with
  | closed dir =>
    cases a with
    | «open» cfg active =>
      simp only [Sessions.step] at hs
      split at hs
      · rename_i henabled
        split at hs
        · rename_i w hopen
          cases hs
          obtain ⟨hopened, -⟩ := open_passes henabled h hopen
          refine ⟨hopened.cfg_eq ▸ henabled, hopened.ordered, ?_⟩
          by_cases hempty : ∀ k seg, dir.last? = some (k, seg) → seg.records ≠ []
          · exact .inl (hopened.cfg_eq ▸ hopened.ready hempty)
          · obtain ⟨k, seg, hlast, hnil⟩ : ∃ k seg, dir.last? = some (k, seg) ∧ seg.records = [] := by
              simpa using hempty
            exact .inr (hopened.stuck k seg hlast hnil)
        · cases hs
      · cases hs
    | crashOpen cfg active i =>
      simp only [Sessions.step] at hs
      split at hs
      · rename_i henabled
        split at hs
        · rename_i w hopen
          obtain ⟨d, hd, rfl⟩ := Option.map_eq_some_iff.1 hs
          exact (open_passes henabled h hopen).2 d (List.mem_of_getElem? hd)
        · cases hs
      · cases hs
    | _ => cases hs
  | opened w =>
    obtain ⟨henabled, hordered, htakes⟩ := h
    -- a log that takes no record appends none
    have hready : ∀ {ts payload w'}, w.append w.pendingCursor ts payload .ok = (w', .ok ()) → w.Ready w.cfg := by
      intro ts payload w' happend
      refine htakes.resolve_right fun hstuck => hstuck.append_fails henabled ts payload ?_
      rw [happend]
    cases a with
    | append ts payload =>
      simp only [Sessions.step] at hs
      split at hs
      · rename_i w' _ happend
        cases hs
        have hpasses := append_passes (hready happend) hordered happend
        have hcfg : w'.cfg = w.cfg := hpasses.ends.adds.ready.cfg_eq
        exact ⟨hcfg ▸ henabled, hpasses.ordered, .inl (hcfg ▸ hpasses.ends.adds.ready)⟩
      · cases hs
    | crashAppend ts payload i =>
      simp only [Sessions.step] at hs
      split at hs
      · rename_i w' _ happend
        obtain ⟨d, hd, rfl⟩ := Option.map_eq_some_iff.1 hs
        have hpasses := append_passes (hready happend) hordered happend
        exact hpasses.trace d (List.mem_of_getElem? hd)
      · cases hs
    | drop | crash =>
      cases hs
      exact hordered.dir
    | _ => cases hs

theorem ordered_run {acts : List Act} {dir : WalDir} (hrun : run step init acts = some (closed dir)) : dir.Ordered :=
  run_invariant Inv (fun _ _ _ h hs => h.step hs) Inv.init hrun

/-- The segment files between two sessions -/
def files : Sessions → Option (List (Nat × Segment))
  | closed dir => some dir.entries
  | opened _ => none

theorem closed_of_files (acts : List Act) (l : List (Nat × Segment)) (h : (run step init acts).bind files = some l) :
    ∃ dir, run step init acts = some (closed dir) ∧ dir.entries = l := by
  obtain ⟨s, hrun, hfiles⟩ := Option.bind_eq_some_iff.1 h
  cases s with
  | opened w => cases hfiles
  | closed dir => exact ⟨dir, hrun, Option.some.inj hfiles⟩

end Sessions

/-! ### Reopening -/

/-- One past the last record on disk; without records the first cursor of the newest segment, or 0 -/
def WalDir.endCursor (dir : WalDir) : Nat :=
  match dir.records.getLast? with
  | some r => r.cursor + 1
  | none => (dir.last?.map Prod.fst).getD 0

/-- The log opens at its end, whatever `active.dat` holds, and takes any record there that fits a segment. -/
def WalDir.Reopens (cfg : WalConfig) (dir : WalDir) : Prop :=
  ∀ active, ∃ w, Wal.open cfg dir active = .ok w ∧ w.pendingCursor = dir.endCursor ∧
    ∀ ts payload, Wal.Fits cfg payload.length → (w.append w.pendingCursor ts payload .ok).2 = .ok ()

/-- The newest segment holds a record. -/
def WalDir.Reopenable (dir : WalDir) : Prop := ∀ k seg, dir.last? = some (k, seg) → seg.records ≠ []

theorem WalDir.endCursor_eq {dir : WalDir} {n m : Nat} (h : Covers Record.cursor n dir.chapters m)
    (hne : dir.records ≠ []) : dir.endCursor = m := by
  obtain ⟨hnum, hlen⟩ := h.flatMap
  rw [WalDir.flatMap_chapters] at hnum hlen
  obtain ⟨r, hr⟩ := Option.ne_none_iff_exists'.1 (fun hnone => hne (List.getLast?_eq_none_iff.1 hnone))
  simp only [WalDir.endCursor, hr]
  rw [hnum.getLast hr, hlen]

/-- An ordered directory reopens if and only if its newest segment is not empty. -/
theorem WalDir.Ordered.reopens_iff {cfg : WalConfig} {dir : WalDir} (h : dir.Ordered) (henabled : cfg.enabled = true)
    (hfits : Wal.Fits cfg 0) : dir.Reopens cfg ↔ dir.Reopenable := by
  constructor
  · intro hreopens k seg hlast hnil
    obtain ⟨w, hopen, -, htakes⟩ := hreopens 0
    obtain ⟨hopened, -⟩ := Wal.open_passes henabled h hopen
    exact (hopened.stuck k seg hlast hnil).append_fails (hopened.cfg_eq ▸ henabled) 0 [] (htakes 0 [] hfits)
  · intro hnewest active
    obtain ⟨w, hopen⟩ : ∃ w, Wal.open cfg dir active = .ok w := Wal.open_ok henabled h hfits.header_le
    obtain ⟨hopened, -⟩ := Wal.open_passes henabled h hopen
    have hready := hopened.ready hnewest
    refine ⟨w, hopen, ?_, fun ts payload hpayload => ?_⟩
    · obtain ⟨⟨n, m, hcovers⟩, -⟩ := h
      cases hlast : dir.last? with
      | none =>
        have hnil : dir.entries = [] := List.getLast?_eq_none_iff.1 hlast
        rw [hopened.fresh hnil]
        simp [WalDir.endCursor, WalDir.records, hnil, hlast]
      | some p =>
        obtain ⟨closed, hentries⟩ := SortedMap.last?_eq_some hlast
        have hne : dir.entries ≠ [] := by simp [hentries]
        have hrecords : dir.records ≠ [] := by
          have := hnewest p.1 p.2 hlast
          simp [WalDir.records, hentries, this]
        rw [hopened.pending n m hcovers hne, WalDir.endCursor_eq hcovers hrecords]
    · have happend : Ends (Wal.append w.pendingCursor ts payload .ok) w _ _ :=
        Wal.append_ends hready hpayload le_rfl (.ok cfg)
      rcases happend.cases with ⟨w', hw', -⟩ | ⟨w', e, -, hkept⟩
      · rw [hw']
      · exact absurd rfl hkept.fault

/-- After any sessions, in either backend, the log reopens if and only if it has no segment or its newest one holds a
record, and in the v0.1 log every segment has its header. -/
theorem logs_reopen_iff {cfg : WalConfig} (henabled : cfg.enabled = true) :
    (cfg.Fits 0 → ∀ acts dir, run Mmbus.Sessions.step .init acts = some (.closed dir) →
      (Mmbus.WalDir.Reopens cfg dir ↔ Mmbus.WalDir.Reopenable dir)) ∧
    (Wal.Fits cfg 0 → ∀ acts dir, run Sessions.step .init acts = some (.closed dir) →
      (dir.Reopens cfg ↔ dir.Reopenable)) :=
  ⟨fun hfits _ _ hrun => (Mmbus.Sessions.ordered_run hrun).reopens_iff henabled hfits,
    fun hfits _ _ hrun => (Sessions.ordered_run hrun).reopens_iff henabled hfits⟩

/-- Segments with room for one small record -/
def smallSegments : WalConfig := ⟨true, .each, 64, 1024⟩

theorem smallSegments_fits : smallSegments.Fits 0 ∧ Wal.Fits smallSegments 0 :=
  ⟨⟨by decide, by decide⟩, ⟨by decide, by decide⟩⟩

/-- A log with one record -/
def oneRecord : List Mmbus.Sessions.Act := [.open smallSegments, .append 0 [7], .drop]

/-- A session appends a record, and the next one nothing. -/
def emptySession : List Sessions.Act := [.open smallSegments 0, .append 0 [7], .drop, .open smallSegments 0, .drop]

theorem logs_reopen_iff_smallSegments :
    (∃ dir, run Mmbus.Sessions.step .init oneRecord = some (.closed dir) ∧ Mmbus.WalDir.Reopens smallSegments dir) ∧
    ∃ dir, run Sessions.step .init emptySession = some (.closed dir) ∧ ¬dir.Reopens smallSegments := by
  obtain ⟨h₁, h₂⟩ := logs_reopen_iff (show smallSegments.enabled = true from rfl)
  obtain ⟨dir₁, hrun₁, hfiles₁⟩ := Mmbus.Sessions.closed_of_files oneRecord
    [(0, ⟨true, [⟨0, 0, [7]⟩], false⟩)] (by decide)
  obtain ⟨dir₂, hrun₂, hfiles₂⟩ := Sessions.closed_of_files emptySession
    [(0, ⟨64, true, [⟨0, 0, [7]⟩], 64, false⟩), (1, .empty 64)] (by decide)
  refine ⟨⟨dir₁, hrun₁, (h₁ smallSegments_fits.1 _ _ hrun₁).2 ⟨?_, fun k seg hlast => ?_⟩⟩, dir₂, hrun₂, fun h => ?_⟩
  · simp [hfiles₁]
  · have heq : (0, (⟨true, [⟨0, 0, [7]⟩], false⟩ : Mmbus.Segment)) = (k, seg) := by
      simpa [SortedMap.last?, hfiles₁] using hlast
    cases heq
    nofun
  · exact (h₂ smallSegments_fits.2 _ _ hrun₂).1 h 1 (.empty 64) (by simp [SortedMap.last?, hfiles₂]) rfl

/-- The same in the v0.1 log -/
def emptySessionV1 : List Mmbus.Sessions.Act :=
  [.open smallSegments, .append 0 [7], .drop, .open smallSegments, .drop]

/-- The process is killed when it has created its first segment file. -/
def killedBeforeHeader : List Mmbus.Sessions.Act := [.open smallSegments, .crashAppend 0 [7] 0 0 false]

/-- In both backends a session without an append leaves a log that takes no record; a v0.1 log with a segment that has
no header does not open. -/
theorem logs_reopen_fails :
    (∃ dir, run Mmbus.Sessions.step .init emptySessionV1 = some (.closed dir) ∧
      ¬Mmbus.WalDir.Reopens smallSegments dir) ∧
    (∃ dir, run Mmbus.Sessions.step .init killedBeforeHeader = some (.closed dir) ∧
      ¬Mmbus.WalDir.Reopens smallSegments dir) ∧
    ∃ dir, run Sessions.step .init emptySession = some (.closed dir) ∧ ¬dir.Reopens smallSegments := by
  obtain ⟨dir₁, hrun₁, hfiles₁⟩ := Mmbus.Sessions.closed_of_files emptySessionV1
    [(0, ⟨true, [⟨0, 0, [7]⟩], false⟩), (1, .empty)] (by decide)
  obtain ⟨dir₂, hrun₂, hfiles₂⟩ := Mmbus.Sessions.closed_of_files killedBeforeHeader
    [(0, ⟨false, [], false⟩)] (by decide)
  obtain ⟨dir₃, hrun₃, hfiles₃⟩ := Sessions.closed_of_files emptySession
    [(0, ⟨64, true, [⟨0, 0, [7]⟩], 64, false⟩), (1, .empty 64)] (by decide)
  refine ⟨⟨dir₁, hrun₁, fun h => ?_⟩, ⟨dir₂, hrun₂, fun h => ?_⟩, dir₃, hrun₃, fun h => ?_⟩
  · have hreopenable := ((Mmbus.Sessions.ordered_run hrun₁).reopens_iff rfl smallSegments_fits.1).1 h
    exact hreopenable.newest 1 .empty (by simp [SortedMap.last?, hfiles₁]) rfl
  · have hreopenable := ((Mmbus.Sessions.ordered_run hrun₂).reopens_iff rfl smallSegments_fits.1).1 h
    cases hreopenable.header (0, ⟨false, [], false⟩) (by simp [hfiles₂])
  · have hreopenable := ((Sessions.ordered_run hrun₃).reopens_iff rfl smallSegments_fits.2).1 h
    exact hreopenable 1 (.empty 64) (by simp [SortedMap.last?, hfiles₃]) rfl

end Mmbus.V2
