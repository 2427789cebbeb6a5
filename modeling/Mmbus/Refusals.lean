import Mmbus.FileSessions

/-!
# Appends that are refused

The calls of one log, from its first open on, on a file system that refuses nothing but the creation of a file that exists.
`append` makes room before it knows whether the record fits, and a new segment is named by the cursor of the caller: where a
segment without a record is left behind, the next one has its name (`Careful` says when).
-/

namespace Mmbus

open Attempt Transition

/-- The calls of a log; `reopen` is a drop and `Wal::open`, `flush` is `fsync` or a round of the flusher. -/
inductive LogCall
  | append (cursor ts : Nat) (payload : Bytes)
  | bumpGeneration
  | flush
  | reopen
  deriving DecidableEq

/-- The log `w'` shows what `w` showed, and takes records, as it is and after a drop and an open. -/
structure Spared {σ : Type*} (log : σ → List Record) (pending : σ → Nat) (Takes : σ → Prop) (reopen : σ → Option σ)
    (w w' : σ) : Prop where
  shows : log w' = log w
  ends : pending w' = pending w
  takes : Takes w'
  reopened : ∃ w'', reopen w' = some w'' ∧ log w'' = log w ∧ pending w'' = pending w ∧ Takes w''

/-- The cursor after the records `rs` of the segment `first` -/
def endOf (first : Nat) (rs : List Record) : Nat := (rs.getLast?.map fun r => r.cursor + 1).getD first

@[simp] theorem endOf_nil (first : Nat) : endOf first [] = first := rfl

@[simp] theorem endOf_concat (first : Nat) (rs : List Record) (r : Record) : endOf first (rs ++ [r]) = r.cursor + 1 := by
  simp [endOf]

namespace Wal

/-- The log after the first open of its directory -/
def create (cfg : WalConfig) : Wal := ofDir cfg .empty 0

def call (w : Wal) : LogCall → Option Wal
  | .append cursor ts payload => some (append cursor ts payload .ok w).1
  | .bumpGeneration => some (bumpGeneration .ok w).1
  | .flush => some (w.flusherTick .ok)
  | .reopen => (Wal.open w.cfg w.drop).toOption

/-- A payload that fits in a segment is taken at the pending cursor. -/
def Takes (w : Wal) : Prop :=
  ∀ ts payload, w.cfg.Fits payload.length → ∃ w', append w.pendingCursor ts payload .ok w = (w', .ok ())

/-- The active segment holds a record. -/
def Filled (w : Wal) : Prop := ∀ wr, w.writer = some wr → wr.first ≠ wr.pending

/-- The cursor is past the names of all segments. -/
def Above (w : Wal) (cursor : Nat) : Prop := ∀ k ∈ w.dir.keys, k < cursor

/-- No segment is left without a record before another one is needed: the log is dropped, rotated, or called in vain only
while its active segment holds a record, and a new segment gets the highest name and a record. -/
def Careful (w : Wal) : LogCall → Prop
  | .append cursor _ payload => w.cfg.enabled = true →
    if MAX_PAYLOAD_LEN < payload.length then w.Filled
    else if w.writer.isNone then
      cursor ∈ w.dir.keys ∨ w.Above cursor ∧ SEGMENT_HEADER_LEN + RECORD_FRAMING + payload.length ≤ w.cfg.segmentSizeMax
    else if w.cfg.segmentSizeMax < w.activeBytes + (RECORD_FRAMING + payload.length) then
      w.Above cursor ∨ cursor ∈ w.dir.keys ∧ w.Filled
    else w.writer.map SegmentWriter.pending = some cursor ∨ w.Filled
  | .bumpGeneration | .reopen => w.Filled
  | .flush => True

instance (w : Wal) : Decidable w.Filled := decidable_of_iff (∀ wr ∈ w.writer, wr.first ≠ wr.pending) Iff.rfl

instance (w : Wal) (cursor : Nat) : Decidable (w.Above cursor) := inferInstanceAs (Decidable (∀ k ∈ w.dir.keys, k < cursor))

instance (w : Wal) : ∀ a, Decidable (w.Careful a)
  | .append _ _ _ => by dsimp only [Careful]; infer_instance
  | .bumpGeneration | .reopen => inferInstanceAs (Decidable w.Filled)
  | .flush => .isTrue trivial

/-- The log takes records, and no careful append that is refused changes this. -/
def Usable (w : Wal) : Prop := w.Takes ∧ ∀ cursor ts payload w' e, w.Careful (.append cursor ts payload) →
  append cursor ts payload .ok w = (w', .error e) → Spared log pendingCursor Takes (fun w => w.call .reopen) w w'

variable {cfg : WalConfig} {w w' : Wal} {wr : SegmentWriter} {r : Record} {k : Nat} {rs : List Record}

/-! ### The newest segment -/

/-- The newest segment is `k`, with the records `rs` in its file or in the buffer, and every file has its header. -/
structure Tip (w : Wal) (k : Nat) (rs : List Record) : Prop where
  last : ∃ closed seg, w.dir.entries = closed ++ [(k, seg)] ∧ seg.records ++ w.buffer = rs
  header : ∀ p ∈ w.dir.entries, p.2.header = true

theorem header_modify {dir : WalDir} {f : Segment → Segment} (h : ∀ p ∈ dir.entries, p.2.header = true)
    (hf : ∀ s, (f s).header = s.header) (k : Nat) : ∀ p ∈ (dir.modify k f).entries, p.2.header = true := by
  intro p hp
  obtain ⟨q, hq, rfl⟩ := List.mem_map.1 hp
  change (if q.1 = k then f q.2 else q.2).header = true
  split
  · rw [hf, h q hq]
  · exact h q hq

theorem header_append (rs : List Record) (s : Segment) : (s.append rs).header = s.header := by
  unfold Segment.append
  split <;> rfl

theorem Tip.eq_first (h : w.Ready cfg) (ht : w.Tip k rs) (hw : w.writer = some wr) : wr.first = k := by
  obtain ⟨⟨closed, seg, hdir⟩, -⟩ := h.active wr hw
  obtain ⟨⟨closed', seg', hdir', -⟩, -⟩ := ht
  rw [hdir] at hdir'
  have hlast := (List.append_inj' hdir' rfl).2
  exact (Prod.mk.inj (List.cons.inj hlast).1).1

theorem Tip.flushBuffer (h : w.Ready cfg) (ht : w.Tip k rs) : w.flushBuffer.Tip k rs := by
  cases hw : w.writer with
  | none =>
    have : w.flushBuffer = w := by simp only [Wal.flushBuffer, hw]
    rwa [this]
  | some wr =>
    have hfirst := ht.eq_first h hw
    obtain ⟨⟨closed, seg, hdir, hrs⟩, hheader⟩ := ht
    have hseg : seg.torn = false := h.intact (k, seg) (by simp [hdir])
    have hb : w.buffer = wr.buffer := by simp [buffer, hw]
    have hflush : w.flushBuffer = w.moveBuffer wr.buffer.length := by simp only [Wal.flushBuffer, hw]
    rw [hflush, moveBuffer_some hw, hfirst]
    refine ⟨⟨closed, _, SortedMap.entries_modify_last hdir _, ?_⟩, header_modify hheader (header_append _) k⟩
    rw [Segment.append_of_intact hseg, List.take_length, ← hrs, hb]
    simp [buffer]

theorem Tip.create {first : Nat} (hheader : ∀ p ∈ w.dir.entries, p.2.header = true) (hlt : w.Above first)
    (hs : createSegment first .ok w = (w', .ok ())) : w'.Tip first [] := by
  unfold createSegment at hs
  split at hs
  · cases hs
  · cases hs
    have hdir := SortedMap.entries_insert_of_lt (m := w.dir) Segment.empty fun p hp =>
      hlt p.1 (SortedMap.mem_keys.2 ⟨p.2, hp⟩)
    refine ⟨⟨_, _, hdir, rfl⟩, fun p hp => ?_⟩
    rw [hdir] at hp
    rcases List.mem_append.1 hp with hp | hp
    · exact hheader p hp
    · rw [List.mem_singleton.1 hp]
      rfl

theorem Tip.buffered (ht : w.Tip k rs) (hw : w.writer = some wr) : ((w.buffered r).recorded r).Tip k (rs ++ [r]) := by
  obtain ⟨⟨closed, seg, hdir, hrs⟩, hheader⟩ := ht
  have hb : w.buffer = wr.buffer := by simp [buffer, hw]
  simp only [recorded, Wal.buffered, hw]
  refine ⟨⟨closed, seg, hdir, ?_⟩, hheader⟩
  rw [← hrs, hb, List.append_assoc]
  rfl

theorem Tip.written (h : w.Ready cfg) (ht : w.Tip k rs) (hw : w.writer = some wr) (hempty : wr.buffer = []) :
    ((w.written r).recorded r).Tip k (rs ++ [r]) := by
  have hfirst := ht.eq_first h hw
  obtain ⟨⟨closed, seg, hdir, hrs⟩, hheader⟩ := ht
  have hseg : seg.torn = false := h.intact (k, seg) (by simp [hdir])
  have hb : w.buffer = [] := by simp [buffer, hw, hempty]
  rw [hb, List.append_nil] at hrs
  simp only [recorded, Wal.written, hw, hfirst]
  refine ⟨⟨closed, _, SortedMap.entries_modify_last hdir _, ?_⟩, header_modify hheader (header_append _) k⟩
  rw [Segment.append_of_intact hseg, hrs]
  simp [buffer, hempty]

theorem Tip.write (h : w.Ready cfg) (ht : w.Tip k rs) (hw : w.writer = some wr)
    (hs : write r .ok w = (w', .ok ())) : w'.Tip k (rs ++ [r]) := by
  simp only [Wal.write, hw] at hs
  split at hs
  · cases hs
  · split at hs
    · cases hs
      exact ht.buffered hw
    · rename_i hspare
      -- the log before the record is written, its buffer emptied if the record does not fit
      obtain ⟨w₁, hw₁, hready₁, ht₁, wr₁, hsome, hempty⟩ : ∃ w₁,
          (if BUF_CAPACITY - (wr.buffer.map Record.len).sum < r.len then w.flushBuffer else w) = w₁ ∧
          w₁.Ready cfg ∧ w₁.Tip k rs ∧ ∃ wr₁, w₁.writer = some wr₁ ∧ (BUF_CAPACITY ≤ r.len → wr₁.buffer = []) := by
        by_cases hlt : BUF_CAPACITY - (wr.buffer.map Record.len).sum < r.len
        · exact ⟨_, if_pos hlt, h.flushBuffer.ready, ht.flushBuffer h, _, by rw [flushBuffer_writer, hw]; rfl, fun _ => rfl⟩
        · refine ⟨_, if_neg hlt, h, ht, wr, hw, fun hcap => ?_⟩
          -- a record as long as the buffer fits only when nothing is buffered
          cases hb : wr.buffer with
          | nil => rfl
          | cons q l =>
            have hq : RECORD_FRAMING ≤ q.len := Nat.le_add_right ..
            have hpos : 0 < RECORD_FRAMING := by decide
            have hcappos : 0 < BUF_CAPACITY := by decide
            rw [hb, List.map_cons, List.sum_cons] at hlt
            omega
      simp only [writeAllCold, Bool.true_eq_false, and_false, if_false, hw₁, show WalIo.ok.drain = true from rfl,
        show WalIo.ok.direct = true from rfl] at hs
      split at hs
      · cases hs
        exact ht₁.buffered hsome
      · rename_i hlarge
        cases hs
        exact ht₁.written hready₁ hsome (hempty (not_lt.1 hlarge))

theorem Tip.syncEach (h : w.Ready cfg) (ht : w.Tip k rs) (hs : syncEach .ok w = (w', .ok ())) : w'.Tip k rs := by
  unfold Wal.syncEach at hs
  split at hs
  · cases hs
    exact ht.flushBuffer h
  · cases hs
    exact ht

theorem Tip.retire {j : Nat} (h : w.Ready cfg) (ht : w.Tip k rs) (hw : w.writer = some wr)
    (hj : some j ≠ w.writer.map SegmentWriter.first) : (w.retire j).Tip k rs := by
  have hfirst := ht.eq_first h hw
  obtain ⟨⟨closed, seg, hdir, hrs⟩, hheader⟩ := ht
  have hne : k ≠ j := by
    rw [hw, hfirst.symm] at *
    exact fun heq => hj (congrArg some heq.symm)
  refine ⟨⟨closed.filter fun p => p.1 ≠ j, seg, ?_, hrs⟩, fun p hp => hheader p (List.mem_filter.1 hp).1⟩
  change w.dir.entries.filter (fun p => p.1 ≠ j) = _
  rw [hdir, List.filter_append, List.filter_singleton]
  simp [hne]

theorem Tip.enforceRetention {w₀ : Wal} (rounds : Nat) (h : Wrote cfg r w₀ w) (ht : w.Tip k rs) :
    (w.enforceRetention rounds).Tip k rs := by
  induction rounds generalizing w with
  | zero => exact ht
  | succ rounds ih =>
    unfold Wal.enforceRetention
    split
    · exact ht
    · split
      · rename_i j hj
        obtain ⟨wr, hw⟩ := Option.ne_none_iff_exists'.1 h.writer
        have hne : some j ≠ w.writer.map SegmentWriter.first := by simpa using List.find?_some hj
        exact ih ⟨h.adds.same (Ready.retire h.adds.ready hw hj), h.writer⟩ (ht.retire h.adds.ready hw hne)
      · exact ht

/-! ### What an append does -/

theorem append_eq {cursor ts : Nat} {payload : Bytes} (henabled : w.cfg.enabled = true)
    (hlen : ¬MAX_PAYLOAD_LEN < payload.length) (hhealthy : w.poisoned = false) :
    append cursor ts payload .ok w = ((((ensureWriter cursor .ok).andThen (rotateIfFull ⟨cursor, ts, payload⟩ .ok)).andThen
      (write ⟨cursor, ts, payload⟩ .ok)).andThen (syncEach .ok)).andThen
        (fun w => (w.enforceRetention w.segments.keys.length, .ok ())) w := by
  simp only [append, henabled, hhealthy, if_neg hlen, Bool.true_eq_false, Bool.false_eq_true, if_false]

/-- A log with a writer and room writes the record. -/
theorem finish_ends {f : Attempt WalError Wal} {w₀ : Wal} (hf : f w₀ = (w, .ok ())) (h : w.Ready cfg)
    (hw : w.writer ≠ none) (hr : r.cursor = w.pendingCursor) (ht : w.Tip k rs) :
    ∃ w', (((f.andThen (write r .ok)).andThen (syncEach .ok)).andThen
      fun w => (w.enforceRetention w.segments.keys.length, .ok ())) w₀ = (w', .ok ()) ∧ Wrote cfg r w w' ∧
        w'.Tip k (rs ++ [r]) := by
  obtain ⟨wr, hwr⟩ := Option.ne_none_iff_exists'.1 hw
  have hwrite : Ends (write r .ok) w (Wrote cfg r w) (Kept cfg .ok w) := write_ends h hw hr (.inl rfl)
  rcases hwrite.cases with ⟨w₁, hw₁, hwrote₁⟩ | ⟨w₁, e, -, hkept⟩
  · have hsync : Ends (syncEach .ok) w₁ (Wrote cfg r w) (Kept cfg .ok w) := syncEach_ends hwrote₁ fun _ => ⟨rfl, rfl⟩
    rcases hsync.cases with ⟨w₂, hw₂, hwrote₂⟩ | ⟨w₂, e, -, hkept⟩
    · have ht₂ := (ht.write h hwr hw₁).syncEach hwrote₁.adds.ready hw₂
      refine ⟨_, ?_, hwrote₂.enforceRetention, ht₂.enforceRetention w₂.segments.keys.length hwrote₂⟩
      have hwritten : (f.andThen (write r .ok)) w₀ = (w₁, .ok ()) := andThen_eq_ok.2 ⟨w, hf, hw₁⟩
      exact andThen_eq_ok.2 ⟨w₂, andThen_eq_ok.2 ⟨w₁, hwritten, hw₂⟩, rfl⟩
    · exact absurd rfl hkept.fault
  · exact absurd rfl hkept.fault

theorem append_of_error {cursor ts : Nat} {payload : Bytes} {e : WalError} (henabled : w.cfg.enabled = true)
    (hlen : ¬MAX_PAYLOAD_LEN < payload.length) (hhealthy : w.poisoned = false)
    (hs : (ensureWriter cursor .ok).andThen (rotateIfFull ⟨cursor, ts, payload⟩ .ok) w = (w', .error e)) :
    append cursor ts payload .ok w = (w', .error e) := by
  rw [append_eq henabled hlen hhealthy]
  exact andThen_of_error (andThen_of_error (andThen_of_error hs))

/-- The log whose writer has been closed -/
def shut (wr : SegmentWriter) (w : Wal) : Wal :=
  { w.flushBuffer with
    writer := none
    segmentSizes := w.segmentSizes.insert wr.first wr.bytesWritten
    retainedBytes := w.retainedBytes + wr.bytesWritten }

theorem closeWriter_eq (hw : w.writer = some wr) : closeWriter .ok w = (w.shut wr, .ok ()) := by
  simp only [closeWriter, hw, show WalIo.ok.closeFlush = true from rfl, show WalIo.ok.closeSync = true from rfl,
    Bool.true_eq_false, if_false]
  rfl

@[simp] theorem flushBuffer_keys : w.flushBuffer.dir.keys = w.dir.keys := by
  unfold Wal.flushBuffer Wal.moveBuffer
  split
  · split <;> simp
  · rfl

/-- The next segment may have any name past those that there are. -/
theorem Ready.shut {c : Nat} (h : w.Ready cfg) (hc : w.Above c) : Ready cfg { w.shut wr with pendingCursor := c } := by
  have hf := h.flushBuffer.ready
  refine ⟨hf.cfg_eq, hf.enabled, hf.healthy, hf.segments, hf.intact, fun _ p hp => ?_, nofun⟩
  have hmem : p.1 ∈ w.flushBuffer.dir.keys := SortedMap.mem_keys.2 ⟨p.2, hp⟩
  exact hc p.1 (flushBuffer_keys ▸ hmem)

theorem log_flushBuffer (h : w.Ready cfg) : w.flushBuffer.log = w.log := by
  have hsame : w.flushBuffer.history = w.history := h.flushBuffer.entries
  have hretired : w.flushBuffer.retired = w.retired := by
    unfold Wal.flushBuffer Wal.moveBuffer
    split
    · split <;> rfl
    · rfl
  rw [history, history, hretired] at hsame
  exact List.append_cancel_left hsame

theorem flushBuffer_flushed : w.flushBuffer.buffer = [] := by
  rw [buffer, flushBuffer_writer]
  cases w.writer <;> rfl

theorem log_shut (h : w.Ready cfg) : (w.shut wr).log = w.log := by
  rw [← log_flushBuffer h, log_of_flushed flushBuffer_flushed]
  exact List.append_nil _

theorem Tip.shut (h : w.Ready cfg) (ht : w.Tip k rs) : (w.shut wr).Tip k rs := by
  obtain ⟨⟨closed, seg, hdir, hrs⟩, hheader⟩ := ht.flushBuffer h
  refine ⟨⟨closed, seg, hdir, ?_⟩, hheader⟩
  rw [← hrs, flushBuffer_flushed]
  rfl

/-! ### The state between two calls -/

/-- The log takes records, and its files tell where it goes on. -/
structure Sound (cfg : WalConfig) (w : Wal) : Prop where
  ready : w.Ready cfg
  tip : w.dir.entries = [] ∧ w.pendingCursor = 0 ∨ ∃ k rs, w.Tip k rs ∧ endOf k rs = w.pendingCursor

theorem Sound.header (h : w.Sound cfg) : ∀ p ∈ w.dir.entries, p.2.header = true := by
  rcases h.tip with ⟨hnil, -⟩ | ⟨k, rs, ht, -⟩
  · rw [hnil]
    exact nofun
  · exact ht.header

theorem Ready.le_first (h : w.Ready cfg) (hw : w.writer = some wr) {j : Nat} (hj : j ∈ w.dir.keys) : j ≤ wr.first := by
  obtain ⟨seg, hseg⟩ := SortedMap.mem_keys.1 hj
  obtain ⟨⟨closed, seg', hdir⟩, -⟩ := h.active wr hw
  rw [hdir] at hseg
  rcases List.mem_append.1 hseg with hseg | hseg
  · exact (SortedMap.lt_of_entries_append hdir _ hseg).le
  · cases List.mem_singleton.1 hseg
    exact le_rfl

/-- If the active segment holds a record, no segment has the name of the next one. -/
theorem Ready.above (h : w.Ready cfg) (hfilled : w.Filled) : w.Above w.pendingCursor := by
  intro j hj
  cases hw : w.writer with
  | none =>
    obtain ⟨seg, hseg⟩ := SortedMap.mem_keys.1 hj
    exact h.closed hw _ hseg
  | some wr =>
    have hle := h.le_first hw hj
    have hne := hfilled wr hw
    obtain ⟨-, hpending, -, hfirst⟩ := h.active wr hw
    omega

theorem filled_of_none (hw : w.writer = none) : w.Filled := by
  rw [Filled, hw]
  exact nofun

/-- A segment with a name past all others is created. -/
theorem create_ends (h : w.Ready cfg) (hw : w.writer = none) (hheader : ∀ p ∈ w.dir.entries, p.2.header = true) :
    ∃ w', createSegment w.pendingCursor .ok w = (w', .ok ()) ∧ Prepared cfg w w' ∧ w'.Tip w.pendingCursor [] := by
  have hcreate : Ends (createSegment w.pendingCursor .ok) w (Prepared cfg w) (Kept cfg .ok w) := createSegment_ends h hw rfl
  rcases hcreate.cases with ⟨w', hw', hprep⟩ | ⟨w', e, -, hkept⟩
  · exact ⟨w', hw', hprep, .create hheader (h.above (filled_of_none hw)) hw'⟩
  · exact absurd rfl hkept.fault

/-- A record starts a segment: the log that has made room by creating the segment takes it. -/
theorem start_ends {f : Attempt WalError Wal} (w₀ : Wal) (h : w.Ready cfg) (hw : w.writer = none)
    (hheader : ∀ p ∈ w.dir.entries, p.2.header = true) (hr : r.cursor = w.pendingCursor)
    (hf : ∀ w', createSegment w.pendingCursor .ok w = (w', .ok ()) → w'.cfg = cfg → w'.activeBytes = SEGMENT_HEADER_LEN →
      f w₀ = (w', .ok ())) :
    ∃ w', (((f.andThen (write r .ok)).andThen (syncEach .ok)).andThen
      fun w => (w.enforceRetention w.segments.keys.length, .ok ())) w₀ = (w', .ok ()) ∧ w'.Sound cfg := by
  obtain ⟨w₁, hw₁, hprep, ht⟩ := create_ends h hw hheader
  have hnext : w₁.pendingCursor = w.pendingCursor := hprep.same.next
  have hbytes : w₁.activeBytes = SEGMENT_HEADER_LEN := by
    obtain ⟨wr, hwr⟩ := Option.ne_none_iff_exists'.1 hprep.writer
    obtain ⟨-, -, hbytes, hfirst⟩ := hprep.same.ready.active wr hwr
    have heq := ht.eq_first hprep.same.ready hwr
    rcases hfirst with hlt | ⟨-, hempty⟩
    · omega
    · rw [hbytes, hempty]
  have hroom := hf w₁ hw₁ hprep.same.ready.cfg_eq hbytes
  obtain ⟨w', hw', hwrote, ht'⟩ :=
    finish_ends hroom hprep.same.ready hprep.writer (hr.trans hnext.symm) ht
  refine ⟨w', hw', hwrote.adds.ready, .inr ⟨_, _, ht', ?_⟩⟩
  have hpending : w'.pendingCursor = w₁.pendingCursor + 1 := hwrote.adds.next
  rw [endOf_concat, hpending, hnext, hr]

/-- What an append makes of a sound log that it does not take by surprise -/
structure Refused (cfg : WalConfig) (w w' : Wal) : Prop where
  sound : w'.Sound cfg
  filled : w'.Filled
  shows : w'.log = w.log
  ends : w'.pendingCursor = w.pendingCursor

theorem Refused.refl (h : w.Sound cfg) (hfilled : w.Filled) : Refused cfg w w := ⟨h, hfilled, rfl, rfl⟩

theorem Sound.shut (h : w.Sound cfg) (hw : w.writer = some wr) (hfilled : w.Filled) : Refused cfg w (w.shut wr) := by
  have hnext : w.flushBuffer.pendingCursor = w.pendingCursor := h.ready.flushBuffer.next
  have hready : Ready cfg { w.shut wr with pendingCursor := w.pendingCursor } := h.ready.shut (h.ready.above hfilled)
  have heq : ({ w.shut wr with pendingCursor := w.pendingCursor } : Wal) = w.shut wr := by
    simp only [Wal.shut, hnext]
  rw [heq] at hready
  refine ⟨⟨hready, ?_⟩, filled_of_none rfl, log_shut h.ready, hnext⟩
  rcases h.tip with ⟨hnil, -⟩ | ⟨k, rs, ht, hend⟩
  · obtain ⟨⟨closed, seg, hdir⟩, -⟩ := h.ready.active wr hw
    simp [hnil] at hdir
  · exact .inr ⟨k, rs, ht.shut h.ready, hend.trans hnext.symm⟩

theorem createSegment_of_mem {c : Nat} (hmem : c ∈ w.dir.keys) : createSegment c .ok w = (w, .error .io) := by
  simp only [createSegment, hmem, or_true, if_true]

theorem ensureWriter_none {c : Nat} (hw : w.writer = none) : ensureWriter c .ok w = createSegment c .ok w := by
  simp only [ensureWriter, hw]

theorem ensureWriter_some {c : Nat} (hw : w.writer = some wr) : ensureWriter c .ok w = (w, .ok ()) := by
  simp only [ensureWriter, hw]

theorem room_of_full (hw : w.writer = some wr) (hfull : w.cfg.segmentSizeMax < w.activeBytes + r.len) :
    (ensureWriter r.cursor .ok).andThen (rotateIfFull r .ok) w = createSegment r.cursor .ok (w.shut wr) := by
  rw [andThen_of_ok (ensureWriter_some hw)]
  simp only [rotateIfFull, if_pos hfull, rotateLocked, andThen_of_ok (closeWriter_eq hw)]

theorem room_of_room (hw : w.writer = some wr) (hfull : ¬w.cfg.segmentSizeMax < w.activeBytes + r.len) :
    (ensureWriter r.cursor .ok).andThen (rotateIfFull r .ok) w = (w, .ok ()) := by
  rw [andThen_of_ok (ensureWriter_some hw)]
  simp only [rotateIfFull, if_neg hfull]

theorem shut_startsAt (c : Nat) (wr : SegmentWriter) (w : Wal) :
    ({ w with pendingCursor := c } : Wal).shut wr = { w.shut wr with pendingCursor := c } := by
  simp only [Wal.shut, flushBuffer_startsAt]

theorem Sound.header_shut (h : w.Sound cfg) (wr : SegmentWriter) : ∀ p ∈ (w.shut wr).dir.entries, p.2.header = true := by
  rcases h.tip with ⟨hnil, -⟩ | ⟨k, rs, ht, -⟩
  · have hkeys : w.flushBuffer.dir.keys = [] := by
      rw [flushBuffer_keys, SortedMap.keys_eq hnil]
      rfl
    intro p hp
    have hmem : p.1 ∈ w.flushBuffer.dir.keys := SortedMap.mem_keys.2 ⟨p.2, hp⟩
    rw [hkeys] at hmem
    cases hmem
  · exact (ht.flushBuffer h.ready).header

/-- A careful append is taken, or is refused and changes nothing that matters. -/
theorem Sound.append {cursor ts : Nat} {payload : Bytes} (h : w.Sound cfg) (hc : w.Careful (.append cursor ts payload)) :
    (∃ w', Wal.append cursor ts payload .ok w = (w', .ok ()) ∧ w'.Sound cfg) ∨
      ∃ w' e, Wal.append cursor ts payload .ok w = (w', .error e) ∧ Refused cfg w w' := by
  have henabled : w.cfg.enabled = true := h.ready.cfg_eq ▸ h.ready.enabled
  have hc := hc henabled
  by_cases hlen : MAX_PAYLOAD_LEN < payload.length
  · rw [if_pos hlen] at hc
    refine .inr ⟨w, .payloadTooLarge payload.length, ?_, .refl h hc⟩
    simp only [Wal.append, henabled, if_pos hlen, Bool.true_eq_false, if_false]
  rw [if_neg hlen] at hc
  have hrefused : ∀ {w' e}, (ensureWriter cursor .ok).andThen (rotateIfFull ⟨cursor, ts, payload⟩ .ok) w = (w', .error e) →
      Refused cfg w w' → ∃ w' e, Wal.append cursor ts payload .ok w = (w', .error e) ∧ Refused cfg w w' :=
    fun {w' e} hs hr => ⟨w', e, append_of_error henabled hlen h.ready.healthy hs, hr⟩
  -- the cursor of the caller in place of the pending one
  have htaken : ∀ {w'}, ((((ensureWriter cursor .ok).andThen (rotateIfFull ⟨cursor, ts, payload⟩ .ok)).andThen
      (write ⟨cursor, ts, payload⟩ .ok)).andThen (syncEach .ok)).andThen
        (fun w => (w.enforceRetention w.segments.keys.length, .ok ())) { w with pendingCursor := cursor } = (w', .ok ()) →
      Wal.append cursor ts payload .ok w = (w', .ok ()) := fun {w'} hs => by
    rw [← append_eq (w := { w with pendingCursor := cursor }) henabled hlen h.ready.healthy] at hs
    exact append_startsAt hs henabled w.pendingCursor
  cases hw : w.writer with
  | none =>
    simp only [hw, Option.isNone_none, if_true] at hc
    rcases hc with hmem | ⟨habove, hfits⟩
    · have hensure := (ensureWriter_none hw).trans (createSegment_of_mem hmem)
      exact .inr (hrefused (andThen_of_error hensure) (.refl h (filled_of_none hw)))
    · left
      have hready : Ready cfg { w with pendingCursor := cursor } :=
        ⟨h.ready.cfg_eq, h.ready.enabled, h.ready.healthy, h.ready.segments, h.ready.intact,
          fun _ p hp => habove p.1 (SortedMap.mem_keys.2 ⟨p.2, hp⟩), fun wr hwr => by simp [hw] at hwr⟩
      obtain ⟨w', hs, hsound⟩ := start_ends (r := ⟨cursor, ts, payload⟩)
        (f := (ensureWriter cursor .ok).andThen (rotateIfFull ⟨cursor, ts, payload⟩ .ok))
        { w with pendingCursor := cursor } hready hw h.header rfl
        fun w₁ hcreate hcfg hbytes => by
          have hensure : ensureWriter cursor .ok { w with pendingCursor := cursor } = (w₁, .ok ()) :=
            (ensureWriter_none (w := { w with pendingCursor := cursor }) hw).trans hcreate
          have hroom : ¬w₁.cfg.segmentSizeMax < w₁.activeBytes + (RECORD_FRAMING + payload.length) := by
            rw [hbytes, hcfg, ← h.ready.cfg_eq]
            omega
          rw [andThen_of_ok hensure]
          exact if_neg hroom
      exact ⟨w', htaken hs, hsound⟩
  | some wr =>
    obtain ⟨hlast, hpending, hbytes, hfirst⟩ := h.ready.active wr hw
    simp only [hw, Option.isNone_some, Bool.false_eq_true, if_false, Option.map_some, Option.some.injEq] at hc
    by_cases hfull : w.cfg.segmentSizeMax < w.activeBytes + Record.len ⟨cursor, ts, payload⟩
    · rw [Record.len] at hfull
      rw [if_pos hfull] at hc
      rcases hc with habove | ⟨hmem, hfilled⟩
      · left
        obtain ⟨w', hs, hsound⟩ := start_ends (r := ⟨cursor, ts, payload⟩)
          (f := (ensureWriter cursor .ok).andThen (rotateIfFull ⟨cursor, ts, payload⟩ .ok))
          { w with pendingCursor := cursor } (h.ready.shut habove) rfl (h.header_shut wr) rfl
          fun w₁ hcreate _ _ => by
            rw [room_of_full (r := ⟨cursor, ts, payload⟩) (w := { w with pendingCursor := cursor }) hw hfull, shut_startsAt]
            exact hcreate
        exact ⟨w', htaken hs, hsound⟩
      · have hmem' : cursor ∈ (w.shut wr).dir.keys := flushBuffer_keys (w := w) ▸ hmem
        have hroom := (room_of_full (r := ⟨cursor, ts, payload⟩) hw hfull).trans (createSegment_of_mem hmem')
        exact .inr (hrefused hroom (h.shut hw hfilled))
    · have hroom := room_of_room (r := ⟨cursor, ts, payload⟩) hw hfull
      rw [Record.len] at hfull
      rw [if_neg hfull] at hc
      by_cases hcursor : cursor = wr.pending
      · left
        obtain ⟨k, rs, ht, -⟩ := h.tip.resolve_left fun hnil => by
          obtain ⟨closed, seg, hdir⟩ := hlast
          simp [hnil.1] at hdir
        obtain ⟨w', hs, hwrote, ht'⟩ := finish_ends (r := ⟨cursor, ts, payload⟩) hroom h.ready
          (by simp [hw]) (hcursor.trans hpending) ht
        rw [← append_eq henabled hlen h.ready.healthy] at hs
        refine ⟨w', hs, hwrote.adds.ready, .inr ⟨_, _, ht', ?_⟩⟩
        have hnext : w'.pendingCursor = w.pendingCursor + 1 := hwrote.adds.next
        rw [endOf_concat, hnext, hcursor, hpending]
      · right
        refine ⟨w, .cursorRegressed cursor wr.pending, ?_, .refl h (hc.resolve_left fun heq => hcursor heq.symm)⟩
        have hwrite : write ⟨cursor, ts, payload⟩ .ok w = (w, .error (.cursorRegressed cursor wr.pending)) := by
          simp only [write, hw, ne_eq, hcursor, not_false_eq_true, if_true]
        rw [append_eq henabled hlen h.ready.healthy]
        exact andThen_of_error (andThen_of_error ((andThen_of_ok hroom).trans hwrite))

/-! ### The other calls -/

theorem Sound.bumpGeneration (h : w.Sound cfg) (hfilled : w.Filled) : (Wal.bumpGeneration .ok w).1.Sound cfg := by
  unfold Wal.bumpGeneration
  split
  · rename_i wr hw
    obtain ⟨-, hpending, -⟩ := h.ready.active wr hw
    have hshut := h.shut hw hfilled
    obtain ⟨w', hw', hprep, ht⟩ := create_ends hshut.sound.ready rfl hshut.sound.header
    have hrotate : rotateLocked wr.pending .ok w = (w', .ok ()) := by
      rw [rotateLocked, andThen_of_ok (closeWriter_eq hw), hpending, ← hshut.ends]
      exact hw'
    have hnext : w'.pendingCursor = (w.shut wr).pendingCursor := hprep.same.next
    rw [hrotate]
    exact ⟨hprep.same.ready, .inr ⟨_, _, ht, hnext.symm⟩⟩
  · exact h

theorem Sound.flushBuffer (h : w.Sound cfg) : w.flushBuffer.Sound cfg := by
  have hnext : w.flushBuffer.pendingCursor = w.pendingCursor := h.ready.flushBuffer.next
  refine ⟨h.ready.flushBuffer.ready, ?_⟩
  rw [hnext]
  refine h.tip.imp (fun ⟨hnil, hzero⟩ => ⟨?_, hzero⟩) fun ⟨k, rs, ht, hend⟩ => ⟨k, rs, ht.flushBuffer h.ready, hend⟩
  have hkeys := flushBuffer_keys (w := w)
  rw [SortedMap.keys_eq hnil] at hkeys
  exact List.map_eq_nil_iff.1 hkeys

/-- A log whose active segment holds a record opens again as it was. -/
theorem Sound.reopen (h : w.Sound cfg) (hfilled : w.Filled) :
    ∃ w', Wal.open w.cfg w.drop = .ok w' ∧ w'.Sound cfg ∧ w'.log = w.log ∧ w'.pendingCursor = w.pendingCursor := by
  have hflushed := h.flushBuffer
  have hdrop : w.drop = w.flushBuffer.dir := by rw [Wal.drop, h.ready.cfg_eq, if_pos h.ready.enabled]
  have hlog : w.log = w.flushBuffer.dir.records := by rw [← log_flushBuffer h.ready, log_of_flushed flushBuffer_flushed]
  have hnext : w.flushBuffer.pendingCursor = w.pendingCursor := h.ready.flushBuffer.next
  have hrecover : w.flushBuffer.dir.map (fun _ => Segment.recover) = w.flushBuffer.dir :=
    SortedMap.map_eq_self fun p hp => by rw [Segment.recover, ← hflushed.ready.intact p hp]
  have hany : (w.flushBuffer.dir.entries.any fun p => !p.2.header) = false := by
    rw [List.any_eq_false]
    exact fun p hp => by simp [hflushed.header p hp]
  suffices hopen : ∃ w', Wal.open w.cfg w.drop = .ok w' ∧ w'.Sound cfg ∧ w'.pendingCursor = w.pendingCursor by
    obtain ⟨w', hw', hsound, hpending⟩ := hopen
    have hfound := found_open hrecover (hdrop ▸ hw')
    refine ⟨w', hw', hsound, ?_, hpending⟩
    rw [log_of_flushed hfound.flushed, hfound.records, hlog]
  rw [hdrop, h.ready.cfg_eq]
  simp only [Wal.open, hany, hrecover, Bool.false_eq_true, if_false]
  rcases hflushed.tip with ⟨hnil, hzero⟩ | ⟨k, rs, ht, hend⟩
  · have hlast : w.flushBuffer.dir.last? = none := List.getLast?_eq_none_iff.2 hnil
    rw [hlast]
    exact ⟨_, rfl, ⟨ofDir_ready h.ready.enabled hflushed.ready.intact (by simp [hnil]), .inl ⟨hnil, rfl⟩⟩,
      hzero.symm.trans hnext⟩
  · obtain ⟨closed, seg, hdir, hrs⟩ := ht.last
    rw [flushBuffer_flushed, List.append_nil] at hrs
    have hlast : w.flushBuffer.dir.last? = some (k, seg) := List.getLast?_eq_some_iff.2 ⟨closed, hdir⟩
    have hcursor : nextCursor k seg = w.pendingCursor := by rw [← hnext, ← hend, ← hrs]; rfl
    have habove : ∀ j ∈ w.flushBuffer.dir.keys, j < w.pendingCursor := by
      rw [flushBuffer_keys]
      exact h.ready.above hfilled
    have hk : k < w.pendingCursor := habove k (SortedMap.mem_keys.2 ⟨seg, by simp [hdir]⟩)
    have hready : Ready cfg (ofDir cfg w.flushBuffer.dir w.pendingCursor) := ofDir_ready h.ready.enabled hflushed.ready.intact
      fun p hp => habove p.1 (SortedMap.mem_keys.2 ⟨p.2, hp⟩)
    obtain ⟨w', hw', hprep, ht'⟩ := create_ends hready rfl hflushed.header
    have hpending : w'.pendingCursor = w.pendingCursor := hprep.same.next
    have hw'' : createSegment w.pendingCursor .ok (ofDir cfg w.flushBuffer.dir w.pendingCursor) = (w', .ok ()) := hw'
    simp only [hlast, hcursor, if_neg hk.ne', hw'']
    exact ⟨w', rfl, ⟨hprep.same.ready, .inr ⟨_, _, ht', hpending.symm⟩⟩, hpending⟩

theorem Sound.takes (h : w.Sound cfg) : w.Takes := by
  intro ts payload hfits
  rw [h.ready.cfg_eq] at hfits
  have happend : Ends (Wal.append w.pendingCursor ts payload .ok) w _ _ := append_ends h.ready hfits le_rfl (.ok cfg)
  rcases happend.cases with ⟨w', hw', -⟩ | ⟨w', e, -, hkept⟩
  · exact ⟨w', hw'⟩
  · exact absurd rfl hkept.fault

theorem flusherTick_ok (w : Wal) : w.flusherTick .ok = w.flushBuffer := by
  cases hw : w.writer with
  | none => simp only [Wal.flusherTick, Wal.flushBuffer, hw]
  | some wr =>
    simp only [Wal.flusherTick, Wal.flushBuffer, hw]
    rfl

theorem call_sound {a : LogCall} (h : w.Sound cfg) (hc : w.Careful a) (hs : w.call a = some w') : w'.Sound cfg := by
  cases a with
  | append cursor ts payload =>
    obtain ⟨w₁, hw₁, hsound⟩ | ⟨w₁, e, hw₁, hrefused⟩ := h.append hc
    · rw [call, hw₁, Option.some.injEq] at hs
      exact hs ▸ hsound
    · rw [call, hw₁, Option.some.injEq] at hs
      exact hs ▸ hrefused.sound
  | bumpGeneration =>
    cases hs
    exact h.bumpGeneration hc
  | flush =>
    rw [call, flusherTick_ok, Option.some.injEq] at hs
    exact hs ▸ h.flushBuffer
  | reopen =>
    obtain ⟨w₁, hw₁, hsound, -⟩ := h.reopen hc
    rw [call, hw₁, Except.toOption, Option.some.injEq] at hs
    exact hs ▸ hsound

theorem sound_create (henabled : cfg.enabled = true) : (create cfg).Sound cfg where
  ready := ofDir_ready henabled nofun nofun
  tip := .inl ⟨rfl, rfl⟩

/-- A log that is not enabled stays as it is. -/
theorem call_disabled {a : LogCall} (henabled : cfg.enabled = false) (hs : (create cfg).call a = some w') :
    w' = create cfg := by
  cases a with
  | append cursor ts payload =>
    have hnoop : append cursor ts payload .ok (create cfg) = (create cfg, .ok ()) := if_pos henabled
    rw [call, hnoop, Option.some.injEq] at hs
    exact hs.symm
  | bumpGeneration | flush =>
    cases hs
    rfl
  | reopen =>
    have hdrop : (create cfg).drop = .empty := by
      rw [Wal.drop, if_neg (by rw [show (create cfg).cfg = cfg from rfl, henabled]; decide)]
      rfl
    rw [call, hdrop] at hs
    cases hs
    rfl

theorem usable_create (henabled : cfg.enabled = false) : (create cfg).Usable := by
  have hnoop : ∀ cursor ts payload, append cursor ts payload .ok (create cfg) = (create cfg, .ok ()) :=
    fun cursor ts payload => if_pos henabled
  refine ⟨fun ts payload _ => ⟨create cfg, hnoop ..⟩, fun cursor ts payload w' e _ hs => ?_⟩
  rw [hnoop] at hs
  cases hs

theorem Refused.spared (h : Refused cfg w w') : Spared log pendingCursor Takes (fun w => w.call .reopen) w w' := by
  obtain ⟨w₂, hw₂, hsound₂, hlog, hpending⟩ := h.sound.reopen h.filled
  refine ⟨h.shows, h.ends, h.sound.takes, w₂, ?_, hlog.trans h.shows, hpending.trans h.ends, hsound₂.takes⟩
  change (Wal.open w'.cfg w'.drop).toOption = some w₂
  rw [hw₂]
  rfl

/-- After calls that are careful the log takes records, and a careful append that is refused changes nothing. -/
theorem run_usable {acts : List LogCall} (hr : run call (create cfg) acts = some w)
    (hm : Meets call Careful (create cfg) acts) : w.Usable := by
  cases henabled : cfg.enabled with
  | false =>
    have hw : w = create cfg :=
      run_invariant_when (fun w => w = create cfg) Careful (fun w a w' hw _ hs => call_disabled henabled (hw ▸ hs)) hm rfl hr
    rw [hw]
    exact usable_create henabled
  | true =>
    have hsound : w.Sound cfg :=
      run_invariant_when (Sound cfg) Careful (fun _ _ _ => call_sound) hm (sound_create henabled) hr
    refine ⟨hsound.takes, fun cursor ts payload w' e hc hs => ?_⟩
    obtain ⟨w₁, hw₁, -⟩ | ⟨w₁, e₁, hw₁, hrefused⟩ := hsound.append hc
    · rw [hw₁] at hs
      cases hs
    · rw [hw₁] at hs
      cases hs
      exact hrefused.spared

end Wal

end Mmbus
