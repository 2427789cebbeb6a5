import Mmbus.MappedSessions
import Mmbus.Refusals

/-!
# Appends that are refused: the memory-mapped log

The counterpart of the v0.1 calls.  Here a record that does not fit an empty segment is found out only after the rotation,
and any cursor is taken while there is room, so `Careful` asks for more.  `append_spares` is about both logs.
-/

namespace Mmbus.V2.Wal

open Attempt Transition

/-- The log after the first open of its directory -/
def create (cfg : WalConfig) : Wal := ofDir cfg .empty 0 0

/-- `bump_generation` -/
def bumpGeneration (io : WalIo) : Attempt WalError Wal := fun w =>
  match w.writer with
  | some _ => rotateLocked w.pendingCursor io w
  | none => (w, .ok ())

def call (w : Wal) : LogCall → Option Wal
  | .append cursor ts payload => some (append cursor ts payload .ok w).1
  | .bumpGeneration => some (bumpGeneration .ok w).1
  | .flush => some (w.flusherTick .ok)
  | .reopen => (Wal.open w.cfg w.dir w.active).toOption

/-- A payload that fits in a segment is taken at the pending cursor. -/
def Takes (w : Wal) : Prop :=
  ∀ ts payload, Fits w.cfg payload.length → ∃ w', append w.pendingCursor ts payload .ok w = (w', .ok ())

/-- The active segment holds a record. -/
def Filled (w : Wal) : Prop := ∀ first, w.writer = some first → first ≠ w.pendingCursor

/-- The cursor is past the names of all segments. -/
def Above (w : Wal) (cursor : Nat) : Prop := ∀ k ∈ w.dir.keys, k < cursor

/-- As for the v0.1 log; besides, no record comes before the name of its segment. -/
def Careful (w : Wal) : LogCall → Prop
  | .append cursor _ payload => w.cfg.enabled = true →
    if MAX_PAYLOAD_LEN < payload.length then w.Filled
    else if w.writer.isNone then
      w.cfg.segmentSizeMax < SEGMENT_HEADER_LEN + RECORD_FRAMING ∨ cursor ∈ w.dir.keys ∨
        w.Above cursor ∧ SEGMENT_HEADER_LEN + alignRecordLen (RECORD_FRAMING + payload.length) ≤ w.cfg.segmentSizeMax
    else if w.cfg.segmentSizeMax < w.activeBytes + alignRecordLen (RECORD_FRAMING + payload.length) then
      w.Above cursor ∧ SEGMENT_HEADER_LEN + alignRecordLen (RECORD_FRAMING + payload.length) ≤ w.cfg.segmentSizeMax ∨
        cursor ∈ w.dir.keys ∧ w.Filled
    else ∀ first, w.writer = some first → first ≤ cursor
  | .bumpGeneration | .reopen => w.Filled
  | .flush => True

instance (w : Wal) : Decidable w.Filled := decidable_of_iff (∀ first ∈ w.writer, first ≠ w.pendingCursor) Iff.rfl

instance (w : Wal) (cursor : Nat) : Decidable (w.Above cursor) := inferInstanceAs (Decidable (∀ k ∈ w.dir.keys, k < cursor))

instance (w : Wal) (cursor : Nat) : Decidable (∀ first, w.writer = some first → first ≤ cursor) :=
  decidable_of_iff (∀ first ∈ w.writer, first ≤ cursor) Iff.rfl

instance (w : Wal) : ∀ a, Decidable (w.Careful a)
  | .append _ _ _ => by dsimp only [Careful]; infer_instance
  | .bumpGeneration | .reopen => inferInstanceAs (Decidable w.Filled)
  | .flush => .isTrue trivial

/-- The log takes records, and no careful append that is refused changes this. -/
def Usable (w : Wal) : Prop := w.Takes ∧ ∀ cursor ts payload w' e, w.Careful (.append cursor ts payload) →
  append cursor ts payload .ok w = (w', .error e) → Spared log pendingCursor Takes (fun w => w.call .reopen) w w'

variable {cfg : WalConfig} {w w' : Wal} {r : Record} {first k c : Nat} {rs : List Record}

/-! ### The newest segment -/

/-- The newest segment is `k`, with the records `rs`, and every file has its header. -/
structure Tip (w : Wal) (k : Nat) (rs : List Record) : Prop where
  last : ∃ closed seg, w.dir.entries = closed ++ [(k, seg)] ∧ seg.records = rs
  header : ∀ p ∈ w.dir.entries, p.2.header = true

theorem Tip.eq_first (h : w.Active first) (ht : w.Tip k rs) : first = k := by
  obtain ⟨closed, seg, hdir, -⟩ := h
  obtain ⟨⟨closed', seg', hdir', -⟩, -⟩ := ht
  rw [hdir] at hdir'
  have hlast := (List.append_inj' hdir' rfl).2
  exact (Prod.mk.inj (List.cons.inj hlast).1).1

theorem Tip.modify {f : Segment → Segment} {rs' : List Record} (ht : w.Tip k rs) (hheader : ∀ s, (f s).header = s.header)
    (hrecords : ∀ s, s.records = rs → (f s).records = rs') : Tip { w with dir := w.dir.modify k f } k rs' := by
  obtain ⟨⟨closed, seg, hdir, hrs⟩, hall⟩ := ht
  refine ⟨⟨closed, f seg, SortedMap.entries_modify_last hdir f, hrecords seg hrs⟩, fun p hp => ?_⟩
  obtain ⟨q, hq, rfl⟩ := List.mem_map.1 hp
  change (if q.1 = k then f q.2 else q.2).header = true
  split
  · rw [hheader, hall q hq]
  · exact hall q hq

theorem header_writeSkipToEnd (s : Segment) : s.writeSkipToEnd.header = s.header := by
  unfold Segment.writeSkipToEnd
  split <;> rfl

theorem Tip.closeWriter (ht : w.Tip k rs) : (w.closeWriter k).Tip k rs := by
  have hmodify := ht.modify header_writeSkipToEnd fun s hs => (Segment.records_writeSkipToEnd s).trans hs
  exact ⟨hmodify.last, hmodify.header⟩

theorem Tip.retire {j : Nat} (ht : w.Tip k rs) (hj : k ≠ j) : (w.retire j).Tip k rs := by
  obtain ⟨⟨closed, seg, hdir, hrs⟩, hheader⟩ := ht
  refine ⟨⟨closed.filter fun p => p.1 ≠ j, seg, ?_, hrs⟩, fun p hp => hheader p (List.mem_filter.1 hp).1⟩
  change w.dir.entries.filter (fun p => p.1 ≠ j) = _
  rw [hdir, List.filter_append, List.filter_singleton]
  simp [hj]

/-! ### A new segment -/

/-- The log has gone on in the new segment `c`. -/
structure Started (cfg : WalConfig) (c : Nat) (w w' : Wal) : Prop where
  ready : Ready cfg { w' with pendingCursor := c }
  writer : w'.writer = some c
  bytes : w'.activeBytes = SEGMENT_HEADER_LEN
  tip : w'.Tip c []
  pending : w'.pendingCursor = w.pendingCursor

theorem started_activate (h : Ready cfg { w with pendingCursor := c }) (hw : w.writer = none)
    (hsize : SEGMENT_HEADER_LEN + RECORD_FRAMING ≤ cfg.segmentSizeMax) (hheader : ∀ p ∈ w.dir.entries, p.2.header = true)
    (sizes : SortedMap Nat Nat) (retained active : Nat) : Started cfg c w (activate c { w.addFile c with
      segmentSizes := sizes, retainedBytes := retained, active := active }) := by
  have hprep : Prepared cfg 0 _ _ := prepared_activate h hw ((Nat.le_add_right ..).trans hsize) sizes retained active
  have hdir := SortedMap.entries_insert_of_lt (m := w.dir) (Segment.empty w.cfg.segmentSizeMax) (h.closed hw)
  refine ⟨hprep.same.ready, rfl, rfl, ⟨⟨_, _, hdir, rfl⟩, fun p hp => ?_⟩, rfl⟩
  have hp' : p ∈ (w.dir.insert c (Segment.empty w.cfg.segmentSizeMax)).entries := hp
  rw [hdir] at hp'
  rcases List.mem_append.1 hp' with hp' | hp'
  · exact hheader p hp'
  · rw [List.mem_singleton.1 hp']
    rfl

theorem createFile_eq (hsize : SEGMENT_HEADER_LEN + RECORD_FRAMING ≤ w.cfg.segmentSizeMax) (hnew : c ∉ w.dir.keys) :
    createFile c .ok w = (w.addFile c, .ok ()) := by
  unfold createFile
  rw [if_neg (not_lt.2 hsize), if_neg (not_or.2 ⟨nofun, hnew⟩)]
  rfl

theorem createFile_of_mem (hsize : SEGMENT_HEADER_LEN + RECORD_FRAMING ≤ w.cfg.segmentSizeMax) (hmem : c ∈ w.dir.keys) :
    createFile c .ok w = (w, .error .io) := by
  unfold createFile
  rw [if_neg (not_lt.2 hsize), if_pos (.inr hmem)]

theorem createFile_of_small (hsize : w.cfg.segmentSizeMax < SEGMENT_HEADER_LEN + RECORD_FRAMING) :
    createFile c .ok w = (w, .error .segmentTooSmall) := by
  unfold createFile
  rw [if_pos hsize]

theorem createDeferred_of_error {e : WalError} (hcreate : createFile c .ok w = (w, .error e)) :
    createDeferred c .ok w = (w, .error e) := andThen_of_error (andThen_of_error hcreate)

theorem createDeferred_started (h : Ready cfg { w with pendingCursor := c }) (hw : w.writer = none)
    (hsize : SEGMENT_HEADER_LEN + RECORD_FRAMING ≤ cfg.segmentSizeMax) (hheader : ∀ p ∈ w.dir.entries, p.2.header = true) :
    ∃ w', createDeferred c .ok w = (w', .ok ()) ∧ Started cfg c w w' := by
  have hnew : c ∉ w.dir.keys := fun hmem => by
    obtain ⟨seg, hseg⟩ := SortedMap.mem_keys.1 hmem
    exact lt_irrefl _ (h.closed hw _ hseg)
  have hcfg : w.cfg = cfg := h.cfg_eq
  refine ⟨_, ?_, started_activate h hw hsize hheader w.segmentSizes w.retainedBytes c⟩
  exact andThen_eq_ok.2 ⟨_, andThen_eq_ok.2 ⟨_, createFile_eq (hcfg ▸ hsize) hnew, rfl⟩, rfl⟩

/-- The log whose writer has been closed takes a segment with any name past those that there are. -/
theorem Ready.closeWriter_above (h : w.Ready cfg) (hc : w.Above c) :
    Ready cfg { w.closeWriter first with pendingCursor := c } := by
  refine ⟨h.cfg_eq, h.enabled, h.healthy, ?_, fun _ p hp => ?_, nofun⟩
  · simpa [Wal.closeWriter] using h.segments
  · have hmem : p.1 ∈ (w.closeWriter first).dir.keys := SortedMap.mem_keys.2 ⟨p.2, hp⟩
    rw [Wal.closeWriter, SortedMap.keys_modify] at hmem
    exact hc p.1 hmem

theorem rotateLocked_started (h : w.Ready cfg) (hw : w.writer = some first) (hc : w.Above c) (ht : w.Tip first rs)
    (hsize : SEGMENT_HEADER_LEN + RECORD_FRAMING ≤ cfg.segmentSizeMax) :
    ∃ w', rotateLocked c .ok w = (w', .ok ()) ∧ Started cfg c w w' := by
  have hready : Ready cfg { w.closeWriter first with pendingCursor := c } := h.closeWriter_above hc
  have hnew : c ∉ (w.closeWriter first).dir.keys := fun hmem => by
    rw [Wal.closeWriter, SortedMap.keys_modify] at hmem
    exact lt_irrefl _ (hc c hmem)
  have hcfg : (w.closeWriter first).cfg = cfg := h.cfg_eq
  have hstarted := started_activate hready rfl hsize ht.closeWriter.header
    (w.segmentSizes.insert first ((w.dir.lookup first).elim 0 Segment.tail))
    (w.retainedBytes + (w.dir.lookup first).elim 0 Segment.tail) c
  refine ⟨_, ?_, hstarted.ready, hstarted.writer, hstarted.bytes, hstarted.tip, hstarted.pending⟩
  simp only [rotateLocked, hw]
  exact andThen_eq_ok.2 ⟨_, andThen_eq_ok.2 ⟨_, createFile_eq (hcfg ▸ hsize) hnew, rfl⟩, rfl⟩

/-! ### The state between two calls -/

/-- The log takes records, and its files tell where it goes on. -/
structure Sound (cfg : WalConfig) (w : Wal) : Prop where
  ready : w.Ready cfg
  tip : w.dir.entries = [] ∧ w.pendingCursor = 0 ∨ ∃ k rs, w.Tip k rs ∧ endOf k rs = w.pendingCursor
  size : w.dir.entries ≠ [] → SEGMENT_HEADER_LEN + RECORD_FRAMING ≤ cfg.segmentSizeMax

theorem Sound.header (h : w.Sound cfg) : ∀ p ∈ w.dir.entries, p.2.header = true := by
  rcases h.tip with ⟨hnil, -⟩ | ⟨k, rs, ht, -⟩
  · rw [hnil]
    exact nofun
  · exact ht.header

theorem Sound.of_tip {rs : List Record} (h : w.Ready cfg) (ht : w.Tip k rs) (hend : endOf k rs = w.pendingCursor)
    (hsize : SEGMENT_HEADER_LEN + RECORD_FRAMING ≤ cfg.segmentSizeMax) : w.Sound cfg :=
  ⟨h, .inr ⟨k, rs, ht, hend⟩, fun _ => hsize⟩

/-- The segments of a log with a writer -/
theorem Sound.active (h : w.Sound cfg) (hw : w.writer = some first) :
    SEGMENT_HEADER_LEN + RECORD_FRAMING ≤ cfg.segmentSizeMax ∧ ∃ rs, w.Tip first rs ∧ endOf first rs = w.pendingCursor := by
  have hactive := h.ready.active first hw
  have hactive' := hactive
  obtain ⟨closed, seg, hdir, -⟩ := hactive'
  have hne : w.dir.entries ≠ [] := by simp [hdir]
  obtain ⟨k, rs, ht, hend⟩ := h.tip.resolve_left fun hnil => hne hnil.1
  obtain rfl := ht.eq_first hactive
  exact ⟨h.size hne, rs, ht, hend⟩

/-- If the active segment holds a record, no segment has the name of the next one. -/
theorem Ready.above (h : w.Ready cfg) (hfilled : w.Filled) : w.Above w.pendingCursor := by
  intro j hj
  obtain ⟨seg, hseg⟩ := SortedMap.mem_keys.1 hj
  cases hw : w.writer with
  | none => exact h.closed hw _ hseg
  | some first =>
    have hne := hfilled first hw
    obtain ⟨closed, seg', hdir, -, -, hfirst⟩ := h.active first hw
    rw [hdir] at hseg
    rcases List.mem_append.1 hseg with hseg | hseg
    · have hlt : j < first := SortedMap.lt_of_entries_append hdir _ hseg
      omega
    · cases List.mem_singleton.1 hseg
      omega

theorem filled_of_none (hw : w.writer = none) : w.Filled := by
  rw [Filled, hw]
  exact nofun

theorem enforceRetention_sound (rounds : Nat) (h : w.Ready cfg) (hw : w.writer = some first) (ht : w.Tip first rs) :
    (w.enforceRetention rounds).Ready cfg ∧ (w.enforceRetention rounds).Tip first rs ∧
      (w.enforceRetention rounds).pendingCursor = w.pendingCursor := by
  induction rounds generalizing w with
  | zero => exact ⟨h, ht, rfl⟩
  | succ rounds ih =>
    unfold Wal.enforceRetention
    split
    · exact ⟨h, ht, rfl⟩
    · split
      · rename_i j hj
        have hne : first ≠ j := by
          have hfind := List.find?_some hj
          rw [hw] at hfind
          rintro rfl
          simp at hfind
        have hsame := h.retire hw hj
        obtain ⟨hready, htip, hnext⟩ := ih hsame.ready hw (ht.retire hne)
        exact ⟨hready, htip, hnext⟩
      · exact ⟨h, ht, rfl⟩

theorem appendWith_eq (hw : w.writer = some first) : appendWith r .ok w = ((write first r .ok).andThen fun w =>
    ((w.recorded first r).enforceRetention w.segments.keys.length, .ok ())).andThen (syncEach .ok) w := by
  simp only [appendWith, hw]

/-- A writer with room takes a record that does not come before the name of its segment. -/
theorem appendWith_sound {x : Nat} (h : Ready cfg { w with pendingCursor := x }) (hw : w.writer = some first)
    (hfirst : first ≤ r.cursor) (hroom : w.activeBytes + recordBytes r ≤ cfg.segmentSizeMax) (ht : w.Tip first rs)
    (hsize : SEGMENT_HEADER_LEN + RECORD_FRAMING ≤ cfg.segmentSizeMax) :
    ∃ w', appendWith r .ok w = (w', .ok ()) ∧ w'.Sound cfg := by
  obtain ⟨closed, seg, hdir, hsegsize, hbytes, -⟩ := h.active first hw
  have hcfg : w.cfg = cfg := h.cfg_eq
  obtain ⟨seg', hput, hsize', hheader', hrecords⟩ : ∃ seg', seg.append r = some seg' ∧ seg'.size = seg.size ∧
      seg'.header = seg.header ∧ seg'.records = seg.records ++ [r] := by
    refine ⟨_, if_neg ?_, rfl, rfl, rfl⟩
    have hsegsize' : seg.size = w.cfg.segmentSizeMax := hsegsize
    have hbytes' : w.activeBytes = seg.tail := hbytes
    rw [hsegsize', hcfg, ← hbytes']
    exact not_lt.2 hroom
  have hentries : w.dir.entries = closed ++ [(first, seg)] := hdir
  have hdir' := SortedMap.entries_modify_last hentries fun _ => seg'
  have hwrite : write first r .ok w = ({ w with dir := w.dir.modify first fun _ => seg' }, .ok ()) := by
    simp only [write, put, SortedMap.lookup_last hentries, Option.bind_some, hput]
  have hready : (recorded first r { w with dir := w.dir.modify first fun _ => seg' }).Ready cfg := by
    have hsegments : w.segments.keys = w.dir.keys := h.segments
    refine ⟨hcfg, h.enabled, h.healthy, by simpa [recorded] using hsegments, fun hn => ?_, fun second hsecond => ?_⟩
    · simp [recorded, hw] at hn
    · obtain rfl : first = second := by simpa [recorded, hw] using hsecond
      refine ⟨closed, seg', hdir', hsize'.trans hsegsize, ?_, .inl (Nat.lt_succ_of_le hfirst)⟩
      simp [recorded, SortedMap.lookup_last hdir']
  have htip : (recorded first r { w with dir := w.dir.modify first fun _ => seg' }).Tip first (rs ++ [r]) := by
    obtain ⟨closed', seg₀, hdir₀, hrs⟩ := ht.last
    have hsame : seg₀ = seg := by
      rw [hentries] at hdir₀
      exact (Prod.mk.inj (List.cons.inj (List.append_inj' hdir₀ rfl).2).1).2.symm
    refine ⟨⟨closed, seg', hdir', by rw [hrecords, ← hrs, hsame]⟩, fun p hp => ?_⟩
    have hp' : p ∈ (w.dir.modify first fun _ => seg').entries := hp
    rw [hdir'] at hp'
    rcases List.mem_append.1 hp' with hp' | hp'
    · exact ht.header p (by simp [hentries, hp'])
    · rw [List.mem_singleton.1 hp', hheader']
      exact ht.header (first, seg) (by simp [hentries])
  obtain ⟨hready', htip', hnext⟩ := enforceRetention_sound w.segments.keys.length hready hw htip
  refine ⟨_, ?_, .of_tip hready' htip' ?_ hsize⟩
  · rw [appendWith_eq hw]
    refine andThen_eq_ok.2 ⟨_, andThen_eq_ok.2 ⟨_, hwrite, rfl⟩, ?_⟩
    simp only [syncEach, show WalIo.ok.flush = true from rfl, Bool.true_eq_false, and_false, if_false]
  · rw [endOf_concat, hnext]
    rfl

/-! ### The calls -/

/-- The append was refused, and nothing that matters has changed. -/
structure Refused (cfg : WalConfig) (w w' : Wal) : Prop where
  sound : w'.Sound cfg
  filled : w'.Filled
  shows : w'.log = w.log
  ends : w'.pendingCursor = w.pendingCursor

theorem Refused.refl (h : w.Sound cfg) (hfilled : w.Filled) : Refused cfg w w := ⟨h, hfilled, rfl, rfl⟩

theorem Sound.closeWriter (h : w.Sound cfg) (hw : w.writer = some first) (hfilled : w.Filled) :
    Refused cfg w (w.closeWriter first) := by
  obtain ⟨hsize, rs, ht, hend⟩ := h.active hw
  have hready : Ready cfg (w.closeWriter first) := h.ready.closeWriter_above (h.ready.above hfilled)
  refine ⟨.of_tip hready ht.closeWriter hend hsize, filled_of_none rfl, ?_, rfl⟩
  obtain ⟨closed, seg, hdir, -⟩ := h.ready.active first hw
  have hdir' : (w.closeWriter first).dir.entries = closed ++ [(first, seg.writeSkipToEnd)] :=
    SortedMap.entries_modify_last hdir _
  rw [log, log, WalDir.records_of_last hdir', WalDir.records_of_last hdir, Segment.records_writeSkipToEnd]

theorem append_eq {cursor ts : Nat} {payload : Bytes} (henabled : w.cfg.enabled = true)
    (hlen : ¬MAX_PAYLOAD_LEN < payload.length) (hhealthy : w.poisoned = false) : append cursor ts payload .ok w =
      (acquireWriter ⟨cursor, ts, payload⟩ .ok).andThen (appendWith ⟨cursor, ts, payload⟩ .ok) w := by
  simp only [append, henabled, hhealthy, if_neg hlen, Bool.true_eq_false, Bool.false_eq_true, if_false]

/-- A careful append is taken, or is refused and changes nothing that matters. -/
theorem Sound.append {cursor ts : Nat} {payload : Bytes} (h : w.Sound cfg) (hc : w.Careful (.append cursor ts payload)) :
    (∃ w', Wal.append cursor ts payload .ok w = (w', .ok ()) ∧ w'.Sound cfg) ∨
      ∃ w' e, Wal.append cursor ts payload .ok w = (w', .error e) ∧ Refused cfg w w' := by
  have henabled : w.cfg.enabled = true := h.ready.cfg_eq ▸ h.ready.enabled
  have hc := hc henabled
  by_cases hlen : MAX_PAYLOAD_LEN < payload.length
  · rw [if_pos hlen] at hc
    refine .inr ⟨w, .payloadTooLarge payload.length, ?_, .refl h hc⟩
    simp only [Wal.append, henabled, if_pos hlen, Bool.true_eq_false, if_false]
  rw [if_neg hlen] at hc
  rw [append_eq henabled hlen h.ready.healthy]
  have hcfg := h.ready.cfg_eq
  -- the record starts the segment that has been created for it
  have hstarts : ∀ {w₁}, acquireWriter ⟨cursor, ts, payload⟩ .ok w = (w₁, .ok ()) → Started cfg cursor w w₁ →
      SEGMENT_HEADER_LEN + alignRecordLen (RECORD_FRAMING + payload.length) ≤ w.cfg.segmentSizeMax →
      SEGMENT_HEADER_LEN + RECORD_FRAMING ≤ cfg.segmentSizeMax →
      ∃ w', (acquireWriter ⟨cursor, ts, payload⟩ .ok).andThen (appendWith ⟨cursor, ts, payload⟩ .ok) w = (w', .ok ()) ∧
        w'.Sound cfg := fun {w₁} hw₁ hstarted hfits hsize => by
    obtain ⟨w', hw', hsound⟩ := appendWith_sound (r := ⟨cursor, ts, payload⟩) hstarted.ready hstarted.writer le_rfl
      (by rw [hstarted.bytes, ← hcfg]; exact hfits) hstarted.tip hsize
    exact ⟨w', andThen_eq_ok.2 ⟨w₁, hw₁, hw'⟩, hsound⟩
  cases hw : w.writer with
  | none =>
    simp only [hw, Option.isNone_none, if_true] at hc
    have hacquire : acquireWriter ⟨cursor, ts, payload⟩ .ok w = createDeferred cursor .ok w := by
      simp only [acquireWriter, hw]
    by_cases hsize : w.cfg.segmentSizeMax < SEGMENT_HEADER_LEN + RECORD_FRAMING
    · have herror := hacquire.trans (createDeferred_of_error (createFile_of_small hsize))
      exact .inr ⟨w, _, andThen_of_error herror, .refl h (filled_of_none hw)⟩
    rcases hc.resolve_left hsize with hmem | ⟨habove, hfits⟩
    · have herror := hacquire.trans (createDeferred_of_error (createFile_of_mem (not_lt.1 hsize) hmem))
      exact .inr ⟨w, _, andThen_of_error herror, .refl h (filled_of_none hw)⟩
    · have hready : Ready cfg { w with pendingCursor := cursor } :=
        ⟨hcfg, h.ready.enabled, h.ready.healthy, h.ready.segments,
          fun _ p hp => habove p.1 (SortedMap.mem_keys.2 ⟨p.2, hp⟩), fun first hfirst => by simp [hw] at hfirst⟩
      have hsize' : SEGMENT_HEADER_LEN + RECORD_FRAMING ≤ cfg.segmentSizeMax := hcfg ▸ not_lt.1 hsize
      obtain ⟨w₁, hw₁, hstarted⟩ := createDeferred_started hready hw hsize' h.header
      exact .inl (hstarts (hacquire.trans hw₁) hstarted hfits hsize')
  | some first =>
    obtain ⟨hsize, rs, ht, -⟩ := h.active hw
    simp only [hw, Option.isNone_some, Bool.false_eq_true, if_false] at hc
    by_cases hfull : w.cfg.segmentSizeMax < w.activeBytes + alignRecordLen (RECORD_FRAMING + payload.length)
    · rw [if_pos hfull] at hc
      have hacquire : acquireWriter ⟨cursor, ts, payload⟩ .ok w = rotateLocked cursor .ok w := by
        simp only [acquireWriter, hw]
        exact if_pos hfull
      rcases hc with ⟨habove, hfits⟩ | ⟨hmem, hfilled⟩
      · obtain ⟨w₁, hw₁, hstarted⟩ := rotateLocked_started h.ready hw habove ht hsize
        exact .inl (hstarts (hacquire.trans hw₁) hstarted hfits hsize)
      · right
        have hcfg' : (w.closeWriter first).cfg = cfg := hcfg
        have hmem' : cursor ∈ (w.closeWriter first).dir.keys := by
          rw [Wal.closeWriter, SortedMap.keys_modify]
          exact hmem
        have hrotate : rotateLocked cursor .ok w = (w.closeWriter first, .error .io) := by
          simp only [rotateLocked, hw]
          exact andThen_of_error (andThen_of_error (createFile_of_mem (hcfg' ▸ hsize) hmem'))
        exact ⟨_, _, andThen_of_error (hacquire.trans hrotate), h.closeWriter hw hfilled⟩
    · rw [if_neg hfull] at hc
      have hacquire : acquireWriter ⟨cursor, ts, payload⟩ .ok w = (w, .ok ()) := by
        simp only [acquireWriter, hw]
        exact if_neg hfull
      obtain ⟨w', hw', hsound⟩ := appendWith_sound (r := ⟨cursor, ts, payload⟩) (x := w.pendingCursor) h.ready hw
        (hc first rfl) (hcfg ▸ not_lt.1 hfull) ht hsize
      exact .inl ⟨w', andThen_eq_ok.2 ⟨w, hacquire, hw'⟩, hsound⟩

theorem Started.sound (h : Started cfg w.pendingCursor w w') (hsize : SEGMENT_HEADER_LEN + RECORD_FRAMING ≤ cfg.segmentSizeMax) :
    w'.Sound cfg := by
  have hready := h.ready
  rw [← h.pending] at hready
  exact .of_tip hready h.tip h.pending.symm hsize

theorem Sound.bumpGeneration (h : w.Sound cfg) (hfilled : w.Filled) : (Wal.bumpGeneration .ok w).1.Sound cfg := by
  unfold Wal.bumpGeneration
  split
  · rename_i first hw
    obtain ⟨hsize, rs, ht, -⟩ := h.active hw
    obtain ⟨w', hw', hstarted⟩ := rotateLocked_started h.ready hw (h.ready.above hfilled) ht hsize
    rw [hw']
    exact hstarted.sound hsize
  · exact h

/-- A log whose active segment holds a record opens again as it was. -/
theorem Sound.reopen (h : w.Sound cfg) (hfilled : w.Filled) : ∃ w', Wal.open w.cfg w.dir w.active = .ok w' ∧
    w'.Sound cfg ∧ w'.log = w.log ∧ w'.pendingCursor = w.pendingCursor := by
  suffices hopen : ∃ w', Wal.open w.cfg w.dir w.active = .ok w' ∧ w'.Sound cfg ∧ w'.pendingCursor = w.pendingCursor by
    obtain ⟨w', hw', hsound, hpending⟩ := hopen
    exact ⟨w', hw', hsound, (found_open hw').records, hpending⟩
  rw [h.ready.cfg_eq]
  simp only [Wal.open]
  rcases h.tip with ⟨hnil, hzero⟩ | ⟨k, rs, ht, hend⟩
  · have hlast : w.dir.last? = none := List.getLast?_eq_none_iff.2 hnil
    rw [hlast]
    exact ⟨_, rfl, ⟨ofDir_ready h.ready.enabled (by simp [hnil]), .inl ⟨hnil, rfl⟩, fun hne => absurd hnil hne⟩, hzero.symm⟩
  · obtain ⟨closed, seg, hdir, hrs⟩ := ht.last
    have hlast : w.dir.last? = some (k, seg) := List.getLast?_eq_some_iff.2 ⟨closed, hdir⟩
    have hheader : seg.header = true := ht.header (k, seg) (by simp [hdir])
    have hcursor : nextCursor k seg = w.pendingCursor := by
      rw [← hend, ← hrs, nextCursor, if_pos hheader]
      rfl
    have habove := h.ready.above hfilled
    have hk : k < w.pendingCursor := habove k (SortedMap.mem_keys.2 ⟨seg, by simp [hdir]⟩)
    have hready : Ready cfg (ofDir cfg w.dir w.active w.pendingCursor) :=
      ofDir_ready h.ready.enabled fun p hp => habove p.1 (SortedMap.mem_keys.2 ⟨p.2, hp⟩)
    have hsize := h.size (by simp [hdir])
    obtain ⟨w', hw', hstarted⟩ := createDeferred_started (w := ofDir cfg w.dir w.active w.pendingCursor)
      hready rfl hsize ht.header
    simp only [hlast, hcursor, if_neg hk.ne', hw']
    have hsound : w'.Sound cfg := Started.sound (w := ofDir cfg w.dir w.active w.pendingCursor) hstarted hsize
    exact ⟨w', rfl, hsound, hstarted.pending⟩

theorem Sound.takes (h : w.Sound cfg) : w.Takes := by
  intro ts payload hfits
  rw [h.ready.cfg_eq] at hfits
  have happend : Ends (Wal.append w.pendingCursor ts payload .ok) w _ _ := append_ends h.ready hfits le_rfl (.ok cfg)
  rcases happend.cases with ⟨w', hw', -⟩ | ⟨w', e, -, hkept⟩
  · exact ⟨w', hw'⟩
  · exact absurd rfl hkept.fault

theorem flusherTick_ok (w : Wal) : w.flusherTick .ok = w := by
  unfold Wal.flusherTick
  split <;> rfl

theorem call_sound {a : LogCall} (h : w.Sound cfg) (hc : w.Careful a) (hs : w.call a = some w') : w'.Sound cfg := by
  cases a with
  | append cursor ts payload =>
    obtain ⟨w₁, hw₁, hsound⟩ | ⟨w₁, e, hw₁, hrefused⟩ := h.append hc
    · rw [call, hw₁, Option.some.injEq] at hs
      exact hs ▸ hsound
    · rw [call, hw₁, Option.some.injEq] at hs
      exact hs ▸ hrefused.sound
  | bumpGeneration =>
    cases hs
    exact h.bumpGeneration hc
  | flush =>
    rw [call, flusherTick_ok, Option.some.injEq] at hs
    exact hs ▸ h
  | reopen =>
    obtain ⟨w₁, hw₁, hsound, -⟩ := h.reopen hc
    rw [call, hw₁, Except.toOption, Option.some.injEq] at hs
    exact hs ▸ hsound

theorem sound_create (henabled : cfg.enabled = true) : (create cfg).Sound cfg where
  ready := ofDir_ready henabled nofun
  tip := .inl ⟨rfl, rfl⟩
  size := fun hne => absurd rfl hne

/-- A log that is not enabled stays as it is. -/
theorem call_disabled {a : LogCall} (henabled : cfg.enabled = false) (hs : (create cfg).call a = some w') :
    w' = create cfg := by
  cases a with
  | append cursor ts payload =>
    have hnoop : append cursor ts payload .ok (create cfg) = (create cfg, .ok ()) := if_pos henabled
    rw [call, hnoop, Option.some.injEq] at hs
    exact hs.symm
  | bumpGeneration | flush | reopen =>
    cases hs
    rfl

theorem usable_create (henabled : cfg.enabled = false) : (create cfg).Usable := by
  have hnoop : ∀ cursor ts payload, append cursor ts payload .ok (create cfg) = (create cfg, .ok ()) :=
    fun cursor ts payload => if_pos henabled
  refine ⟨fun ts payload _ => ⟨create cfg, hnoop ..⟩, fun cursor ts payload w' e _ hs => ?_⟩
  rw [hnoop] at hs
  cases hs

theorem Refused.spared (h : Refused cfg w w') : Spared log pendingCursor Takes (fun w => w.call .reopen) w w' := by
  obtain ⟨w₂, hw₂, hsound₂, hlog, hpending⟩ := h.sound.reopen h.filled
  refine ⟨h.shows, h.ends, h.sound.takes, w₂, ?_, hlog.trans h.shows, hpending.trans h.ends, hsound₂.takes⟩
  change (Wal.open w'.cfg w'.dir w'.active).toOption = some w₂
  rw [hw₂]
  rfl

/-- After calls that are careful the log takes records, and a careful append that is refused changes nothing. -/
theorem run_usable {acts : List LogCall} (hr : run call (create cfg) acts = some w)
    (hm : Meets call Careful (create cfg) acts) : w.Usable := by
  cases henabled : cfg.enabled with
  | false =>
    have hw : w = create cfg :=
      run_invariant_when (fun w => w = create cfg) Careful (fun w a w' hw _ hs => call_disabled henabled (hw ▸ hs)) hm rfl hr
    rw [hw]
    exact usable_create henabled
  | true =>
    have hsound : w.Sound cfg :=
      run_invariant_when (Sound cfg) Careful (fun _ _ _ => call_sound) hm (sound_create henabled) hr
    refine ⟨hsound.takes, fun cursor ts payload w' e hc hs => ?_⟩
    obtain ⟨w₁, hw₁, -⟩ | ⟨w₁, e₁, hw₁, hrefused⟩ := hsound.append hc
    · rw [hw₁] at hs
      cases hs
    · rw [hw₁] at hs
      cases hs
      exact hrefused.spared

end Mmbus.V2.Wal

namespace Mmbus

open Transition

/-- In every state of either log that careful calls lead to it takes records, and an append that is refused leaves it as it
was, also for the next open. -/
theorem append_spares (cfg : WalConfig) :
    (∀ acts w, run Wal.call (.create cfg) acts = some w → Meets Wal.call Wal.Careful (.create cfg) acts → w.Usable) ∧
      ∀ acts w, run V2.Wal.call (.create cfg) acts = some w → Meets V2.Wal.call V2.Wal.Careful (.create cfg) acts →
        w.Usable :=
  ⟨fun _ _ => Wal.run_usable, fun _ _ => V2.Wal.run_usable⟩

/-- Segments with room for one short record -/
def tinySegments : WalConfig := ⟨true, .each, 64, 1024⟩

/-- The second append is refused. -/
def refusedOnce : List LogCall :=
  [.append 0 0 [1], .append 0 0 [9], .append 1 0 [2], .bumpGeneration, .append 2 0 [3], .reopen, .append 3 0 [4]]

theorem append_spares_refusedOnce :
    (∃ w, run Wal.call (.create tinySegments) refusedOnce = some w ∧ w.Usable) ∧
      ∃ w, run V2.Wal.call (.create tinySegments) refusedOnce = some w ∧ w.Usable := by
  obtain ⟨w, hw⟩ := Option.isSome_iff_exists.1
    (show (run Wal.call (.create tinySegments) refusedOnce).isSome = true by decide +kernel)
  obtain ⟨w₂, hw₂⟩ := Option.isSome_iff_exists.1
    (show (run V2.Wal.call (.create tinySegments) refusedOnce).isSome = true by decide +kernel)
  exact ⟨⟨w, hw, (append_spares tinySegments).1 _ w hw (by decide +kernel)⟩,
    w₂, hw₂, (append_spares tinySegments).2 _ w₂ hw₂ (by decide +kernel)⟩

/-- A payload that is larger than a segment is refused, and then every payload. -/
theorem append_spares_fails :
    (∃ w, Wal.append 0 0 [1, 2, 3, 4, 5] .ok (.create tinySegments) = (w, .error .io) ∧ ¬w.Takes) ∧
      ∃ w, V2.Wal.append 0 0 [1, 2, 3, 4, 5] .ok (.create tinySegments) = (w, .error .io) ∧ ¬w.Takes := by
  constructor
  · refine ⟨_, rfl, fun htakes => ?_⟩
    obtain ⟨w', hw'⟩ := htakes 0 [1] ⟨by decide, by decide⟩
    cases hw'
  · refine ⟨_, rfl, fun htakes => ?_⟩
    obtain ⟨w', hw'⟩ := htakes 0 [1] ⟨by decide, by decide⟩
    cases hw'

end Mmbus
