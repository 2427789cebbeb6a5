import Mmbus.FileReplay

/-!
# An append-only map in files

Sessions on the log in files of bytes with `FsyncPolicy::Each`: opens, successful appends at consecutive cursors, fsyncs
and drops.  At any time the log can be read from each cursor on that it still holds (`reads_back`).
-/

namespace Mmbus

open Attempt Chapters Replays Transition

namespace Wal

variable {cfg : WalConfig} {w w' : Wal} {r : Record} {first cursor : Nat} {dir : WalDir}

/-! ### The pending cursor does not matter to an append -/

/-- The logs differ in the pending cursor at most, which is `c` in the second. -/
def StartsAt (c : Nat) (w w₂ : Wal) : Prop := w₂ = { w with pendingCursor := c }

theorem flushBuffer_startsAt (c : Nat) (w : Wal) :
    ({ w with pendingCursor := c } : Wal).flushBuffer = { w.flushBuffer with pendingCursor := c } := by
  cases hw : w.writer <;> simp only [flushBuffer, moveBuffer, hw]

theorem createSegment_startsAt (c : Nat) :
    Simulates (StartsAt c) (StartsAt c) (createSegment first .ok) (createSegment first .ok) := by
  rintro w _ w' rfl hs
  unfold createSegment at hs ⊢
  split at hs
  · cases hs
  · rename_i hnew
    cases hs
    exact ⟨_, by rw [if_neg hnew]; rfl, rfl⟩

theorem ensureWriter_startsAt (c : Nat) :
    Simulates (StartsAt c) (StartsAt c) (ensureWriter cursor .ok) (ensureWriter cursor .ok) := by
  rintro w w₂ w' h hs
  have hwriter : w₂.writer = w.writer := by rw [h]
  unfold ensureWriter at hs ⊢
  rw [hwriter]
  cases hw : w.writer with
  | none =>
    simp only [hw] at hs
    exact createSegment_startsAt c w w₂ w' h hs
  | some wr =>
    simp only [hw] at hs
    cases hs
    exact ⟨w₂, rfl, h⟩

theorem closeWriter_startsAt (c : Nat) : Simulates (StartsAt c) (StartsAt c) (closeWriter .ok) (closeWriter .ok) := by
  rintro w w₂ w' h hs
  have hwriter : w₂.writer = w.writer := by rw [h]
  unfold closeWriter at hs ⊢
  rw [hwriter]
  cases hw : w.writer with
  | none =>
    simp only [hw] at hs
    cases hs
    exact ⟨w₂, rfl, h⟩
  | some wr =>
    simp only [hw] at hs
    cases hs
    refine ⟨_, rfl, ?_⟩
    subst h
    unfold StartsAt
    rw [flushBuffer_startsAt]

theorem rotateIfFull_startsAt (c : Nat) :
    Simulates (StartsAt c) (StartsAt c) (rotateIfFull r .ok) (rotateIfFull r .ok) := by
  rintro w w₂ w' h hs
  have hcfg : w₂.cfg = w.cfg := by rw [h]
  have hbytes : w₂.activeBytes = w.activeBytes := by rw [h]
  unfold rotateIfFull at hs ⊢
  rw [hcfg, hbytes]
  split at hs
  · rename_i hfull
    obtain ⟨w₃, hw₃, h₃⟩ := (closeWriter_startsAt c).andThen (createSegment_startsAt c) w w₂ w' h hs
    exact ⟨w₃, by rw [if_pos hfull]; exact hw₃, h₃⟩
  · rename_i hfull
    cases hs
    exact ⟨w₂, by rw [if_neg hfull], h⟩

/-- The write sets the pending cursor. -/
theorem write_startsAt (c : Nat) : Simulates (StartsAt c) Eq (write r .ok) (write r .ok) := by
  rintro w w₂ w' h hs
  have hwriter : w₂.writer = w.writer := by rw [h]
  have hrecord (l l₂ : Wal) (hl : StartsAt c l l₂) (hwr : l.writer ≠ none) :
      (l₂.buffered r).recorded r = (l.buffered r).recorded r ∧ (l₂.written r).recorded r = (l.written r).recorded r := by
    obtain ⟨wr, hwr⟩ := Option.ne_none_iff_exists'.1 hwr
    subst hl
    simp only [buffered, written, recorded, hwr, and_self]
  refine ⟨w', ?_, rfl⟩
  unfold write at hs ⊢
  rw [hwriter]
  cases hw : w.writer with
  | none =>
    simp only [hw] at hs
    cases hs
  | some wr =>
    simp only [hw] at hs ⊢
    split at hs
    · cases hs
    · rename_i hcursor
      rw [if_neg hcursor]
      split at hs
      · rename_i hspare
        rw [if_pos hspare, (hrecord w w₂ h (by simp [hw])).1]
        exact hs
      · rename_i hspare
        rw [if_neg hspare]
        simp only [writeAllCold, show WalIo.ok.drain = true from rfl, show WalIo.ok.direct = true from rfl,
          Bool.true_eq_false, and_false, if_false] at hs ⊢
        -- the two logs, their buffers emptied if the record does not fit
        obtain ⟨l, l₂, hl, hl₂, hlog, hwr⟩ : ∃ l l₂,
            (if BUF_CAPACITY - (wr.buffer.map Record.len).sum < r.len then w.flushBuffer else w) = l ∧
            (if BUF_CAPACITY - (wr.buffer.map Record.len).sum < r.len then w₂.flushBuffer else w₂) = l₂ ∧
            StartsAt c l l₂ ∧ l.writer ≠ none := by
          by_cases hlt : BUF_CAPACITY - (wr.buffer.map Record.len).sum < r.len
          · refine ⟨_, _, if_pos hlt, if_pos hlt, ?_, by simp [flushBuffer_writer, hw]⟩
            subst h
            exact flushBuffer_startsAt c w
          · exact ⟨_, _, if_neg hlt, if_neg hlt, h, by simp [hw]⟩
        rw [hl] at hs
        rw [hl₂, (hrecord l l₂ hlog hwr).1, (hrecord l l₂ hlog hwr).2]
        exact hs

theorem append_startsAt {ts : Nat} {payload : Bytes} (hs : append cursor ts payload .ok w = (w', .ok ()))
    (henabled : w.cfg.enabled = true) (c : Nat) :
    append cursor ts payload .ok { w with pendingCursor := c } = (w', .ok ()) := by
  unfold append at hs ⊢
  simp only [henabled, Bool.true_eq_false, if_false] at hs ⊢
  split at hs
  · cases hs
  · rename_i hlen
    split at hs
    · cases hs
    · rename_i hhealthy
      have heq (f : Attempt WalError Wal) : Simulates Eq Eq f f := by
        rintro w _ w' rfl hs
        exact ⟨w', hs, rfl⟩
      obtain ⟨w₂, hw₂, rfl⟩ := ((((ensureWriter_startsAt c).andThen (rotateIfFull_startsAt c)).andThen
        (write_startsAt c)).andThen (heq _)).andThen (heq _) w { w with pendingCursor := c } w' rfl hs
      rw [if_neg hlen, if_neg hhealthy]
      exact hw₂

/-! ### A log that is flushed after every append -/

theorem enforceRetention_same (rounds : Nat) (w : Wal) : (w.enforceRetention rounds).cfg = w.cfg ∧
    (w.enforceRetention rounds).writer = w.writer := by
  induction rounds generalizing w with
  | zero => exact ⟨rfl, rfl⟩
  | succ rounds ih =>
    unfold enforceRetention
    split
    · exact ⟨rfl, rfl⟩
    · split
      · exact ih _
      · exact ⟨rfl, rfl⟩

theorem append_flushed {ts : Nat} {payload : Bytes} (hs : append cursor ts payload .ok w = (w', .ok ()))
    (henabled : w.cfg.enabled = true) (heach : w'.cfg.fsyncPolicy = .each) : w'.buffer = [] := by
  unfold append at hs
  simp only [henabled, Bool.true_eq_false, if_false] at hs
  split at hs
  · cases hs
  · split at hs
    · cases hs
    · obtain ⟨w₄, hs, hretain⟩ := andThen_eq_ok.1 hs
      obtain ⟨w₃, -, hsync⟩ := andThen_eq_ok.1 hs
      cases hretain
      obtain ⟨hcfg, hwriter⟩ := enforceRetention_same w₄.segments.keys.length w₄
      rw [hcfg] at heach
      rw [buffer, hwriter]
      unfold syncEach at hsync
      split at hsync
      · cases hsync
        rw [flushBuffer_writer]
        cases w₃.writer <;> rfl
      · rename_i hother
        cases hsync
        exact absurd heach hother

theorem flushBuffer_of_flushed (hdir : ∀ p ∈ w.dir.entries, p.2.torn = false) (hbuf : w.buffer = []) :
    w.flushBuffer = w := by
  unfold flushBuffer
  split
  · rename_i wr hw
    have hempty : wr.buffer = [] := by simpa [buffer, hw] using hbuf
    have hself : w.dir.modify wr.first (Segment.append []) = w.dir := by
      refine SortedMap.map_eq_self fun p hp => ?_
      split
      · rw [Segment.append_of_intact (hdir p hp), List.append_nil]
      · rfl
    rw [moveBuffer_some hw, hempty]
    simp only [List.take_nil, List.drop_nil, hself]
    cases w
    cases wr
    simp_all
  · rfl

/-- What an open finds in a directory with nothing to recover -/
structure Found (dir : WalDir) (w : Wal) : Prop where
  records : w.dir.records = dir.records
  retired : w.retired = []
  flushed : w.buffer = []
  segments : w.segments.keys = w.dir.keys
  empty : w.dir.entries = [] ↔ dir.entries = []

theorem found_ofDir (cfg : WalConfig) (dir : WalDir) (pending : Nat) : Found dir (ofDir cfg dir pending) :=
  ⟨rfl, rfl, rfl, SortedMap.keys_map _, .rfl⟩

theorem found_create {k pending : Nat} (hne : dir.entries ≠ []) (hs : createSegment k .ok (ofDir cfg dir pending) = (w, .ok ())) : Found dir w := by
  unfold createSegment at hs
  split at hs
  · cases hs
  · rename_i hnew
    have hk : k ∉ dir.keys := fun h => hnew (.inr h)
    split at hs
    · cases hs
    · cases hs
      refine ⟨SortedMap.flatMap_insert_nil hk rfl, rfl, rfl, ?_, ?_⟩
      · have hmap := SortedMap.map_insert (m := dir) (f := fun _ _ => ()) k .empty
        change ((dir.map fun _ _ => ()).insert k ()).keys = _
        rw [← hmap, SortedMap.keys_map]
        rfl
      · have hmem : k ∈ (dir.insert k .empty).keys := SortedMap.mem_keys_insert ..
        refine iff_of_false (fun hnil => ?_) hne
        change (dir.insert k .empty).entries = [] at hnil
        rw [SortedMap.keys, hnil] at hmem
        cases hmem

theorem found_open (hrecover : dir.map (fun _ => Segment.recover) = dir) (hs : «open» cfg dir = .ok w) : Found dir w := by
  simp only [«open», hrecover] at hs
  split at hs
  · cases hs
  · split at hs
    · cases hs
      exact found_ofDir ..
    · rename_i hlast
      split at hs
      · cases hs
        exact found_ofDir ..
      · split at hs
        · rename_i hcreate
          cases hs
          obtain ⟨closed, hentries⟩ := SortedMap.last?_eq_some hlast
          exact found_create (by simp [hentries]) hcreate
        · cases hs

/-! ### What the log keeps of what was appended -/

/-- The cursors are consecutive, up to `pending`. -/
def Consecutive (appended : List Record) (pending : Nat) : Prop :=
  ∃ start, Numbered Record.cursor start appended ∧ (appended ≠ [] → start + appended.length = pending)

/-- The open log, with nothing in its buffer, holds the end of the records `appended`. -/
structure Holds (w : Wal) (appended : List Record) : Prop where
  enabled : w.cfg.enabled = true
  each : w.cfg.fsyncPolicy = .each
  ordered : w.Ordered
  takes : w.Ready w.cfg ∨ w.Stuck
  flushed : w.buffer = []
  segments : w.segments.keys = w.dir.keys
  kept : ∃ gone, appended = gone ++ w.history
  consecutive : Consecutive appended w.pendingCursor
  empty : appended = [] ↔ w.dir.entries = []
  fresh : appended = [] → w.pendingCursor = 0

/-- The files hold the end of the records `appended`. -/
structure HoldsDir (dir : WalDir) (appended : List Record) : Prop where
  ordered : ∃ n pending, Covers Record.cursor n dir.chapters pending ∧ Consecutive appended pending
  kept : ∃ gone, appended = gone ++ dir.records
  empty : appended = [] ↔ dir.entries = []

variable {appended : List Record}

theorem Ordered.covers (h : w.Ordered) (hbuf : w.buffer = []) :
    ∃ n, Covers Record.cursor n w.dir.chapters w.pendingCursor := by
  obtain ⟨n, m, hcovers, -, hpending⟩ := h
  rw [hbuf, List.length_nil, Nat.add_zero] at hpending
  exact ⟨n, hpending ▸ hcovers⟩

theorem log_of_flushed (hbuf : w.buffer = []) : w.log = w.dir.records := by
  rw [log, ← buffer, hbuf, List.append_nil]

theorem Holds.holdsDir (h : w.Holds appended) : HoldsDir w.dir appended := by
  obtain ⟨n, hcovers⟩ := h.ordered.covers h.flushed
  obtain ⟨gone, hkept⟩ := h.kept
  refine ⟨⟨n, _, hcovers, h.consecutive⟩, ⟨gone ++ w.retired, ?_⟩, h.empty⟩
  rw [hkept, history, log_of_flushed h.flushed, List.append_assoc]

theorem Holds.of_open (henabled : cfg.enabled = true) (heach : cfg.fsyncPolicy = .each) (h : HoldsDir dir appended)
    (hrecover : dir.map (fun _ => Segment.recover) = dir) (hs : «open» cfg dir = .ok w) : w.Holds appended := by
  obtain ⟨n, pending, hcovers, hconsecutive⟩ := h.ordered
  obtain ⟨gone, hkept⟩ := h.kept
  obtain ⟨hopened, -⟩ := Sessions.opened_of_open henabled ⟨n, pending, hcovers⟩ hs
  have hfound := found_open hrecover hs
  have htakes : w.Ready cfg ∨ w.Stuck := by
    by_cases hempty : ∀ k seg, dir.last? = some (k, seg) → seg.records ≠ []
    · exact .inl (hopened.ready hempty)
    · obtain ⟨k, seg, hlast, hnil⟩ : ∃ k seg, dir.last? = some (k, seg) ∧ seg.records = [] := by simpa using hempty
      exact .inr (hopened.stuck k seg hlast hnil)
  refine ⟨hopened.cfg_eq ▸ henabled, hopened.cfg_eq ▸ heach, hopened.ordered, hopened.cfg_eq ▸ htakes, hfound.flushed,
    hfound.segments, ⟨gone, ?_⟩, ?_, h.empty.trans hfound.empty.symm, fun hnil => hopened.fresh (h.empty.1 hnil)⟩
  · rw [history, log_of_flushed hfound.flushed, hfound.retired, hfound.records, List.nil_append, hkept]
  · obtain ⟨start, hnumbered, hend⟩ := hconsecutive
    refine ⟨start, hnumbered, fun hne => ?_⟩
    have hentries : dir.entries ≠ [] := fun hnil => hne (h.empty.2 hnil)
    rw [hopened.pending n pending hcovers hentries, hend hne]

/-- A log that takes no record has one. -/
theorem Stuck.ne_nil (h : w.Stuck) : w.dir.entries ≠ [] := by
  intro hnil
  have := h.taken
  rw [SortedMap.keys, hnil] at this
  cases this

/-- A log to append at `cursor`: the one there is, or for the first record one that starts there -/
theorem Holds.start {ts : Nat} {payload : Bytes} (h : w.Holds appended)
    (hnext : ∀ r, appended.getLast? = some r → cursor = r.cursor + 1)
    (hs : append cursor ts payload .ok w = (w', .ok ())) :
    ∃ w₁, append w₁.pendingCursor ts payload .ok w₁ = (w', .ok ()) ∧ w₁.pendingCursor = cursor ∧ w₁.Ready w.cfg ∧
      w₁.Ordered ∧ w₁.dir = w.dir ∧ w₁.writer = w.writer ∧ w₁.history = w.history ∧ Consecutive appended cursor := by
  by_cases hnil : appended = []
  · have hentries : w.dir.entries = [] := h.empty.1 hnil
    have hready := h.takes.resolve_right fun hstuck => hstuck.ne_nil hentries
    have hwriter : w.writer = none := by
      cases hw : w.writer with
      | none => rfl
      | some wr =>
        obtain ⟨⟨closed, seg, hdir⟩, -⟩ := hready.active wr hw
        simp [hentries] at hdir
    refine ⟨{ w with pendingCursor := cursor }, append_startsAt hs h.enabled cursor, rfl, ?_, ?_, rfl, rfl, rfl, 0, ?_, ?_⟩
    · refine ⟨rfl, hready.enabled, hready.healthy, hready.segments, hready.intact, fun _ p hp => ?_, fun wr hwr => ?_⟩
      · simp [hentries] at hp
      · simp [hwriter] at hwr
    · refine ⟨cursor, cursor, ?_, ?_, ?_⟩
      · simp [WalDir.chapters, hentries, Covers]
      · rw [show ({ w with pendingCursor := cursor } : Wal).buffer = [] from h.flushed]
        exact numbered_nil
      · rw [show ({ w with pendingCursor := cursor } : Wal).buffer = [] from h.flushed]
        rfl
    · rw [hnil]
      exact numbered_nil
    · exact fun hne => absurd hnil hne
  · obtain ⟨start, hnumbered, hend⟩ := h.consecutive
    obtain ⟨r, hlast⟩ : ∃ r, appended.getLast? = some r := by
      cases hlast : appended.getLast? with
      | none => exact absurd (List.getLast?_eq_none_iff.1 hlast) hnil
      | some r => exact ⟨r, rfl⟩
    have hcursor : w.pendingCursor = cursor := by
      rw [hnext r hlast, hnumbered.getLast hlast, hend hnil]
    have hready : w.Ready w.cfg := by
      refine h.takes.resolve_right fun hstuck => ?_
      have hfails := hstuck.append_fails h.enabled ts payload
      rw [hcursor, hs] at hfails
      exact hfails rfl
    exact ⟨w, by rw [hcursor]; exact hs, hcursor, hready, h.ordered, rfl, rfl, rfl, hcursor ▸ h.consecutive⟩

theorem Holds.append {ts : Nat} {payload : Bytes} (h : w.Holds appended)
    (hnext : ∀ r, appended.getLast? = some r → cursor = r.cursor + 1)
    (hs : append cursor ts payload .ok w = (w', .ok ())) : w'.Holds (appended ++ [⟨cursor, ts, payload⟩]) := by
  obtain ⟨w₁, hs₁, rfl, hready, hordered, -, -, hhistory, start, hnumbered, hend⟩ := h.start hnext hs
  have hpasses := append_passes hready hordered hs₁
  have hready' := hpasses.ends.adds.ready
  have hcfg : w'.cfg = w.cfg := hready'.cfg_eq
  have hflushed := append_flushed hs h.enabled (hcfg ▸ h.each)
  have hpending : w'.pendingCursor = w₁.pendingCursor + 1 := hpasses.ends.adds.next
  have hentries : w'.history = w₁.history ++ [⟨w₁.pendingCursor, ts, payload⟩] := hpasses.ends.adds.entries
  refine ⟨hcfg ▸ h.enabled, hcfg ▸ h.each, hpasses.ordered, .inl (hcfg ▸ hready'), hflushed, hready'.segments, ?_, ?_, ?_,
    by simp⟩
  · obtain ⟨gone, hkept⟩ := h.kept
    exact ⟨gone, by rw [hentries, hhistory, hkept, List.append_assoc]⟩
  · by_cases hnil : appended = []
    · subst hnil
      exact ⟨w₁.pendingCursor, numbered_singleton.2 rfl, fun _ => hpending.symm⟩
    · refine ⟨start, numbered_append.2 ⟨hnumbered, numbered_singleton.2 (hend hnil).symm⟩, fun _ => ?_⟩
      rw [List.length_append, List.length_singleton, hpending, ← hend hnil, Nat.add_assoc]
  · obtain ⟨wr, hwr⟩ := Option.ne_none_iff_exists'.1 hpasses.ends.writer
    obtain ⟨⟨closed, seg, hdir⟩, -⟩ := hready'.active wr hwr
    simp [hdir]

/-- What the log holds from `c` on are the records from `c` on. -/
theorem Holds.from_cursor (h : w.Holds appended) {n c : Nat} (hn : Covers Record.cursor n w.dir.chapters w.pendingCursor)
    (hc : n ≤ c) :
    appended.filter (fun r => c ≤ r.cursor) = (w.dir.chapters.flatMap Prod.snd).filter fun r => c ≤ r.cursor := by
  obtain ⟨gone, hkept⟩ := h.holdsDir.kept
  obtain ⟨start, hnumbered, hend⟩ := h.consecutive
  rw [← WalDir.flatMap_chapters] at hkept
  rw [hkept] at hnumbered hend ⊢
  exact hn.filter_append hnumbered (fun hne => hend (by simp [hne])) hc

end Wal

/-! ### Sessions on the files -/

/-- The files between two sessions and the log inside one, with the records that have been appended (no process reads
`appended`) -/
inductive FileSessions
  | closed (files : SortedMap Nat Bytes) (appended : List Record)
  | opened (w : File.Wal) (appended : List Record)

namespace FileSessions

/-- `now` is the time that a new segment is stamped with. -/
inductive Act
  | «open» (cfg : WalConfig) (now : Nat)
  | append (cursor ts : UInt64) (payload : Bytes) (now : Nat)
  | fsync
  | drop

/-- A step that succeeds.  The cursor of a record is the one after the last record's, and its successor is a `u64`. -/
def step (crc32c : Bytes → UInt32) : FileSessions → Act → Option FileSessions
  | closed files appended, .open cfg now =>
    if cfg.enabled ∧ cfg.fsyncPolicy = .each then
      match File.Wal.open crc32c cfg files now with
      | .ok w => some (opened w appended)
      | .error _ => none
    else none
  | opened w appended, .append cursor ts payload now =>
    if (appended.getLast?.all fun r => cursor.toNat = r.cursor + 1) ∧ cursor.toNat + 1 < 2 ^ 64 then
      match w.append crc32c cursor.toNat ts.toNat payload now with
      | (w, .ok _) => some (opened w (appended ++ [⟨cursor.toNat, ts.toNat, payload⟩]))
      | (_, .error _) => none
    else none
  | opened w appended, .fsync => some (opened w.fsync appended)
  | opened w appended, .drop => some (closed w.drop appended)
  | _, _ => none

/-- No files -/
def init : FileSessions := closed .empty []

/-- The files hold the end of the records `appended`, encoded. -/
def Inv (crc32c : Bytes → UInt32) : FileSessions → Prop
  | closed files appended => ∃ created dir, files = File.encodeDir crc32c created dir ∧ File.Plain dir ∧
      Wal.HoldsDir dir appended
  | opened fw appended => ∃ w, File.Images crc32c fw w ∧ w.Holds appended

variable {crc32c : Bytes → UInt32} {s s' : FileSessions}

theorem inv_init : Inv crc32c init := by
  refine ⟨fun _ => 0, .empty, rfl, nofun, ⟨0, 0, rfl, 0, numbered_nil, fun h => absurd rfl h⟩, ⟨[], rfl⟩, ?_⟩
  exact iff_of_true rfl rfl

theorem Inv.step {a : Act} (h : s.Inv crc32c) (hs : s.step crc32c a = some s') : s'.Inv crc32c := by
  cases s with
  | closed files appended =>
    obtain ⟨created, dir, rfl, hplain, hholds⟩ := h
    cases a with
    | «open» cfg now =>
      simp only [FileSessions.step] at hs
      split at hs
      · rename_i hcfg
        split at hs
        · rename_i fw hopen
          cases hs
          obtain ⟨w, hw, himages⟩ := File.open_simulates hplain hopen
          exact ⟨w, himages, .of_open hcfg.1 hcfg.2 hholds hplain.recover hw⟩
        · cases hs
      · cases hs
    | _ => cases hs
  | opened fw appended =>
    obtain ⟨w, himages, hholds⟩ := h
    have hsame : w.flushBuffer = w :=
      Wal.flushBuffer_of_flushed (fun p hp => (himages.plain p hp).2.1) hholds.flushed
    have hflush : File.Images crc32c fw.flushBuffer w := hsame ▸ himages.flushBuffer
    cases a with
    | append cursor ts payload now =>
      simp only [FileSessions.step] at hs
      split at hs
      · rename_i hcursor
        split at hs
        · rename_i fw' _ happend
          cases hs
          obtain ⟨w', hw', himages'⟩ := File.append_simulates cursor.toNat_lt ts.toNat_lt fw w fw' himages happend
          refine ⟨w', himages', hholds.append (fun r hr => ?_) hw'⟩
          simpa [hr] using hcursor.1
        · cases hs
      · cases hs
    | fsync =>
      cases hs
      exact ⟨w, hflush, hholds⟩
    | drop =>
      cases hs
      obtain ⟨created, hfiles⟩ := hflush.files
      have henabled : fw.cfg.enabled = true := himages.cfg ▸ hholds.enabled
      exact ⟨created, w.dir, by rw [File.Wal.drop, if_pos henabled]; exact hfiles, himages.plain, hholds.holdsDir⟩
    | _ => cases hs

theorem inv_run {acts : List Act} (h : run (step crc32c) init acts = some s) : s.Inv crc32c :=
  run_invariant (Inv crc32c) (fun _ _ _ hs hstep => hs.step hstep) inv_init h

/-- A read from a cursor that the log holds -/
theorem reads_from {acts : List Act} {w : File.Wal} {appended : List Record} {c : Nat}
    (h : run (step crc32c) init acts = some (opened w appended)) (hle : w.oldestCursor ≤ c) :
    ∃ p, w.readFrom c = .ok p ∧ File.WalReplayer.Yields crc32c w.files p (appended.filter fun r => c ≤ r.cursor) ∧
      (appended.filter fun r => c ≤ r.cursor).map Record.cursor = List.range' c (w.pendingCursor - c) := by
  obtain ⟨w', himages, hholds⟩ := inv_run h
  obtain ⟨created, hfiles⟩ := himages.files
  obtain ⟨n, hcovers⟩ := hholds.ordered.covers hholds.flushed
  have hkeys : w.segments.keys = w'.dir.entries.map Prod.fst := by
    rw [himages.segments, hholds.segments, SortedMap.keys]
  have hpending : w.pendingCursor = w'.pendingCursor := himages.pendingCursor
  cases hentries : w'.dir.entries with
  | nil =>
    -- nothing has been appended
    obtain rfl : appended = [] := hholds.empty.2 hentries
    rw [hentries, List.map_nil] at hkeys
    have hzero : w.pendingCursor = 0 := hpending.trans (hholds.fresh rfl)
    refine ⟨⟨[], c, none⟩, by rw [File.Wal.readFrom, hkeys]; rfl, .done rfl, ?_⟩
    rw [hzero, Nat.zero_sub]
    rfl
  | cons p l =>
    have hn : n = p.1 := by
      rw [WalDir.chapters, hentries] at hcovers
      exact hcovers.1.symm
    have hhead : w.segments.keys.head? = some n := by rw [hkeys, hentries, hn]; rfl
    have hnames : w.segments.keys = w'.dir.chapters.map Prod.fst := by
      rw [hkeys, WalDir.chapters, List.map_map]
      rfl
    rw [File.Wal.oldestCursor, hhead] at hle
    obtain ⟨segments, hfrom, hyields⟩ := (File.source_serves crc32c w.files).reads hcovers hle fun p hp => by
      rw [hfiles]
      exact File.source_open himages.plain created hp
    have hread : w.readFrom c = .ok ⟨segments, c, none⟩ := by rw [File.Wal.readFrom, hnames, hfrom]
    refine ⟨_, hread, ?_, ?_⟩
    · rw [hholds.from_cursor hcovers hle]
      exact hyields
    · rw [hholds.from_cursor hcovers hle, hcovers.map_filter hle, hpending]

/-- Read from a cursor that it holds, the log yields the records appended from there on, each once and in order; from an
older one it yields an error. -/
theorem reads_back (crc32c : Bytes → UInt32) {acts : List Act} {w : File.Wal} {appended : List Record}
    (h : run (step crc32c) init acts = some (opened w appended)) (c : Nat) :
    (w.oldestCursor ≤ c ∧ c ≤ w.pendingCursor → ∃ p, w.readFrom c = .ok p ∧
      File.WalReplayer.Yields crc32c w.files p (appended.filter fun r => c ≤ r.cursor) ∧
      (appended.filter fun r => c ≤ r.cursor).map Record.cursor = List.range' c (w.pendingCursor - c)) ∧
    (c < w.oldestCursor → w.readFrom c = .error (.cursorTooOld c w.oldestCursor)) := by
  refine ⟨fun hrange => ?_, File.Wal.readFrom_too_old⟩
  exact reads_from h hrange.1

/-- Segments with room for two small records, three of which retention keeps -/
def smallSegments : WalConfig := ⟨true, .each, 100, 200⟩

/-- Five records from the cursor 7 on, three of them before a restart; the first segment is gone. -/
theorem reads_back_smallSegments : ∃ w appended,
    run (step castagnoli) init [.open smallSegments 0, .append 7 0 [1] 0, .append 8 0 [2, 2] 0, .append 9 0 [] 0, .fsync,
        .drop, .open smallSegments 0, .append 10 0 [3] 0, .append 11 0 [4] 0] = some (opened w appended) ∧
      w.oldestCursor = 9 ∧ w.pendingCursor = 12 ∧
      (∃ p, w.readFrom 10 = .ok p ∧ File.WalReplayer.Yields castagnoli w.files p (appended.filter fun r => 10 ≤ r.cursor)) ∧
      w.readFrom 8 = .error (.cursorTooOld 8 w.oldestCursor) := by
  obtain ⟨s, hrun, hs⟩ := Option.bind_eq_some_iff.1
    (show ((run (step castagnoli) init [.open smallSegments 0, .append 7 0 [1] 0, .append 8 0 [2, 2] 0, .append 9 0 [] 0,
        .fsync, .drop, .open smallSegments 0, .append 10 0 [3] 0, .append 11 0 [4] 0]).bind fun
          | opened w _ => some (w.oldestCursor, w.pendingCursor)
          | closed _ _ => none) = some (9, 12) by decide +kernel)
  cases s with
  | closed files appended => cases hs
  | opened w appended =>
    simp only [Option.some.injEq, Prod.mk.injEq] at hs
    obtain ⟨p, hp, hyields, -⟩ := (reads_back castagnoli hrun 10).1 ⟨by omega, by omega⟩
    exact ⟨w, appended, hrun, hs.1, hs.2, ⟨p, hp, hyields⟩, (reads_back castagnoli hrun 8).2 (by omega)⟩

end FileSessions

end Mmbus
