import Mmbus.MappedLog

/-!
# An append-only map in mapped files

Sessions on the log in mapped files, with any `FsyncPolicy`: opens, successful appends at the pending cursor, fsyncs and
drops.  At any time the log can be read from each cursor on that it still holds (`reads_back`).
-/

namespace Mmbus.V2

open Attempt Chapters Replays Transition

namespace Wal

variable {cfg : WalConfig} {w w' : Wal} {dir : WalDir}

/-! ### What an open finds -/

/-- The log has the records of the directory, and none besides. -/
structure Found (dir : WalDir) (w : Wal) : Prop where
  records : w.dir.records = dir.records
  retired : w.retired = []
  segments : w.segments.keys = w.dir.keys
  empty : w.dir.entries = [] → dir.entries = []

theorem found_ofDir (cfg : WalConfig) (dir : WalDir) (active pending : Nat) : Found dir (ofDir cfg dir active pending) :=
  ⟨rfl, rfl, SortedMap.keys_map _, id⟩

theorem found_createDeferred {first active pending : Nat}
    (hs : createDeferred first .ok (ofDir cfg dir active pending) = (w, .ok ())) : Found dir w := by
  obtain ⟨w₁, hactivate, hstore⟩ := andThen_eq_ok.1 hs
  obtain ⟨w₂, hcreate, hactivated⟩ := andThen_eq_ok.1 hactivate
  obtain ⟨rfl, hnew, -⟩ := createFile_ok hcreate
  cases hactivated
  cases hstore
  have hmap := SortedMap.map_insert (m := dir) (f := fun _ _ => ()) first (.empty cfg.segmentSizeMax)
  refine ⟨SortedMap.flatMap_insert_nil hnew rfl, rfl, ?_, fun hnil => ?_⟩
  · change ((dir.map fun _ _ => ()).insert first ()).keys = _
    rw [← hmap, SortedMap.keys_map]
    rfl
  · have hmem : first ∈ (dir.insert first (.empty cfg.segmentSizeMax)).keys := SortedMap.mem_keys_insert ..
    change (dir.insert first (.empty cfg.segmentSizeMax)).entries = [] at hnil
    rw [SortedMap.keys, hnil] at hmem
    cases hmem

theorem found_open {active : Nat} (hs : «open» cfg dir active = .ok w) : Found dir w := by
  simp only [«open»] at hs
  split at hs
  · cases hs
    exact found_ofDir ..
  · split at hs
    · cases hs
      exact found_ofDir ..
    · split at hs
      · rename_i hcreate
        cases hs
        exact found_createDeferred hcreate
      · cases hs

/-! ### What the log keeps of what was appended -/

/-- The open log holds the end of the records `appended`, which are numbered from 0 on. -/
structure Holds (w : Wal) (appended : List Record) : Prop where
  enabled : w.cfg.enabled = true
  ordered : w.Ordered
  takes : w.Ready w.cfg ∨ w.Stuck
  segments : w.segments.keys = w.dir.keys
  kept : ∃ gone, appended = gone ++ w.history
  numbered : Numbered Record.cursor 0 appended
  pending : appended.length = w.pendingCursor
  empty : w.dir.entries = [] → appended = []

/-- The segments hold the end of the records `appended`. -/
structure HoldsDir (dir : WalDir) (appended : List Record) : Prop where
  covers : ∃ n, Covers Record.cursor n dir.chapters appended.length
  header : ∀ p ∈ dir.entries, p.2.header = false → p.2.records = []
  kept : ∃ gone, appended = gone ++ dir.records
  numbered : Numbered Record.cursor 0 appended
  empty : dir.entries = [] → appended = []

variable {appended : List Record}

theorem Holds.holdsDir (h : w.Holds appended) : HoldsDir w.dir appended := by
  obtain ⟨gone, hkept⟩ := h.kept
  refine ⟨?_, h.ordered.header, ⟨gone ++ w.retired, ?_⟩, h.numbered, h.empty⟩
  · rw [h.pending]
    exact h.ordered.covers
  · rw [hkept, history, log, List.append_assoc]

theorem Holds.of_open {active : Nat} (henabled : cfg.enabled = true) (h : HoldsDir dir appended)
    (hs : «open» cfg dir active = .ok w) : w.Holds appended := by
  obtain ⟨n, hcovers⟩ := h.covers
  obtain ⟨gone, hkept⟩ := h.kept
  obtain ⟨hopened, -⟩ := open_passes henabled ⟨⟨n, _, hcovers⟩, h.header⟩ hs
  have hfound := found_open hs
  have htakes : w.Ready cfg ∨ w.Stuck := by
    by_cases hempty : ∀ k seg, dir.last? = some (k, seg) → seg.records ≠ []
    · exact .inl (hopened.ready hempty)
    · obtain ⟨k, seg, hlast, hnil⟩ : ∃ k seg, dir.last? = some (k, seg) ∧ seg.records = [] := by simpa using hempty
      exact .inr (hopened.stuck k seg hlast hnil)
  refine ⟨hopened.cfg_eq ▸ henabled, hopened.ordered, hopened.cfg_eq ▸ htakes, hfound.segments, ⟨gone, ?_⟩, h.numbered, ?_,
    fun hnil => h.empty (hfound.empty hnil)⟩
  · rw [history, log, hfound.retired, hfound.records, List.nil_append, hkept]
  · by_cases hnil : dir.entries = []
    · rw [hopened.fresh hnil, h.empty hnil, List.length_nil]
    · exact (hopened.pending n _ hcovers hnil).symm

theorem Holds.append {ts : Nat} {payload : Bytes} (h : w.Holds appended)
    (hs : append w.pendingCursor ts payload .ok w = (w', .ok ())) :
    w'.Holds (appended ++ [⟨w.pendingCursor, ts, payload⟩]) := by
  have hready : w.Ready w.cfg := by
    refine h.takes.resolve_right fun hstuck => hstuck.append_fails h.enabled ts payload ?_
    rw [hs]
  have hpasses := append_passes hready h.ordered hs
  have hready' := hpasses.ends.adds.ready
  have hcfg : w'.cfg = w.cfg := hready'.cfg_eq
  have hpending : w'.pendingCursor = w.pendingCursor + 1 := hpasses.ends.adds.next
  have hentries : w'.history = w.history ++ [⟨w.pendingCursor, ts, payload⟩] := hpasses.ends.adds.entries
  obtain ⟨gone, hkept⟩ := h.kept
  refine ⟨hcfg ▸ h.enabled, hpasses.ordered, .inl (hcfg ▸ hready'), hready'.segments, ⟨gone, ?_⟩, ?_, ?_, fun hnil => ?_⟩
  · rw [hentries, hkept, List.append_assoc]
  · refine numbered_append.2 ⟨h.numbered, numbered_singleton.2 ?_⟩
    rw [h.pending, Nat.zero_add]
  · rw [List.length_append, List.length_singleton, h.pending, hpending]
  · obtain ⟨first, hw⟩ := Option.ne_none_iff_exists'.1 hpasses.ends.writer
    obtain ⟨closed, seg, hdir, -⟩ := hready'.active first hw
    simp [hdir] at hnil

/-- What the log holds from `c` on are the records from `c` on. -/
theorem Holds.from_cursor (h : w.Holds appended) {n c : Nat} (hn : Covers Record.cursor n w.dir.chapters w.pendingCursor)
    (hc : n ≤ c) :
    appended.filter (fun r => c ≤ r.cursor) = (w.dir.chapters.flatMap Prod.snd).filter fun r => c ≤ r.cursor := by
  obtain ⟨gone, hkept⟩ := h.holdsDir.kept
  have hnumbered := h.numbered
  have hend := h.pending
  rw [← WalDir.flatMap_chapters] at hkept
  rw [hkept] at hnumbered hend ⊢
  exact hn.filter_append hnumbered (fun _ => (Nat.zero_add _).trans hend) hc

end Wal

/-! ### Sessions on the files -/

namespace File

/-- `Wal::read_from` -/
def Wal.readFrom (cursor : Nat) (w : Wal) : Except WalError (Replayer OpenSegment) :=
  match segmentsFrom w.segments.keys cursor with
  | .ok segments => .ok ⟨segments, cursor, none⟩
  | .error oldest => .error (.cursorTooOld cursor oldest)

/-- `Wal::oldest_cursor` -/
def Wal.oldestCursor (w : Wal) : Nat := w.segments.keys.head?.getD 0

theorem Wal.readFrom_too_old {w : Wal} {c : Nat} (h : c < w.oldestCursor) :
    w.readFrom c = .error (.cursorTooOld c w.oldestCursor) := by
  cases hhead : w.segments.keys.head? with
  | none =>
    rw [oldestCursor, hhead] at h
    exact absurd h (Nat.not_lt_zero c)
  | some oldest =>
    have holdest : w.oldestCursor = oldest := by rw [oldestCursor, hhead, Option.getD_some]
    rw [holdest] at h ⊢
    rw [readFrom, segmentsFrom_too_old hhead h]

/-- Every file can be opened, and has its records. -/
theorem source_open {crc32c : Bytes → UInt32} {files : SortedMap Nat Mapping}
    (hmapped : ∀ p ∈ files.entries, p.2.Mapped crc32c p.1) {p : Nat × List Record}
    (hp : p ∈ WalDir.chapters (files.map fun _ => Mapping.segment)) :
    ∃ f, (source crc32c files).open p.1 = .ok f ∧ f.Before crc32c p.2 := by
  obtain ⟨q, hq, rfl⟩ := List.mem_map.1 hp
  obtain ⟨⟨k, s⟩, hs, rfl⟩ := List.mem_map.1 hq
  refine ⟨⟨s.size, s.mem, .opened⟩, ?_, OpenSegment.before_open (hmapped _ hs)⟩
  simp only [source, SortedMap.lookup_of_mem hs, open_mapped (hmapped _ hs)]

end File

/-- The files between two sessions, with what `active.dat` holds, and the log inside one; with the records that have been
appended (no process reads `appended`) -/
inductive FileSessions
  | closed (files : SortedMap Nat Mapping) (active : Nat) (appended : List Record)
  | opened (w : File.Wal) (appended : List Record)

namespace FileSessions

inductive Act
  | «open» (cfg : WalConfig)
  | append (ts : UInt64) (payload : Bytes)
  | fsync
  | drop

/-- A step that succeeds.  A record is appended at the pending cursor, and the next cursor is a `u64`. -/
def step (crc32c : Bytes → UInt32) : FileSessions → Act → Option FileSessions
  | closed files active appended, .open cfg =>
    if cfg.enabled then
      match File.Wal.open crc32c cfg files active with
      | .ok w => some (opened w appended)
      | .error _ => none
    else none
  | opened w appended, .append ts payload =>
    let c : File.Call := ⟨UInt64.ofNat w.pendingCursor, ts, payload⟩
    if w.pendingCursor + 1 < 2 ^ 64 then
      match w.append crc32c c with
      | (w, .ok _) => some (opened w (appended ++ [c.record]))
      | (_, .error _) => none
    else none
  | opened w appended, .fsync => some (opened w.fsync appended)
  | opened w appended, .drop => some (closed w.fsync.files w.fsync.active appended)
  | _, _ => none

/-- No files -/
def init : FileSessions := closed .empty 0 []

/-- The mapped files hold the end of the records `appended`. -/
def Inv (crc32c : Bytes → UInt32) : FileSessions → Prop
  | closed files _ appended => (∀ p ∈ files.entries, p.2.Mapped crc32c p.1) ∧
      Wal.HoldsDir (files.map fun _ => Mapping.segment) appended
  | opened fw appended => ∃ w, File.Images crc32c fw w ∧ w.Holds appended

variable {crc32c : Bytes → UInt32} {s s' : FileSessions}

theorem inv_init : Inv crc32c init := ⟨nofun, ⟨0, rfl⟩, nofun, ⟨[], rfl⟩, numbered_nil, fun _ => rfl⟩

theorem Inv.step {a : Act} (h : s.Inv crc32c) (hs : s.step crc32c a = some s') : s'.Inv crc32c := by
  cases s with
  | closed files active appended =>
    obtain ⟨hmapped, hholds⟩ := h
    cases a with
    | «open» cfg =>
      simp only [FileSessions.step] at hs
      split at hs
      · rename_i henabled
        split at hs
        · rename_i fw hopen
          cases hs
          obtain ⟨w, hw, himages⟩ := File.open_simulates hmapped hopen
          exact ⟨w, himages, .of_open henabled hholds hw⟩
        · cases hs
      · cases hs
    | _ => cases hs
  | opened fw appended =>
    obtain ⟨w, himages, hholds⟩ := h
    cases a with
    | append ts payload =>
      simp only [FileSessions.step] at hs
      split at hs
      · rename_i hlt
        split at hs
        · rename_i fw' _ happend
          cases hs
          obtain ⟨w', hw', himages'⟩ := File.append_simulates fw w fw' himages happend
          have hcursor : (UInt64.ofNat fw.pendingCursor).toNat = w.pendingCursor := by
            rw [himages.pendingCursor] at hlt ⊢
            exact UInt64.toNat_ofNat_of_lt' (Nat.lt_of_succ_lt hlt)
          simp only [File.Call.record, hcursor] at hw' ⊢
          exact ⟨w', himages', hholds.append hw'⟩
        · cases hs
      · cases hs
    | fsync =>
      cases hs
      exact ⟨w, himages, hholds⟩
    | drop =>
      cases hs
      exact ⟨himages.mapped, himages.dir ▸ hholds.holdsDir⟩
    | _ => cases hs

theorem inv_run {acts : List Act} (h : run (step crc32c) init acts = some s) : s.Inv crc32c :=
  run_invariant (Inv crc32c) (fun _ _ _ hs hstep => hs.step hstep) inv_init h

/-- A read from a cursor that the log holds -/
theorem reads_from {acts : List Act} {w : File.Wal} {appended : List Record} {c : Nat}
    (h : run (step crc32c) init acts = some (opened w appended)) (hle : w.oldestCursor ≤ c) :
    ∃ p, w.readFrom c = .ok p ∧ (File.source crc32c w.files).Yields p (appended.filter fun r => c ≤ r.cursor) ∧
      (appended.filter fun r => c ≤ r.cursor).map Record.cursor = List.range' c (w.pendingCursor - c) := by
  obtain ⟨w', himages, hholds⟩ := inv_run h
  obtain ⟨n, hcovers⟩ := hholds.ordered.covers
  have hnames : w.segments.keys = w'.dir.chapters.map Prod.fst := by
    rw [himages.segments, hholds.segments, SortedMap.keys, WalDir.chapters, List.map_map]
    rfl
  have hpending : w.pendingCursor = w'.pendingCursor := himages.pendingCursor
  cases hentries : w'.dir.entries with
  | nil =>
    -- nothing has been appended
    obtain rfl : appended = [] := hholds.empty hentries
    have hkeys : w.segments.keys = [] := by rw [hnames, WalDir.chapters, hentries]; rfl
    have hzero : w.pendingCursor = 0 := hpending.trans hholds.pending.symm
    refine ⟨⟨[], c, none⟩, by rw [File.Wal.readFrom, hkeys]; rfl, .done rfl, ?_⟩
    rw [hzero, Nat.zero_sub]
    rfl
  | cons p l =>
    have hn : n = p.1 := by
      rw [WalDir.chapters, hentries] at hcovers
      exact hcovers.1.symm
    have hhead : w.segments.keys.head? = some n := by rw [hnames, WalDir.chapters, hentries, hn]; rfl
    rw [File.Wal.oldestCursor, hhead] at hle
    obtain ⟨segments, hfrom, hyields⟩ := (File.source_serves crc32c w.files).reads hcovers hle fun p hp =>
      File.source_open himages.mapped (himages.dir ▸ hp)
    have hread : w.readFrom c = .ok ⟨segments, c, none⟩ := by rw [File.Wal.readFrom, hnames, hfrom]
    refine ⟨_, hread, ?_, ?_⟩
    · rw [hholds.from_cursor hcovers hle]
      exact hyields
    · rw [hholds.from_cursor hcovers hle, hcovers.map_filter hle, hpending]

/-- Read from a cursor that it holds, the log yields the records appended from there on, each once and in order; from an
older one it yields an error. -/
theorem mapped_reads_back (crc32c : Bytes → UInt32) {acts : List Act} {w : File.Wal} {appended : List Record}
    (h : run (step crc32c) init acts = some (opened w appended)) (c : Nat) :
    (w.oldestCursor ≤ c ∧ c ≤ w.pendingCursor → ∃ p, w.readFrom c = .ok p ∧
      (File.source crc32c w.files).Yields p (appended.filter fun r => c ≤ r.cursor) ∧
      (appended.filter fun r => c ≤ r.cursor).map Record.cursor = List.range' c (w.pendingCursor - c)) ∧
    (c < w.oldestCursor → w.readFrom c = .error (.cursorTooOld c w.oldestCursor)) := by
  refine ⟨fun hrange => ?_, File.Wal.readFrom_too_old⟩
  exact reads_from h hrange.1

/-- Segments with room for one record, and retention that keeps two of them -/
def smallSegments : WalConfig := ⟨true, .batched, 68, 140⟩

/-- Three records, two of them before a restart; the first segment is gone. -/
theorem mapped_reads_back_smallSegments : ∃ w appended,
    run (step castagnoli) init [.open smallSegments, .append 0 [1], .append 0 [2, 2], .fsync, .drop, .open smallSegments,
        .append 0 [3]] = some (opened w appended) ∧
      w.oldestCursor = 1 ∧ w.pendingCursor = 3 ∧
      (∃ p, w.readFrom 2 = .ok p ∧ (File.source castagnoli w.files).Yields p (appended.filter fun r => 2 ≤ r.cursor)) ∧
      w.readFrom 0 = .error (.cursorTooOld 0 w.oldestCursor) := by
  obtain ⟨s, hrun, hs⟩ := Option.bind_eq_some_iff.1
    (show ((run (step castagnoli) init [.open smallSegments, .append 0 [1], .append 0 [2, 2], .fsync, .drop,
        .open smallSegments, .append 0 [3]]).bind fun
          | opened w _ => some (w.oldestCursor, w.pendingCursor)
          | closed _ _ _ => none) = some (1, 3) by decide +kernel)
  cases s with
  | closed files active appended => cases hs
  | opened w appended =>
    simp only [Option.some.injEq, Prod.mk.injEq] at hs
    obtain ⟨p, hp, hyields, -⟩ := (mapped_reads_back castagnoli hrun 2).1 ⟨by omega, by omega⟩
    exact ⟨w, appended, hrun, hs.1, hs.2, ⟨p, hp, hyields⟩, (mapped_reads_back castagnoli hrun 0).2 (by omega)⟩

end FileSessions

end Mmbus.V2
