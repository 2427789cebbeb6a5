import Mmbus.Sessions
import Mmbus.SessionsV2

/-!
# The log from one publisher to the next

A `Publisher` drops its fields in the order of their declaration: the lock before the log.  As soon as the lock is free
another `Publisher::create` may open the log, while the old one still has its buffer and its flusher thread.

The v0.1 log may then write the rest of its buffer under the new one (`hand_over_fails`).  The hand-over is clean if the
old log has an empty buffer whenever the new one is opened, and always for the v2 log, which has no buffer
(`hands_over`).
-/

namespace Mmbus.Handover

open Chapters Transition

/-- The fields of `Publisher` that do something when they are dropped -/
inductive Field
  | ring
  | listener
  | clients
  | lock
  | wal
  deriving DecidableEq

/-- In the order of their declaration -/
def declared : List Field := [.ring, .listener, .clients, .lock, .wal]

/-- A version of the log: the steps of the new publisher's log on the directory, and the flush of the old one, by its
flusher thread or by its drop.  The old log is `ω`, the directory `δ`. -/
structure Version (ω δ σ α : Type) where
  step : σ → α → Option σ
  opens : α → Bool
  isOpen : σ → Bool
  dir : σ → δ
  withDir : δ → σ → σ
  batched : ω → Bool
  flush : ω → δ → ω × δ

/-- The old log until it is dropped, the fields that are still to be dropped, whether the new publisher has the lock, the
new log or what it will open, whether that has been opened, and whether the old log has changed a segment file since -/
structure State (ω σ : Type) where
  old : Option ω
  fields : List Field
  locked : Bool
  log : σ
  opened : Bool
  late : Bool

/-- A round of the flusher thread, the drop of the next field, the lock and the steps of the new publisher -/
inductive Act (α : Type)
  | flusher
  | dropField
  | acquire
  | log (a : α)

variable {ω δ σ α : Type} [DecidableEq δ]

/-- The old log flushes. -/
def State.flushOld (V : Version ω δ σ α) (w : ω) (s : State ω σ) : State ω σ :=
  let d := V.dir s.log
  let (w, d') := V.flush w d
  { s with old := some w, log := V.withDir d' s.log, late := s.late || (s.opened && decide (d' ≠ d)) }

def step (V : Version ω δ σ α) (s : State ω σ) : Act α → Option (State ω σ)
  | .flusher =>
    match s.old with
    | some w => if V.batched w then some (s.flushOld V w) else none
    | none => none
  | .dropField =>
    match s.fields, s.old with
    | .wal :: fields, some w => some { s.flushOld V w with fields := fields, old := none }
    | _ :: fields, _ => some { s with fields := fields }
    | [], _ => none
  | .acquire => if .lock ∈ s.fields then none else some { s with locked := true }
  | .log a =>
    if s.locked then (V.step s.log a).map fun l => { s with log := l, opened := s.opened || V.opens a } else none

/-- The old publisher is about to be dropped. -/
def start (w : ω) (l : σ) : State ω σ := ⟨some w, declared, false, l, false, false⟩

/-! ### A clean hand-over -/

/-- What makes the hand-over clean: `I` holds of the new log, `J` of the old one on its directory, and a log that is
`Idle` has nothing to write. -/
structure Clean (V : Version ω δ σ α) (I : σ → Prop) (J : ω → δ → Prop) (Idle : ω → Prop) : Prop where
  step : ∀ {l a l'}, I l → V.step l a = some l' → I l'
  opens : ∀ {l a l'}, V.isOpen l = false → V.step l a = some l' → V.opens a = true
  flush : ∀ {w l}, I l → V.isOpen l = false → J w (V.dir l) →
    J (V.flush w (V.dir l)).1 (V.dir (V.withDir (V.flush w (V.dir l)).2 l)) ∧ I (V.withDir (V.flush w (V.dir l)).2 l) ∧
      V.isOpen (V.withDir (V.flush w (V.dir l)).2 l) = false
  idle : ∀ {w d}, Idle w → (V.flush w d).2 = d ∧ Idle (V.flush w d).1
  withDir : ∀ l, V.withDir (V.dir l) l = l

variable {V : Version ω δ σ α} {I : σ → Prop} {J : ω → δ → Prop} {Idle : ω → Prop} {s s' : State ω σ} {a : Act α}

/-- The old log is idle whenever the new one is opened. -/
def IdleAtOpen (V : Version ω δ σ α) (Idle : ω → Prop) (s : State ω σ) : Act α → Prop
  | .log a => V.opens a = true → ∀ w, s.old = some w → Idle w
  | _ => True

/-- The old log writes until the new one is opened, and is idle from then on. -/
structure Inv (V : Version ω δ σ α) (I : σ → Prop) (J : ω → δ → Prop) (Idle : ω → Prop) (s : State ω σ) : Prop where
  log : I s.log
  late : s.late = false
  old : s.opened = false ∧ V.isOpen s.log = false ∧ (∀ w, s.old = some w → J w (V.dir s.log)) ∨
    ∀ w, s.old = some w → Idle w

theorem Inv.flushOld (hV : Clean V I J Idle) (h : Inv V I J Idle s) {w : ω} (hw : s.old = some w) :
    Inv V I J Idle (s.flushOld V w) := by
  rcases h.old with ⟨hopened, hclosed, hJ⟩ | hidle
  · obtain ⟨hJ', hI', hclosed'⟩ := hV.flush h.log hclosed (hJ w hw)
    refine ⟨hI', ?_, .inl ⟨hopened, hclosed', ?_⟩⟩
    · simp only [State.flushOld, h.late, hopened, Bool.false_and, Bool.or_false]
    · rintro w' ⟨⟩
      exact hJ'
  · obtain ⟨hsame, hidle'⟩ := hV.idle (d := V.dir s.log) (hidle w hw)
    refine ⟨?_, ?_, .inr ?_⟩
    · simp only [State.flushOld, hsame, hV.withDir]
      exact h.log
    · simp only [State.flushOld, h.late, hsame, ne_eq, not_true_eq_false, decide_false, Bool.and_false, Bool.or_false]
    · rintro w' ⟨⟩
      exact hidle'

theorem Inv.step (hV : Clean V I J Idle) (h : Inv V I J Idle s) (hidle : IdleAtOpen V Idle s a)
    (hs : Handover.step V s a = some s') : Inv V I J Idle s' := by
  cases a with
  | flusher =>
    simp only [Handover.step] at hs
    split at hs
    · rename_i w hw
      split at hs
      · cases hs
        exact h.flushOld hV hw
      · cases hs
    · cases hs
  | dropField =>
    simp only [Handover.step] at hs
    split at hs
    · rename_i w _ hw
      cases hs
      have hflush := h.flushOld hV hw
      exact ⟨hflush.log, hflush.late, .inr nofun⟩
    · cases hs
      exact ⟨h.log, h.late, h.old⟩
    · cases hs
  | acquire =>
    simp only [Handover.step] at hs
    split at hs
    · cases hs
    · cases hs
      exact ⟨h.log, h.late, h.old⟩
  | log a =>
    simp only [Handover.step] at hs
    split at hs
    · obtain ⟨l, hl, rfl⟩ := Option.map_eq_some_iff.1 hs
      refine ⟨hV.step h.log hl, h.late, .inr ?_⟩
      rcases h.old with ⟨-, hclosed, -⟩ | hidle'
      · exact hidle (hV.opens hclosed hl)
      · exact hidle'
    · cases hs

theorem inv_run (hV : Clean V I J Idle) {w : ω} {l : σ} (hl : I l) (hclosed : V.isOpen l = false) (hJ : J w (V.dir l))
    {acts : List (Act α)} (hidle : Meets (step V) (IdleAtOpen V Idle) (start w l) acts)
    (h : run (step V) (start w l) acts = some s) : Inv V I J Idle s := by
  refine run_invariant_when _ _ (fun _ _ _ hi hc hs => hi.step hV hc hs) hidle ⟨hl, rfl, .inl ⟨rfl, hclosed, ?_⟩⟩ h
  rintro w' ⟨⟩
  exact hJ

/-! ### The two versions -/

/-- The v0.1 log -/
def v1 : Version Wal WalDir Sessions Sessions.Act where
  step := Sessions.step
  opens
    | .open _ | .crashOpen .. => true
    | _ => false
  isOpen
    | .closed _ => false
    | .opened _ => true
  dir
    | .closed d => d
    | .opened w => w.dir
  withDir d
    | .closed _ => .closed d
    | .opened w => .opened { w with dir := d }
  batched w := w.cfg.fsyncPolicy = .batched
  flush w d :=
    let w := { w with dir := d }.flushBuffer
    (w, w.dir)

/-- The v2 log: a flush makes the operating system write back the mapped bytes. -/
def v2 : Version V2.Wal V2.WalDir V2.Sessions V2.Sessions.Act where
  step := V2.Sessions.step
  opens
    | .open .. | .crashOpen .. => true
    | _ => false
  isOpen
    | .closed _ => false
    | .opened _ => true
  dir
    | .closed d => d
    | .opened w => w.dir
  withDir d
    | .closed _ => .closed d
    | .opened w => .opened { w with dir := d }
  batched w := w.cfg.fsyncPolicy = .batched
  flush w d :=
    let w := V2.Wal.flusherTick .ok { w with dir := d }
    (w, w.dir)

/-- The old v0.1 log has nothing in its buffer whenever the new one is opened. -/
abbrev NothingBuffered : State Wal Sessions → Act Sessions.Act → Prop := IdleAtOpen v1 fun w => w.buffer = []

theorem flushBuffer_dir {w : Wal} (h : w.buffer = []) : w.flushBuffer.dir = w.dir ∧ w.flushBuffer.buffer = [] := by
  cases hw : w.writer with
  | none =>
    have : w.flushBuffer = w := by simp only [Wal.flushBuffer, hw]
    rw [this]
    exact ⟨rfl, h⟩
  | some wr =>
    have hnil : wr.buffer = [] := by simpa [Wal.buffer, hw] using h
    simp only [Wal.flushBuffer, Wal.moveBuffer, hw, hnil, List.take_nil, List.drop_nil]
    refine ⟨SortedMap.map_eq_self fun p _ => ?_, rfl⟩
    have hkeep (seg : Segment) : seg.append [] = seg := by simp [Segment.append]
    rw [hkeep, ite_self]

theorem clean_v1 : Clean v1 Sessions.Inv (fun w d => Sessions.Inv (.opened { w with dir := d })) (fun w => w.buffer = [])
    where
  step := Sessions.Inv.step
  opens {l a l'} hclosed hs := by
    cases l with
    | opened w => cases hclosed
    | closed d => cases a <;> first | rfl | cases hs
  flush {w l} _ hclosed hJ := by
    cases l with
    | opened w => cases hclosed
    | closed d =>
      have hflush : Sessions.Inv (.opened ({ w with dir := d } : Wal).flushBuffer) :=
        Sessions.Inv.step (a := .flush) hJ rfl
      exact ⟨hflush, hflush.2.1.dir, rfl⟩
  idle {w d} hidle := flushBuffer_dir (w := { w with dir := d }) hidle
  withDir l := by cases l <;> rfl

theorem flusherTick_ok (w : V2.Wal) : V2.Wal.flusherTick .ok w = w := by
  unfold V2.Wal.flusherTick
  split <;> rfl

theorem clean_v2 : Clean v2 V2.Sessions.Inv (fun _ _ => True) fun _ => True where
  step := V2.Sessions.Inv.step
  opens {l a l'} hclosed hs := by
    cases l with
    | opened w => cases hclosed
    | closed d => cases a <;> first | rfl | cases hs
  flush {w l} hl hclosed _ := by
    cases l with
    | opened w => cases hclosed
    | closed d =>
      refine ⟨trivial, ?_, rfl⟩
      simp only [v2, flusherTick_ok]
      exact hl
  idle {w d} _ := ⟨by simp only [v2, flusherTick_ok], trivial⟩
  withDir l := by cases l <;> rfl

theorem numbered_log {w : Wal} (h : w.Ordered) : ∃ n, Numbered Record.cursor n w.log := by
  obtain ⟨n, m, hcovers, hbuffer, -⟩ := h
  obtain ⟨hnum, hlen⟩ := hcovers.flatMap
  rw [WalDir.flatMap_chapters] at hnum hlen
  exact ⟨n, numbered_append.2 ⟨hnum, hlen ▸ hbuffer⟩⟩

theorem numbered_log_v2 {w : V2.Wal} (h : w.Ordered) : ∃ n, Numbered Record.cursor n w.log := by
  obtain ⟨n, hcovers⟩ := h.covers
  obtain ⟨hnum, -⟩ := hcovers.flatMap
  rw [V2.WalDir.flatMap_chapters] at hnum
  exact ⟨n, hnum⟩

/-- If the old v0.1 log has nothing in its buffer whenever the new one is opened, it changes no file from then on, and
the cursors of the new log are contiguous.  Of the v2 log this holds always. -/
theorem hands_over (sessions : List Sessions.Act) (sessionsV2 : List V2.Sessions.Act) :
    (∀ w, run Sessions.step .init sessions = some (.opened w) →
      ∀ (acts : List (Act Sessions.Act)) (s : State Wal Sessions),
        Meets (step v1) NothingBuffered (start w (.closed w.dir)) acts →
        run (step v1) (start w (.closed w.dir)) acts = some s →
        s.late = false ∧ ∀ w', s.log = .opened w' → ∃ n, Numbered Record.cursor n w'.log) ∧
    ∀ w, run V2.Sessions.step .init sessionsV2 = some (.opened w) →
      ∀ (acts : List (Act V2.Sessions.Act)) (s : State V2.Wal V2.Sessions),
        run (step v2) (start w (.closed w.dir)) acts = some s →
        s.late = false ∧ ∀ w', s.log = .opened w' → ∃ n, Numbered Record.cursor n w'.log := by
  refine ⟨fun w hw acts s hbuffered hs => ?_, fun w hw acts s hs => ?_⟩
  · have hold : Sessions.Inv (.opened w) :=
      run_invariant Sessions.Inv (fun _ _ _ h hs => h.step hs) Sessions.Inv.init hw
    have hinv := inv_run clean_v1 (l := .closed w.dir) hold.2.1.dir rfl hold hbuffered hs
    refine ⟨hinv.late, fun w' hw' => numbered_log ?_⟩
    have hlog := hinv.log
    rw [hw'] at hlog
    exact hlog.2.1
  · have hold : V2.Sessions.Inv (.opened w) :=
      run_invariant V2.Sessions.Inv (fun _ _ _ h hs => h.step hs) V2.Sessions.Inv.init hw
    have hidle : Meets (step v2) (IdleAtOpen v2 fun _ => True) (start w (.closed w.dir)) acts := by
      refine Meets.of_split fun _ a _ _ _ _ => ?_
      cases a with
      | log a => exact fun _ _ _ => trivial
      | _ => trivial
    have hinv := inv_run clean_v2 (l := .closed w.dir) hold.2.1.dir rfl trivial hidle hs
    refine ⟨hinv.late, fun w' hw' => numbered_log_v2 ?_⟩
    have hlog := hinv.log
    rw [hw'] at hlog
    exact hlog.2.1

/-- Without fsyncs, and with segments for many records -/
def unsynced : WalConfig := ⟨true, .none, 1000, 1000⟩

/-- The old log has a record in its file and one in its buffer. -/
def oldSession : List Sessions.Act := [.open unsynced, .append 0 [7], .flush, .append 0 [8]]

/-- The new publisher comes when the lock is free, and the old log is dropped last. -/
def lateDrop : List (Act Sessions.Act) :=
  [.dropField, .dropField, .dropField, .dropField, .acquire, .log (.open unsynced), .log (.append 0 [9]), .log .flush,
    .dropField]

/-- The cursors in the files of the log, and whether the old log has changed one -/
def outcome (s : State Wal Sessions) : Bool × List Nat :=
  (s.late, match s.log with
    | .closed d => d.records.map Record.cursor
    | .opened w => w.log.map Record.cursor)

def handOver (sessions : List Sessions.Act) (acts : List (Act Sessions.Act)) : Option (State Wal Sessions) :=
  match run Sessions.step .init sessions with
  | some (.opened w) => run (step v1) (start w (.closed w.dir)) acts
  | _ => none

theorem handOver_eq_some {sessions : List Sessions.Act} {acts : List (Act Sessions.Act)} {s : State Wal Sessions}
    (h : handOver sessions acts = some s) : ∃ w, run Sessions.step .init sessions = some (.opened w) ∧
      run (step v1) (start w (.closed w.dir)) acts = some s := by
  unfold handOver at h
  split at h
  · rename_i w hw
    exact ⟨w, hw, h⟩
  · cases h

/-- An old log with all records in its file -/
theorem hands_over_flushed : ∃ s, handOver (oldSession ++ [.flush]) lateDrop = some s ∧ s.late = false ∧
    ∀ w', s.log = .opened w' → ∃ n, Numbered Record.cursor n w'.log := by
  obtain ⟨s, hs, -⟩ := Option.map_eq_some_iff.1
    (show (handOver (oldSession ++ [.flush]) lateDrop).map outcome = some (false, [0, 1, 2]) by decide +kernel)
  obtain ⟨w, hw, hrun⟩ := handOver_eq_some hs
  have hempty : (match run Sessions.step .init (oldSession ++ [.flush]) with
      | some (.opened w) => decide (Meets (step v1) (fun s _ => (s.old.all fun w => w.buffer.isEmpty) = true)
          (start w (.closed w.dir)) lateDrop)
      | _ => true) = true := by decide +kernel
  rw [hw] at hempty
  refine ⟨s, hs, (hands_over _ []).1 w hw lateDrop s ((of_decide_eq_true hempty).mono fun t a hold => ?_) hrun⟩
  cases a with
  | log a =>
    rintro - w' hw'
    simpa [hw'] using hold
  | _ => trivial

/-- The old log writes its buffer under the new one, and a cursor occurs twice. -/
theorem hand_over_fails : ¬∀ (sessions : List Sessions.Act) (w : Wal),
    run Sessions.step .init sessions = some (.opened w) →
    ∀ (acts : List (Act Sessions.Act)) (s : State Wal Sessions),
      run (step v1) (start w (.closed w.dir)) acts = some s →
      s.late = false ∧ ∀ w', s.log = .opened w' → ∃ n, Numbered Record.cursor n w'.log := by
  intro h
  obtain ⟨s, hs, houtcome⟩ := Option.map_eq_some_iff.1
    (show (handOver oldSession lateDrop).map outcome = some (true, [0, 1, 1]) by decide +kernel)
  obtain ⟨w, hw, hrun⟩ := handOver_eq_some hs
  have hlate : s.late = true := (Prod.mk.inj houtcome).1
  rw [(h _ w hw _ s hrun).1] at hlate
  cases hlate

end Mmbus.Handover
