import Mmbus.WalV2
import Mmbus.Lib.Transition

/-!
# The durable cursor of the v2 log

Appends under `FsyncPolicy::Batched` step by step, the flusher thread, which takes the pending cursor before it loads the
writer and flushes, and any number of calls of `fsync`, which take it after their flush.  The file system answers every
call.

A rotation asks for an asynchronous flush of the segment that it closes, and no later flush covers that segment; a flush
that finds no writer covers nothing.  Records below the durable cursor are covered if no flush leaves a record of another
segment behind (`durable_covered`), which fails as soon as a segment is closed before it is flushed
(`durable_not_covered`).
-/

namespace Mmbus.V2.Durability

open Attempt Transition V2.Wal

/-! ### Appends, the flusher thread and fsyncs -/

/-- Where an append is: `acquired` is the writer that it has loaded or created first, `first` the one that it writes with;
`again` tells that this one was made because the other was full after all. -/
inductive AppendPc
  | idle
  | rotating (r : Record) (closed finalBytes acquired : Nat) (again : Bool)
  | writing (r : Record) (first acquired : Nat) (again : Bool)
  | written (r : Record) (acquired : Nat)

/-- Where the flusher thread or a call of `fsync` is.  `segment` is the number of the segment whose writer it has loaded,
`written` what had been appended when it issued its flush.  The flusher thread has its cursor from the start, `fsync`
takes it after the flush. -/
inductive SyncPc
  | idle
  | snapped (pending : Nat)
  | loaded (pending : Option Nat) (segment : Nat)
  | flushing (pending : Option Nat) (segment : Nat) (written : List (Nat × Record))
  | flushed (written : List (Nat × Record))
  | storing (pending : Nat)

/-- The cursor that is going to be stored, once the flush has been issued -/
def SyncPc.pending : SyncPc → Option Nat
  | .flushing pending _ _ => pending
  | .storing pending => some pending
  | _ => none

/-- The log, the append in progress, the flusher thread (the first of `threads`) and the calls of `fsync`.  No process
reads the rest: how many segments have been created, the last of which is the one that has a writer, what has been
appended to which of them, and what completed synchronous flushes have covered. -/
structure State where
  wal : Wal
  pc : AppendPc
  threads : List SyncPc
  durable : Nat
  created : Nat
  appended : List (Nat × Record)
  synced : List (Nat × Record)

/-- A new log in an empty directory -/
def init (cfg : WalConfig) : State := ⟨ofDir cfg .empty 0 0, .idle, [.idle], 0, 0, [], []⟩

inductive Act
  /-- `Wal::append` up to the writer, which a rotation takes out; the rest of the rotation; the record; the bookkeeping -/
  | begin (r : Record)
  | rotate
  | write
  | publish
  /-- A call of `fsync` -/
  | call
  /-- The flusher thread loads the pending cursor. -/
  | snapshot
  /-- A thread loads the writer; it issues the flush; the flush returns; `fsync` loads the pending cursor; the durable
  cursor is stored. -/
  | load (t : Nat)
  | issue (t : Nat)
  | done (t : Nat)
  | loadPending (t : Nat)
  | store (t : Nat)

/-- `writer.swap(None)`, and the marker in the segment -/
def takeWriter (r : Record) (first acquired : Nat) (again : Bool) (s : State) : State :=
  { s with
    wal := s.wal.closeWriter first
    pc := .rotating r first ((s.wal.dir.lookup first).elim 0 Segment.tail) acquired again }

/-- A step of the append -/
def appendStep (s : State) : Act → Option State
  | .begin r =>
    match s.pc with
    | .idle =>
      if s.wal.cfg.enabled = false ∨ MAX_PAYLOAD_LEN < r.payload.length ∨ s.wal.poisoned then some s
      else
        match s.wal.writer with
        | none =>
          match createDeferred r.cursor .ok s.wal with
          | (w, .ok _) => some { s with
              wal := w
              pc := .writing r r.cursor r.cursor false
              created := s.created + 1 }
          | (w, .error _) => some { s with wal := w }
        | some first =>
          if s.wal.cfg.segmentSizeMax < s.wal.activeBytes + recordBytes r then some (takeWriter r first r.cursor false s)
          else some { s with pc := .writing r first first false }
    | _ => none
  | .rotate =>
    match s.pc with
    | .rotating r closed finalBytes acquired again =>
      match ((createFile r.cursor .ok).andThen (storeActive r.cursor true)) s.wal with
      | (w, .ok _) => some { s with
          wal := (w.retain closed finalBytes).activate r.cursor
          pc := .writing r r.cursor acquired again
          created := s.created + 1 }
      | (w, .error _) => some { s with wal := w, pc := .idle }
    | _ => none
  | .write =>
    match s.pc with
    | .writing r first acquired again =>
      match s.wal.put first r with
      | some w => some { s with wal := w, pc := .written r acquired, appended := s.appended ++ [(s.created, r)] }
      | none => if again then some { s with pc := .idle } else some (takeWriter r first acquired true s)
    | _ => none
  | .publish =>
    match s.pc with
    | .written r acquired => some { s with
        wal := (s.wal.recorded acquired r).enforceRetention s.wal.segments.keys.length
        pc := .idle }
    | _ => none
  | _ => none

/-- The state with the thread `t` at `pc` -/
def State.setThread (s : State) (t : Nat) (pc : SyncPc) : State := { s with threads := s.threads.set t pc }

/-- A step of the flusher thread or of a call of `fsync` -/
def syncStep (s : State) : Act → Option State
  | .call => some { s with threads := s.threads ++ [.idle] }
  | .snapshot =>
    match s.threads[0]? with
    | some SyncPc.idle => some (s.setThread 0 (.snapped s.wal.pendingCursor))
    | _ => none
  | .load t =>
    match s.threads[t]? with
    | some (SyncPc.snapped pending) =>
      match s.wal.writer with
      | some _ => some (s.setThread t (.loaded (some pending) s.created))
      | none => some (s.setThread t (.storing pending))
    | some SyncPc.idle =>
      if t = 0 then none
      else
        match s.wal.writer with
        | some _ => some (s.setThread t (.loaded none s.created))
        | none => some (s.setThread t (.flushed s.appended))
    | _ => none
  | .issue t =>
    match s.threads[t]? with
    | some (SyncPc.loaded pending segment) => some (s.setThread t (.flushing pending segment s.appended))
    | _ => none
  | .done t =>
    match s.threads[t]? with
    | some (SyncPc.flushing pending segment written) => some { s.setThread t (pending.elim (.flushed written) .storing) with
        synced := s.synced ++ written.filter fun x => x.1 = segment }
    | _ => none
  | .loadPending t =>
    match s.threads[t]? with
    | some (SyncPc.flushed _) => some (s.setThread t (.storing s.wal.pendingCursor))
    | _ => none
  | .store t =>
    match s.threads[t]? with
    | some (SyncPc.storing pending) => some { s.setThread t .idle with durable := pending }
    | _ => none
  | _ => none

def step (s : State) (a : Act) : Option State := (appendStep s a).orElse fun _ => syncStep s a

variable {s s' : State} {r : Record} {w : Wal} {first acquired : Nat}

/-! ### Appends alone -/

theorem run_appendStep {a : Act} {as : List Act} {s₁ : State} (h : appendStep s a = some s₁) (hs : run step s₁ as = some s') :
    run step s (a :: as) = some s' :=
  run_cons.2 ⟨s₁, by simp [step, h], hs⟩

/-- The two halves of a rotation -/
theorem rotate_eq (hw : s.wal.writer = some first) (acquired : Nat) (again : Bool) :
    match rotateLocked r.cursor .ok s.wal with
    | (w, .ok _) => w.writer = some r.cursor ∧ appendStep (takeWriter r first acquired again s) .rotate =
        some { s with wal := w, pc := .writing r r.cursor acquired again, created := s.created + 1 }
    | (w, .error _) => appendStep (takeWriter r first acquired again s) .rotate = some { s with wal := w, pc := .idle } := by
  have hlocked : rotateLocked r.cursor .ok s.wal =
      ((createFile r.cursor .ok).andThen (storeActive r.cursor true)).andThen (fun w =>
        ((w.retain first ((s.wal.dir.lookup first).elim 0 Segment.tail)).activate r.cursor, .ok ()))
        (s.wal.closeWriter first) := by
    simp only [rotateLocked, hw]
    rfl
  cases hcreate : ((createFile r.cursor .ok).andThen (storeActive r.cursor true)) (s.wal.closeWriter first) with
  | mk w res =>
    cases res with
    | error e =>
      rw [hlocked, andThen_of_error hcreate]
      simp only [appendStep, takeWriter, hcreate]
    | ok _ =>
      rw [hlocked, andThen_of_ok hcreate]
      simp only [appendStep, takeWriter, hcreate]
      exact ⟨rfl, trivial⟩

theorem createDeferred_writer {c : Nat} {w' : Wal} (h : createDeferred c .ok w = (w', .ok ())) : w'.writer = some c := by
  obtain ⟨w₁, h₁, h₂⟩ := andThen_eq_ok.1 h
  obtain ⟨w₂, -, h₃⟩ := andThen_eq_ok.1 h₁
  cases h₃
  cases h₂
  rfl

/-- Write with the writer `first`. -/
theorem run_put {again : Bool} (hpc : s.pc = .writing r first acquired again) (hput : s.wal.put first r = some w) :
    ∃ s', run step s [.write, .publish] = some s' ∧ s'.pc = .idle ∧
      s'.wal = (w.recorded acquired r).enforceRetention w.segments.keys.length := by
  have hwrite : appendStep s .write = some { s with
      wal := w, pc := .written r acquired, appended := s.appended ++ [(s.created, r)] } := by
    simp only [appendStep, hpc, hput]
  exact ⟨_, run_appendStep hwrite (run_appendStep rfl rfl), rfl, rfl⟩

/-- The first write, and the second one with a new writer if the segment is full after all -/
theorem run_write (hpc : s.pc = .writing r first first false) (hw : s.wal.writer = some first) :
    ∃ acts s', run step s acts = some s' ∧ s'.pc = .idle ∧ s'.wal = (((write first r .ok).andThen fun w =>
      ((w.recorded first r).enforceRetention w.segments.keys.length, .ok ())) s.wal).1 := by
  cases hput : s.wal.put first r with
  | some w =>
    obtain ⟨s', hs, hidle, hwal⟩ := run_put hpc hput
    exact ⟨_, s', hs, hidle, by simp [andThen, write, hput, hwal]⟩
  | none =>
    have htaken : appendStep s .write = some (takeWriter r first first true s) := by simp [appendStep, hpc, hput]
    have hrotate := rotate_eq (r := r) hw first true
    simp only [andThen, write, hput]
    cases hlocked : rotateLocked r.cursor .ok s.wal with
    | mk w res =>
      rw [hlocked] at hrotate
      cases res with
      | error e => exact ⟨_, { s with wal := w, pc := .idle }, run_appendStep htaken (run_appendStep hrotate (run_nil _)), rfl,
          rfl⟩
      | ok _ =>
        obtain ⟨hsecond, hrotate⟩ := hrotate
        simp only [hsecond, Option.bind_some]
        cases hput' : w.put r.cursor r with
        | some w' =>
          obtain ⟨s', hs, hidle, hwal⟩ := run_put (s := { s with
            wal := w, pc := .writing r r.cursor first true, created := s.created + 1 }) rfl hput'
          exact ⟨_, s', run_appendStep htaken (run_appendStep hrotate hs), hidle, hwal⟩
        | none =>
          have hgivenUp : appendStep { s with
              wal := w, pc := .writing r r.cursor first true, created := s.created + 1 } .write =
                some { s with wal := w, pc := .idle, created := s.created + 1 } := by
            simp [appendStep, hput']
          exact ⟨_, _, run_appendStep htaken (run_appendStep hrotate (run_appendStep hgivenUp (run_nil _))), rfl, rfl⟩

/-- No inline flush fails. -/
theorem appendWith_ok (hw : w.writer = some first) : appendWith r .ok w = ((write first r .ok).andThen fun w =>
    ((w.recorded first r).enforceRetention w.segments.keys.length, .ok ())) w := by
  have heq : appendWith r .ok w = (((write first r .ok).andThen fun w =>
      ((w.recorded first r).enforceRetention w.segments.keys.length, .ok ())).andThen (syncEach .ok)) w := by
    simp only [appendWith, hw]
  rw [heq]
  cases h : ((write first r .ok).andThen fun w =>
    ((w.recorded first r).enforceRetention w.segments.keys.length, .ok ())) w with
  | mk w' res =>
    cases res with
    | error e => rw [andThen_of_error h]
    | ok _ =>
      rw [andThen_of_ok h, syncEach, if_neg]
      exact fun hfails => by cases hfails.2

/-- An append that no one interleaves with leaves the log as `Wal.append` says. -/
theorem run_append (hpc : s.pc = .idle) : ∃ acts s', run step s acts = some s' ∧ s'.pc = .idle ∧
    s'.wal = (s.wal.append r.cursor r.ts r.payload .ok).1 := by
  by_cases hrefused : s.wal.cfg.enabled = false ∨ MAX_PAYLOAD_LEN < r.payload.length ∨ s.wal.poisoned
  · refine ⟨[.begin r], s, run_appendStep (by simp only [appendStep, hpc, if_pos hrefused]) rfl, hpc, ?_⟩
    unfold append
    split
    · rfl
    split
    · rfl
    rw [if_pos (by tauto)]
  have happend : s.wal.append r.cursor r.ts r.payload .ok = ((acquireWriter r .ok).andThen (appendWith r .ok)) s.wal := by
    unfold append
    rw [if_neg (by tauto), if_neg (by tauto), if_neg (by tauto)]
  rw [happend]
  cases hw : s.wal.writer with
  | none =>
    have hacquire : acquireWriter r .ok s.wal = createDeferred r.cursor .ok s.wal := by simp only [acquireWriter, hw]
    cases hcreate : createDeferred r.cursor .ok s.wal with
    | mk w res =>
      cases res with
      | error e =>
        refine ⟨[.begin r], { s with wal := w }, run_appendStep ?_ rfl, hpc,
          by rw [andThen_of_error (hacquire.trans hcreate)]⟩
        simp only [appendStep, hpc, if_neg hrefused, hw, hcreate]
      | ok _ =>
        have hwriter := createDeferred_writer hcreate
        obtain ⟨acts, s', hs, hidle, hwal⟩ := run_write (s := { s with
          wal := w, pc := .writing r r.cursor r.cursor false, created := s.created + 1 }) rfl hwriter
        refine ⟨.begin r :: acts, s', run_appendStep ?_ hs, hidle,
          by rw [andThen_of_ok (hacquire.trans hcreate), appendWith_ok hwriter, hwal]⟩
        simp only [appendStep, hpc, if_neg hrefused, hw, hcreate]
  | some first =>
    by_cases hfull : s.wal.cfg.segmentSizeMax < s.wal.activeBytes + recordBytes r
    · have hacquire : acquireWriter r .ok s.wal = rotateLocked r.cursor .ok s.wal := by
        simp only [acquireWriter, hw, if_pos hfull]
      have hbegin : appendStep s (.begin r) = some (takeWriter r first r.cursor false s) := by
        simp only [appendStep, hpc, if_neg hrefused, hw, if_pos hfull]
      have hrotate := rotate_eq (r := r) hw r.cursor false
      cases hlocked : rotateLocked r.cursor .ok s.wal with
      | mk w res =>
        rw [hlocked] at hrotate
        cases res with
        | error e =>
          exact ⟨_, { s with wal := w, pc := .idle }, run_appendStep hbegin (run_appendStep hrotate (run_nil _)), rfl,
            by rw [andThen_of_error (hacquire.trans hlocked)]⟩
        | ok _ =>
          obtain ⟨hwriter, hrotate⟩ := hrotate
          obtain ⟨acts, s', hs, hidle, hwal⟩ := run_write (s := { s with
            wal := w, pc := .writing r r.cursor r.cursor false, created := s.created + 1 }) rfl hwriter
          exact ⟨_, s', run_appendStep hbegin (run_appendStep hrotate hs), hidle,
            by rw [andThen_of_ok (hacquire.trans hlocked), appendWith_ok hwriter, hwal]⟩
    · have hacquire : acquireWriter r .ok s.wal = (s.wal, .ok ()) := by simp only [acquireWriter, hw, if_neg hfull]
      obtain ⟨acts, s', hs, hidle, hwal⟩ := run_write (s := { s with pc := .writing r first first false }) rfl hw
      refine ⟨.begin r :: acts, s', run_appendStep ?_ hs, hidle,
        by rw [andThen_of_ok hacquire, appendWith_ok hw, hwal]⟩
      simp only [appendStep, hpc, if_neg hrefused, hw, if_neg hfull]

/-! ### What a flush covers -/

/-- Every record below the cursor that a flush stands for is in the segment `segment` or has been synced. -/
def NoneLeft (s : State) (pending segment : Option Nat) : Prop :=
  ∀ x ∈ s.appended, (∀ p, pending = some p → x.2.cursor < p) → x ∈ s.synced ∨ segment = some x.1

/-- A flush, or a call that finds no writer to flush, leaves no record of another segment behind; no append writes below
the durable cursor or below one that is going to be stored; and the pending cursor that `fsync` loads is not above a
record that its flush came too early for. -/
def Safe (s : State) : Act → Prop
  | .load t =>
    s.wal.writer = none →
      match s.threads[t]? with
      | some (SyncPc.snapped pending) => NoneLeft s (some pending) none
      | some SyncPc.idle => NoneLeft s none none
      | _ => True
  | .issue t => ∀ pending segment, s.threads[t]? = some (.loaded pending segment) → NoneLeft s pending (some segment)
  | .write => ∀ r first acquired again, s.pc = .writing r first acquired again →
      s.durable ≤ r.cursor ∧ ∀ pc ∈ s.threads, ∀ pending, pc.pending = some pending → pending ≤ r.cursor
  | .loadPending t => ∀ written, s.threads[t]? = some (.flushed written) →
      ∀ x ∈ s.appended, x ∈ written ∨ s.wal.pendingCursor ≤ x.2.cursor
  | _ => True

/-- What a thread can rely on: the flush that it has issued covers what its cursor claims, as far as that has not been
covered before. -/
def Knows (s : State) : SyncPc → Prop
  | .flushing (some pending) segment written =>
    ∀ x ∈ s.appended, x.2.cursor < pending → x ∈ s.synced ∨ x ∈ written ∧ x.1 = segment
  | .flushing none segment written => ∀ x ∈ written, x ∈ s.synced ∨ x.1 = segment
  | .flushed written => ∀ x ∈ written, x ∈ s.synced
  | .storing pending => ∀ x ∈ s.appended, x.2.cursor < pending → x ∈ s.synced
  | _ => True

structure Inv (s : State) : Prop where
  durable : ∀ x ∈ s.appended, x.2.cursor < s.durable → x ∈ s.synced
  threads : ∀ pc ∈ s.threads, Knows s pc

theorem inv_init (cfg : WalConfig) : Inv (init cfg) :=
  ⟨nofun, fun pc hpc => by
    obtain rfl : pc = .idle := by simpa [init] using hpc
    trivial⟩

/-- Nothing is appended, and what has been synced stays so. -/
theorem Knows.mono {pc : SyncPc} (h : Knows s pc) (happended : s'.appended = s.appended)
    (hsynced : ∀ x ∈ s.synced, x ∈ s'.synced) : Knows s' pc := by
  cases pc with
  | flushing pending segment written =>
    cases pending with
    | none => exact fun x hx => (h x hx).imp_left (hsynced x)
    | some pending => exact fun x hx hlt => (h x (happended ▸ hx) hlt).imp_left (hsynced x)
  | flushed written => exact fun x hx => hsynced x (h x hx)
  | storing pending => exact fun x hx hlt => hsynced x (h x (happended ▸ hx) hlt)
  | _ => trivial

theorem Inv.mono (h : Inv s) (happended : s'.appended = s.appended) (hsynced : ∀ x ∈ s.synced, x ∈ s'.synced)
    (hdurable : s'.durable = s.durable) (hthreads : s'.threads = s.threads) : Inv s' := by
  refine ⟨fun x hx hlt => hsynced x (h.durable x (happended ▸ hx) (hdurable ▸ hlt)), fun pc hpc => ?_⟩
  rw [hthreads] at hpc
  exact (h.threads pc hpc).mono happended hsynced

/-- A thread goes on to `pc`. -/
theorem Inv.setThread {t : Nat} {pc : SyncPc} (h : Inv s) (hpc : Knows s pc) : Inv (s.setThread t pc) := by
  refine ⟨h.durable, fun pc' hpc' => ?_⟩
  have hknows : Knows s pc' := by
    rcases List.mem_or_eq_of_mem_set hpc' with hold | rfl
    · exact h.threads pc' hold
    · exact hpc
  exact hknows.mono rfl fun _ => id

/-- An append above every cursor that claims to cover something -/
theorem Inv.append {x : Nat × Record} (h : Inv s) (hdurable : s.durable ≤ x.2.cursor)
    (hpending : ∀ pc ∈ s.threads, ∀ pending, pc.pending = some pending → pending ≤ x.2.cursor)
    (happended : s'.appended = s.appended ++ [x]) (hsynced : s'.synced = s.synced) (hdurable' : s'.durable = s.durable)
    (hthreads : s'.threads = s.threads) : Inv s' := by
  have hold {y : Nat × Record} {p : Nat} (hy : y ∈ s'.appended) (hlt : y.2.cursor < p) (hp : p ≤ x.2.cursor) :
      y ∈ s.appended := by
    rw [happended] at hy
    rcases List.mem_append.1 hy with hy | hy
    · exact hy
    · obtain rfl := List.mem_singleton.1 hy
      omega
  refine ⟨fun y hy hlt => ?_, fun pc hpc => ?_⟩
  · rw [hdurable'] at hlt
    rw [hsynced]
    exact h.durable y (hold hy hlt hdurable) hlt
  · rw [hthreads] at hpc
    have hknows := h.threads pc hpc
    have hle := hpending pc hpc
    cases pc with
    | flushing pending segment written =>
      cases pending with
      | none =>
        intro y hy
        rw [hsynced]
        exact hknows y hy
      | some pending =>
        intro y hy hlt
        rw [hsynced]
        exact hknows y (hold hy hlt (hle pending rfl)) hlt
    | flushed written =>
      intro y hy
      rw [hsynced]
      exact hknows y hy
    | storing pending =>
      intro y hy hlt
      rw [hsynced]
      exact hknows y (hold hy hlt (hle pending rfl)) hlt
    | _ => trivial

/-- What a step of an append does to the rest of the state: nothing, or the record is added to the last segment. -/
theorem appendStep_cases {a : Act} (h : appendStep s a = some s') :
    s'.synced = s.synced ∧ s'.durable = s.durable ∧ s'.threads = s.threads ∧
      (s'.appended = s.appended ∨ ∃ r first acquired again, a = .write ∧ s.pc = .writing r first acquired again ∧
        s'.appended = s.appended ++ [(s.created, r)]) := by
  cases a with
  | begin r =>
    simp only [appendStep] at h
    split at h
    · split at h
      · cases h
        exact ⟨rfl, rfl, rfl, .inl rfl⟩
      · split at h
        · split at h <;> cases h <;> exact ⟨rfl, rfl, rfl, .inl rfl⟩
        · split at h <;> cases h <;> exact ⟨rfl, rfl, rfl, .inl rfl⟩
    · cases h
  | rotate =>
    simp only [appendStep] at h
    split at h
    · split at h <;> cases h <;> exact ⟨rfl, rfl, rfl, .inl rfl⟩
    · cases h
  | write =>
    simp only [appendStep] at h
    split at h
    · rename_i r first acquired again hpc
      split at h
      · cases h
        exact ⟨rfl, rfl, rfl, .inr ⟨r, first, acquired, again, rfl, hpc, rfl⟩⟩
      · split at h <;> cases h <;> exact ⟨rfl, rfl, rfl, .inl rfl⟩
    · cases h
  | publish =>
    simp only [appendStep] at h
    split at h <;> cases h
    exact ⟨rfl, rfl, rfl, .inl rfl⟩
  | _ => cases h

theorem Inv.appendStep {a : Act} (h : Inv s) (hc : Safe s a) (hs : Durability.appendStep s a = some s') : Inv s' := by
  obtain ⟨hsynced, hdurable, hthreads, happended | ⟨r, first, acquired, again, rfl, hpc, happended⟩⟩ := appendStep_cases hs
  · exact h.mono happended (fun x hx => hsynced ▸ hx) hdurable hthreads
  · obtain ⟨hle, hpending⟩ := hc r first acquired again hpc
    exact h.append (x := (s.created, r)) hle hpending happended hsynced hdurable hthreads

/-- The flush of a segment covers what the thread had counted on. -/
theorem Inv.done {t segment : Nat} {pending : Option Nat} {written : List (Nat × Record)} (h : Inv s)
    (ht : s.threads[t]? = some (.flushing pending segment written)) :
    Inv { s.setThread t (pending.elim (.flushed written) .storing) with
      synced := s.synced ++ written.filter fun x => x.1 = segment } := by
  have hflushing := h.threads _ (List.mem_of_getElem? ht)
  have hgrown : Inv { s with synced := s.synced ++ written.filter fun x => x.1 = segment } :=
    h.mono rfl (fun x hx => List.mem_append_left _ hx) rfl rfl
  refine hgrown.setThread ?_
  cases pending with
  | none =>
    intro x hx
    rcases hflushing x hx with hx' | hx'
    · exact List.mem_append_left _ hx'
    · exact List.mem_append_right _ (List.mem_filter.2 ⟨hx, by simpa using hx'⟩)
  | some pending =>
    intro x hx hlt
    rcases hflushing x hx hlt with hx' | ⟨hx', hsegment⟩
    · exact List.mem_append_left _ hx'
    · exact List.mem_append_right _ (List.mem_filter.2 ⟨hx', by simpa using hsegment⟩)

theorem Inv.syncStep {a : Act} (h : Inv s) (hc : Safe s a) (hs : Durability.syncStep s a = some s') : Inv s' := by
  cases a with
  | call =>
    cases hs
    refine ⟨h.durable, fun pc hpc => ?_⟩
    rcases List.mem_append.1 hpc with hpc | hpc
    · exact (h.threads pc hpc).mono rfl fun _ => id
    · obtain rfl := List.mem_singleton.1 hpc
      trivial
  | snapshot =>
    simp only [Durability.syncStep] at hs
    split at hs <;> cases hs
    exact h.setThread trivial
  | load t =>
    simp only [Durability.syncStep] at hs
    split at hs
    · rename_i pending ht
      split at hs
      · cases hs
        exact h.setThread trivial
      · rename_i hw
        cases hs
        have hnone := hc hw
        simp only [ht] at hnone
        exact h.setThread fun x hx hlt => (hnone x hx fun p hp => by cases hp; exact hlt).resolve_right nofun
    · rename_i ht
      split at hs
      · cases hs
      · split at hs
        · cases hs
          exact h.setThread trivial
        · rename_i hw
          cases hs
          have hnone := hc hw
          simp only [ht] at hnone
          exact h.setThread fun x hx => (hnone x hx nofun).resolve_right nofun
    · cases hs
  | issue t =>
    simp only [Durability.syncStep] at hs
    split at hs
    · rename_i pending segment ht
      cases hs
      have hnone := hc pending segment ht
      refine h.setThread ?_
      cases pending with
      | none => exact fun x hx => (hnone x hx nofun).imp_right fun heq => (Option.some.inj heq).symm
      | some pending =>
        exact fun x hx hlt => (hnone x hx fun p hp => by cases hp; exact hlt).imp_right fun heq =>
          ⟨hx, (Option.some.inj heq).symm⟩
    · cases hs
  | done t =>
    simp only [Durability.syncStep] at hs
    split at hs
    · rename_i pending segment written ht
      cases hs
      exact h.done ht
    · cases hs
  | loadPending t =>
    simp only [Durability.syncStep] at hs
    split at hs
    · rename_i written ht
      cases hs
      have hflushed := h.threads _ (List.mem_of_getElem? ht)
      refine h.setThread fun x hx hlt => ?_
      rcases hc written ht x hx with hwritten | hle
      · exact hflushed x hwritten
      · omega
    · cases hs
  | store t =>
    simp only [Durability.syncStep] at hs
    split at hs
    · rename_i pending ht
      cases hs
      have hstoring := h.threads _ (List.mem_of_getElem? ht)
      have hidle : Inv (s.setThread t .idle) := h.setThread trivial
      exact ⟨hstoring, fun pc hpc => (hidle.threads pc hpc).mono rfl fun _ => id⟩
    · cases hs
  | _ => cases hs

theorem Inv.step {a : Act} (h : Inv s) (hc : Safe s a) (hs : Durability.step s a = some s') : Inv s' := by
  unfold Durability.step at hs
  cases happend : Durability.appendStep s a with
  | some s₁ =>
    rw [happend] at hs
    cases hs
    exact h.appendStep hc happend
  | none =>
    rw [happend] at hs
    exact h.syncStep hc hs

/-- A synchronous flush, issued after the record was written, has returned for every record below the durable cursor, as
long as no flush leaves a record behind. -/
theorem durable_covered (cfg : WalConfig) (acts : List Act) (s : State) (hc : Meets Durability.step Safe (init cfg) acts)
    (h : run Durability.step (init cfg) acts = some s) (x : Nat × Record) (hx : x ∈ s.appended)
    (hlt : x.2.cursor < s.durable) : x ∈ s.synced :=
  (run_invariant_when Inv Safe (fun _ _ _ hi hc hs => hi.step hc hs) hc (inv_init cfg) h).durable x hx hlt

/-- Segments of two small records -/
def twoRecords : WalConfig := ⟨true, .batched, 96, 1000⟩

def appendActs (r : Record) : List Act := [.begin r, .write, .publish]

/-- A tick of the flusher thread -/
def tick : List Act := [.snapshot, .load 0, .issue 0, .done 0, .store 0]

def firstTwo : List Act := appendActs ⟨0, 7, []⟩ ++ appendActs ⟨1, 7, []⟩

/-- The append of a third record, which rotates the segment -/
def third : List Act := [.begin ⟨2, 7, []⟩, .rotate, .write, .publish]

/-- The flusher thread is in time for the rotation. -/
theorem durable_covered_second : ∃ s, run Durability.step (init twoRecords) (firstTwo ++ tick ++ third ++ tick) = some s ∧
    s.durable = 3 ∧ (1, (⟨1, 7, []⟩ : Record)) ∈ s.synced := by
  obtain ⟨s, hs, hout⟩ := Option.map_eq_some_iff.1 (show (run Durability.step (init twoRecords)
    (firstTwo ++ tick ++ third ++ tick)).map (fun s => (s.durable, s.appended)) =
      some (3, [(1, ⟨0, 7, []⟩), (1, ⟨1, 7, []⟩), (2, ⟨2, 7, []⟩)]) by decide +kernel)
  obtain ⟨hdurable, happended⟩ := Prod.mk.inj hout
  have hc : Meets Durability.step Safe (init twoRecords) (firstTwo ++ tick ++ third ++ tick) := by
    refine Meets.mono (C := fun s a => (match a with
      | .load _ => s.wal.writer.isSome
      | .issue t => match s.threads[t]? with
        | some (.loaded _ segment) => s.appended.all fun x => decide (x ∈ s.synced ∨ segment = x.1)
        | _ => true
      | .write => match s.pc with
        | .writing r .. => decide (s.durable ≤ r.cursor) &&
            s.threads.all fun pc => pc.pending.all fun pending => decide (pending ≤ r.cursor)
        | _ => true
      | .loadPending _ => false
      | _ => true) = true) (fun s a hsafe => ?_) (by decide +kernel)
    cases a with
    | load t =>
      intro hw
      simp [hw] at hsafe
    | issue t =>
      intro pending segment ht x hx _
      simp only [ht, List.all_eq_true, decide_eq_true_eq] at hsafe
      exact (hsafe x hx).imp_right (congrArg some)
    | write =>
      intro r first acquired again hpc
      simp only [hpc, Bool.and_eq_true, decide_eq_true_eq, List.all_eq_true] at hsafe
      refine ⟨hsafe.1, fun pc hmem pending hpending => ?_⟩
      simpa [hpending] using hsafe.2 pc hmem
    | loadPending t => cases hsafe
    | _ => trivial
  exact ⟨s, hs, hdurable, durable_covered twoRecords _ s hc hs (1, ⟨1, 7, []⟩) (by simp [happended])
    (by rw [hdurable]; decide)⟩

/-- The flusher thread comes after the rotation, so no flush covers the first two records. -/
theorem durable_not_covered : ¬∀ (cfg : WalConfig) (acts : List Act) (s : State), cfg.fsyncPolicy = .batched →
    run Durability.step (init cfg) acts = some s →
    ∀ x ∈ s.appended, x.2.cursor < s.durable → x ∈ s.synced := by
  intro h
  obtain ⟨s, hs, hout⟩ := Option.map_eq_some_iff.1 (show (run Durability.step (init twoRecords)
    (firstTwo ++ third ++ tick)).map (fun s => (s.durable, s.appended.head?, s.synced)) =
      some (3, some (1, ⟨0, 7, []⟩), [(2, ⟨2, 7, []⟩)]) by decide +kernel)
  obtain ⟨hdurable, hout⟩ := Prod.mk.inj hout
  obtain ⟨hhead, hsynced⟩ := Prod.mk.inj hout
  have hmem := h twoRecords _ s rfl hs (1, ⟨0, 7, []⟩) (List.mem_of_head? hhead) (by rw [hdurable]; decide)
  simp [hsynced] at hmem

end Mmbus.V2.Durability
