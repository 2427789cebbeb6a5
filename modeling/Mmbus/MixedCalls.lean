import Mmbus.CatchUp
import Mmbus.FileSessions
import Mmbus.MappedSessions

/-!
# Mixed receive methods

A connected subscriber, one atomic access at a time, with all its receive methods: those that consult the replayer
first, and `try_receive_into_slice`, which reads the ring whether or not a replay is active.  Python's
`recv_into_buffer` is a call of the former kind followed by calls of the latter.  What other processes make of the ring
between two accesses is arbitrary, and so is the replayer: `next` is its `Iterator::next`, of either log, and what it
still finds in the files, which may grow meanwhile, is part of its state.

`received_in_order`: the positions of the messages are strictly increasing, as long as no `try_receive_into_slice` is
called while a replay is active and the records of the log are in the order of their cursors.  The replay goes back to
the record it has come to, whatever the slices have taken from the ring.
-/

namespace Mmbus

open Transition

/-- The methods that take a message; a slice is given by its length. -/
inductive ReceiveMethod
  | receiveInto
  | receiveTimeoutInto
  | tryReceiveInto
  | tryReceiveIntoSlice (len : Nat)
  | tryReceiveOneIntoSlice (len : Nat)
  | pollRecv
  deriving DecidableEq

namespace ReceiveMethod

/-- The slice that the payload is copied to -/
def slice : ReceiveMethod → Option Nat
  | tryReceiveIntoSlice len | tryReceiveOneIntoSlice len => some len
  | _ => none

/-- The method waits when the ring is empty. -/
def waits : ReceiveMethod → Bool
  | receiveInto | receiveTimeoutInto => true
  | _ => false

end ReceiveMethod

/-- What the next access of a receiver is -/
inductive ReceiverPc
  | idle
  | nextWalRecord (method : ReceiveMethod)
  | drain
  | checkGeneration
  | reading (method : ReceiveMethod) (pc : ReceivePc)
  | tooLong (method : ReceiveMethod) (eff : Nat)
  | setFlag (method : ReceiveMethod)
  | recheck (method : ReceiveMethod)
  | unflag (method : ReceiveMethod)
  | wait (method : ReceiveMethod)
  | clearFlag (method : ReceiveMethod) (woken : Option Bool)
  deriving DecidableEq

/-- A connected subscriber, the ring as it finds it, and what its calls have returned -/
structure Receiver (ρ : Type) where
  ring : RingBuffer
  cursor : Nat
  cursorIdx : Nat
  generation : Nat
  walReplay : Option ρ
  pc : ReceiverPc
  received : List Received

namespace Receiver

variable {ρ ε : Type}

/-- A subscriber that has just connected; with a replay its entry is parked at the tail. -/
def connect (r : RingBuffer) (cursorIdx cursor : Nat) (walReplay : Option ρ) : Receiver ρ where
  ring := r.setCursor cursorIdx (if walReplay.isSome then r.tail else cursor)
  cursor := cursor
  cursorIdx := cursorIdx
  generation := r.generation
  walReplay := walReplay
  pc := .idle
  received := []

def goto (s : Receiver ρ) (pc : ReceiverPc) : Receiver ρ := { s with pc := pc }

/-- A call returns. -/
def finish (s : Receiver ρ) (out : Received) : Receiver ρ := { s with pc := .idle, received := s.received ++ [out] }

/-- The ring's `try_receive` begins. -/
def readRing (s : Receiver ρ) (method : ReceiveMethod) : Receiver ρ := s.goto (.reading method (.loadTail s.cursor))

/-- The replay has no record for the call. -/
def afterReplay (s : Receiver ρ) : ReceiveMethod → Receiver ρ
  | .pollRecv => s.goto .drain
  | method => s.readRing method

/-- A record of the replay; only `try_receive_one_into_slice` has a slice here. -/
def takeRecord (s : Receiver ρ) (method : ReceiveMethod) (p : ρ) (record : Record) : Receiver ρ :=
  { s with cursor := record.cursor + 1, walReplay := some p }.finish <|
    if method.slice.any fun len => len < record.payload.length then .error else .message record.cursor record.payload

/-- `next_wal_record`, and what the method does with its result; `try_receive_into` takes an error of the replay as a
reason to read the ring. -/
def nextWalRecord (next : ρ → Option (Except ε Record) × ρ) (s : Receiver ρ) (method : ReceiveMethod) : Receiver ρ :=
  match s.walReplay with
  | none => s.afterReplay method
  | some p =>
    match next p with
    | (some (.ok record), p) => s.takeRecord method p record
    | (some (.error _), _) =>
      if method = .tryReceiveInto then { s with walReplay := none }.readRing method
      else { s with walReplay := none }.finish .error
    | (none, _) => { s with walReplay := none, ring := s.ring.setCursor s.cursorIdx s.cursor }.afterReplay method

/-- After an access of the ring's `try_receive` or `try_receive_into_slice` -/
def afterReceive (s : Receiver ρ) (method : ReceiveMethod) : ReceivePc → Receiver ρ
  | .returned _ _ (some (newCursor, out)) => { s with cursor := newCursor }.finish (.message (newCursor - 1) out)
  | .returned _ _ none => if method.waits then s.goto (.setFlag method) else s.finish .nothing
  | pc => s.goto (.reading method pc)

/-- The payload in the slot does not fit the slice of the method. -/
def Exceeds (s : Receiver ρ) (method : ReceiveMethod) (eff : Nat) : Prop :=
  (s.ring.slot eff).len ≤ s.ring.slotSize ∧ method.slice.any (fun len => len < (s.ring.slot eff).len) = true

instance (s : Receiver ρ) (method : ReceiveMethod) (eff : Nat) : Decidable (s.Exceeds method eff) :=
  inferInstanceAs (Decidable (_ ∧ _))

/-- An access of `try_receive` -/
def access (s : Receiver ρ) (method : ReceiveMethod) (pc : ReceivePc) : Option (Receiver ρ) :=
  match pc.step s.cursorIdx s.ring with
  | some (r, pc) => some ({ s with ring := r }.afterReceive method pc)
  | none => none

/-- An access of `try_receive_into_slice` is the same, but for a payload that does not fit the slice. -/
def read (s : Receiver ρ) (method : ReceiveMethod) : ReceivePc → Option (Receiver ρ)
  | .loadLen cursor tail eff fuel =>
    if s.Exceeds method eff then some (s.goto (.tooLong method eff))
    else s.access method (.loadLen cursor tail eff fuel)
  | pc => s.access method pc

/-- How a `wait_readable` ends; `woken` is `none` for an error, and `some false` for a timeout. -/
def afterWait (s : Receiver ρ) (method : ReceiveMethod) : Option Bool → Receiver ρ
  | none => s.finish .error
  | some true => s.readRing method
  | some false => if method = .receiveTimeoutInto then s.finish .nothing else s.readRing method

/-- One access -/
def go (next : ρ → Option (Except ε Record) × ρ) (s : Receiver ρ) : Option (Receiver ρ) :=
  match s.pc with
  | .nextWalRecord method => some (s.nextWalRecord next method)
  | .checkGeneration =>
    if s.ring.generation ≠ s.generation then some (s.finish .error) else some (s.goto (.nextWalRecord .tryReceiveInto))
  | .reading method pc => s.read method pc
  | .tooLong _ eff =>
    some ({ s with ring := s.ring.setCursor s.cursorIdx (eff + 1), cursor := eff + 1 }.finish .error)
  | .setFlag method => some ({ s with ring := s.ring.setWakeflag s.cursorIdx }.goto (.recheck method))
  | .recheck method => some (s.goto (if s.cursor < s.ring.tail then .unflag method else .wait method))
  | .unflag method => some ({ s with ring := s.ring.clearWakeflag s.cursorIdx }.readRing method)
  | .clearFlag method woken => some ({ s with ring := s.ring.clearWakeflag s.cursorIdx }.afterWait method woken)
  | .idle | .drain | .wait _ => none

/-- A call, an access, what the system calls of a call return, or what other processes make of the ring.  `drained` is
the result of `try_drain_wakeup` and `waited` that of `wait_wakeup` (`none`: an error); `deadline` is that of
`receive_timeout_into`. -/
inductive Act
  | call (method : ReceiveMethod)
  | go
  | drained (unit : Option Bool)
  | waited (woken : Option Bool)
  | deadline
  | ring (r : RingBuffer)

/-- `try_receive_into_slice` does not consult the replayer. -/
def begin (s : Receiver ρ) : ReceiveMethod → Receiver ρ
  | .tryReceiveIntoSlice len => s.readRing (.tryReceiveIntoSlice len)
  | method => s.goto (.nextWalRecord method)

def step (next : ρ → Option (Except ε Record) × ρ) (s : Receiver ρ) (a : Act) : Option (Receiver ρ) :=
  match a, s.pc with
  | .call method, .idle => some (s.begin method)
  | .go, _ => s.go next
  | .drained unit, .drain =>
    match unit with
    | none => some (s.finish .error)
    | some false => some (s.finish .nothing)
    | some true => some (s.goto .checkGeneration)
  | .waited woken, .wait method => some (s.goto (.clearFlag method woken))
  | .deadline, .setFlag .receiveTimeoutInto => some (s.finish .nothing)
  | .ring r, _ => some { s with ring := r }
  | _, _ => none

/-- The positions of the messages -/
def positions (received : List Received) : List Nat :=
  received.filterMap fun
    | .message position _ => some position
    | _ => none

/-- The next `n` records that the replay returns are in the order of their cursors, from `first` on. -/
def AscendsFor (next : ρ → Option (Except ε Record) × ρ) : (n first : Nat) → ρ → Prop
  | 0, _, _ => True
  | n + 1, first, p =>
    match next p with
    | (some (.ok record), p) => first ≤ record.cursor ∧ AscendsFor next n (record.cursor + 1) p
    | _ => True

/-- The records that the replay returns are in the order of their cursors, from `first` on. -/
def Ascends (next : ρ → Option (Except ε Record) × ρ) (first : Nat) (p : ρ) : Prop := ∀ n, AscendsFor next n first p

/-- No slice is filled from the ring while a replay is active. -/
def LiveSlices (s : Receiver ρ) : Act → Prop
  | .call (.tryReceiveIntoSlice _) => s.walReplay = none
  | _ => True

instance (s : Receiver ρ) : ∀ a, Decidable (LiveSlices s a)
  | .call (.tryReceiveIntoSlice _) => decidable_of_iff (s.walReplay.isNone = true) Option.isNone_iff_eq_none
  | .call .receiveInto | .call .receiveTimeoutInto | .call .tryReceiveInto | .call (.tryReceiveOneIntoSlice _)
  | .call .pollRecv | .go | .drained _ | .waited _ | .deadline | .ring _ => .isTrue trivial

/-! ### Reading the ring -/

/-- A read of the ring from the cursor `c` on has not gone back behind it. -/
def ReadsFrom (c : Nat) : ReceivePc → Prop
  | .loadTail cursor => cursor = c
  | .loadSeq cursor _ eff _ | .loadLen cursor _ eff _ | .loadByte cursor _ eff .. | .loadSeqAfter cursor _ eff ..
  | .storeCursor cursor _ eff _ => cursor = c ∧ c ≤ eff
  | .returned _ _ (some (newCursor, _)) => c < newCursor
  | .returned _ _ none => True

theorem readsFrom_retry {c cursor tail eff fuel : Nat} (hcursor : cursor = c) (h : c ≤ eff) :
    ReadsFrom c (.retry cursor tail eff fuel) := by
  cases fuel with
  | zero => trivial
  | succ fuel => exact ⟨hcursor, h⟩

theorem readsFrom_copyAfter {c cursor tail eff fuel len : Nat} {out : Bytes} (hcursor : cursor = c) (h : c ≤ eff) :
    ReadsFrom c (.copyAfter cursor tail eff fuel len out) := by
  unfold ReceivePc.copyAfter
  split <;> exact ⟨hcursor, h⟩

/-- Whatever a round finds in its slot, the next one does not read an older position. -/
theorem readsFrom_step {c idx : Nat} {r r' : RingBuffer} {pc pc' : ReceivePc} (h : ReadsFrom c pc)
    (hs : pc.step idx r = some (r', pc')) : ReadsFrom c pc' := by
  cases pc with
  | loadTail cursor =>
    simp only [ReceivePc.step, Option.some.injEq, Prod.mk.injEq] at hs
    obtain ⟨-, rfl⟩ := hs
    split
    · trivial
    · exact ⟨h, Nat.le_of_eq (Eq.symm h)⟩
  | loadSeq cursor tail eff fuel =>
    obtain ⟨hcursor, hle⟩ := h
    simp only [ReceivePc.step, Option.some.injEq, Prod.mk.injEq] at hs
    obtain ⟨-, rfl⟩ := hs
    split
    · exact readsFrom_retry hcursor hle
    · split
      · rename_i hlt
        exact readsFrom_retry hcursor (by omega)
      · split
        · trivial
        · exact ⟨hcursor, hle⟩
  | loadLen cursor tail eff fuel =>
    obtain ⟨hcursor, hle⟩ := h
    simp only [ReceivePc.step, Option.some.injEq, Prod.mk.injEq] at hs
    obtain ⟨-, rfl⟩ := hs
    split
    · exact readsFrom_retry hcursor hle
    · exact readsFrom_copyAfter hcursor hle
  | loadByte cursor tail eff fuel len out =>
    obtain ⟨hcursor, hle⟩ := h
    simp only [ReceivePc.step, Option.some.injEq, Prod.mk.injEq] at hs
    obtain ⟨-, rfl⟩ := hs
    exact readsFrom_copyAfter hcursor hle
  | loadSeqAfter cursor tail eff fuel out =>
    obtain ⟨hcursor, hle⟩ := h
    simp only [ReceivePc.step, Option.some.injEq, Prod.mk.injEq] at hs
    obtain ⟨-, rfl⟩ := hs
    split
    · exact ⟨hcursor, hle⟩
    · split
      · rename_i hlt
        exact readsFrom_retry hcursor (by omega)
      · exact readsFrom_retry hcursor hle
  | storeCursor cursor tail eff out =>
    obtain ⟨-, hle⟩ := h
    simp only [ReceivePc.step, Option.some.injEq, Prod.mk.injEq] at hs
    obtain ⟨-, rfl⟩ := hs
    exact Nat.lt_succ_of_le hle
  | returned => simp [ReceivePc.step] at hs

/-! ### The order of the messages -/

variable {next : ρ → Option (Except ε Record) × ρ} {s s' : Receiver ρ} {method : ReceiveMethod}

/-- Where a call is agrees with the cursor: it reads the ring from there, and only if no replay is active. -/
def Agrees (s : Receiver ρ) : ReceiverPc → Prop
  | .idle | .nextWalRecord _ => True
  | .reading _ pc => s.walReplay = none ∧ ReadsFrom s.cursor pc
  | .tooLong _ eff => s.walReplay = none ∧ s.cursor ≤ eff
  | _ => s.walReplay = none

/-- The messages are in order, below the cursor, and what the replay has to return is not. -/
structure Inv (next : ρ → Option (Except ε Record) × ρ) (s : Receiver ρ) : Prop where
  ordered : (positions s.received).Pairwise (· < ·)
  below : ∀ k ∈ positions s.received, k < s.cursor
  replay : ∀ p, s.walReplay = some p → Ascends next s.cursor p
  agrees : s.Agrees s.pc

theorem Inv.goto {pc : ReceiverPc} (h : s.Inv next) (hpc : s.Agrees pc) : (s.goto pc).Inv next :=
  ⟨h.ordered, h.below, h.replay, hpc⟩

theorem Inv.readRing (h : s.Inv next) (hlive : s.walReplay = none) : (s.readRing method).Inv next :=
  h.goto ⟨hlive, rfl⟩

theorem Inv.ring (h : s.Inv next) (r : RingBuffer) : { s with ring := r }.Inv next :=
  ⟨h.ordered, h.below, h.replay, h.agrees⟩

/-- The replay is dropped. -/
theorem Inv.dropReplay (h : s.Inv next) (hpc : s.pc = .nextWalRecord method) (r : RingBuffer) :
    { s with walReplay := none, ring := r }.Inv next := by
  refine ⟨h.ordered, h.below, (fun _ h => by cases h), ?_⟩
  show Agrees _ s.pc
  rw [hpc]
  trivial

/-- A call consumes what is below a cursor, and returns no message. -/
theorem Inv.consume {out : Received} {cursor : Nat} {q : Option ρ} (h : s.Inv next) (hout : positions [out] = [])
    (hle : s.cursor ≤ cursor) (hreplay : ∀ p, q = some p → Ascends next cursor p) :
    ({ s with cursor := cursor, walReplay := q }.finish out).Inv next := by
  have hpositions : positions (s.received ++ [out]) = positions s.received := by
    rw [positions, List.filterMap_append]
    exact (congrArg _ hout).trans (List.append_nil _)
  refine ⟨?_, fun k hk => ?_, hreplay, trivial⟩
  · exact hpositions ▸ h.ordered
  · exact (h.below k (hpositions ▸ hk)).trans_le hle

theorem Inv.finish {out : Received} (h : s.Inv next) (hout : positions [out] = []) : (s.finish out).Inv next :=
  h.consume hout le_rfl h.replay

/-- A call returns the message of a position from the cursor on, and moves the cursor behind it. -/
theorem Inv.message {position : Nat} {data : Bytes} {q : Option ρ} (h : s.Inv next) (hle : s.cursor ≤ position)
    (hreplay : ∀ p, q = some p → Ascends next (position + 1) p) :
    ({ s with cursor := position + 1, walReplay := q }.finish (.message position data)).Inv next := by
  have hpositions : positions (s.received ++ [.message position data]) = positions s.received ++ [position] := by
    rw [positions, List.filterMap_append]
    rfl
  refine ⟨?_, ?_, hreplay, trivial⟩
  · change (positions (s.received ++ [.message position data])).Pairwise (· < ·)
    rw [hpositions, List.pairwise_append]
    refine ⟨h.ordered, List.pairwise_singleton .., fun k hk l hl => ?_⟩
    rw [List.mem_singleton.1 hl]
    exact (h.below k hk).trans_le hle
  · intro k hk
    change k ∈ positions (s.received ++ [.message position data]) at hk
    rw [hpositions, List.mem_append, List.mem_singleton] at hk
    rcases hk with hk | rfl
    · exact ((h.below k hk).trans_le hle).trans (Nat.lt_succ_self _)
    · exact Nat.lt_succ_self _

theorem Inv.afterReplay (h : s.Inv next) (hlive : s.walReplay = none) : (s.afterReplay method).Inv next := by
  cases method with
  | pollRecv => exact h.goto hlive
  | _ => exact h.readRing hlive

theorem Ascends.tail {first : Nat} {p p' : ρ} {record : Record} (h : Ascends next first p)
    (hnext : next p = (some (.ok record), p')) : first ≤ record.cursor ∧ Ascends next (record.cursor + 1) p' := by
  have hsucc : ∀ n, first ≤ record.cursor ∧ AscendsFor next n (record.cursor + 1) p' := fun n => by
    have hn := h (n + 1)
    rwa [AscendsFor, hnext] at hn
  exact ⟨(hsucc 0).1, fun n => (hsucc n).2⟩

theorem Inv.nextWalRecord (h : s.Inv next) (hpc : s.pc = .nextWalRecord method) :
    (s.nextWalRecord next method).Inv next := by
  unfold Receiver.nextWalRecord
  split
  · rename_i hlive
    exact h.afterReplay hlive
  · rename_i p hp
    split
    · rename_i record p' hnext
      obtain ⟨hle, hrest⟩ := (h.replay p hp).tail hnext
      have hreplay : ∀ q, some p' = some q → Ascends next (record.cursor + 1) q := by
        rintro _ ⟨⟩
        exact hrest
      unfold takeRecord
      split
      · exact h.consume rfl (hle.trans (Nat.le_succ _)) hreplay
      · exact h.message hle hreplay
    · split
      · exact (h.dropReplay hpc s.ring).readRing rfl
      · exact (h.dropReplay hpc s.ring).finish rfl
    · exact (h.dropReplay hpc _).afterReplay rfl

theorem Inv.access {pc : ReceivePc} (h : s.Inv next) (hlive : s.walReplay = none) (hpc : ReadsFrom s.cursor pc)
    (hs : s.access method pc = some s') : s'.Inv next := by
  unfold Receiver.access at hs
  split at hs
  · rename_i r pc' hstep
    cases hs
    have hreads := readsFrom_step hpc hstep
    unfold afterReceive
    split
    · rename_i cursor tail newCursor out
      obtain ⟨position, rfl⟩ : ∃ position, newCursor = position + 1 :=
        ⟨newCursor - 1, (Nat.succ_pred_eq_of_pos (Nat.zero_lt_of_lt hreads)).symm⟩
      refine (h.ring r).message (q := s.walReplay) (Nat.le_of_lt_succ hreads) fun p hp => ?_
      rw [hlive] at hp
      cases hp
    · split
      · exact (h.ring r).goto hlive
      · exact (h.ring r).finish rfl
    · exact (h.ring r).goto ⟨hlive, hreads⟩
  · cases hs

theorem Inv.read {pc : ReceivePc} (h : s.Inv next) (hpc : s.pc = .reading method pc)
    (hs : s.read method pc = some s') : s'.Inv next := by
  have hagrees := h.agrees
  rw [hpc] at hagrees
  obtain ⟨hlive, hreads⟩ := hagrees
  unfold Receiver.read at hs
  split at hs
  · split at hs
    · cases hs
      exact h.goto ⟨hlive, hreads.2⟩
    · exact h.access hlive hreads hs
  · exact h.access hlive hreads hs

theorem Inv.afterWait {woken : Option Bool} (h : s.Inv next) (hlive : s.walReplay = none) :
    (s.afterWait method woken).Inv next := by
  unfold Receiver.afterWait
  split
  · exact h.finish rfl
  · exact h.readRing hlive
  · split
    · exact h.finish rfl
    · exact h.readRing hlive

theorem Inv.go (h : s.Inv next) (hs : s.go next = some s') : s'.Inv next := by
  have hagrees := h.agrees
  unfold Receiver.go at hs
  split at hs <;> rename_i hpc <;> rw [hpc] at hagrees
  · cases hs
    exact h.nextWalRecord hpc
  · split at hs
    · cases hs
      exact h.finish rfl
    · cases hs
      exact h.goto trivial
  · exact h.read hpc hs
  · -- the record is consumed, and not returned
    rename_i eff
    cases hs
    refine (h.ring _).consume (q := s.walReplay) rfl (hagrees.2.trans (Nat.le_succ _)) fun p hp => ?_
    rw [show s.walReplay = none from hagrees.1] at hp
    cases hp
  · cases hs
    exact (h.ring _).goto hagrees
  · cases hs
    refine h.goto ?_
    split <;> exact hagrees
  · cases hs
    exact (h.ring _).readRing hagrees
  · cases hs
    exact (h.ring _).afterWait hagrees
  all_goals cases hs

theorem Inv.step {a : Act} (h : s.Inv next) (hc : LiveSlices s a) (hs : s.step next a = some s') : s'.Inv next := by
  have hagrees := h.agrees
  unfold Receiver.step at hs
  split at hs
  · rename_i method hpc
    cases hs
    cases method with
    | tryReceiveIntoSlice len => exact h.readRing hc
    | _ => exact h.goto trivial
  · exact h.go hs
  · rename_i unit hpc
    rw [hpc] at hagrees
    split at hs
    · cases hs
      exact h.finish rfl
    · cases hs
      exact h.finish rfl
    · cases hs
      exact h.goto hagrees
  · rename_i woken method hpc
    rw [hpc] at hagrees
    cases hs
    exact h.goto hagrees
  · cases hs
    exact h.finish rfl
  · cases hs
    exact h.ring _
  · cases hs

/-! ### The replay of a log -/

/-- A replay that returns consecutive records -/
theorem ascends_of_yields {σ : Type} {src : Replays.Source ε Record σ} {p : Replays.Replayer σ} {rs : List Record}
    (h : src.Yields p rs) {first n : Nat} (hrs : rs.map Record.cursor = List.range' first n) :
    Ascends src.replayNext first p := by
  intro k
  induction h generalizing first n k with
  | done hnext =>
    cases k with
    | zero => trivial
    | succ k =>
      rw [AscendsFor, hnext]
      trivial
  | @entry p p' r rs hnext _ ih =>
    cases k with
    | zero => trivial
    | succ k =>
      rw [AscendsFor, hnext]
      cases n with
      | zero => cases hrs
      | succ n =>
        rw [List.map_cons, List.range'_succ, List.cons.injEq] at hrs
        obtain ⟨hcursor, hrest⟩ := hrs
        show first ≤ r.cursor ∧ AscendsFor src.replayNext k (r.cursor + 1) p'
        rw [hcursor]
        exact ⟨le_rfl, ih hrest k⟩

/-- The v0.1 log that sessions have left is in order. -/
theorem ascends_log {crc32c : Bytes → UInt32} {acts : List FileSessions.Act} {w : File.Wal} {appended : List Record}
    {c : Nat} {p : File.WalReplayer} (h : run (FileSessions.step crc32c) .init acts = some (.opened w appended))
    (hle : w.oldestCursor ≤ c) (hp : w.readFrom c = .ok p) : Ascends (File.source crc32c w.files).replayNext c p := by
  obtain ⟨p', hp', hyields, hcursors⟩ := FileSessions.reads_from h hle
  obtain rfl : p = p' := Except.ok.inj (hp.symm.trans hp')
  exact ascends_of_yields hyields hcursors

/-- So is the v2 log. -/
theorem ascends_mapped {crc32c : Bytes → UInt32} {acts : List V2.FileSessions.Act} {w : V2.File.Wal}
    {appended : List Record} {c : Nat} {p : Replays.Replayer V2.OpenSegment}
    (h : run (V2.FileSessions.step crc32c) .init acts = some (.opened w appended)) (hle : w.oldestCursor ≤ c)
    (hp : w.readFrom c = .ok p) : Ascends (V2.File.source crc32c w.files).replayNext c p := by
  obtain ⟨p', hp', hyields, hcursors⟩ := V2.FileSessions.reads_from h hle
  obtain rfl : p = p' := Except.ok.inj (hp.symm.trans hp')
  exact ascends_of_yields hyields hcursors

/-- In every run of a subscriber whose log is in order, and in which no slice is filled from the ring while a replay is
active, the positions of the messages are strictly increasing. -/
theorem received_in_order {r : RingBuffer} {cursorIdx cursor : Nat} {walReplay : Option ρ} {acts : List Act}
    (hlog : ∀ p, walReplay = some p → Ascends next cursor p)
    (hc : Meets (step next) LiveSlices (connect r cursorIdx cursor walReplay) acts)
    (hr : run (step next) (connect r cursorIdx cursor walReplay) acts = some s) :
    (positions s.received).Pairwise (· < ·) :=
  (run_invariant_when (Inv next) LiveSlices (fun _ _ _ h hc hs => h.step hc hs) hc
    ⟨.nil, nofun, hlog, trivial⟩ hr).ordered

/-- A v0.1 log with three messages -/
def threeRecords : List FileSessions.Act :=
  [.open ⟨true, .each, 1024, 4096⟩ 0, .append 0 0 [7] 0, .append 1 0 [8] 0, .append 2 0 [9] 0]

/-- A ring of one slot after the messages -/
def lastOf (messages : List Bytes) : RingBuffer := (RingBuffer.create 1 4 1).dropOldestAll messages

/-- A subscriber that starts at the first message of a log, behind the ring -/
def behind (p : File.WalReplayer) : Receiver File.WalReplayer := connect (lastOf [[7], [8], [9]]) 0 0 (some p)

/-- The next item of the replay of a log -/
abbrev replayOf (w : File.Wal) : File.WalReplayer → Option (Except WalError Record) × File.WalReplayer :=
  (File.source castagnoli w.files).replayNext

/-- The replay to its end, and then a slice with the message that has been published meanwhile -/
def replayThenSlice : List Act :=
  [.call .receiveInto, .go, .call .pollRecv, .go, .call .tryReceiveInto, .go,
    .call (.tryReceiveOneIntoSlice 4), .go, .go, .ring (lastOf [[7], [8], [9], [5]]), .call (.tryReceiveIntoSlice 4)] ++
      List.replicate 6 .go

theorem received_in_order_replayThenSlice : ∃ w appended p s,
    run (FileSessions.step castagnoli) .init threeRecords = some (.opened w appended) ∧ w.readFrom 0 = .ok p ∧
      run (step (replayOf w)) (behind p) replayThenSlice = some s ∧ positions s.received = [0, 1, 2, 3] ∧
      (positions s.received).Pairwise (· < ·) := by
  obtain ⟨l, hl, hs⟩ := Option.bind_eq_some_iff.1
    (show ((run (FileSessions.step castagnoli) .init threeRecords).bind fun
      | .opened w _ =>
        if w.oldestCursor = 0 then
          match w.readFrom 0 with
          | .ok p =>
            if Meets (step (replayOf w)) LiveSlices (behind p) replayThenSlice then
              (run (step (replayOf w)) (behind p) replayThenSlice).map fun s => positions s.received
            else none
          | .error _ => none
        else none
      | .closed _ _ => none) = some [0, 1, 2, 3] by decide +kernel)
  cases l with
  | closed files appended => cases hs
  | opened w appended =>
    dsimp only at hs
    split at hs
    · rename_i holdest
      split at hs
      · rename_i p hp
        split at hs
        · rename_i hmeets
          obtain ⟨s, hr, hpositions⟩ := Option.map_eq_some_iff.1 hs
          have hlog : ∀ q, some p = some q → Ascends (replayOf w) 0 q := by
            rintro _ ⟨⟩
            exact ascends_log hl holdest.le hp
          exact ⟨w, appended, p, s, hl, hp, hr, hpositions, received_in_order hlog hmeets hr⟩
        · cases hs
      · cases hs
    · cases hs

/-- Two calls of `recv_into_buffer` with room for two messages -/
def recvIntoBufferTwice : List Act :=
  [.call .receiveTimeoutInto, .go, .call (.tryReceiveIntoSlice 1)] ++ List.replicate 7 .go ++
    [.call .receiveTimeoutInto, .go, .call (.tryReceiveIntoSlice 1)] ++ List.replicate 6 .go

/-- The slice of the first call takes the third message, the replay goes on with the second; the third comes again. -/
theorem received_in_order_fails : ∃ w appended p s,
    run (FileSessions.step castagnoli) .init threeRecords = some (.opened w appended) ∧ w.readFrom 0 = .ok p ∧
      run (step (replayOf w)) (behind p) recvIntoBufferTwice = some s ∧
      s.received = [.message 0 [7], .message 2 [9], .message 1 [8], .message 2 [9]] ∧
      ¬(positions s.received).Pairwise (· < ·) := by
  obtain ⟨l, hl, hs⟩ := Option.bind_eq_some_iff.1
    (show ((run (FileSessions.step castagnoli) .init threeRecords).bind fun
      | .opened w _ =>
        match w.readFrom 0 with
        | .ok p => (run (step (replayOf w)) (behind p) recvIntoBufferTwice).map received
        | .error _ => none
      | .closed _ _ => none) = some [.message 0 [7], .message 2 [9], .message 1 [8], .message 2 [9]] by decide +kernel)
  cases l with
  | closed files appended => cases hs
  | opened w appended =>
    dsimp only at hs
    split at hs
    · rename_i p hp
      obtain ⟨s, hr, hreceived⟩ := Option.map_eq_some_iff.1 hs
      refine ⟨w, appended, p, s, hl, hp, hr, hreceived, ?_⟩
      rw [hreceived]
      decide
    · cases hs

end Receiver

end Mmbus
