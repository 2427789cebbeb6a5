import Mmbus.Lib.Transition
import Mmbus.Ownership
import Mathlib.Data.List.Induction

/-!
# Who holds which entry of the cursor table

Any number of subscribers of one ring, from `connect_with` with any start position to `Drop`, one access of the table at
a time: the scan of `claim_cursor`, the plain stores after it, the receive calls, the hand-off from the log to the ring.
What the log yields is up to the environment, and so is what a publisher stores into the tail and the slots.  The
wakeup flags, the waits and the sockets are left out: they leave the table alone.

An entry is free if it holds `CURSOR_UNCLAIMED`, and a store of that value gives it away.  The stores of the receive calls
never do; that of `connect_with` does for one explicit start position, and that of the hand-off after a record with the
last cursor but one (`entries_not_owned`).  Without these two every subscriber keeps its entry (`entries_owned`).
-/

namespace Mmbus.CursorTable

open Transition RingBuffer

/-! ### Subscribers -/

/-- What the next access of a subscriber is -/
inductive Pc
  | absent
  | claimAt (i : Nat)
  | handshake
  | resync
  | abort
  | setCursor (value : Nat)
  | failed
  | ready
  | replaying
  | handOff
  | receiving (pc : ReceivePc)
  | skip (eff : Nat)
  | release
  | gone

/-- The subscriber has claimed an entry and not released it. -/
def Pc.holds : Pc → Bool
  | absent | claimAt _ | failed | gone => false
  | _ => true

structure Peer where
  pc : Pc
  startPos : StartPos
  /-- The tail read before `claim_cursor` -/
  tail : Nat
  cursorIdx : Nat
  cursor : Nat
  /-- There is a `wal_replay`. -/
  replay : Bool
  /-- How long the caller's slice of the last receive call is, if the call was given one -/
  slice : Option Nat

def Peer.init : Peer := ⟨.absent, .now, 0, 0, 0, false, none⟩

def Peer.Holds (p : Peer) : Prop := p.pc.holds = true

instance (p : Peer) : Decidable p.Holds := inferInstanceAs (Decidable (_ = _))

/-- What the environment decides at a step.  `fail` is an error on the way to a connection: the ring, the eventfd, the
socket, the handshake, the log.  A receive call consults the log first or does not, and copies the payload into a new
buffer or into a slice of the caller. -/
inductive Choice
  | connect (start : StartPos)
  | go
  | fail
  | receive (log : Bool) (slice : Option Nat)
  /-- The replayer yields a record with the cursor `c`, an error, or its end. -/
  | record (c : UInt64)
  | replayError
  | drained
  | drop

/-- The position whose payload is too long for the caller's slice, if the next load is the one that shows it -/
def Peer.tooLong (r : RingBuffer) (p : Peer) : ReceivePc → Option Nat
  | .loadLen _ _ eff _ =>
    match p.slice with
    | some n => if (r.slot eff).len ≤ r.slotSize ∧ n < (r.slot eff).len then some eff else none
    | none => none
  | _ => none

/-- After an access of the ring's `try_receive` -/
def Peer.afterReceive (p : Peer) : ReceivePc → Peer
  | .returned _ _ (some (newCursor, _)) => { p with pc := .ready, cursor := newCursor }
  | .returned _ _ none => { p with pc := .ready }
  | pc => { p with pc := .receiving pc }

/-- One access of a subscriber -/
def Peer.step (r : RingBuffer) (p : Peer) : Choice → Option (RingBuffer × Peer)
  | .connect start =>
    match p.pc with
    | .absent => some (r, { p with pc := .claimAt 0, startPos := start, tail := r.tail })
    | _ => none
  | .fail =>
    match p.pc with
    | .absent => some (r, { p with pc := .failed })
    | .handshake => some (r, { p with pc := .abort })
    | .resync =>
      match Subscriber.startCursor r.cap r.tail p.startPos with
      | some _ => none
      | none => some (r, { p with pc := .abort })
    | _ => none
  | .go =>
    match p.pc with
    | .claimAt i =>
      if i < r.maxSubs then
        if r.cursors i = CURSOR_UNCLAIMED then
          some (r.setCursor i p.tail, { p with pc := .handshake, cursorIdx := i })
        else some (r, { p with pc := .claimAt (i + 1) })
      else some (r, { p with pc := .failed })
    | .handshake => some (r, { p with pc := .resync })
    | .resync =>
      match Subscriber.startCursor r.cap r.tail p.startPos, p.startPos with
      | some c, _ => some (r, { p with pc := .setCursor c, cursor := c })
      | none, .explicit c => some (r, { p with pc := .setCursor r.tail, cursor := c, replay := true })
      | none, _ => none
    | .abort => some (r.releaseCursor p.cursorIdx, { p with pc := .failed })
    | .setCursor value => some (r.setCursor p.cursorIdx value, { p with pc := .ready })
    | .handOff => some (r.setCursor p.cursorIdx p.cursor, { p with pc := .receiving (.loadTail p.cursor) })
    | .receiving pc =>
      match p.tooLong r pc with
      | some eff => some (r, { p with pc := .skip eff })
      | none =>
        match pc.step p.cursorIdx r with
        | some (r', pc') => some (r', p.afterReceive pc')
        | none => none
    | .skip eff => some (r.setCursor p.cursorIdx (eff + 1), { p with pc := .ready, cursor := eff + 1 })
    | .release => some (r.releaseCursor p.cursorIdx, { p with pc := .gone })
    | _ => none
  | .receive log slice =>
    match p.pc with
    | .ready => some (r, { p with
        pc := if p.replay ∧ log = true then .replaying else .receiving (.loadTail p.cursor), slice })
    | _ => none
  | .record c =>
    match p.pc with
    | .replaying => some (r, { p with pc := .ready, cursor := (c + 1).toNat })
    | _ => none
  | .replayError =>
    match p.pc with
    | .replaying => some (r, { p with pc := .ready, replay := false })
    | _ => none
  | .drained =>
    match p.pc with
    | .replaying => some (r, { p with pc := .handOff, replay := false })
    | _ => none
  | .drop =>
    match p.pc with
    | .ready => some (r, { p with pc := .release })
    | _ => none

/-! ### The ring and its subscribers -/

structure State where
  ring : RingBuffer
  peers : Nat → Peer

/-- A step of a subscriber, or a store of the publisher; positions stay below the marker bit. -/
inductive Act
  | peer (i : Nat) (choice : Choice)
  | setTail (value : Nat)
  | setSlot (p : Nat) (seq : UInt64) (len : UInt32) (payload : Nat → UInt8)

def step (s : State) : Act → Option State
  | .peer i choice =>
    match (s.peers i).step s.ring choice with
    | some (ring, p) => some ⟨ring, Function.update s.peers i p⟩
    | none => none
  | .setTail value =>
    if s.ring.tail ≤ value ∧ value ≤ 2 ^ SEQ_WRITING then some { s with ring := s.ring.setTail value } else none
  | .setSlot p seq len payload => some { s with ring := s.ring.setSlot p ⟨seq.toNat, len.toNat, payload⟩ }

/-- The stores that may give an entry away: that of a connection with an explicit start position, and that of the
hand-off. -/
def Peer.Keeps (p : Peer) : Choice → Prop
  | .go =>
    match p.pc with
    | .setCursor _ => p.startPos ≠ .explicit CURSOR_UNCLAIMED
    | .handOff => p.cursor ≠ CURSOR_UNCLAIMED
    | _ => True
  | _ => True

def Keeps (s : State) : Act → Prop
  | .peer i choice => (s.peers i).Keeps choice
  | _ => True

/-- A subscriber, connecting or connected, holds the entry `j`. -/
def HeldAt (s : State) (j : Nat) : Prop := ∃ k, (s.peers k).Holds ∧ (s.peers k).cursorIdx = j

/-- The entries of the subscribers are theirs alone and claimed. -/
structure Owned (s : State) : Prop where
  distinct : ∀ i k, i ≠ k → (s.peers i).Holds → (s.peers k).Holds → (s.peers i).cursorIdx ≠ (s.peers k).cursorIdx
  claimed : ∀ i, (s.peers i).Holds → s.ring.cursors (s.peers i).cursorIdx ≠ CURSOR_UNCLAIMED

/-- A generation begins.  The subscribers are new, or they are connected since before, and hold what is claimed. -/
structure Started (s : State) : Prop extends Owned s where
  ring : s.ring.Started
  peer : ∀ i, (s.peers i).pc = .absent ∨ (s.peers i).pc = .ready ∧ (s.peers i).cursorIdx < s.ring.maxSubs
  held : ∀ j < s.ring.maxSubs, s.ring.cursors j ≠ CURSOR_UNCLAIMED → HeldAt s j

/-! ### What a step does to the table -/

/-- The effect of one step of a subscriber: none on the table, a free entry claimed, a store into its own entry, or its
release -/
inductive Effect (r : RingBuffer) (p : Peer) (choice : Choice) : RingBuffer → Peer → Prop
  | keep {p' : Peer} (holds : p'.pc.holds = p.pc.holds) (idx : p'.cursorIdx = p.cursorIdx)
      (failed : p'.pc = .failed → p.pc.holds = false) : Effect r p choice r p'
  | claim {i : Nat} (new : p.pc.holds = false) (lt : i < r.maxSubs) (free : r.cursors i = CURSOR_UNCLAIMED)
      (kept : p.tail ≠ CURSOR_UNCLAIMED) :
      Effect r p choice (r.setCursor i p.tail) { p with pc := .handshake, cursorIdx := i }
  | store {v : Nat} {p' : Peer} (held : p.pc.holds = true) (holds : p'.pc.holds = true)
      (idx : p'.cursorIdx = p.cursorIdx) (kept : p.Keeps choice → v ≠ CURSOR_UNCLAIMED) :
      Effect r p choice (r.setCursor p.cursorIdx v) p'
  | release {p' : Peer} (held : p.pc.holds = true) (out : p'.pc.holds = false) :
      Effect r p choice (r.releaseCursor p.cursorIdx) p'

/-- The values that the subscriber is going to store -/
structure Fine (p : Peer) : Prop where
  tail_le : ∀ i, p.pc = .claimAt i → p.tail ≤ 2 ^ SEQ_WRITING
  value : ∀ v, p.pc = .setCursor v → v ≤ 2 ^ SEQ_WRITING ∨ p.startPos = .explicit v
  receiving : ∀ pc, p.pc = .receiving pc → pc.InRange
  skip : ∀ eff, p.pc = .skip eff → eff < 2 ^ SEQ_WRITING

variable {r r' : RingBuffer} {p p' : Peer} {choice : Choice} {s s' : State}

theorem ne_unclaimed_of_le {v : Nat} (h : v ≤ 2 ^ SEQ_WRITING) : v ≠ CURSOR_UNCLAIMED :=
  (h.trans_lt (by decide)).ne

/-- A connection starts at the tail or below it, or where it has been told to. -/
theorem startCursor_cases {capacity tail c : Nat} {start : StartPos} (hlim : tail ≤ 2 ^ SEQ_WRITING)
    (hc : Subscriber.startCursor capacity tail start = some c) : c ≤ 2 ^ SEQ_WRITING ∨ start = .explicit c := by
  cases start with
  | now =>
    cases hc
    exact .inl hlim
  | historyBack n =>
    cases hc
    exact .inl (by omega)
  | explicit p =>
    simp only [Subscriber.startCursor] at hc
    split at hc <;> cases hc
    exact .inr rfl

theorem holds_afterReceive (pc : ReceivePc) :
    (p.afterReceive pc).pc.holds = true ∧ (p.afterReceive pc).cursorIdx = p.cursorIdx := by
  unfold Peer.afterReceive
  split <;> exact ⟨rfl, rfl⟩

theorem fine_afterReceive {pc : ReceivePc} (h : pc.InRange) : Fine (p.afterReceive pc) := by
  unfold Peer.afterReceive
  split
  · exact ⟨nofun, nofun, nofun, nofun⟩
  · exact ⟨nofun, nofun, nofun, nofun⟩
  · refine ⟨nofun, nofun, fun pc' heq => ?_, nofun⟩
    cases heq
    exact h

/-- The payload that is too long is that of the position which the call has read. -/
theorem eff_lt_of_tooLong {pc : ReceivePc} {eff : Nat} (hrange : pc.InRange) (h : p.tooLong r pc = some eff) :
    eff < 2 ^ SEQ_WRITING := by
  cases pc with
  | loadLen cursor tail pos fuel =>
    simp only [Peer.tooLong] at h
    split at h
    · split at h <;> cases h
      exact hrange
    · cases h
  | _ => cases h

/-- An access of a receive call in progress -/
theorem receiving_effect {pc : ReceivePc} (hpc : p.pc = .receiving pc) (hfine : Fine p)
    (hlim : r.tail ≤ 2 ^ SEQ_WRITING) (hseq : ∀ j, (r.slots j).seq < 2 ^ 64)
    (hs : p.step r .go = some (r', p')) : Effect r p .go r' p' ∧ Fine p' := by
  have hheld : p.pc.holds = true := by rw [hpc]; rfl
  have hrange := hfine.receiving pc hpc
  simp only [Peer.step, hpc] at hs
  cases hlong : p.tooLong r pc with
  | some eff =>
    rw [hlong] at hs
    cases hs
    refine ⟨.keep hheld.symm rfl nofun, nofun, nofun, nofun, ?_⟩
    rintro _ ⟨⟩
    exact eff_lt_of_tooLong hrange hlong
  | none =>
    rw [hlong] at hs
    cases hstep : pc.step p.cursorIdx r with
    | none =>
      rw [hstep] at hs
      cases hs
    | some q =>
      obtain ⟨r₁, pc₁⟩ := q
      have hrange₁ := ReceivePc.inRange_step hrange hlim hseq hstep
      obtain ⟨hholds, hidx⟩ := holds_afterReceive (p := p) pc₁
      rw [hstep] at hs
      cases hs
      refine ⟨?_, fine_afterReceive hrange₁⟩
      cases pc with
      | storeCursor cursor tail eff out =>
        cases hstep
        have hlt : eff < 2 ^ SEQ_WRITING := hrange
        exact .store hheld hholds hidx fun _ => ne_unclaimed_of_le hlt
      | returned => cases hstep
      | _ =>
        obtain ⟨rfl, -⟩ := ReceivePc.step_quiet hstep (by simp)
        refine .keep (hholds.trans hheld.symm) hidx fun hfailed => ?_
        rw [hfailed] at hholds
        cases hholds

/-- Nothing is known of the values to be stored, and nothing has failed. -/
def Pc.Plain : Pc → Prop
  | claimAt _ | setCursor _ | receiving _ | skip _ | failed => False
  | _ => True

theorem fine_of_plain (h : p.pc.Plain) : Fine p := by
  refine ⟨fun i hpc => ?_, fun v hpc => ?_, fun pc hpc => ?_, fun eff hpc => ?_⟩ <;> (rw [hpc] at h; exact h.elim)

theorem keep_of_plain (hplain : p'.pc.Plain) (hholds : p'.pc.holds = p.pc.holds) (hidx : p'.cursorIdx = p.cursorIdx) :
    Effect r p choice r p' ∧ Fine p' := by
  refine ⟨.keep hholds hidx fun hfailed => ?_, fine_of_plain hplain⟩
  rw [hfailed] at hplain
  exact hplain.elim

theorem go_effect (hfine : Fine p) (hlim : r.tail ≤ 2 ^ SEQ_WRITING) (hseq : ∀ j, (r.slots j).seq < 2 ^ 64)
    (hs : p.step r .go = some (r', p')) : Effect r p .go r' p' ∧ Fine p' := by
  cases hpc : p.pc with
  | receiving pc => exact receiving_effect hpc hfine hlim hseq hs
  | absent | failed | ready | replaying | gone =>
    simp only [Peer.step, hpc] at hs
    cases hs
  | claimAt i =>
    have hnew : p.pc.holds = false := by rw [hpc]; rfl
    simp only [Peer.step, hpc] at hs
    split at hs
    · rename_i hi
      split at hs
      · rename_i hfree
        cases hs
        exact ⟨.claim hnew hi hfree (ne_unclaimed_of_le (hfine.tail_le i hpc)), fine_of_plain trivial⟩
      · cases hs
        refine ⟨.keep hnew.symm rfl nofun, ?_, nofun, nofun, nofun⟩
        rintro j -
        exact hfine.tail_le i hpc
    · cases hs
      exact ⟨.keep hnew.symm rfl fun _ => hnew, nofun, nofun, nofun, nofun⟩
  | handshake =>
    simp only [Peer.step, hpc] at hs
    cases hs
    exact keep_of_plain trivial (by rw [hpc]; rfl) rfl
  | resync =>
    have hheld : p.pc.holds = true := by rw [hpc]; rfl
    simp only [Peer.step, hpc] at hs
    split at hs
    · rename_i c _ hc
      cases hs
      refine ⟨.keep hheld.symm rfl nofun, nofun, ?_, nofun, nofun⟩
      rintro v ⟨⟩
      exact startCursor_cases hlim hc
    · cases hs
      refine ⟨.keep hheld.symm rfl nofun, nofun, ?_, nofun, nofun⟩
      rintro v ⟨⟩
      exact .inl hlim
    · cases hs
  | abort | release =>
    simp only [Peer.step, hpc] at hs
    cases hs
    exact ⟨.release (by rw [hpc]; rfl) rfl, nofun, nofun, nofun, nofun⟩
  | skip eff =>
    simp only [Peer.step, hpc] at hs
    cases hs
    have hlt : eff < 2 ^ SEQ_WRITING := hfine.skip eff hpc
    exact ⟨.store (by rw [hpc]; rfl) rfl rfl fun _ => ne_unclaimed_of_le hlt, fine_of_plain trivial⟩
  | setCursor value =>
    simp only [Peer.step, hpc] at hs
    cases hs
    refine ⟨.store (by rw [hpc]; rfl) rfl rfl fun hkeeps heq => ?_, fine_of_plain trivial⟩
    simp only [Peer.Keeps, hpc] at hkeeps
    rcases hfine.value value hpc with hle | hstart
    · exact ne_unclaimed_of_le hle heq
    · exact hkeeps (heq ▸ hstart)
  | handOff =>
    simp only [Peer.step, hpc] at hs
    cases hs
    refine ⟨.store (by rw [hpc]; rfl) rfl rfl fun hkeeps => ?_, nofun, nofun, ?_, nofun⟩
    · simpa only [Peer.Keeps, hpc] using hkeeps
    · rintro pc ⟨⟩
      trivial

/-- What a step of a subscriber can do -/
theorem step_effect (hfine : Fine p) (hlim : r.tail ≤ 2 ^ SEQ_WRITING) (hseq : ∀ j, (r.slots j).seq < 2 ^ 64)
    (hs : p.step r choice = some (r', p')) : Effect r p choice r' p' ∧ Fine p' := by
  cases choice with
  | go => exact go_effect hfine hlim hseq hs
  | connect start =>
    cases hpc : p.pc <;> simp only [Peer.step, hpc] at hs <;> cases hs
    refine ⟨.keep (by rw [hpc]; rfl) rfl nofun, ?_, nofun, nofun, nofun⟩
    rintro i -
    exact hlim
  | fail =>
    cases hpc : p.pc <;> simp only [Peer.step, hpc] at hs
    case absent =>
      cases hs
      exact ⟨.keep (by rw [hpc]; rfl) rfl fun _ => by rw [hpc]; rfl, nofun, nofun, nofun, nofun⟩
    case handshake =>
      cases hs
      exact keep_of_plain trivial (by rw [hpc]; rfl) rfl
    case resync =>
      split at hs <;> cases hs
      exact keep_of_plain trivial (by rw [hpc]; rfl) rfl
    all_goals cases hs
  | receive log slice =>
    cases hpc : p.pc <;> simp only [Peer.step, hpc] at hs <;> cases hs
    split
    · exact keep_of_plain trivial (by rw [hpc]; rfl) rfl
    · refine ⟨.keep (by rw [hpc]; rfl) rfl nofun, nofun, nofun, ?_, nofun⟩
      rintro pc ⟨⟩
      trivial
  | record | replayError | drained | drop =>
    cases hpc : p.pc <;> simp only [Peer.step, hpc] at hs <;> cases hs
    exact keep_of_plain trivial (by rw [hpc]; rfl) rfl

/-! ### The invariant -/

structure Inv (s : State) : Prop extends Owned s where
  tail_le : s.ring.tail ≤ 2 ^ SEQ_WRITING
  seq_lt : ∀ j, (s.ring.slots j).seq < 2 ^ 64
  fine : ∀ i, Fine (s.peers i)
  idx_lt : ∀ i, (s.peers i).Holds → (s.peers i).cursorIdx < s.ring.maxSubs
  held : ∀ j < s.ring.maxSubs, s.ring.cursors j ≠ CURSOR_UNCLAIMED → HeldAt s j

theorem Started.inv (h : Started s) : Inv s where
  toOwned := h.toOwned
  tail_le := h.ring.tail.trans_le (Nat.zero_le _)
  seq_lt := h.ring.seq_lt
  fine i := by
    rcases h.peer i with hpc | ⟨hpc, -⟩ <;> exact fine_of_plain (by rw [hpc]; trivial)
  idx_lt i hi := by
    rcases h.peer i with hpc | ⟨-, hlt⟩
    · rw [Peer.Holds, hpc] at hi
      cases hi
    · exact hlt
  held := h.held

/-- No step of a subscriber changes the entry of another. -/
theorem Inv.others_entry (h : Inv s) {i k : Nat} (hki : k ≠ i) (he : Effect s.ring (s.peers i) choice r' p')
    (hk : (s.peers k).Holds) : r'.cursors (s.peers k).cursorIdx = s.ring.cursors (s.peers k).cursorIdx := by
  cases he with
  | keep => rfl
  | claim _ _ hfree =>
    refine Function.update_of_ne (fun heq => h.claimed k hk ?_) ..
    rw [heq, hfree]
  | store hheld => exact Function.update_of_ne (h.distinct k i hki hk hheld) ..
  | release hheld => exact Function.update_of_ne (h.distinct k i hki hk hheld) ..

/-- What a subscriber holds after its step, it held before or it was free. -/
theorem Effect.held (he : Effect r p choice r' p') (hp' : p'.Holds) :
    p.Holds ∧ p'.cursorIdx = p.cursorIdx ∨ r.cursors p'.cursorIdx = CURSOR_UNCLAIMED ∧ p'.cursorIdx < r.maxSubs := by
  cases he with
  | keep hholds hidx => exact .inl ⟨hholds.symm.trans hp', hidx⟩
  | claim _ hlt hfree => exact .inr ⟨hfree, hlt⟩
  | store hheld _ hidx => exact .inl ⟨hheld, hidx⟩
  | release _ hout =>
    rw [Peer.Holds, hout] at hp'
    cases hp'

/-- The entry of the subscriber that has made the step -/
theorem Effect.claimed (he : Effect r p choice r' p') (hkeeps : p.Keeps choice) (hp' : p'.Holds)
    (hclaimed : p.Holds → r.cursors p.cursorIdx ≠ CURSOR_UNCLAIMED) : r'.cursors p'.cursorIdx ≠ CURSOR_UNCLAIMED := by
  cases he with
  | keep hholds hidx =>
    rw [hidx]
    exact hclaimed (hholds.symm.trans hp')
  | claim _ _ _ hkept =>
    rw [setCursor_cursors, if_pos rfl]
    exact hkept
  | store _ _ hidx hkept =>
    rw [hidx, setCursor_cursors, if_pos rfl]
    exact hkept hkeeps
  | release _ hout =>
    rw [Peer.Holds, hout] at hp'
    cases hp'

/-- An entry that is claimed after the step was claimed before, or is the one of the subscriber that has made it. -/
theorem Effect.entry (he : Effect r p choice r' p') {j : Nat} (hj : r'.cursors j ≠ CURSOR_UNCLAIMED) :
    p'.Holds ∧ p'.cursorIdx = j ∨
      r.cursors j ≠ CURSOR_UNCLAIMED ∧ (p.Holds → p.cursorIdx = j → p'.Holds ∧ p'.cursorIdx = j) := by
  cases he with
  | keep hholds hidx => exact .inr ⟨hj, fun hp heq => ⟨hholds.trans hp, hidx.trans heq⟩⟩
  | claim hnew =>
    rename_i i _ _ _
    rw [setCursor_cursors] at hj
    by_cases heq : j = i
    · exact .inl ⟨rfl, heq.symm⟩
    · rw [if_neg heq] at hj
      refine .inr ⟨hj, fun hp => ?_⟩
      rw [Peer.Holds, hnew] at hp
      cases hp
  | store hheld hholds hidx =>
    rw [setCursor_cursors] at hj
    by_cases heq : j = p.cursorIdx
    · exact .inl ⟨hholds, hidx.trans heq.symm⟩
    · rw [if_neg heq] at hj
      exact .inr ⟨hj, fun _ hidx' => absurd hidx'.symm heq⟩
  | release hheld =>
    rw [releaseCursor, setCursor_cursors] at hj
    by_cases heq : j = p.cursorIdx
    · rw [if_pos heq] at hj
      exact absurd rfl hj
    · rw [if_neg heq] at hj
      exact .inr ⟨hj, fun _ hidx' => absurd hidx'.symm heq⟩

theorem Effect.frame (he : Effect r p choice r' p') :
    r'.tail = r.tail ∧ r'.slots = r.slots ∧ r'.maxSubs = r.maxSubs := by
  cases he <;> exact ⟨rfl, rfl, rfl⟩

theorem Inv.peer {i : Nat} (h : Inv s) (hkeeps : (s.peers i).Keeps choice)
    (hs : (s.peers i).step s.ring choice = some (r', p')) : Inv ⟨r', Function.update s.peers i p'⟩ := by
  obtain ⟨he, hfine⟩ := step_effect (h.fine i) h.tail_le h.seq_lt hs
  obtain ⟨htail, hslots, hmax⟩ := he.frame
  have hother {k : Nat} (hki : k ≠ i) : Function.update s.peers i p' k = s.peers k := Function.update_of_ne hki ..
  -- the entry that a subscriber has claimed was nobody's
  have hnew {k : Nat} (hki : k ≠ i) (hp' : p'.Holds) (hk : (s.peers k).Holds) :
      p'.cursorIdx ≠ (s.peers k).cursorIdx := by
    rcases he.held hp' with ⟨hp, hidx⟩ | ⟨hfree, -⟩
    · rw [hidx]
      exact h.distinct i k (Ne.symm hki) hp hk
    · intro heq
      exact h.claimed k hk (heq ▸ hfree)
  refine ⟨⟨fun j k hjk hj hk => ?_, fun k hk => ?_⟩, htail ▸ h.tail_le, fun j => ?_, fun k => ?_, fun k hk => ?_,
    fun j hj hclaimed => ?_⟩
  · simp only at hj hk ⊢
    by_cases hji : j = i
    · subst hji
      rw [hother (Ne.symm hjk)] at hk ⊢
      rw [Function.update_self] at hj ⊢
      exact hnew (Ne.symm hjk) hj hk
    · rw [hother hji] at hj ⊢
      by_cases hki : k = i
      · subst hki
        rw [Function.update_self] at hk ⊢
        exact (hnew hji hk hj).symm
      · rw [hother hki] at hk ⊢
        exact h.distinct j k hjk hj hk
  · simp only at hk ⊢
    by_cases hki : k = i
    · subst hki
      rw [Function.update_self] at hk ⊢
      exact he.claimed hkeeps hk (h.claimed k)
    · rw [hother hki] at hk ⊢
      rw [h.others_entry hki he hk]
      exact h.claimed k hk
  · rw [hslots]
    exact h.seq_lt j
  · simp only
    by_cases hki : k = i
    · subst hki
      rwa [Function.update_self]
    · rw [hother hki]
      exact h.fine k
  · simp only at hk ⊢
    rw [hmax]
    by_cases hki : k = i
    · subst hki
      rw [Function.update_self] at hk ⊢
      rcases he.held hk with ⟨hp, hidx⟩ | ⟨-, hlt⟩
      · rw [hidx]
        exact h.idx_lt k hp
      · exact hlt
    · rw [hother hki] at hk ⊢
      exact h.idx_lt k hk
  · have hself : p'.Holds → p'.cursorIdx = j → HeldAt ⟨r', Function.update s.peers i p'⟩ j := by
      intro hp' hidx
      refine ⟨i, ?_, ?_⟩ <;> simp only [Function.update_self]
      · exact hp'
      · exact hidx
    rcases he.entry hclaimed with ⟨hp', hidx⟩ | ⟨hbefore, hkept⟩
    · exact hself hp' hidx
    · obtain ⟨k, hk, hidx⟩ := h.held j (hmax ▸ hj) hbefore
      by_cases hki : k = i
      · subst hki
        obtain ⟨hp', hidx'⟩ := hkept hk hidx
        exact hself hp' hidx'
      · refine ⟨k, ?_, ?_⟩ <;> simp only [hother hki]
        · exact hk
        · exact hidx

theorem Inv.step {a : Act} (h : Inv s) (hkeeps : Keeps s a) (hs : CursorTable.step s a = some s') : Inv s' := by
  cases a with
  | peer i choice =>
    simp only [CursorTable.step] at hs
    split at hs
    · rename_i r' p' hstep
      cases hs
      exact h.peer hkeeps hstep
    · cases hs
  | setTail value =>
    simp only [CursorTable.step] at hs
    split at hs
    · rename_i hvalue
      cases hs
      exact ⟨⟨h.distinct, h.claimed⟩, hvalue.2, h.seq_lt, h.fine, h.idx_lt, h.held⟩
    · cases hs
  | setSlot p seq len payload =>
    cases hs
    refine ⟨⟨h.distinct, h.claimed⟩, h.tail_le, fun j => ?_, h.fine, h.idx_lt, h.held⟩
    rw [setSlot_slots]
    split
    · exact seq.toNat_lt
    · exact h.seq_lt j

/-! ### The scan of `claim_cursor` -/

/-- The scan goes on past an entry that it has found claimed. -/
theorem claimAt_of_step {n : Nat} (hs : p.step r choice = some (r', p')) (hpc : p'.pc = .claimAt n) :
    n = 0 ∨ ∃ m, p.pc = .claimAt m ∧ n = m + 1 ∧ r.cursors m ≠ CURSOR_UNCLAIMED := by
  cases choice with
  | connect start =>
    cases hold : p.pc <;> simp only [Peer.step, hold] at hs <;> cases hs
    cases hpc
    exact .inl rfl
  | go =>
    cases hold : p.pc with
    | claimAt m =>
      simp only [Peer.step, hold] at hs
      split at hs
      · split at hs
        · cases hs
          cases hpc
        · rename_i hclaimed
          cases hs
          cases hpc
          exact .inr ⟨m, rfl, rfl, hclaimed⟩
      · cases hs
        cases hpc
    | receiving pc =>
      simp only [Peer.step, hold] at hs
      split at hs
      · cases hs
        cases hpc
      · split at hs
        · rename_i pc₁ _
          cases hs
          have hholds := (holds_afterReceive (p := p) pc₁).1
          rw [hpc] at hholds
          cases hholds
        · cases hs
    | resync =>
      simp only [Peer.step, hold] at hs
      split at hs <;> cases hs <;> cases hpc
    | _ =>
      simp only [Peer.step, hold] at hs
      cases hs
      try cases hpc
  | fail =>
    cases hold : p.pc <;> simp only [Peer.step, hold] at hs
    case resync => split at hs <;> cases hs; cases hpc
    all_goals cases hs
    all_goals cases hpc
  | receive log slice =>
    cases hold : p.pc <;> simp only [Peer.step, hold] at hs <;> cases hs
    simp only at hpc
    split at hpc <;> cases hpc
  | record | replayError | drained | drop =>
    cases hold : p.pc <;> simp only [Peer.step, hold] at hs <;> cases hs
    cases hpc

theorem Inv.maxSubs_step {a : Act} (h : Inv s) (hs : CursorTable.step s a = some s') :
    s'.ring.maxSubs = s.ring.maxSubs := by
  cases a with
  | peer i choice =>
    simp only [CursorTable.step] at hs
    split at hs
    · rename_i r' p' hstep
      cases hs
      exact (step_effect (h.fine i) h.tail_le h.seq_lt hstep).1.frame.2.2
    · cases hs
  | setTail value =>
    simp only [CursorTable.step] at hs
    split at hs <;> cases hs
    rfl
  | setSlot =>
    cases hs
    rfl

theorem claimAt_step {i n : Nat} {a : Act} (hs : CursorTable.step s a = some s') (hpc : (s'.peers i).pc = .claimAt n) :
    n = 0 ∨ (s.peers i).pc = .claimAt n ∨
      ∃ m, (s.peers i).pc = .claimAt m ∧ n = m + 1 ∧ s.ring.cursors m ≠ CURSOR_UNCLAIMED := by
  cases a with
  | peer k choice =>
    simp only [CursorTable.step] at hs
    split at hs
    · rename_i r' p' hstep
      cases hs
      simp only at hpc
      by_cases hik : i = k
      · subst hik
        rw [Function.update_self] at hpc
        exact (claimAt_of_step hstep hpc).imp_right .inr
      · rw [Function.update_of_ne hik] at hpc
        exact .inr (.inl hpc)
    · cases hs
  | setTail value =>
    simp only [CursorTable.step] at hs
    split at hs <;> cases hs
    exact .inr (.inl hpc)
  | setSlot =>
    cases hs
    exact .inr (.inl hpc)

/-- Every entry that the scan has passed was held by a subscriber when the scan looked at it. -/
theorem Inv.scanned {s₁ : State} {i n : Nat} {acts : List Act} (h : Inv s₁) (hstart : (s₁.peers i).pc = .claimAt 0)
    (hc : Meets CursorTable.step Keeps s₁ acts) (hr : run CursorTable.step s₁ acts = some s)
    (hn : (s.peers i).pc = .claimAt n) : ∀ j < n, j < s.ring.maxSubs →
      ∃ before after t, acts = before ++ after ∧ run CursorTable.step s₁ before = some t ∧ HeldAt t j := by
  induction acts using List.reverseRecOn generalizing s n with
  | nil =>
    cases hr
    rw [hstart] at hn
    cases hn
    nofun
  | append_singleton acts a ih =>
    intro j hj hlt
    obtain ⟨t, ht, hlast⟩ := run_append.1 hr
    obtain ⟨s', hstep, hs'⟩ := run_cons.1 hlast
    cases hs'
    have hinv : Inv t := run_invariant_when Inv Keeps (fun _ _ _ hi hc hs => hi.step hc hs) hc.append_left h ht
    have hmax : s.ring.maxSubs = t.ring.maxSubs := hinv.maxSubs_step hstep
    have hearlier {m : Nat} (hm : (t.peers i).pc = .claimAt m) (hjm : j < m) :
        ∃ before after u, acts ++ [a] = before ++ after ∧ run CursorTable.step s₁ before = some u ∧ HeldAt u j := by
      obtain ⟨before, after, u, heq, hu, hheld⟩ := ih hc.append_left ht hm j hjm (hmax ▸ hlt)
      exact ⟨before, after ++ [a], u, by rw [heq, List.append_assoc], hu, hheld⟩
    rcases claimAt_step hstep hn with rfl | hsame | ⟨m, hm, rfl, hclaimed⟩
    · exact absurd hj (Nat.not_lt_zero j)
    · exact hearlier hsame hj
    · rcases Nat.lt_succ_iff_lt_or_eq.1 hj with hjm | rfl
      · exact hearlier hm hjm
      · exact ⟨acts, [a], t, rfl, ht, hinv.held j (hmax ▸ hlt) hclaimed⟩

/-! ### Every run -/

/-- A connection that fails leaves its entry free. -/
theorem Effect.failed (he : Effect r p choice r' p') (hfailed : p'.pc = .failed) (hp : p.Holds) :
    r'.cursors p.cursorIdx = CURSOR_UNCLAIMED := by
  cases he with
  | keep _ _ hfree =>
    rw [Peer.Holds, hfree hfailed] at hp
    cases hp
  | claim => cases hfailed
  | store _ hholds =>
    rw [hfailed] at hholds
    cases hholds
  | release =>
    rw [releaseCursor, setCursor_cursors, if_pos rfl]

/-- In every run without a store that gives an entry away: the subscribers hold claimed entries of their own, no step
changes the entry of another, a connection that fails leaves its entry free, and a scan that finds none free has seen
every entry held. -/
theorem entries_owned (s₀ : State) (h₀ : Started s₀) (acts : List Act) (s : State)
    (hc : Meets CursorTable.step Keeps s₀ acts) (hr : run CursorTable.step s₀ acts = some s) :
    Owned s ∧
      (∀ i choice s', CursorTable.step s (.peer i choice) = some s' →
        (∀ k, k ≠ i → (s.peers k).Holds →
          s'.ring.cursors (s.peers k).cursorIdx = s.ring.cursors (s.peers k).cursorIdx) ∧
        ((s'.peers i).pc = .failed → (s.peers i).Holds →
          s'.ring.cursors (s.peers i).cursorIdx = CURSOR_UNCLAIMED)) ∧
      ∀ connected scan s₁ i n, acts = connected ++ scan → run CursorTable.step s₀ connected = some s₁ →
        (s₁.peers i).pc = .claimAt 0 → (s.peers i).pc = .claimAt n → s.ring.maxSubs ≤ n →
        ∀ j < s.ring.maxSubs, ∃ before after t,
          scan = before ++ after ∧ run CursorTable.step s₁ before = some t ∧ HeldAt t j := by
  have hinv : Inv s := run_invariant_when Inv Keeps (fun _ _ _ hi hc hs => hi.step hc hs) hc h₀.inv hr
  refine ⟨hinv.toOwned, fun i choice s' hs => ?_, ?_⟩
  · simp only [CursorTable.step] at hs
    split at hs
    · rename_i r' p' hstep
      cases hs
      obtain ⟨he, -⟩ := step_effect (hinv.fine i) hinv.tail_le hinv.seq_lt hstep
      refine ⟨fun k hki hk => hinv.others_entry hki he hk, fun hfailed hp => ?_⟩
      simp only [Function.update_self] at hfailed
      exact he.failed hfailed hp
    · cases hs
  · rintro connected scan s₁ i n rfl hs₁ hstart hn hle j hj
    obtain ⟨s₁', hs₁', hscan⟩ := run_append.1 hr
    obtain rfl : s₁ = s₁' := Option.some.inj (hs₁.symm.trans hs₁')
    have hinv₁ : Inv s₁ :=
      run_invariant_when Inv Keeps (fun _ _ _ hi hc hs => hi.step hc hs) hc.append_left h₀.inv hs₁
    exact hinv₁.scanned hstart (hc.append_right hs₁) hscan hn j (hj.trans_le hle) hj

/-- A new ring with two entries -/
def fresh : State := ⟨create 4 8 2, fun _ => .init⟩

theorem started_fresh : Started fresh where
  distinct := by
    intro i k _ hi
    cases hi
  claimed := by
    intro i hi
    cases hi
  ring := ⟨by decide, rfl, fun _ => Nat.two_pow_pos 64⟩
  peer _ := .inl rfl
  held := by
    intro j _ hclaimed
    exact absurd rfl hclaimed

/-- A connection that starts at `start` -/
def connects (i : Nat) (start : StartPos) : List Act :=
  [.peer i (.connect start), .peer i .go, .peer i .go, .peer i .go, .peer i .go]

/-- Two subscribers connect, and a third looks for an entry. -/
def fullTable : List Act :=
  connects 0 .now ++ [.peer 1 (.connect .now), .peer 1 .go, .peer 1 .go, .peer 1 .go, .peer 1 .go, .peer 1 .go] ++
    [.peer 2 (.connect .now), .peer 2 .go, .peer 2 .go]

theorem entries_owned_fullTable : ∃ s, run CursorTable.step fresh fullTable = some s ∧
    (s.peers 0).cursorIdx ≠ (s.peers 1).cursorIdx := by
  obtain ⟨s, hs, hout⟩ := Option.map_eq_some_iff.1 (show (run CursorTable.step fresh fullTable).map
    (fun s => ((s.peers 0).pc.holds, (s.peers 1).pc.holds)) = some (true, true) by decide +kernel)
  obtain ⟨h0, h1⟩ := Prod.mk.inj hout
  have hc : Meets CursorTable.step Keeps fresh fullTable := by
    refine Meets.mono (C := fun s a => (match a with
      | .peer i _ => decide ((s.peers i).startPos = .now) && decide ((s.peers i).cursor = 0)
      | _ => true) = true) (fun t a ht => ?_) (by decide +kernel)
    cases a with
    | peer i choice =>
      obtain ⟨hnow, hzero⟩ := (Bool.and_eq_true ..).mp ht
      have hnow := of_decide_eq_true hnow
      have hzero := of_decide_eq_true hzero
      cases choice with
      | go =>
        simp only [Keeps, Peer.Keeps]
        split
        · rw [hnow]
          nofun
        · rw [hzero]
          decide
        · trivial
      | _ => trivial
    | _ => trivial
  exact ⟨s, hs, (entries_owned fresh started_fresh fullTable s hc hs).1.distinct 0 1 (by decide) h0 h1⟩

/-- A subscriber with the start position `u64::MAX` gives its entry away, and the next one takes it. -/
theorem entries_not_owned : ¬∀ (s₀ : State), Started s₀ → ∀ (acts : List Act) (s : State),
    run CursorTable.step s₀ acts = some s → Owned s := by
  intro h
  obtain ⟨s, hs, hout⟩ := Option.map_eq_some_iff.1 (show (run CursorTable.step fresh
    (connects 0 (.explicit CURSOR_UNCLAIMED) ++ connects 1 .now)).map (fun s => ((s.peers 0).pc.holds,
      (s.peers 1).pc.holds, (s.peers 0).cursorIdx, (s.peers 1).cursorIdx)) = some (true, true, 0, 0) by decide +kernel)
  obtain ⟨h0, hout⟩ := Prod.mk.inj hout
  obtain ⟨h1, hidx⟩ := Prod.mk.inj hout
  obtain ⟨hidx0, hidx1⟩ := Prod.mk.inj hidx
  exact (h fresh started_fresh _ s hs).distinct 0 1 (by decide) h0 h1 (hidx0.trans hidx1.symm)

end Mmbus.CursorTable
