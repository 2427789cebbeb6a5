import Mmbus.Receive

/-!
# A subscriber, one atomic access at a time

`connect_with`, the receive calls, the eventcount handshake of `wait_readable` and `arm_wakeup`, and `Drop`, as a
program over the ring, the handshake socket and the subscriber's own eventfd.  The WAL is off, and the platform is
Linux.

A subscriber goes through five stages (`Stage`), and `Effect` says what a step of each stage can do to the cursor
table.
-/

namespace Mmbus

open RingBuffer

/-- Where the subscriber's cursor starts -/
inductive StartPos
  | now
  | historyBack (n : Nat)
  | explicit (c : Nat)
  deriving DecidableEq

/-- Positions stay below the marker bit of `seq`. -/
def StartPos.InRange : StartPos → Bool
  | explicit c => decide (c < 2 ^ SEQ_WRITING)
  | _ => true

/-- The calls on a connected subscriber; `timed` tells `receive_timeout_into` from `receive_into`, and a wait with a
timeout from one without. -/
inductive Call
  | receive (timed : Bool)
  | tryReceive
  | waitReadable (timed : Bool)
  | armWakeup
  | pollRecv
  | drainWakeup
  deriving DecidableEq

def Call.Timed : Call → Bool
  | receive timed | waitReadable timed => timed
  | _ => false

/-- How the last call ended -/
inductive Outcome
  | connected
  | message
  | nothing
  | timedOut
  | readable
  | armed
  | eof
  deriving DecidableEq

/-- What the next access of a subscriber is -/
inductive SubscriberPc
  | absent
  | readTail
  | claimAt (i : Nat)
  | clearClaimed
  | connectSock
  | sendFd
  | resync
  | setCursor
  | readGeneration
  | abort
  | failed
  | ready (last : Outcome)
  | receiving (call : Call) (pc : ReceivePc)
  | setFlag (call : Call)
  | recheck (call : Call)
  | unflag (call : Call)
  | poll (call : Call)
  | drain (call : Call)
  | checkGeneration (call : Call)
  | clearFlag (call : Call) (outcome : Outcome)
  | release
  | gone
  deriving DecidableEq

/-- A subscriber process, its end of the handshake socket and its eventfd -/
structure Subscriber where
  pc : SubscriberPc
  alive : Bool
  startPos : StartPos
  /-- The tail read before `claim_cursor` -/
  tail : Nat
  cursorIdx : Nat
  cursor : Nat
  generation : Nat
  /-- The eventfd and the cursor index have been sent over the socket. -/
  sent : Bool
  /-- The eventfd counter -/
  efd : Nat
  /-- The publisher has closed its end of the socket. -/
  hup : Bool
  /-- The start position, once `connect_with` has re-read the tail -/
  first : Option Nat
  /-- The tail when the publisher accepted the connection -/
  acceptedAt : Option Nat
  /-- The messages returned so far -/
  delivered : List Bytes

/-- A subscriber that has not called `connect_with` -/
def Subscriber.init : Subscriber where
  pc := .absent
  alive := true
  startPos := .now
  tail := 0
  cursorIdx := 0
  cursor := 0
  generation := 0
  sent := false
  efd := 0
  hup := false
  first := none
  acceptedAt := none
  delivered := []

/-- What the environment decides at a step: a call to begin, the deadline, a failing system call, the descriptors
that `poll` reports, the end of the process. -/
inductive Choice
  | connect (start : StartPos)
  | call (call : Call)
  | go
  | timeout
  | fail
  | pollWake
  | pollHup
  | drop
  | kill

namespace Subscriber

variable (s : Subscriber)

/-- The first access of a call -/
def beginCall : Call → SubscriberPc
  | .receive timed => .receiving (.receive timed) (.loadTail s.cursor)
  | .tryReceive => .receiving .tryReceive (.loadTail s.cursor)
  | .waitReadable timed => .setFlag (.waitReadable timed)
  | .armWakeup => .setFlag .armWakeup
  | .pollRecv => .drain .pollRecv
  | .drainWakeup => .drain .drainWakeup

/-- After an access of the ring's `try_receive` -/
def afterReceive (call : Call) : ReceivePc → Subscriber
  | .returned _ _ (some (newCursor, out)) =>
    { s with pc := .ready .message, cursor := newCursor, delivered := s.delivered ++ [out] }
  | .returned _ _ none =>
    match call with
    | .receive timed => { s with pc := .setFlag (.receive timed) }
    | _ => { s with pc := .ready .nothing }
  | pc => { s with pc := .receiving call pc }

/-- After `wait_readable` has ended with `outcome`; a receive call goes around its loop. -/
def afterWait (call : Call) (outcome : Outcome) : SubscriberPc :=
  match call, outcome with
  | .receive timed, .readable => .receiving (.receive timed) (.loadTail s.cursor)
  | .receive false, .timedOut => .receiving (.receive false) (.loadTail s.cursor)
  | _, outcome => .ready outcome

/-- The start position, from the tail re-read after the handshake; `none` is `CursorTooOld`. -/
def startCursor (capacity tail : Nat) : StartPos → Option Nat
  | .now => some tail
  | .historyBack n => some (tail - n)
  | .explicit c => if tail - capacity ≤ c then some c else none

/-- One access, where the environment decides nothing.  `listening` tells whether the publisher's socket accepts
connections. -/
def go (r : RingBuffer) (listening : Bool) : Option (RingBuffer × Subscriber) :=
  match s.pc with
  | .readTail => some (r, { s with pc := .claimAt 0, tail := r.tail })
  | .claimAt i =>
    if i < r.maxSubs then
      if r.cursors i = CURSOR_UNCLAIMED then
        some (r.setCursor i s.tail, { s with pc := .clearClaimed, cursorIdx := i })
      else some (r, { s with pc := .claimAt (i + 1) })
    else some (r, { s with pc := .failed })
  | .clearClaimed => some (r.clearWakeflag s.cursorIdx, { s with pc := .connectSock })
  | .connectSock => if listening then some (r, { s with pc := .sendFd }) else none
  | .sendFd => some (r, { s with pc := .resync, sent := true })
  | .resync =>
    match startCursor r.cap r.tail s.startPos with
    | some c => some (r, { s with pc := .setCursor, cursor := c, first := some c })
    | none => some (r, { s with pc := .abort })
  | .setCursor => some (r.setCursor s.cursorIdx s.cursor, { s with pc := .readGeneration })
  | .readGeneration => some (r, { s with pc := .ready .connected, generation := r.generation })
  | .abort => some (r.releaseCursor s.cursorIdx, { s with pc := .failed })
  | .receiving call pc =>
    match pc.step s.cursorIdx r with
    | some (r', pc') => some (r', s.afterReceive call pc')
    | none => none
  | .setFlag call => some (r.setWakeflag s.cursorIdx, { s with pc := .recheck call })
  | .recheck call =>
    if s.cursor < r.tail then some (r, { s with pc := .unflag call })
    else if call = .armWakeup then some (r, { s with pc := .ready .armed })
    else some (r, { s with pc := .poll call })
  | .unflag call => some (r.clearWakeflag s.cursorIdx, { s with pc := s.afterWait call .readable })
  | .drain call =>
    if 0 < s.efd then
      if call = .drainWakeup then some (r, { s with pc := .ready .readable, efd := s.efd - 1 })
      else some (r, { s with pc := .checkGeneration call, efd := s.efd - 1 })
    else if call = .pollRecv ∨ call = .drainWakeup then some (r, { s with pc := .ready .nothing })
    else some (r, { s with pc := .clearFlag call .timedOut })
  | .checkGeneration call =>
    if call = .pollRecv then
      if r.generation = s.generation then some (r, { s with pc := .receiving .pollRecv (.loadTail s.cursor) })
      else some (r, { s with pc := .ready .eof })
    else if r.generation = s.generation then some (r, { s with pc := .clearFlag call .readable })
    else some (r, { s with pc := .clearFlag call .eof })
  | .clearFlag call outcome => some (r.clearWakeflag s.cursorIdx, { s with pc := s.afterWait call outcome })
  | .release => some (r.releaseCursor s.cursorIdx, { s with pc := .gone })
  | .absent | .failed | .ready _ | .poll _ | .gone => none

/-- One step of the subscriber.  `poll` may report any of the descriptors that are ready, and looks at the hang-up
first; a process that has been killed takes no step. -/
def step (r : RingBuffer) (listening : Bool) (choice : Choice) : Option (RingBuffer × Subscriber) :=
  if s.alive then
    match choice, s.pc with
    | .connect start, .absent =>
      if start.InRange then some (r, { s with pc := .readTail, startPos := start }) else none
    | .call call, .ready _ => some (r, { s with pc := s.beginCall call })
    | .go, _ => s.go r listening
    | .timeout, .setFlag (.receive true) => some (r, { s with pc := .ready .timedOut })
    | .timeout, .poll call => if call.Timed then some (r, { s with pc := .clearFlag call .timedOut }) else none
    | .fail, .readTail => some (r, { s with pc := .failed })
    | .fail, .connectSock | .fail, .sendFd => some (r, { s with pc := .abort })
    | .pollWake, .poll call => if 0 < s.efd then some (r, { s with pc := .drain call }) else none
    | .pollHup, .poll call => if s.hup then some (r, { s with pc := .clearFlag call .eof }) else none
    | .drop, .ready _ => some (r, { s with pc := .release })
    | .kill, _ => some (r, { s with alive := false })
    | _, _ => none
  else none

end Subscriber

/-! ### What a step can do to the cursor table -/

/-- The stages of a subscriber: before its first look at the ring, looking for a free entry, holding one at the tail
it read first, holding one with its start position known, reading from the ring, and without an entry again. -/
inductive Stage
  | init
  | claiming
  | claimed
  | positioned
  | live
  | out
  deriving DecidableEq

def Stage.Holds : Stage → Bool
  | claimed | positioned | live => true
  | _ => false

def SubscriberPc.stage : SubscriberPc → Stage
  | absent | readTail => .init
  | failed | gone => .out
  | claimAt _ => .claiming
  | clearClaimed | connectSock | sendFd | resync | abort => .claimed
  | setCursor => .positioned
  | _ => .live

/-- The effect of one step on the ring and on what the subscriber knows of its position -/
inductive Effect (r : RingBuffer) (s : Subscriber) : RingBuffer → Subscriber → Prop
  | keep {pc alive startPos sent efd generation} {flags : Nat → Nat} (stage : pc.stage = s.pc.stage)
      (start : startPos = s.startPos ∨ s.pc.stage = .init ∧ startPos.InRange = true)
      (own : ∀ j, flags j ≠ r.wakeflags j → s.pc.stage.Holds = true ∧ j = s.cursorIdx) :
      Effect r s { r with wakeflags := flags }
        { s with pc := pc, alive := alive, startPos := startPos, sent := sent, efd := efd, generation := generation }
  | readTail {pc} (stage : s.pc.stage = .init) (stage' : pc.stage = .claiming) :
      Effect r s r { s with pc := pc, tail := r.tail }
  | giveUp {pc} (stage : s.pc.stage = .init ∨ s.pc.stage = .claiming) (stage' : pc.stage = .out) :
      Effect r s r { s with pc := pc }
  | claim {pc i} (stage : s.pc.stage = .claiming) (stage' : pc.stage = .claimed) (lt : i < r.maxSubs)
      (free : r.cursors i = CURSOR_UNCLAIMED) :
      Effect r s (r.setCursor i s.tail) { s with pc := pc, cursorIdx := i }
  | position {pc c} (stage : s.pc.stage = .claimed) (stage' : pc.stage = .positioned)
      (start : Subscriber.startCursor r.cap r.tail s.startPos = some c) :
      Effect r s r { s with pc := pc, cursor := c, first := some c }
  | publish {pc} (stage : s.pc.stage = .positioned) (stage' : pc.stage = .live) :
      Effect r s (r.setCursor s.cursorIdx s.cursor) { s with pc := pc }
  | deliver {call cursor tail eff out pc} (at_store : s.pc = .receiving call (.storeCursor cursor tail eff out))
      (stage' : pc.stage = .live) :
      Effect r s (r.setCursor s.cursorIdx (eff + 1))
        { s with pc := pc, cursor := eff + 1, delivered := s.delivered ++ [out] }
  | release {pc} (stage : s.pc.stage = .claimed ∨ s.pc.stage = .live) (stage' : pc.stage = .out) :
      Effect r s (r.releaseCursor s.cursorIdx) { s with pc := pc }

namespace Effect

variable {s s' : Subscriber} {r r' : RingBuffer}

/-- A step changes at most the entry the subscriber holds or the free entry it claims, and at most its own flag. -/
theorem frame (h : Effect r s r' s') : ∃ cursors flags,
    r' = { r with cursors := cursors, wakeflags := flags } ∧
    (∀ j, cursors j ≠ r.cursors j → s.pc.stage.Holds = true ∧ j = s.cursorIdx ∨
      s.pc.stage = .claiming ∧ j = s'.cursorIdx ∧ r.cursors j = CURSOR_UNCLAIMED) ∧
    (∀ j, flags j ≠ r.wakeflags j → s.pc.stage.Holds = true ∧ j = s.cursorIdx) := by
  -- a store into the entry `i`
  have store : ∀ i v j, (r.setCursor i v).cursors j ≠ r.cursors j → j = i := by
    intro i v j hj
    by_contra hne
    exact hj (Function.update_of_ne hne ..)
  cases h with
  | keep _ _ own => exact ⟨_, _, rfl, fun j hj => absurd rfl hj, own⟩
  | readTail | giveUp | position => exact ⟨_, _, rfl, fun j hj => absurd rfl hj, fun j hj => absurd rfl hj⟩
  | claim stage _ _ free =>
    refine ⟨_, _, rfl, fun j hj => .inr ?_, fun j hj => absurd rfl hj⟩
    obtain rfl := store _ _ j hj
    exact ⟨stage, rfl, free⟩
  | publish stage =>
    exact ⟨_, _, rfl, fun j hj => .inl ⟨by rw [stage]; rfl, store _ _ j hj⟩, fun j hj => absurd rfl hj⟩
  | deliver at_store =>
    exact ⟨_, _, rfl, fun j hj => .inl ⟨by rw [at_store]; rfl, store _ _ j hj⟩, fun j hj => absurd rfl hj⟩
  | release stage =>
    exact ⟨_, _, rfl, fun j hj => .inl ⟨by rcases stage with h | h <;> rw [h] <;> rfl, store _ _ j hj⟩,
      fun j hj => absurd rfl hj⟩

/-- A subscriber that holds an entry after the step held it before, or has just claimed it. -/
theorem holds (h : Effect r s r' s') (hh : s'.pc.stage.Holds = true) :
    s.pc.stage.Holds = true ∧ s'.cursorIdx = s.cursorIdx ∨
      s.pc.stage = .claiming ∧ r.cursors s'.cursorIdx = CURSOR_UNCLAIMED := by
  cases h with
  | keep stage => exact .inl ⟨stage ▸ hh, rfl⟩
  | claim stage _ _ free => exact .inr ⟨stage, free⟩
  | position stage | publish stage => exact .inl ⟨by rw [stage]; rfl, rfl⟩
  | deliver at_store => exact .inl ⟨by rw [at_store]; rfl, rfl⟩
  | readTail _ stage' | giveUp _ stage' | release _ stage' =>
    simp only [stage'] at hh
    cases hh

end Effect

namespace Subscriber

variable {s s' : Subscriber} {r r' : RingBuffer}

private theorem keep_pc {pc : SubscriberPc} (h : pc.stage = s.pc.stage) : Effect r s r { s with pc := pc } :=
  .keep h (.inl rfl) fun _ hj => absurd rfl hj

private theorem keep_flag {pc : SubscriberPc} {v : Nat} (h : pc.stage = s.pc.stage)
    (hholds : s.pc.stage.Holds = true) :
    Effect r s (r.setFlagWord s.cursorIdx v) { s with pc := pc } := by
  refine .keep h (.inl rfl) fun j hj => ⟨hholds, ?_⟩
  by_contra hne
  exact hj (Function.update_of_ne hne ..)

@[simp] theorem stage_afterWait (call : Call) (outcome : Outcome) : (s.afterWait call outcome).stage = .live := by
  unfold afterWait
  split <;> rfl

@[simp] theorem stage_beginCall (call : Call) : (s.beginCall call).stage = .live := by
  cases call <;> rfl

/-- A receive call either delivers and stores its new cursor, or leaves the ring alone. -/
theorem afterReceive_effect {call : Call} {pc pc' : ReceivePc} (hpc : s.pc = .receiving call pc)
    (hs : pc.step s.cursorIdx r = some (r', pc')) : Effect r s r' (s.afterReceive call pc') := by
  have hlive : s.pc.stage = .live := by rw [hpc]; rfl
  cases pc with
  | storeCursor cursor tail eff out =>
    simp only [ReceivePc.step, Option.some.injEq, Prod.mk.injEq] at hs
    obtain ⟨rfl, rfl⟩ := hs
    exact .deliver hpc rfl
  | returned => simp [ReceivePc.step] at hs
  | _ =>
    obtain ⟨rfl, hnone⟩ := ReceivePc.step_quiet hs (by simp)
    unfold afterReceive
    split
    · cases hnone
    · split <;> exact keep_pc hlive.symm
    · exact keep_pc hlive.symm

theorem go_effect {listening : Bool} (hs : s.go r listening = some (r', s')) : Effect r s r' s' := by
  have quiet : ∀ {pc : SubscriberPc}, some (r, { s with pc := pc }) = some (r', s') → pc.stage = s.pc.stage →
      Effect r s r' s' := by
    rintro pc ⟨⟩ h
    exact keep_pc h
  have flag : ∀ {pc : SubscriberPc} {v : Nat},
      some (r.setFlagWord s.cursorIdx v, { s with pc := pc }) = some (r', s') → pc.stage = s.pc.stage →
      s.pc.stage.Holds = true → Effect r s r' s' := by
    rintro pc v ⟨⟩ h hh
    exact keep_flag h hh
  cases hpc : s.pc with
  | absent | failed | ready | poll | gone => simp [go, hpc] at hs
  | readTail =>
    simp only [go, hpc] at hs
    cases hs
    exact .readTail (by rw [hpc]; rfl) rfl
  | claimAt i =>
    have hstage : s.pc.stage = .claiming := by rw [hpc]; rfl
    simp only [go, hpc] at hs
    split at hs
    · rename_i hi
      split at hs
      · rename_i hfree
        cases hs
        exact .claim hstage rfl hi hfree
      · exact quiet hs hstage.symm
    · cases hs
      exact .giveUp (.inr hstage) rfl
  | clearClaimed =>
    simp only [go, hpc] at hs
    exact flag hs (by rw [hpc]; rfl) (by rw [hpc]; rfl)
  | connectSock =>
    simp only [go, hpc] at hs
    split at hs
    · exact quiet hs (by rw [hpc]; rfl)
    · cases hs
  | sendFd =>
    simp only [go, hpc] at hs
    cases hs
    exact .keep (by rw [hpc]; rfl) (.inl rfl) fun _ hj => absurd rfl hj
  | resync =>
    have hstage : s.pc.stage = .claimed := by rw [hpc]; rfl
    simp only [go, hpc] at hs
    split at hs
    · rename_i c hc
      cases hs
      exact .position hstage rfl hc
    · exact quiet hs hstage.symm
  | setCursor =>
    simp only [go, hpc] at hs
    cases hs
    exact .publish (by rw [hpc]; rfl) rfl
  | readGeneration =>
    simp only [go, hpc] at hs
    cases hs
    exact .keep (by rw [hpc]; rfl) (.inl rfl) fun _ hj => absurd rfl hj
  | abort =>
    simp only [go, hpc] at hs
    cases hs
    exact .release (.inl (by rw [hpc]; rfl)) rfl
  | receiving call pc =>
    simp only [go, hpc] at hs
    split at hs
    · rename_i hstep
      cases hs
      exact afterReceive_effect hpc hstep
    · cases hs
  | setFlag call =>
    simp only [go, hpc] at hs
    exact flag hs (by rw [hpc]; rfl) (by rw [hpc]; rfl)
  | recheck call =>
    have hstage : s.pc.stage = .live := by rw [hpc]; rfl
    simp only [go, hpc] at hs
    split at hs
    · exact quiet hs hstage.symm
    · split at hs <;> exact quiet hs hstage.symm
  | unflag call | clearFlag call outcome =>
    simp only [go, hpc] at hs
    exact flag hs (by rw [hpc]; exact stage_afterWait ..) (by rw [hpc]; rfl)
  | drain call =>
    have hstage : s.pc.stage = .live := by rw [hpc]; rfl
    simp only [go, hpc] at hs
    split at hs
    · split at hs
      all_goals
        cases hs
        exact .keep hstage.symm (.inl rfl) fun _ hj => absurd rfl hj
    · split at hs <;> exact quiet hs hstage.symm
  | checkGeneration call =>
    have hstage : s.pc.stage = .live := by rw [hpc]; rfl
    simp only [go, hpc] at hs
    split at hs <;> split at hs <;> exact quiet hs hstage.symm
  | release =>
    simp only [go, hpc] at hs
    cases hs
    exact .release (.inr (by rw [hpc]; rfl)) rfl

/-- The steps of a subscriber besides `go`: what the environment decides -/
inductive Decision (s : Subscriber) : Choice → Subscriber → Prop
  | connect {start} (pc : s.pc = .absent) (range : start.InRange = true) :
      Decision s (.connect start) { s with pc := .readTail, startPos := start }
  | call {call last} (pc : s.pc = .ready last) : Decision s (.call call) { s with pc := s.beginCall call }
  | deadline (pc : s.pc = .setFlag (.receive true)) : Decision s .timeout { s with pc := .ready .timedOut }
  | timeout {call} (pc : s.pc = .poll call) (timed : call.Timed = true) :
      Decision s .timeout { s with pc := .clearFlag call .timedOut }
  | noRing (pc : s.pc = .readTail) : Decision s .fail { s with pc := .failed }
  | noSocket (pc : s.pc = .connectSock ∨ s.pc = .sendFd) : Decision s .fail { s with pc := .abort }
  | pollWake {call} (pc : s.pc = .poll call) (ready : 0 < s.efd) : Decision s .pollWake { s with pc := .drain call }
  | pollHup {call} (pc : s.pc = .poll call) (ready : s.hup = true) :
      Decision s .pollHup { s with pc := .clearFlag call .eof }
  | drop {last} (pc : s.pc = .ready last) : Decision s .drop { s with pc := .release }
  | kill : Decision s .kill { s with alive := false }

theorem step_cases {listening : Bool} {choice : Choice} (hs : s.step r listening choice = some (r', s')) :
    s.alive = true ∧
      (choice = .go ∧ s.go r listening = some (r', s') ∨ r' = r ∧ Decision s choice s') := by
  unfold step at hs
  split at hs
  · rename_i halive
    refine ⟨halive, ?_⟩
    split at hs <;> try (split at hs)
    all_goals first
      | exact .inl ⟨rfl, hs⟩
      | cases hs
    all_goals refine .inr ⟨rfl, ?_⟩
    all_goals first
      | exact .kill
      | constructor <;> first | assumption | exact .inl ‹_› | exact .inr ‹_›
  · cases hs

theorem step_effect {listening : Bool} {choice : Choice} (hs : s.step r listening choice = some (r', s')) :
    Effect r s r' s' := by
  obtain ⟨-, ⟨-, hgo⟩ | ⟨rfl, hd⟩⟩ := step_cases hs
  · exact go_effect hgo
  cases hd with
  | connect hpc hrange =>
    exact .keep (by rw [hpc]; rfl) (.inr ⟨by rw [hpc]; rfl, hrange⟩) fun _ hj => absurd rfl hj
  | call hpc => exact keep_pc (by rw [hpc]; exact stage_beginCall ..)
  | noRing hpc => exact .giveUp (.inl (by rw [hpc]; rfl)) rfl
  | noSocket hpc => exact keep_pc (by rcases hpc with hpc | hpc <;> rw [hpc] <;> rfl)
  | kill => exact .keep rfl (.inl rfl) fun _ hj => absurd rfl hj
  | _ => exact keep_pc (by rw [‹s.pc = _›]; rfl)

@[simp] theorem startPos_afterReceive (call : Call) (pc : ReceivePc) :
    (s.afterReceive call pc).startPos = s.startPos := by
  unfold afterReceive
  split
  · rfl
  · split <;> rfl
  · rfl

/-- Only `connect_with` chooses the start position. -/
theorem startPos_step {listening : Bool} {choice : Choice} (hs : s.step r listening choice = some (r', s')) :
    s'.startPos = s.startPos ∨ choice = .connect s'.startPos := by
  obtain ⟨-, ⟨-, hgo⟩ | ⟨-, hd⟩⟩ := step_cases hs
  · left
    unfold go at hgo
    split at hgo <;> try (split at hgo)
    all_goals try (split at hgo)
    all_goals first
      | (cases hgo; done)
      | (cases hgo; first | rfl | exact startPos_afterReceive ..)
  · cases hd with
    | connect => exact .inr rfl
    | _ => exact .inl rfl

@[simp] theorem first_afterReceive (call : Call) (pc : ReceivePc) : (s.afterReceive call pc).first = s.first := by
  unfold afterReceive
  split
  · rfl
  · split <;> rfl
  · rfl

/-- Only the second look at the tail settles the start position. -/
theorem first_step {listening : Bool} {choice : Choice} (hs : s.step r listening choice = some (r', s')) :
    s'.first = s.first ∨ choice = .go ∧ s.pc = .resync ∧ r' = r ∧
      s'.first = startCursor r.cap r.tail s.startPos := by
  obtain ⟨-, ⟨rfl, hgo⟩ | ⟨-, hd⟩⟩ := step_cases hs
  · cases hpc : s.pc with
    | resync =>
      simp only [go, hpc] at hgo
      split at hgo
      · rename_i c hc
        cases hgo
        exact .inr ⟨rfl, rfl, rfl, hc.symm⟩
      · cases hgo
        exact .inl rfl
    | _ =>
      left
      simp only [go, hpc] at hgo
      try (split at hgo)
      all_goals try (split at hgo)
      all_goals first
        | (cases hgo; done)
        | (cases hgo; first | rfl | exact first_afterReceive ..)
  · left
    cases hd <;> rfl

theorem go_of_publish {listening : Bool} {choice : Choice} (hs : s.step r listening choice = some (r', s'))
    (hstage : s.pc.stage = .positioned) (hstage' : s'.pc.stage = .live) : choice = .go ∧ s.pc = .setCursor := by
  have hpc : s.pc = .setCursor := by
    cases hpc : s.pc <;> rw [hpc] at hstage <;> first | rfl | cases hstage
  obtain ⟨-, ⟨rfl, -⟩ | ⟨-, hd⟩⟩ := step_cases hs
  · exact ⟨rfl, hpc⟩
  · cases hd with
    | kill =>
      rw [hpc] at hstage'
      cases hstage'
    | noSocket h => rcases h with h | h <;> rw [hpc] at h <;> cases h
    | connect h | call h | deadline h | timeout h | noRing h | pollWake h | pollHup h | drop h =>
      rw [hpc] at h
      cases h

/-- A receive call in progress has just been begun, has made one access, or has been left where it is by the end of
the process. -/
theorem receiving_step {listening : Bool} {choice : Choice} (hs : s.step r listening choice = some (r', s'))
    {call : Call} {pc' : ReceivePc} (hpc' : s'.pc = .receiving call pc') :
    pc' = .loadTail s'.cursor ∨
    (∃ pc, s.pc = .receiving call pc ∧ pc.step s.cursorIdx r = some (r', pc') ∧ s' = { s with pc := s'.pc } ∧
      ∀ cursor tail result, pc' ≠ .returned cursor tail result) ∨
    (s.pc = .receiving call pc' ∧ r' = r ∧ s' = { s with alive := false }) := by
  have begin_wait : ∀ {call₁ outcome}, s.afterWait call₁ outcome = .receiving call pc' → pc' = .loadTail s.cursor := by
    intro call₁ outcome h
    unfold afterWait at h
    split at h <;> cases h <;> rfl
  obtain ⟨-, ⟨-, hgo⟩ | ⟨rfl, hd⟩⟩ := step_cases hs
  · cases hpc : s.pc with
    | receiving call₁ pc =>
      simp only [go, hpc] at hgo
      split at hgo
      · rename_i r₁ pc₁ hstep
        cases hgo
        unfold afterReceive at hpc' ⊢
        split at hpc'
        · cases hpc'
        · split at hpc' <;> cases hpc'
        · rename_i hsome hnone
          cases hpc'
          refine .inr (.inl ⟨pc, rfl, hstep, rfl, ?_⟩)
          rintro cursor tail (_ | ⟨n, out⟩) rfl
          · exact hnone _ _ rfl
          · exact hsome _ _ _ _ rfl
      · cases hgo
    | unflag call₁ | clearFlag call₁ outcome =>
      simp only [go, hpc] at hgo
      cases hgo
      exact .inl (begin_wait hpc')
    | checkGeneration call₁ =>
      simp only [go, hpc] at hgo
      split at hgo <;> split at hgo <;> cases hgo <;> cases hpc'
      exact .inl rfl
    | _ =>
      simp only [go, hpc] at hgo
      first
        | (cases hgo <;> cases hpc')
        | (split at hgo <;> first | (cases hgo <;> cases hpc') | (split at hgo <;> cases hgo <;> cases hpc'))
  · cases hd with
    | call hpc =>
      rename_i call₁ last
      cases call₁ <;> cases hpc' <;> exact .inl rfl
    | kill => exact .inr (.inr ⟨hpc', rfl, rfl⟩)
    | _ => cases hpc'

end Subscriber

end Mmbus
