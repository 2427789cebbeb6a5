import Mmbus.Drain

/-!
# Publishers that succeed one another

One ring file under a succession of publishers, the log being off.  A publisher ends by its drop or by a crash at any
step; the next one takes the ring over in steps of its own: it bumps the generation, resets the tail, and listens.  The
subscribers of all generations go on over the same ring.

No receive method but `poll_recv` compares the generation before it reads, and none does between the check and the
read.  `isolated_run`: subscribers are isolated all the same in every run in which the generation word still is the one
a subscriber has recorded whenever its call confirms a slot, and no subscriber of a generation reads before the tail has
been reset for it.
-/

namespace Mmbus

open FlagBit RingBuffer Transition

/-- The position whose slot the next access of a call compares with what it has copied -/
def SubscriberPc.confirms : SubscriberPc → Option Nat
  | receiving _ (.loadSeqAfter _ _ eff _ _) => some eff
  | _ => none

/-- The cursor of a call whose next access is the first -/
def SubscriberPc.begins : SubscriberPc → Option Nat
  | receiving _ (.loadTail cursor) => some cursor
  | _ => none

/-- How far `Publisher::create` has come -/
inductive Creation
  | complete
  | bumped
  | reset
  deriving DecidableEq

structure Succession where
  bus : Bus
  creation : Creation
  /-- What each generation has committed at each position (no process reads this) -/
  published : Nat → Nat → Option Bytes
  /-- The generation that has last begun to write each slot, 0 for none (no process reads this) -/
  writer : Nat → Nat
  /-- The generation for which the tail has last been reset (no process reads this) -/
  resetFor : Nat
  /-- The generation whose slot each subscriber has last compared with its copy (no process reads this) -/
  confirmed : Nat → Nat
  /-- For each message a subscriber has returned, the generation whose slot it was copied from, and the position (no
  process reads this) -/
  sources : Nat → List (Nat × Nat)
  /-- The subscribers whose sockets belonged to earlier publishers -/
  former : List Nat

namespace Succession

/-- A step of the bus, the end of the publisher without `Drop`, the three steps of `Publisher::create`, and the
closing of a socket of an earlier publisher -/
inductive Act
  | bus (a : Mmbus.Act)
  | crash
  | bump
  | reset
  | listen (backpressure : BackpressurePolicy)
  | closeFormer (i : Nat)

variable (s : Succession)

/-- The marker store of `write_slot` makes the slot the generation's own. -/
def writerAfter (g cap : Nat) (writer : Nat → Nat) : PublishPc → Nat → Nat
  | .storeMark _ tail => Function.update writer (tail % cap) g
  | _ => writer

/-- The second load of `seq` of a round looks at the slot of the position. -/
def confirmedAfter (a : Mmbus.Act) (k : Nat) : Nat :=
  match a with
  | .sub i .go =>
    match (s.bus.subs i).pc.confirms with
    | some eff => if k = i then s.writer (eff % s.bus.chan.ring.cap) else s.confirmed k
    | none => s.confirmed k
  | _ => s.confirmed k

/-- The store of the cursor ends a call that returns the message. -/
def sourcesAfter (a : Mmbus.Act) (k : Nat) : List (Nat × Nat) :=
  match a with
  | .sub i .go =>
    match (s.bus.subs i).pc with
    | .receiving _ (.storeCursor _ _ eff _) =>
      if k = i then s.sources k ++ [(s.confirmed k, eff)] else s.sources k
    | _ => s.sources k
  | _ => s.sources k

def step : Act → Option Succession
  | .bus a =>
    (s.bus.step a).map fun bus =>
      { s with
        bus := bus
        published := Function.update s.published bus.chan.ring.generation bus.chan.log
        writer := match a with
          | .sub _ _ => s.writer
          | _ => writerAfter s.bus.chan.ring.generation s.bus.chan.ring.cap s.writer s.bus.phase.ring
        confirmed := s.confirmedAfter a
        sources := s.sourcesAfter a }
  | .crash =>
    if s.bus.phase.IsDropped ∧ s.creation = .complete then none
    else some { s with bus := s.bus.setPhase .dropped, creation := .complete }
  | .bump =>
    if s.bus.phase.IsDropped ∧ s.creation = .complete then
      let r := s.bus.chan.ring
      some { s with
        bus := { s.bus with chan := ⟨{ r with generation := r.generation + 1 }, fun _ => none⟩ }
        creation := .bumped }
    else none
  | .reset =>
    if s.creation = .bumped then
      some { s with
        bus := { s.bus with chan := { s.bus.chan with ring := s.bus.chan.ring.setTail 0 } }
        creation := .reset
        resetFor := s.bus.chan.ring.generation }
    else none
  | .listen backpressure =>
    if s.creation = .reset then
      some { s with
        bus := { s.bus with backpressure := backpressure, phase := .idle .created, clients := [], backlog := [] }
        creation := .complete
        former := s.former ++ s.bus.backlog ++ s.bus.clients.map Client.sub }
    else none
  | .closeFormer i =>
    if i ∈ s.former then some { s with bus := s.bus.setSub i { s.bus.subs i with hup := true } } else none

/-- The first publisher has just been created on a fresh ring. -/
def init (capacity slotSize maxSubscribers : UInt32) (backpressure : BackpressurePolicy) : Succession where
  bus := .init (create capacity slotSize maxSubscribers) backpressure
  creation := .complete
  published := fun _ _ => none
  writer := fun _ => 0
  resetFor := 1
  confirmed := fun _ => 0
  sources := fun _ => []
  former := []

end Succession

/-! ### A read among slots of earlier generations -/

/-- The round reads the slot of the cursor. -/
def ReceivePc.SameSlot (cap : Nat) : ReceivePc → Prop
  | loadSeq cursor _ eff _ | loadLen cursor _ eff _ | loadByte cursor _ eff .. | loadSeqAfter cursor _ eff ..
  | storeCursor cursor _ eff _ => eff % cap = cursor % cap
  | loadTail _ | returned .. => True

/-- What a call in progress knows where only the slots below the tail have been written in this generation -/
structure ReadsUsed (c : Channel) (pc : ReceivePc) : Prop where
  receive : ReceiveInv c pc
  same : pc.SameSlot c.ring.cap

namespace ReadsUsed

variable {c c' : Channel} {pc pc' : ReceivePc} {q q' : PublishPc}

theorem loadTail (cursor : Nat) : ReadsUsed c (.loadTail cursor) := ⟨trivial, trivial⟩

/-- The slot of the round has been used. -/
private theorem shows (hp : PublishInv 0 c q) {cursor tail eff : Nat} (hcur : cursor < tail ∧ tail ≤ c.ring.tail)
    (hsame : eff % c.ring.cap = cursor % c.ring.cap) : c.Shows eff := by
  refine hp.shows (.inl ?_)
  rw [hsame]
  exact (Nat.mod_le ..).trans_lt (hcur.1.trans_le hcur.2)

private theorem sameSlot_retry {cap cursor tail eff fuel : Nat} (h : eff % cap = cursor % cap) :
    (ReceivePc.retry cursor tail eff fuel).SameSlot cap := by
  cases fuel with
  | zero => trivial
  | succ fuel => exact h

private theorem sameSlot_copyAfter {cap cursor tail eff fuel len : Nat} {out : Bytes} (h : eff % cap = cursor % cap) :
    (ReceivePc.copyAfter cursor tail eff fuel len out).SameSlot cap := by
  unfold ReceivePc.copyAfter
  split <;> exact h

/-- The call's own step; a position that a slot shows lies in this slot. -/
theorem step {idx : Nat} {r' : RingBuffer} (h : ReadsUsed c pc) (hp : PublishInv 0 c q)
    (hs : pc.step idx c.ring = some (r', pc')) : ReadsUsed { c with ring := r' } pc' := by
  obtain ⟨hr, hsame⟩ := h
  refine ⟨hr.step_at (fun cursor tail eff fuel hpc hmark hseq => ?_) hs, ?_⟩
  · subst hpc
    have hc := ((shows hp ⟨hr.1, hr.2.1⟩ hsame).committed hmark).2
    rwa [hseq] at hc
  obtain ⟨cursors, rfl, -⟩ := ReceivePc.frame_step hs
  show pc'.SameSlot c.ring.cap
  cases pc with
  | loadTail cursor =>
    simp only [ReceivePc.step, Option.some.injEq, Prod.mk.injEq] at hs
    obtain ⟨-, rfl⟩ := hs
    split
    · trivial
    · rfl
  | loadSeq cursor tail eff fuel =>
    have hshows := shows hp ⟨hr.1, hr.2.1⟩ hsame
    simp only [ReceivePc.step, Option.some.injEq, Prod.mk.injEq] at hs
    obtain ⟨-, rfl⟩ := hs
    split
    · exact sameSlot_retry hsame
    · rename_i hmark
      split
      · exact sameSlot_retry ((hshows.committed (by simpa using hmark)).1.trans hsame)
      · split
        · trivial
        · exact hsame
  | loadLen cursor tail eff fuel =>
    simp only [ReceivePc.step, Option.some.injEq, Prod.mk.injEq] at hs
    obtain ⟨-, rfl⟩ := hs
    split
    · exact sameSlot_retry hsame
    · exact sameSlot_copyAfter hsame
  | loadByte cursor tail eff fuel len out =>
    simp only [ReceivePc.step, Option.some.injEq, Prod.mk.injEq] at hs
    obtain ⟨-, rfl⟩ := hs
    exact sameSlot_copyAfter hsame
  | loadSeqAfter cursor tail eff fuel out =>
    have hshows := shows hp ⟨hr.1.1, hr.1.2.1⟩ hsame
    simp only [ReceivePc.step, Option.some.injEq, Prod.mk.injEq] at hs
    obtain ⟨-, rfl⟩ := hs
    split
    · exact hsame
    · split
      · exact sameSlot_retry (hshows.mod_cap.trans hsame)
      · exact sameSlot_retry hsame
  | storeCursor cursor tail eff out =>
    simp only [ReceivePc.step, Option.some.injEq, Prod.mk.injEq] at hs
    obtain ⟨-, rfl⟩ := hs
    trivial
  | returned => simp [ReceivePc.step] at hs

/-- A step of the publisher -/
theorem publish (h : ReadsUsed c pc) (hp : PublishInv 0 c q) (hs : q.step c = some (c', q')) : ReadsUsed c' pc := by
  refine ⟨h.receive.publish hp hs, ?_⟩
  rw [(PublishPc.frame_step hs).1]
  exact h.same

/-- The cursor and wakeup-flag tables play no role. -/
theorem tables (h : ReadsUsed c pc) (cursors wakeflags : Nat → Nat) :
    ReadsUsed { c with ring := { c.ring with cursors := cursors, wakeflags := wakeflags } } pc := by
  refine ⟨?_, h.same⟩
  have hr := h.receive
  cases pc with
  | returned cursor tail result => cases result <;> exact hr
  | _ => exact hr

end ReadsUsed

/-- A slot is confirmed by the second load of `seq` of a round, which finds the position that the round has read. -/
theorem ReceivePc.step_storeCursor {idx : Nat} {r r' : RingBuffer} {pc : ReceivePc} {cursor tail eff : Nat} {out : Bytes}
    (hs : pc.step idx r = some (r', .storeCursor cursor tail eff out)) :
    ∃ fuel, pc = .loadSeqAfter cursor tail eff fuel out ∧ (r.slot eff).seq = eff := by
  have hretry : ∀ {c t e fuel}, ReceivePc.retry c t e fuel ≠ .storeCursor cursor tail eff out := by
    rintro c t e (_ | fuel) h <;> cases h
  have hcopy : ∀ {c t e fuel len o}, ReceivePc.copyAfter c t e fuel len o ≠ .storeCursor cursor tail eff out := by
    intro c t e fuel len o h
    unfold ReceivePc.copyAfter at h
    split at h <;> cases h
  cases pc with
  | loadTail c =>
    simp only [ReceivePc.step, Option.some.injEq, Prod.mk.injEq] at hs
    obtain ⟨-, h⟩ := hs
    split at h <;> cases h
  | loadSeq c t e fuel =>
    simp only [ReceivePc.step, Option.some.injEq, Prod.mk.injEq] at hs
    obtain ⟨-, h⟩ := hs
    split at h
    · exact absurd h hretry
    · split at h
      · exact absurd h hretry
      · split at h <;> cases h
  | loadLen c t e fuel =>
    simp only [ReceivePc.step, Option.some.injEq, Prod.mk.injEq] at hs
    obtain ⟨-, h⟩ := hs
    split at h
    · exact absurd h hretry
    · exact absurd h hcopy
  | loadByte c t e fuel len o =>
    simp only [ReceivePc.step, Option.some.injEq, Prod.mk.injEq] at hs
    exact absurd hs.2 hcopy
  | loadSeqAfter c t e fuel o =>
    simp only [ReceivePc.step, Option.some.injEq, Prod.mk.injEq] at hs
    obtain ⟨-, h⟩ := hs
    split at h
    · rename_i hseq
      cases h
      exact ⟨fuel, rfl, hseq⟩
    · split at h <;> exact absurd h hretry
  | storeCursor | returned => simp [ReceivePc.step] at hs

/-! ### What a subscriber keeps of itself -/

/-- The subscriber has not recorded its generation yet. -/
def SubscriberPc.Unread : SubscriberPc → Bool
  | absent | readTail | claimAt _ | clearClaimed | connectSock | sendFd | resync | setCursor | readGeneration
  | abort => true
  | _ => false

namespace Subscriber

variable {s s' : Subscriber} {r r' : RingBuffer} {listening : Bool} {choice : Choice}

@[simp] theorem unread_afterReceive (call : Call) (pc : ReceivePc) : (s.afterReceive call pc).pc.Unread = false := by
  unfold afterReceive
  split
  · rfl
  · split <;> rfl
  · rfl

@[simp] theorem unread_afterWait (call : Call) (outcome : Outcome) : (s.afterWait call outcome).Unread = false := by
  unfold afterWait
  split <;> rfl

/-- The generation is recorded once, before anything is read. -/
theorem generation_step (hs : s.step r listening choice = some (r', s')) :
    (s'.pc.Unread = true → s.pc.Unread = true) ∧
      (s'.generation = s.generation ∨ s.pc.Unread = true ∧ s'.generation = r.generation) := by
  obtain ⟨-, ⟨-, hgo⟩ | ⟨rfl, hd⟩⟩ := step_cases hs
  · cases hpc : s.pc with
    | receiving call pc =>
      simp only [go, hpc] at hgo
      split at hgo
      · cases hgo
        exact ⟨fun h => by simp at h, .inl (generation_afterReceive ..)⟩
      · cases hgo
    | unflag | clearFlag =>
      simp only [go, hpc] at hgo
      cases hgo
      exact ⟨fun h => by simp at h, .inl rfl⟩
    | readGeneration =>
      simp only [go, hpc] at hgo
      cases hgo
      exact ⟨(fun h => by cases h), .inr ⟨rfl, rfl⟩⟩
    | absent | readTail | claimAt | clearClaimed | connectSock | sendFd | resync | setCursor | abort =>
      refine ⟨fun _ => rfl, .inl ?_⟩
      simp only [go, hpc] at hgo
      try (split at hgo)
      all_goals try (split at hgo)
      all_goals (cases hgo; try rfl)
    | _ =>
      simp only [go, hpc] at hgo
      try (split at hgo)
      all_goals try (split at hgo)
      all_goals first
        | (cases hgo; done)
        | (cases hgo; exact ⟨(fun h => by cases h), .inl rfl⟩)
  · cases hd with
    | connect hpc | noRing hpc => exact ⟨fun _ => by rw [hpc]; rfl, .inl rfl⟩
    | noSocket hpc => exact ⟨fun _ => by rcases hpc with hpc | hpc <;> rw [hpc] <;> rfl, .inl rfl⟩
    | kill => exact ⟨id, .inl rfl⟩
    | call =>
      rename_i call last hpc
      cases call <;> exact ⟨(fun h => by cases h), .inl rfl⟩
    | _ => exact ⟨(fun h => by cases h), .inl rfl⟩

/-- In the middle of a receive call nothing but the end of the process can come between. -/
theorem receiving_choice (hs : s.step r listening choice = some (r', s')) {call : Call} {rp : ReceivePc}
    (hpc : s.pc = .receiving call rp) : choice = .go ∨ r' = r ∧ s' = { s with alive := false } := by
  obtain ⟨-, ⟨hgo, -⟩ | ⟨rfl, hd⟩⟩ := step_cases hs
  · exact .inl hgo
  · cases hd with
    | kill => exact .inr ⟨rfl, rfl⟩
    | noSocket h => rcases h with h | h <;> rw [hpc] at h <;> cases h
    | connect h | call h | deadline h | timeout h | noRing h | pollWake h | pollHup h | drop h =>
      rw [hpc] at h
      cases h

/-- A message is delivered by the last store of a receive call, and by nothing else. -/
theorem delivered_step (hs : s.step r listening choice = some (r', s')) :
    (∃ call cursor tail eff out, choice = .go ∧ s.pc = .receiving call (.storeCursor cursor tail eff out) ∧
      s'.delivered = s.delivered ++ [out]) ∨
    s'.delivered = s.delivered ∧
      (choice = .go → ∀ call cursor tail eff out, s.pc ≠ .receiving call (.storeCursor cursor tail eff out)) := by
  by_cases hstore : choice = .go ∧ ∃ call cursor tail eff out, s.pc = .receiving call (.storeCursor cursor tail eff out)
  · obtain ⟨rfl, call, cursor, tail, eff, out, hpc⟩ := hstore
    obtain ⟨-, ⟨-, hgo⟩ | ⟨-, hd⟩⟩ := step_cases hs
    · simp only [go, hpc, ReceivePc.step, Option.some.injEq, Prod.mk.injEq] at hgo
      obtain ⟨-, rfl⟩ := hgo
      exact .inl ⟨call, cursor, tail, eff, out, rfl, hpc, rfl⟩
    · cases hd
  · refine .inr ⟨?_, fun hgo call cursor tail eff out hpc => hstore ⟨hgo, call, cursor, tail, eff, out, hpc⟩⟩
    cases step_effect hs with
    | deliver at_store =>
      rcases receiving_choice hs at_store with hgo | ⟨-, heq⟩
      · exact absurd ⟨hgo, _, _, _, _, _, at_store⟩ hstore
      · have hsame := congrArg Subscriber.delivered heq
        exact hsame
    | _ => rfl

end Subscriber

/-! ### The invariant -/

private theorem finishMany_quiet (s : Bus) (result : CallResult) (count : Nat) :
    (s.finishMany result count).phase.ring = .idle ∧ (s.finishMany result count).chan = s.chan := by
  rcases @Bus.finishMany_eq s result count with h | h <;> rw [h]
  · exact ⟨Bus.broadcastAt_ring .., rfl⟩
  · exact ⟨rfl, rfl⟩

/-- In the middle of the ring's publish only the publisher's next access is a step that is not a subscriber's. -/
theorem Bus.access_step {s s' : Bus} {a : Mmbus.Act} (hne : ∀ i choice, a ≠ .sub i choice)
    (hring : s.phase.ring ≠ .idle) (hs : s.step a = some s') : a = .publisher ∧
      ∃ pc, s.phase.ring.step s.chan = some (s'.chan, pc) ∧ (s'.phase.ring.Writing → s'.phase.ring = pc) := by
  have quiet : ∀ {pc : PublishPc}, pc = .idle → pc.Writing → False := by
    rintro pc rfl h
    exact h
  cases hphase : s.phase with
  | publishing pc =>
    cases a with
    | sub i choice => exact absurd rfl (hne i choice)
    | publisher =>
      refine ⟨rfl, ?_⟩
      simp only [Bus.step, publisherStep, hphase] at hs
      split at hs
      · rename_i hstep
        cases hs
        exact ⟨_, hstep, fun hw => (quiet (broadcastAt_ring ..) hw).elim⟩
      · rename_i hstep
        cases hs
        exact ⟨_, hstep, fun hw => (quiet rfl hw).elim⟩
      · rename_i hstep
        cases hs
        exact ⟨_, hstep, fun _ => rfl⟩
      · cases hs
    | _ => simp [Bus.step, hphase] at hs
  | publishingMany rest count pc =>
    cases a with
    | sub i choice => exact absurd rfl (hne i choice)
    | publisher =>
      refine ⟨rfl, ?_⟩
      simp only [Bus.step, publisherStep, hphase] at hs
      split at hs
      · rename_i chan hstep
        cases rest with
        | nil =>
          cases hs
          refine ⟨.returned true, ?_, fun hw => (quiet (finishMany_quiet ..).1 hw).elim⟩
          rw [(finishMany_quiet ..).2]
          exact hstep
        | cons data rest =>
          simp only [nextItem] at hs
          split at hs
          · cases hs
            refine ⟨.returned true, ?_, fun hw => (quiet (finishMany_quiet ..).1 hw).elim⟩
            rw [(finishMany_quiet ..).2]
            exact hstep
          · split at hs
            · cases hs
              exact ⟨_, hstep, fun hw => (hw : False).elim⟩
            · cases hs
      · rename_i chan hstep
        cases hs
        refine ⟨.returned false, ?_, fun hw => (quiet (finishMany_quiet ..).1 hw).elim⟩
        rw [(finishMany_quiet ..).2]
        exact hstep
      · rename_i hstep
        cases hs
        exact ⟨_, hstep, fun _ => rfl⟩
      · cases hs
    | _ => simp [Bus.step, hphase] at hs
  | _ => exact absurd (by rw [hphase]; rfl) hring

namespace Succession

/-- The generation word still is the one a subscriber has recorded when its call confirms a slot; and a subscriber that
has recorded the present generation loads a tail above its cursor only after the tail has been reset for it. -/
def ReadsInGeneration (s : Succession) : Act → Prop
  | .bus (.sub i .go) =>
    (∀ eff ∈ (s.bus.subs i).pc.confirms, (s.bus.chan.ring.slot eff).seq = eff →
      (s.bus.subs i).generation = s.bus.chan.ring.generation) ∧
    (∀ cursor ∈ (s.bus.subs i).pc.begins, cursor < s.bus.chan.ring.tail →
      (s.bus.subs i).generation = s.bus.chan.ring.generation → s.resetFor = s.bus.chan.ring.generation)
  | _ => True

instance (s : Succession) : (a : Act) → Decidable (s.ReadsInGeneration a)
  | .bus (.sub i .go) => inferInstanceAs (Decidable
    ((∀ eff ∈ (s.bus.subs i).pc.confirms, (s.bus.chan.ring.slot eff).seq = eff →
        (s.bus.subs i).generation = s.bus.chan.ring.generation) ∧
      (∀ cursor ∈ (s.bus.subs i).pc.begins, cursor < s.bus.chan.ring.tail →
        (s.bus.subs i).generation = s.bus.chan.ring.generation → s.resetFor = s.bus.chan.ring.generation)))
  | .bus (.sub _ (.connect _)) | .bus (.sub _ (.call _)) | .bus (.sub _ .timeout) | .bus (.sub _ .fail)
  | .bus (.sub _ .pollWake) | .bus (.sub _ .pollHup) | .bus (.sub _ .drop) | .bus (.sub _ .kill) | .bus (.begin _)
  | .bus .publisher | .bus .timeout | .bus .drop | .bus (.closeSock _) | .crash | .bump | .reset | .listen _
  | .closeFormer _ => .isTrue trivial

/-- Every message a subscriber has returned, or is about to return, was copied from a slot that the generation it has
recorded had written, and is what this generation has published at the position. -/
structure Isolated (s : Succession) : Prop where
  returned : ∀ i, List.Forall₂
    (fun out source => source.1 = (s.bus.subs i).generation ∧ s.published source.1 source.2 = some out)
    (s.bus.subs i).delivered (s.sources i)
  returning : ∀ i call cursor tail eff out, (s.bus.subs i).pc = .receiving call (.storeCursor cursor tail eff out) →
    s.confirmed i = (s.bus.subs i).generation ∧ s.published (s.bus.subs i).generation eff = some out

structure Inv (s : Succession) : Prop where
  fits : s.bus.phase.Fits s.bus.chan.ring.slotSize
  publish : s.bus.phase.IsDropped = false → PublishInv 0 s.bus.chan s.bus.phase.ring
  running : s.bus.phase.IsDropped = false → s.resetFor = s.bus.chan.ring.generation
  stored : s.resetFor = s.bus.chan.ring.generation → ∃ pc, PublishInv 0 s.bus.chan pc
  creating : s.creation ≠ .complete → s.bus.phase.IsDropped = true ∧ s.bus.chan.log = fun _ => none
  bumped : s.creation = .bumped → s.resetFor ≠ s.bus.chan.ring.generation
  reset : s.creation = .reset → s.bus.chan.ring.tail = 0 ∧ s.resetFor = s.bus.chan.ring.generation
  cap_pos : 0 < s.bus.chan.ring.cap
  reset_le : s.resetFor ≤ s.bus.chan.ring.generation
  log : s.published s.bus.chan.ring.generation = s.bus.chan.log
  later : ∀ g, s.bus.chan.ring.generation < g → s.published g = fun _ => none
  own : s.resetFor = s.bus.chan.ring.generation → ∀ p, p < s.bus.chan.ring.tail →
    s.writer (p % s.bus.chan.ring.cap) = s.bus.chan.ring.generation
  marked : s.bus.phase.ring.Writing →
    s.writer (s.bus.chan.ring.tail % s.bus.chan.ring.cap) = s.bus.chan.ring.generation
  unread : ∀ i, (s.bus.subs i).pc.Unread = true → (s.bus.subs i).delivered = []
  past : ∀ i, (s.bus.subs i).generation ≤ s.bus.chan.ring.generation
  reading : ∀ i call rp, (s.bus.subs i).pc = .receiving call rp →
    (s.bus.subs i).generation = s.bus.chan.ring.generation →
      (∃ cursor, rp = .loadTail cursor) ∨ s.resetFor = s.bus.chan.ring.generation ∧ ReadsUsed s.bus.chan rp
  isolated : s.Isolated

namespace Inv

variable {s s' : Succession}

theorem init {capacity slotSize maxSubscribers : UInt32} {backpressure : BackpressurePolicy} (hcap : 0 < capacity) :
    (Succession.init capacity slotSize maxSubscribers backpressure).Inv where
  fits := trivial
  publish _ := (Bus.Inv.init (Bus.started_create hcap)).publish
  running _ := rfl
  stored _ := ⟨_, (Bus.Inv.init (Bus.started_create hcap)).publish⟩
  creating h := absurd rfl h
  bumped h := by cases h
  reset h := by cases h
  cap_pos := (Bus.started_create hcap).cap_pos
  reset_le := le_rfl
  log := rfl
  later _ _ := rfl
  own _ _ hp := absurd hp (Nat.not_lt_zero _)
  marked h := h.elim
  unread _ _ := rfl
  past _ := Nat.zero_le _
  reading _ _ _ h := by cases h
  isolated := ⟨fun _ => .nil, fun _ _ _ _ _ _ h => by cases h⟩

theorem writerAfter_own {g cap j : Nat} {writer : Nat → Nat} {pc : PublishPc} (h : writer j = g) :
    writerAfter g cap writer pc j = g := by
  cases pc with
  | storeMark data tail =>
    rw [writerAfter, Function.update_apply]
    split
    · rfl
    · exact h
  | _ => exact h

theorem idle_of_dropped {phase : Phase} (h : phase.IsDropped = true) : phase.ring = .idle := by
  cases phase <;> first | rfl | cases h

/-! ### A step of a subscriber -/

private theorem confirmedAfter_of_ne {i k : Nat} {choice : Choice} (hki : k ≠ i) :
    s.confirmedAfter (.sub i choice) k = s.confirmed k := by
  unfold confirmedAfter
  split
  · rename_i hact
    cases hact
    split
    · exact if_neg hki
    · rfl
  · rfl

private theorem sourcesAfter_of_ne {i k : Nat} {choice : Choice} (hki : k ≠ i) :
    s.sourcesAfter (.sub i choice) k = s.sources k := by
  unfold sourcesAfter
  split
  · rename_i hact
    cases hact
    split
    · exact if_neg hki
    · rfl
  · rfl

/-- The moving subscriber's call in progress -/
private theorem reading_subscriber (h : s.Inv) {i : Nat} {choice : Choice} {ring : RingBuffer} {sub : Subscriber}
    (hown : s.ReadsInGeneration (.bus (.sub i choice)))
    (hs : (s.bus.subs i).step s.bus.chan.ring s.bus.listening choice = some (ring, sub)) {call : Call} {rp : ReceivePc}
    (hrp : sub.pc = .receiving call rp) (hgen : sub.generation = s.bus.chan.ring.generation) :
    (∃ cursor, rp = .loadTail cursor) ∨ s.resetFor = s.bus.chan.ring.generation ∧
      ReadsUsed { s.bus.chan with ring := ring } rp := by
  rcases Subscriber.receiving_step hs hrp with rfl | ⟨rp₀, hrp₀, hstep, heq, hon⟩ | ⟨hrp₀, rfl, rfl⟩
  · exact .inl ⟨_, rfl⟩
  · rw [heq] at hgen
    rcases Subscriber.receiving_choice hs hrp₀ with rfl | ⟨rfl, rfl⟩
    · rcases h.reading i call rp₀ hrp₀ hgen with ⟨cursor, rfl⟩ | ⟨hreset, hused⟩
      · -- the call goes on only if the tail it loads lies above its cursor
        have hlt : cursor < s.bus.chan.ring.tail := by
          by_contra hle
          simp only [ReceivePc.step, if_pos (not_lt.1 hle), Option.some.injEq, Prod.mk.injEq] at hstep
          exact hon _ _ _ hstep.2.symm
        have hreset := hown.2 cursor (by rw [hrp₀]; rfl) hlt hgen
        obtain ⟨q, hq⟩ := h.stored hreset
        exact .inr ⟨hreset, (ReadsUsed.loadTail cursor).step hq hstep⟩
      · obtain ⟨q, hq⟩ := h.stored hreset
        exact .inr ⟨hreset, hused.step hq hstep⟩
    · obtain rfl : rp₀ = rp := by simpa [hrp₀] using hrp
      exact h.reading i call rp₀ hrp₀ hgen
  · exact h.reading i call rp hrp₀ hgen

/-- The moving subscriber's message about to be returned -/
private theorem returning_subscriber (h : s.Inv) {i : Nat} {choice : Choice} {ring : RingBuffer} {sub : Subscriber}
    (hown : s.ReadsInGeneration (.bus (.sub i choice)))
    (hs : (s.bus.subs i).step s.bus.chan.ring s.bus.listening choice = some (ring, sub)) {call : Call}
    {cursor tail eff : Nat} {out : Bytes} (hrp : sub.pc = .receiving call (.storeCursor cursor tail eff out)) :
    s.confirmedAfter (.sub i choice) i = sub.generation ∧ s.published sub.generation eff = some out := by
  have hkill : (s.bus.subs i).pc = .receiving call (.storeCursor cursor tail eff out) →
      s.confirmedAfter (.sub i choice) i = (s.bus.subs i).generation ∧
        s.published (s.bus.subs i).generation eff = some out := by
    intro hpc
    have hsame : s.confirmedAfter (.sub i choice) i = s.confirmed i := by
      unfold confirmedAfter
      split
      · rename_i hact
        cases hact
        rw [hpc]
        rfl
      · rfl
    rw [hsame]
    exact h.isolated.returning i call cursor tail eff out hpc
  rcases Subscriber.receiving_step hs hrp with heq | ⟨rp₀, hrp₀, hstep, heq, -⟩ | ⟨hrp₀, rfl, rfl⟩
  · cases heq
  · rcases Subscriber.receiving_choice hs hrp₀ with rfl | ⟨rfl, rfl⟩
    · obtain ⟨fuel, rfl, hseq⟩ := ReceivePc.step_storeCursor hstep
      rw [heq]
      have hgen := hown.1 eff (by rw [hrp₀]; rfl) hseq
      obtain ⟨hreset, hused⟩ := (h.reading i call _ hrp₀ hgen).resolve_left fun ⟨_, h⟩ => by cases h
      obtain ⟨q, hq⟩ := h.stored hreset
      -- the slot of the cursor is the generation's own, and the round has read this slot
      have hwriter : s.writer (eff % s.bus.chan.ring.cap) = s.bus.chan.ring.generation := by
        rw [hused.same]
        exact h.own hreset cursor (hused.receive.1.1.trans_le hused.receive.1.2.1)
      refine ⟨?_, ?_⟩
      · simp only [confirmedAfter, hrp₀, SubscriberPc.confirms, if_pos]
        rw [hwriter, hgen]
      · rw [hgen, h.log]
        exact (hused.step hq hstep).receive.2
    · exact hkill hrp
  · exact hkill hrp₀

/-- The moving subscriber's messages -/
private theorem returned_subscriber (h : s.Inv) {i : Nat} {choice : Choice} {ring : RingBuffer} {sub : Subscriber}
    (hs : (s.bus.subs i).step s.bus.chan.ring s.bus.listening choice = some (ring, sub)) :
    List.Forall₂ (fun out source => source.1 = sub.generation ∧ s.published source.1 source.2 = some out)
      sub.delivered (s.sourcesAfter (.sub i choice) i) := by
  obtain ⟨-, hgen⟩ := Subscriber.generation_step hs
  have hreturned := h.isolated.returned i
  rcases Subscriber.delivered_step hs with ⟨call, cursor, tail, eff, out, rfl, hpc, heq⟩ | ⟨heq, hpc⟩
  · have hsame : sub.generation = (s.bus.subs i).generation := by
      refine hgen.resolve_right ?_
      rw [hpc]
      exact fun h => Bool.false_ne_true h.1
    obtain ⟨hconfirmed, hpub⟩ := h.isolated.returning i call cursor tail eff out hpc
    simp only [sourcesAfter, hpc, if_pos]
    rw [heq, hsame]
    exact List.rel_append hreturned (.cons ⟨hconfirmed, hconfirmed ▸ hpub⟩ .nil)
  · have hsources : s.sourcesAfter (.sub i choice) i = s.sources i := by
      unfold sourcesAfter
      split
      · rename_i hact
        cases hact
        split
        · rename_i hstore
          exact absurd hstore (hpc rfl _ _ _ _ _)
        · rfl
      · rfl
    rw [heq, hsources]
    rcases hgen with hsame | ⟨hun, -⟩
    · rw [hsame]
      exact hreturned
    · have hnone := h.unread i hun
      rw [hnone] at hreturned ⊢
      rw [List.forall₂_nil_left_iff.1 hreturned]
      exact .nil

/-- A step of a subscriber -/
theorem subscriber (h : s.Inv) {i : Nat} {choice : Choice} {ring : RingBuffer} {sub : Subscriber} {backlog : List Nat}
    (hown : s.ReadsInGeneration (.bus (.sub i choice)))
    (hs : (s.bus.subs i).step s.bus.chan.ring s.bus.listening choice = some (ring, sub)) :
    Inv { s with
      bus := { s.bus with
        chan := { s.bus.chan with ring := ring }
        subs := Function.update s.bus.subs i sub
        backlog := backlog }
      confirmed := s.confirmedAfter (.sub i choice)
      sources := s.sourcesAfter (.sub i choice) } := by
  have hreading : ∀ call rp, sub.pc = .receiving call rp → sub.generation = s.bus.chan.ring.generation →
      (∃ cursor, rp = .loadTail cursor) ∨ s.resetFor = s.bus.chan.ring.generation ∧
        ReadsUsed { s.bus.chan with ring := ring } rp := fun call rp => h.reading_subscriber hown hs
  have hreturning : ∀ call cursor tail eff out, sub.pc = .receiving call (.storeCursor cursor tail eff out) →
      s.confirmedAfter (.sub i choice) i = sub.generation ∧ s.published sub.generation eff = some out :=
    fun call cursor tail eff out => h.returning_subscriber hown hs
  have hreturned := h.returned_subscriber hs
  obtain ⟨hunread, hgen⟩ := Subscriber.generation_step hs
  have hdelivered := Subscriber.delivered_step hs
  obtain ⟨cursors, flags, rfl, -, -⟩ := (Subscriber.step_effect hs).frame
  refine ⟨h.fits, fun hrun => (h.publish hrun).tables _ _, h.running, fun hr => (h.stored hr).imp fun _ hq => hq.tables _ _,
    h.creating, h.bumped, h.reset, h.cap_pos, h.reset_le, h.log, h.later, h.own, h.marked, fun k hk => ?_, fun k => ?_,
    fun k call rp hpc hg => ?_, fun k => ?_, fun k call cursor tail eff out hpc => ?_⟩
  all_goals
    simp only at *
    by_cases hki : k = i
  · subst hki
    rw [Function.update_self] at hk ⊢
    rcases hdelivered with ⟨call, cursor, tail, eff, out, -, hpc, -⟩ | ⟨heq, -⟩
    · have := hunread hk
      rw [hpc] at this
      cases this
    · rw [heq]
      exact h.unread k (hunread hk)
  · rw [Function.update_of_ne hki] at hk ⊢
    exact h.unread k hk
  · subst hki
    rw [Function.update_self]
    rcases hgen with heq | ⟨-, heq⟩
    · rw [heq]
      exact h.past k
    · exact heq.le
  · rw [Function.update_of_ne hki]
    exact h.past k
  · subst hki
    rw [Function.update_self] at hpc hg
    exact hreading call rp hpc hg
  · rw [Function.update_of_ne hki] at hpc hg
    exact (h.reading k call rp hpc hg).imp_right fun ⟨hr, hused⟩ => ⟨hr, hused.tables _ _⟩
  · subst hki
    rw [Function.update_self]
    exact hreturned
  · rw [Function.update_of_ne hki, sourcesAfter_of_ne hki]
    exact h.isolated.returned k
  · subst hki
    rw [Function.update_self] at hpc ⊢
    exact hreturning call cursor tail eff out hpc
  · rw [Function.update_of_ne hki] at hpc ⊢
    rw [confirmedAfter_of_ne hki]
    exact h.isolated.returning k call cursor tail eff out hpc

/-! ### A step that is not a subscriber's -/

/-- It makes no access to the ring while the publisher is between two ring calls. -/
private theorem quiet_step {s s' : Bus} (he : PublisherEffect s s') (hidle : s.phase.ring = .idle) :
    (∃ flags, s'.chan = { s.chan with ring := { s.chan.ring with wakeflags := flags } }) ∧ ¬s'.phase.ring.Writing := by
  obtain ⟨chan, pc, flags, hstep, hchan, hrestart⟩ := he.chan
  rcases hstep with ⟨rfl, rfl⟩ | hstep
  · refine ⟨⟨flags, hchan⟩, fun hm => ?_⟩
    cases hr : s'.phase.ring <;> rw [hr] at hrestart hm <;> cases hm
    all_goals
      rw [hidle] at hrestart
      cases hrestart
  · rw [hidle] at hstep
    cases hstep

/-- A dropped publisher stays dropped. -/
private theorem dropped_step {s s' : Bus} (hc : ConnEffect s s') (hd : s.phase.IsDropped = true) :
    s'.phase.IsDropped = true := by
  cases hc with
  | keep _ _ _ dropped => exact dropped hd
  | close _ dropped' => exact dropped'
  | accept _ _ _ _ running | join _ _ running | refuse _ _ running | reap _ _ _ running =>
    rw [hd] at running
    cases running

/-- A call marks its slot, or keeps it marked; the tail is still its position. -/
private theorem writing_step {c c' : Channel} {pc pc' : PublishPc} (hp : PublishInv 0 c pc)
    (hs : pc.step c = some (c', pc')) (hw : pc'.Writing) :
    c'.ring.tail = c.ring.tail ∧ ((∃ data, pc = .storeMark data c.ring.tail) ∨ pc.Writing) := by
  have hscan : ∀ {d t i m}, ¬(PublishPc.scanAt c.ring d t i m).Writing := by
    intro d t i m hw
    unfold PublishPc.scanAt at hw
    split at hw
    · exact hw
    · split at hw <;> exact hw
  cases pc with
  | idle | returned => simp [PublishPc.step] at hs
  | loadTail policy =>
    cases policy <;>
    · simp only [PublishPc.step, Option.some.injEq, Prod.mk.injEq] at hs
      obtain ⟨-, rfl⟩ := hs
      first
        | exact (hscan hw).elim
        | exact hw.elim
  | loadCursor =>
    simp only [PublishPc.step, Option.some.injEq, Prod.mk.injEq] at hs
    obtain ⟨-, rfl⟩ := hs
    exact (hscan hw).elim
  | storeMark data tail =>
    obtain rfl := hp.target_tail data tail rfl
    simp only [PublishPc.step, Option.some.injEq, Prod.mk.injEq] at hs
    obtain ⟨rfl, -⟩ := hs
    exact ⟨rfl, .inl ⟨data, rfl⟩⟩
  | storeLen | storeByte | storeSeq =>
    simp only [PublishPc.step, Option.some.injEq, Prod.mk.injEq] at hs
    obtain ⟨rfl, -⟩ := hs
    exact ⟨rfl, .inr trivial⟩
  | storeTail =>
    simp only [PublishPc.step, Option.some.injEq, Prod.mk.injEq] at hs
    obtain ⟨-, rfl⟩ := hs
    exact hw.elim

/-- The tail is stored by the last access of a call that has written its slot. -/
private theorem tail_step {c c' : Channel} {pc pc' : PublishPc} (hp : PublishInv 0 c pc)
    (hs : pc.step c = some (c', pc')) {p : Nat} (hlt : p < c'.ring.tail) :
    p < c.ring.tail ∨ p = c.ring.tail ∧ ∃ data, pc = .storeTail data p := by
  cases pc with
  | idle | returned => simp [PublishPc.step] at hs
  | loadTail policy =>
    cases policy <;>
    · simp only [PublishPc.step, Option.some.injEq, Prod.mk.injEq] at hs
      obtain ⟨rfl, -⟩ := hs
      exact .inl hlt
  | storeTail data tail =>
    obtain rfl := hp.target_tail data tail rfl
    simp only [PublishPc.step, Option.some.injEq, Prod.mk.injEq] at hs
    obtain ⟨rfl, -⟩ := hs
    rcases Nat.lt_or_eq_of_le (Nat.le_of_lt_succ hlt) with hlt | rfl
    · exact .inl hlt
    · exact .inr ⟨rfl, data, rfl⟩
  | _ =>
    simp only [PublishPc.step, Option.some.injEq, Prod.mk.injEq] at hs
    obtain ⟨rfl, -⟩ := hs
    exact .inl hlt

/-- The state after a step of the publisher -/
private def afterPublisher (s : Succession) (bus : Bus) : Succession :=
  { s with
    bus := bus
    published := Function.update s.published bus.chan.ring.generation bus.chan.log
    writer := writerAfter s.bus.chan.ring.generation s.bus.chan.ring.cap s.writer s.bus.phase.ring }

section Publisher

variable {a : Mmbus.Act} {bus : Bus}

theorem publisher_effect (h : s.Inv) (hne : ∀ i choice, a ≠ .sub i choice) (hs : s.bus.step a = some bus) :
    PublisherEffect s.bus bus :=
  (Bus.step_cases h.fits hs).elim (fun ⟨i, choice, _, _, heq, _⟩ => absurd heq (hne i choice)) fun h => h.2

private theorem running_of_running (hne : ∀ i choice, a ≠ .sub i choice) (hs : s.bus.step a = some bus)
    (hrun : bus.phase.IsDropped = false) : s.bus.phase.IsDropped = false := by
  rw [← Bool.not_eq_true] at hrun ⊢
  exact fun hd => hrun (dropped_step (Bus.step_conn hne hs) hd)

private theorem subs_of_effect (he : PublisherEffect s.bus bus) (i : Nat) : (bus.subs i).pc = (s.bus.subs i).pc ∧
    (bus.subs i).generation = (s.bus.subs i).generation ∧ (bus.subs i).delivered = (s.bus.subs i).delivered := by
  obtain ⟨efd, hup, acceptedAt, heq⟩ := he.subs i
  rw [heq]
  exact ⟨rfl, rfl, rfl⟩

theorem publisher_publish (h : s.Inv) (hne : ∀ i choice, a ≠ .sub i choice) (hs : s.bus.step a = some bus)
    (hrun : bus.phase.IsDropped = false) : PublishInv 0 bus.chan bus.phase.ring := by
  have hp := h.publish (running_of_running hne hs hrun)
  obtain ⟨chan, pc, flags, hacc, hchan, hrestart⟩ := (h.publisher_effect hne hs).chan
  rw [hchan]
  rcases hacc with ⟨rfl, rfl⟩ | hstep
  · exact (Bus.publishInv_restart hp hrestart).tables _ _
  · exact (Bus.publishInv_restart (hp.step hstep) hrestart).tables _ _

/-- A step of the publisher without an access to the slots -/
private theorem publisher_idle (h : s.Inv) (hne : ∀ i choice, a ≠ .sub i choice) (hs : s.bus.step a = some bus)
    (hidle : s.bus.phase.ring = .idle) : (afterPublisher s bus).Inv := by
  have he := h.publisher_effect hne hs
  have hsub := subs_of_effect he
  obtain ⟨⟨flags, hchan⟩, hwriting⟩ := quiet_step he hidle
  have hpub : Function.update s.published bus.chan.ring.generation bus.chan.log = s.published := by
    rw [hchan, ← h.log, Function.update_eq_self]
  have hafter : afterPublisher s bus = { s with bus := bus } := by
    rw [afterPublisher, hpub, hidle]
    rfl
  rw [hafter]
  exact {
    fits := by
      simp only [hchan]
      exact he.fits
    publish := h.publisher_publish hne hs
    running := fun hrun => by
      simp only [hchan]
      exact h.running (running_of_running hne hs hrun)
    stored := fun hr => by
      simp only [hchan] at hr ⊢
      exact (h.stored hr).imp fun _ hq => hq.tables _ _
    creating := fun hc => by
      simp only [hchan]
      exact ⟨dropped_step (Bus.step_conn hne hs) (h.creating hc).1, (h.creating hc).2⟩
    bumped := fun hc => by
      simp only [hchan]
      exact h.bumped hc
    reset := fun hc => by
      simp only [hchan]
      exact h.reset hc
    cap_pos := by
      simp only [hchan]
      exact h.cap_pos
    reset_le := by
      simp only [hchan]
      exact h.reset_le
    log := by
      simp only [hchan]
      exact h.log
    later := by
      simp only [hchan]
      exact h.later
    own := fun hr => by
      simp only [hchan] at hr ⊢
      exact h.own hr
    marked := fun hw => absurd hw hwriting
    unread := fun i hi => by
      rw [(hsub i).1] at hi
      rw [(hsub i).2.2]
      exact h.unread i hi
    past := fun i => by
      simp only [(hsub i).2.1, hchan]
      exact h.past i
    reading := fun i call rp hpc hg => by
      rw [(hsub i).1] at hpc
      simp only [(hsub i).2.1, hchan] at hg ⊢
      exact (h.reading i call rp hpc hg).imp_right fun ⟨hr, hused⟩ => ⟨hr, hused.tables _ _⟩
    isolated := by
      refine ⟨fun i => ?_, fun i call cursor tail eff out hpc => ?_⟩
      · rw [(hsub i).2.2, (hsub i).2.1]
        exact h.isolated.returned i
      · rw [(hsub i).1] at hpc
        rw [(hsub i).2.1]
        exact h.isolated.returning i call cursor tail eff out hpc }

/-- An access of the publisher to the slots or the tail -/
private theorem publisher_access (h : s.Inv) (hne : ∀ i choice, a ≠ .sub i choice) (hs : s.bus.step a = some bus)
    (hbusy : s.bus.phase.ring ≠ .idle) : (afterPublisher s bus).Inv := by
  have he := h.publisher_effect hne hs
  have hsub := subs_of_effect he
  obtain ⟨rfl, pc, hstep, hpc⟩ := Bus.access_step hne hbusy hs
  have hnot : s.bus.phase.IsDropped = false := by
    rw [← Bool.not_eq_true]
    exact fun hd => hbusy (idle_of_dropped hd)
  have hp := h.publish hnot
  obtain ⟨hcap, hslot, -, -, -, hgen⟩ := PublishPc.frame_step hstep
  have hcomplete : s.creation = .complete := by
    by_contra hc
    rw [(h.creating hc).1] at hnot
    cases hnot
  -- what is published stays published
  have hgrow : ∀ g p out, s.published g p = some out → (afterPublisher s bus).published g p = some out := by
    intro g p out hpub
    simp only [afterPublisher, hgen]
    by_cases hg : g = s.bus.chan.ring.generation
    · subst hg
      rw [Function.update_self]
      exact hp.log_step hstep (h.log ▸ hpub)
    · rw [Function.update_of_ne hg]
      exact hpub
  exact {
    fits := by
      simp only [afterPublisher, hslot]
      exact he.fits
    publish := h.publisher_publish hne hs
    running := fun _ => by
      simp only [afterPublisher, hgen]
      exact h.running hnot
    stored := fun _ => ⟨pc, hp.step hstep⟩
    creating := fun hc => absurd hcomplete hc
    bumped := fun hc => by cases hcomplete.symm.trans hc
    reset := fun hc => by cases hcomplete.symm.trans hc
    cap_pos := by
      simp only [afterPublisher, hcap]
      exact h.cap_pos
    reset_le := by
      simp only [afterPublisher, hgen]
      exact h.reset_le
    log := by simp only [afterPublisher, Function.update_self]
    later := fun g hg => by
      simp only [afterPublisher] at hg ⊢
      rw [Function.update_of_ne hg.ne']
      exact h.later g (hgen ▸ hg)
    own := fun hr p hlt => by
      simp only [afterPublisher, hcap, hgen] at hr hlt ⊢
      refine writerAfter_own ?_
      rcases tail_step hp hstep hlt with hlt | ⟨rfl, data, htail⟩
      · exact h.own hr p hlt
      · exact h.marked (by rw [htail]; trivial)
    marked := fun hw => by
      simp only [afterPublisher, hcap, hgen] at hw ⊢
      rw [hpc hw] at hw
      obtain ⟨htail, ⟨data, hmark⟩ | hw₀⟩ := writing_step hp hstep hw
      · rw [htail, hmark]
        exact Function.update_self ..
      · rw [htail]
        exact writerAfter_own (h.marked hw₀)
    unread := fun i hi => by
      simp only [afterPublisher, (hsub i).1, (hsub i).2.2] at hi ⊢
      exact h.unread i hi
    past := fun i => by
      simp only [afterPublisher, (hsub i).2.1, hgen]
      exact h.past i
    reading := fun i call rp hpc hg => by
      simp only [afterPublisher, (hsub i).1, (hsub i).2.1, hgen] at hpc hg ⊢
      exact (h.reading i call rp hpc hg).imp_right fun ⟨hr, hused⟩ => ⟨hr, hused.publish hp hstep⟩
    isolated := by
      refine ⟨fun i => ?_, fun i call cursor tail eff out hpc => ?_⟩
      · simp only [afterPublisher, (hsub i).2.2, (hsub i).2.1]
        exact (h.isolated.returned i).imp fun _ _ ⟨hown, hpub⟩ => ⟨hown, hgrow _ _ _ hpub⟩
      · simp only [afterPublisher, (hsub i).1] at hpc
        simp only [afterPublisher, (hsub i).2.1]
        exact (h.isolated.returning i call cursor tail eff out hpc).imp_right (hgrow _ _ _) }

/-- A step of the publisher -/
theorem publisher (h : s.Inv) (hne : ∀ i choice, a ≠ .sub i choice) (hs : s.bus.step a = some bus) :
    Inv { s with
      bus := bus
      published := Function.update s.published bus.chan.ring.generation bus.chan.log
      writer := writerAfter s.bus.chan.ring.generation s.bus.chan.ring.cap s.writer s.bus.phase.ring } := by
  by_cases hidle : s.bus.phase.ring = .idle
  · exact h.publisher_idle hne hs hidle
  · exact h.publisher_access hne hs hidle

end Publisher

/-! ### Taking the ring over -/

/-- A publisher that ends leaves the ring as it is. -/
theorem crash (h : s.Inv) : Inv { s with bus := s.bus.setPhase .dropped, creation := .complete } where
  fits := trivial
  publish hrun := by cases hrun
  running hrun := by cases hrun
  stored := h.stored
  creating hc := absurd rfl hc
  bumped hc := by cases hc
  reset hc := by cases hc
  cap_pos := h.cap_pos
  reset_le := h.reset_le
  log := h.log
  later := h.later
  own := h.own
  marked hw := hw.elim
  unread := h.unread
  past := h.past
  reading := h.reading
  isolated := ⟨h.isolated.returned, h.isolated.returning⟩

/-- A new generation has published nothing, and nobody has recorded it. -/
theorem bump (h : s.Inv) (hd : s.bus.phase.IsDropped = true) :
    Inv { s with
      bus := { s.bus with
        chan := ⟨{ s.bus.chan.ring with generation := s.bus.chan.ring.generation + 1 }, fun _ => none⟩ }
      creation := .bumped } := by
  have hidle := idle_of_dropped hd
  have hreset : s.resetFor ≠ s.bus.chan.ring.generation + 1 := (Nat.lt_succ_of_le h.reset_le).ne
  refine ⟨h.fits, fun hrun => ?_, fun hrun => ?_, fun hr => absurd hr hreset, fun _ => ⟨hd, rfl⟩, fun _ => hreset,
    nofun, h.cap_pos, h.reset_le.trans (Nat.le_succ _), h.later _ (Nat.lt_succ_self _), fun g hg => h.later g ((Nat.lt_succ_self _).trans hg),
    fun hr => absurd hr hreset, fun hw => ?_, h.unread, fun i => (h.past i).trans (Nat.le_succ _),
    fun i call rp _ hg => ?_, h.isolated.returned, h.isolated.returning⟩
  · rw [hd] at hrun
    cases hrun
  · rw [hd] at hrun
    cases hrun
  · rw [hidle] at hw
    exact hw.elim
  · exact absurd hg (Nat.lt_succ_of_le (h.past i)).ne

/-- The tail goes back to 0; the slots stay. -/
theorem resetTail (h : s.Inv) (hc : s.creation = .bumped) :
    Inv { s with
      bus := { s.bus with chan := { s.bus.chan with ring := s.bus.chan.ring.setTail 0 } }
      creation := .reset
      resetFor := s.bus.chan.ring.generation } := by
  obtain ⟨hd, hlog⟩ := h.creating (by rw [hc]; nofun)
  have hidle := idle_of_dropped hd
  refine ⟨h.fits, fun hrun => ?_, fun _ => rfl, fun _ => ⟨.idle, .fresh h.cap_pos rfl hlog⟩, fun _ => ⟨hd, hlog⟩,
    nofun, fun _ => ⟨rfl, rfl⟩, h.cap_pos, le_rfl, h.log, h.later, fun _ p hp => absurd hp (Nat.not_lt_zero p), fun hw => ?_,
    h.unread, h.past, fun i call rp hpc hg => ?_, h.isolated.returned, h.isolated.returning⟩
  · rw [hd] at hrun
    cases hrun
  · rw [hidle] at hw
    exact hw.elim
  · exact .inl ((h.reading i call rp hpc hg).resolve_right fun hr => h.bumped hc hr.1)

/-- The new publisher begins on an empty topic. -/
theorem listen (h : s.Inv) {backpressure : BackpressurePolicy} {former : List Nat} (hc : s.creation = .reset) :
    Inv { s with
      bus := { s.bus with backpressure := backpressure, phase := .idle .created, clients := [], backlog := [] }
      creation := .complete
      former := former } := by
  obtain ⟨-, hlog⟩ := h.creating (by rw [hc]; nofun)
  obtain ⟨htail, hreset⟩ := h.reset hc
  exact ⟨trivial, fun _ => .fresh h.cap_pos htail hlog, fun _ => hreset, h.stored, fun hc => absurd rfl hc, nofun,
    nofun, h.cap_pos, h.reset_le, h.log, h.later, h.own, fun hw => hw.elim, h.unread, h.past, h.reading, h.isolated.returned,
    h.isolated.returning⟩

theorem closeFormer (h : s.Inv) {i : Nat} {former : List Nat} :
    Inv { s with bus := s.bus.setSub i { s.bus.subs i with hup := true }, former := former } := by
  have hsub : ∀ k, (s.bus.setSub i { s.bus.subs i with hup := true }).subs k =
      { s.bus.subs k with hup := ((s.bus.setSub i { s.bus.subs i with hup := true }).subs k).hup } := by
    intro k
    simp only [Bus.setSub]
    by_cases hki : k = i
    · subst hki
      rw [Function.update_self]
    · rw [Function.update_of_ne hki]
  refine ⟨h.fits, h.publish, h.running, h.stored, h.creating, h.bumped, h.reset, h.cap_pos, h.reset_le, h.log, h.later, h.own,
    h.marked, fun k hk => ?_, fun k => ?_, fun k call rp hpc hg => ?_, fun k => ?_,
    fun k call cursor tail eff out hpc => ?_⟩
  all_goals simp only at *
  · rw [hsub k] at hk ⊢
    exact h.unread k hk
  · rw [hsub k]
    exact h.past k
  · rw [hsub k] at hpc hg
    exact h.reading k call rp hpc hg
  · rw [hsub k]
    exact h.isolated.returned k
  · rw [hsub k] at hpc ⊢
    exact h.isolated.returning k call cursor tail eff out hpc

theorem step {a : Act} (h : s.Inv) (ha : s.ReadsInGeneration a) (hs : s.step a = some s') : s'.Inv := by
  cases a with
  | bus a =>
    obtain ⟨bus, hbus, rfl⟩ := Option.map_eq_some_iff.1 hs
    rcases Bus.step_cases h.fits hbus with ⟨i, choice, ring, sub, rfl, hsub, rfl⟩ | ⟨hne, -⟩
    · obtain ⟨cursors, flags, hring, -, -⟩ := (Subscriber.step_effect hsub).frame
      have hpub : Function.update s.published ring.generation s.bus.chan.log = s.published := by
        rw [hring, ← h.log, Function.update_eq_self]
      simp only [hpub]
      exact h.subscriber ha hsub
    · have hinv := h.publisher hne hbus
      cases a with
      | sub i choice => exact absurd rfl (hne i choice)
      | _ => exact hinv
  | crash =>
    simp only [Succession.step] at hs
    split at hs
    · cases hs
    · cases hs
      exact h.crash
  | bump =>
    simp only [Succession.step] at hs
    split at hs
    · rename_i hd
      cases hs
      exact h.bump hd.1
    · cases hs
  | reset =>
    simp only [Succession.step] at hs
    split at hs
    · rename_i hc
      cases hs
      exact h.resetTail hc
    · cases hs
  | listen backpressure =>
    simp only [Succession.step] at hs
    split at hs
    · rename_i hc
      cases hs
      exact h.listen hc
    · cases hs
  | closeFormer i =>
    simp only [Succession.step] at hs
    split at hs
    · cases hs
      exact h.closeFormer
    · cases hs

end Inv

/-- Subscribers of successive generations are isolated in every run whose slots are confirmed, and whose tails are loaded,
within the generation that the subscriber has recorded. -/
theorem isolated_run {capacity slotSize maxSubscribers : UInt32} {backpressure : BackpressurePolicy} {acts : List Act}
    {s : Succession} (hcap : 0 < capacity)
    (hreads : Meets step ReadsInGeneration (init capacity slotSize maxSubscribers backpressure) acts)
    (hrun : run step (init capacity slotSize maxSubscribers backpressure) acts = some s) : s.Isolated :=
  (run_invariant_when Inv ReadsInGeneration (fun _ _ _ h ha hs => h.step ha hs) hreads (Inv.init hcap) hrun).isolated

/-- A publisher is dropped, and another one takes its ring over. -/
def takeOver : List Act := [.bus .drop, .bump, .reset, .listen .error]

/-- A publisher publishes a message of one byte, with `more` steps for the connections and entries it finds; the subscriber
`i` receives. -/
def publishAndReceive (data : UInt8) (more i : Nat) : List Mmbus.Act :=
  .begin (.publish [data]) :: List.replicate (8 + more) .publisher ++
    .sub i (.call .tryReceive) :: List.replicate 6 (.sub i .go)

/-- Each publisher's subscriber receives its message. -/
def receivedOnBothSides : List Act :=
  (Bus.connectActs 0 ++ List.replicate 3 (Mmbus.Act.sub 0 .go) ++ publishAndReceive 5 5 0).map .bus ++ takeOver ++
    (Bus.connectActs 1 ++ List.replicate 4 (Mmbus.Act.sub 1 .go) ++ publishAndReceive 7 5 1).map .bus

set_option maxRecDepth 2048 in
theorem isolated_run_receivedOnBothSides : ∃ s, run step (init 2 4 2 .error) receivedOnBothSides = some s ∧
    (s.bus.subs 0).delivered = [[5]] ∧ s.sources 0 = [(1, 0)] ∧
    (s.bus.subs 1).delivered = [[7]] ∧ s.sources 1 = [(2, 0)] ∧ s.Isolated := by
  obtain ⟨s, hrun, hs⟩ := Option.map_eq_some_iff.1
    (show (run step (init 2 4 2 .error) receivedOnBothSides).map
        (fun s => ((s.bus.subs 0).delivered, s.sources 0, (s.bus.subs 1).delivered, s.sources 1)) =
      some ([[5]], [(1, 0)], [[7]], [(2, 0)]) by decide)
  simp only [Prod.mk.injEq] at hs
  exact ⟨s, hrun, hs.1, hs.2.1, hs.2.2.1, hs.2.2.2, isolated_run (by decide) (by decide) hrun⟩

/-- The first publisher's subscriber receives the second publisher's message. -/
def readsAfterTakeOver : List Act :=
  (Bus.connectActs 0 ++ List.replicate 3 (Mmbus.Act.sub 0 .go)).map .bus ++ takeOver ++
    (publishAndReceive 9 0 0).map .bus

theorem isolated_fails : ∃ s, run step (init 2 4 1 .error) readsAfterTakeOver = some s ∧
    (s.bus.subs 0).generation = 1 ∧ (s.bus.subs 0).delivered = [[9]] ∧ s.published 2 0 = some [9] ∧ ¬s.Isolated := by
  obtain ⟨s, hrun, hs⟩ := Option.map_eq_some_iff.1
    (show (run step (init 2 4 1 .error) readsAfterTakeOver).map
        (fun s => ((s.bus.subs 0).generation, (s.bus.subs 0).delivered, s.published 2 0, s.sources 0)) =
      some (1, [[9]], some [9], [(2, 0)]) by rfl)
  simp only [Prod.mk.injEq] at hs
  obtain ⟨hgen, hdelivered, hlater, hsources⟩ := hs
  refine ⟨s, hrun, hgen, hdelivered, hlater, fun h => ?_⟩
  have hreturned := h.returned 0
  rw [hdelivered, hsources, hgen, List.forall₂_cons] at hreturned
  exact absurd hreturned.1.1 (by decide)

end Succession

end Mmbus
