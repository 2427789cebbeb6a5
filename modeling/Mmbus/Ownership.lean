import Mmbus.Bus

/-!
# Who owns what on the bus

The invariant `Bus.Inv` that every run keeps: the slots are as `PublishInv` says, every subscriber past
`claim_cursor` holds an entry of its own, and the entry shows its position.

A step of the system is a step of one subscriber (`Effect`) or leaves all subscribers where they are
(`PublisherEffect`); the other invariants of the bus are derived from the same two descriptions.
-/

namespace Mmbus

open FlagBit RingBuffer

/-! ### Steps of the publisher -/

/-- Between two accesses the publisher may leave a ring call that has returned and begin another one. -/
inductive Restart (policy : BackpressurePolicy) (c : Channel) (pc : PublishPc) : PublishPc → Prop
  | same : Restart policy c pc pc
  | done (free : pc.Free = true) : Restart policy c pc .idle
  | next {data : Bytes} (free : pc.Free = true) (fits : data.length ≤ c.ring.slotSize)
      (room : c.ring.tail < 2 ^ SEQ_WRITING) : Restart policy c pc (.loadTail policy data)

/-- The payload of the `publish` call that is still accepting connections fits a slot. -/
def Phase.Fits (slotSize : Nat) : Phase → Prop
  | accept (.publish data) | recvFd (.publish data) _ => data.length ≤ slotSize
  | _ => True

/-- The effect of a step that is not a subscriber's: at most one access of the publisher to the ring, and new values of
what the publisher may write of a subscriber. -/
structure PublisherEffect (s s' : Bus) : Prop where
  chan : ∃ chan pc flags, (chan = s.chan ∧ pc = s.phase.ring ∨ s.phase.ring.step s.chan = some (chan, pc)) ∧
    s'.chan = { chan with ring := { chan.ring with wakeflags := flags } } ∧
    Restart s.backpressure chan pc s'.phase.ring
  subs : ∀ i, ∃ efd hup acceptedAt, s'.subs i = { s.subs i with efd := efd, hup := hup, acceptedAt := acceptedAt }
  backpressure : s'.backpressure = s.backpressure
  fits : s'.phase.Fits s.chan.ring.slotSize

/-- It leaves the subscribers where they are. -/
theorem PublisherEffect.fields {s s' : Bus} (he : PublisherEffect s s') (i : Nat) :
    (s'.subs i).pc = (s.subs i).pc ∧ (s'.subs i).alive = (s.subs i).alive ∧
      (s'.subs i).cursor = (s.subs i).cursor ∧ (s'.subs i).cursorIdx = (s.subs i).cursorIdx ∧
      (s'.subs i).generation = (s.subs i).generation := by
  obtain ⟨efd, hup, acceptedAt, heq⟩ := he.subs i
  rw [heq]
  exact ⟨rfl, rfl, rfl, rfl, rfl⟩

namespace Bus

variable {s s' : Bus}

@[simp] theorem broadcastAt_ring (result : CallResult) (i : Nat) : (s.broadcastAt result i).phase.ring = .idle := by
  unfold broadcastAt setPhase
  dsimp only
  split <;> rfl

@[simp] theorem broadcastAt_chan (result : CallResult) (i : Nat) : (s.broadcastAt result i).chan = s.chan := rfl
@[simp] theorem broadcastAt_subs (result : CallResult) (i : Nat) : (s.broadcastAt result i).subs = s.subs := rfl
@[simp] theorem broadcastAt_clients (result : CallResult) (i : Nat) :
    (s.broadcastAt result i).clients = s.clients := rfl
@[simp] theorem broadcastAt_backpressure (result : CallResult) (i : Nat) :
    (s.broadcastAt result i).backpressure = s.backpressure := rfl

theorem broadcastAt_fits (result : CallResult) (i n : Nat) : (s.broadcastAt result i).phase.Fits n := by
  unfold broadcastAt setPhase
  dsimp only
  split <;> trivial

theorem finishMany_eq (result : CallResult) (count : Nat) :
    s.finishMany result count = s.broadcastAt result 0 ∨ s.finishMany result count = s.setPhase (.idle result) := by
  unfold finishMany
  split
  · exact .inl rfl
  · exact .inr rfl

/-- The publisher leaves the ring call `pc` with the channel `chan`, which it reached by at most one access. -/
private theorem effect_of_leave {chan : Channel} {pc : PublishPc}
    (hchan : chan = s.chan ∧ pc = s.phase.ring ∨ s.phase.ring.step s.chan = some (chan, pc))
    (hc : s'.chan = chan) (hr : Restart s.backpressure chan pc s'.phase.ring) (hsubs : s'.subs = s.subs)
    (hb : s'.backpressure = s.backpressure) (hf : s'.phase.Fits s.chan.ring.slotSize) : PublisherEffect s s' where
  chan := ⟨chan, pc, _, hchan, hc, hr⟩
  subs i := ⟨_, _, _, by rw [hsubs]⟩
  backpressure := hb
  fits := hf

private theorem effect_of_finishMany {chan : Channel} {pc : PublishPc} {result : CallResult} {count : Nat}
    (hchan : chan = s.chan ∧ pc = s.phase.ring ∨ s.phase.ring.step s.chan = some (chan, pc)) (hfree : pc.Free = true) :
    PublisherEffect s ({ s with chan := chan }.finishMany result count) := by
  rcases @finishMany_eq { s with chan := chan } result count with h | h <;> rw [h]
  · exact effect_of_leave hchan rfl (by rw [broadcastAt_ring]; exact .done hfree) rfl rfl (broadcastAt_fits ..)
  · exact effect_of_leave hchan rfl (.done hfree) rfl rfl trivial

private theorem effect_of_nextItem {chan : Channel} {pc : PublishPc} {count : Nat} {items : List Bytes}
    (hchan : chan = s.chan ∧ pc = s.phase.ring ∨ s.phase.ring.step s.chan = some (chan, pc)) (hfree : pc.Free = true)
    (hs : { s with chan := chan }.nextItem count items = some s') : PublisherEffect s s' := by
  cases items with
  | nil =>
    simp only [nextItem] at hs
    cases hs
    exact effect_of_finishMany hchan hfree
  | cons data rest =>
    simp only [nextItem] at hs
    split at hs
    · cases hs
      exact effect_of_finishMany hchan hfree
    · rename_i hfit
      split at hs
      · rename_i hlim
        cases hs
        exact effect_of_leave hchan rfl (.next hfree (by omega) hlim) rfl rfl trivial
      · cases hs

/-- A step that leaves the ring alone, up to the wakeup flags, and writes of one subscriber what the publisher may -/
private theorem effect_of_outside {flags : Nat → Nat} (hring : s.phase.ring = .idle) (hring' : s'.phase.ring = .idle)
    (hchan : s'.chan = { s.chan with ring := { s.chan.ring with wakeflags := flags } })
    (hsubs : s'.subs = s.subs ∨ ∃ i efd hup acceptedAt, s'.subs =
      Function.update s.subs i { s.subs i with efd := efd, hup := hup, acceptedAt := acceptedAt })
    (hb : s'.backpressure = s.backpressure) (hf : s'.phase.Fits s.chan.ring.slotSize) : PublisherEffect s s' where
  chan := ⟨s.chan, .idle, flags, .inl ⟨rfl, hring.symm⟩, hchan, hring' ▸ .same⟩
  subs k := by
    rcases hsubs with h | ⟨i, efd, hup, acceptedAt, h⟩
    · exact ⟨_, _, _, by rw [h]⟩
    · rw [h]
      by_cases hk : k = i
      · subst hk
        exact ⟨_, _, _, Function.update_self ..⟩
      · exact ⟨_, _, _, Function.update_of_ne hk ..⟩
  backpressure := hb
  fits := hf

theorem publisherStep_effect (hfit : s.phase.Fits s.chan.ring.slotSize) (hs : s.publisherStep = some s') :
    PublisherEffect s s' := by
  unfold publisherStep at hs
  cases hphase : s.phase with
  | idle | dropped => simp [hphase] at hs
  | accept call =>
    have hidle : s.phase.ring = .idle := by rw [hphase]; rfl
    rw [hphase] at hfit
    simp only [hphase] at hs
    split at hs
    · cases hs
      exact effect_of_outside hidle rfl rfl (.inl rfl) rfl (by cases call <;> exact hfit)
    · cases call with
      | publish data =>
        simp only [afterAccept] at hs
        split at hs
        · rename_i hlim
          cases hs
          exact effect_of_leave (.inl ⟨rfl, hidle.symm⟩) rfl (.next rfl hfit hlim) rfl rfl trivial
        · cases hs
      | publishMany items => exact effect_of_nextItem (.inl ⟨rfl, hidle.symm⟩) rfl hs
      | waitForSubscribers minCount =>
        simp only [afterAccept, Option.some.injEq] at hs
        subst hs
        split
        · exact effect_of_outside hidle rfl rfl (.inl rfl) rfl trivial
        · exact effect_of_outside hidle hidle rfl (.inl rfl) rfl (by rw [hphase]; trivial)
  | recvFd call i =>
    have hidle : s.phase.ring = .idle := by rw [hphase]; rfl
    rw [hphase] at hfit
    simp only [hphase] at hs
    split at hs
    · cases hs
      exact effect_of_outside hidle rfl rfl (.inr ⟨i, _, _, _, rfl⟩) rfl (by cases call <;> exact hfit)
    · split at hs
      · cases hs
        exact effect_of_outside hidle rfl rfl (.inl rfl) rfl trivial
      · cases hs
  | publishing pc =>
    have hring : s.phase.ring = pc := by rw [hphase]; rfl
    simp only [hphase] at hs
    split at hs
    · rename_i chan hstep
      cases hs
      exact effect_of_leave (.inr (hring ▸ hstep)) rfl (by rw [broadcastAt_ring]; exact .done rfl) rfl rfl
        (broadcastAt_fits ..)
    · rename_i chan hstep
      cases hs
      exact effect_of_leave (.inr (hring ▸ hstep)) rfl (.done rfl) rfl rfl trivial
    · rename_i chan pc' _ _ hstep
      cases hs
      exact effect_of_leave (.inr (hring ▸ hstep)) rfl .same rfl rfl trivial
    · cases hs
  | publishingMany rest count pc =>
    have hring : s.phase.ring = pc := by rw [hphase]; rfl
    simp only [hphase] at hs
    split at hs
    · rename_i chan hstep
      exact effect_of_nextItem (.inr (hring ▸ hstep)) rfl hs
    · rename_i chan hstep
      cases hs
      exact effect_of_finishMany (.inr (hring ▸ hstep)) rfl
    · rename_i chan pc' _ _ hstep
      cases hs
      exact effect_of_leave (.inr (hring ▸ hstep)) rfl .same rfl rfl trivial
    · cases hs
  | probe result i =>
    have hidle : s.phase.ring = .idle := by rw [hphase]; rfl
    simp only [hphase] at hs
    split at hs
    · split at hs
      · cases hs
        exact effect_of_outside hidle (broadcastAt_ring ..) rfl (.inr ⟨_, _, _, _, rfl⟩) rfl (broadcastAt_fits ..)
      · cases hs
        exact effect_of_outside hidle rfl rfl (.inl rfl) rfl trivial
    · cases hs
  | take result i =>
    have hidle : s.phase.ring = .idle := by rw [hphase]; rfl
    simp only [hphase] at hs
    split at hs
    · simp only [Option.some.injEq] at hs
      subst hs
      split
      · exact effect_of_outside hidle rfl rfl (.inl rfl) rfl trivial
      · exact effect_of_outside hidle (broadcastAt_ring ..) rfl (.inl rfl) rfl (broadcastAt_fits ..)
    · cases hs
  | fire result i =>
    have hidle : s.phase.ring = .idle := by rw [hphase]; rfl
    simp only [hphase] at hs
    split at hs
    · cases hs
      exact effect_of_outside hidle (broadcastAt_ring ..) rfl (.inr ⟨_, _, _, _, rfl⟩) rfl (broadcastAt_fits ..)
    · cases hs

/-- Every step is a subscriber's, or has the effect of a publisher's step. -/
theorem step_cases {a : Act} (hfit : s.phase.Fits s.chan.ring.slotSize) (hs : s.step a = some s') :
    (∃ i choice ring sub, a = .sub i choice ∧
      (s.subs i).step s.chan.ring s.listening choice = some (ring, sub) ∧
      s' = { s with
        chan := { s.chan with ring := ring }
        subs := Function.update s.subs i sub
        backlog := if (s.subs i).pc = .connectSock ∧ sub.pc = .sendFd then s.backlog ++ [i] else s.backlog }) ∨
    (∀ i choice, a ≠ .sub i choice) ∧ PublisherEffect s s' := by
  cases a with
  | sub i choice =>
    simp only [step] at hs
    split at hs
    · rename_i ring sub hsub
      cases hs
      exact .inl ⟨i, choice, ring, sub, rfl, hsub, rfl⟩
    · cases hs
  | begin call =>
    simp only [step] at hs
    split at hs
    · rename_i hphase
      cases hs
      have hidle : s.phase.ring = .idle := by rw [hphase]; rfl
      refine .inr ⟨fun _ _ => by simp, ?_⟩
      unfold beginCall
      split
      · split
        · exact effect_of_outside hidle rfl rfl (.inl rfl) rfl trivial
        · rename_i hle
          exact effect_of_outside hidle rfl rfl (.inl rfl) rfl (Nat.not_lt.1 hle)
      · rename_i hne
        refine effect_of_outside hidle rfl rfl (.inl rfl) rfl ?_
        cases call with
        | publish data => exact absurd rfl (hne data)
        | _ => trivial
    · cases hs
  | publisher => exact .inr ⟨fun _ _ => by simp, publisherStep_effect hfit hs⟩
  | timeout =>
    simp only [step] at hs
    split at hs
    · rename_i hphase
      split at hs
      · cases hs
        exact .inr ⟨fun _ _ => by simp, effect_of_outside (by rw [hphase]; rfl) rfl rfl (.inl rfl) rfl trivial⟩
      · cases hs
    · cases hs
  | drop =>
    simp only [step] at hs
    split at hs
    · rename_i hphase
      cases hs
      exact .inr ⟨fun _ _ => by simp, effect_of_outside (by rw [hphase]; rfl) rfl rfl (.inl rfl) rfl trivial⟩
    · cases hs
  | closeSock i =>
    simp only [step] at hs
    split at hs
    · rename_i hphase
      split at hs
      · cases hs
        refine .inr ⟨fun _ _ => by simp, effect_of_outside (by rw [hphase]; rfl)
          (by simp [setSub, hphase, Phase.ring]) rfl (.inr ⟨i, _, _, _, rfl⟩) rfl ?_⟩
        simp [setSub, hphase, Phase.Fits]
      · cases hs
    · cases hs

end Bus

/-! ### A subscriber and its entry -/

namespace Subscriber

/-- What the entry of the subscriber shows: the tail it read first, and its own position once that is published -/
def entry (s : Subscriber) : Nat :=
  match s.pc.stage with
  | .live => s.cursor
  | _ => s.tail

/-- What holds of a subscriber and the ring -/
structure Local (r : RingBuffer) (s : Subscriber) : Prop where
  tail_le : s.tail ≤ r.tail
  idx_lt : s.pc.stage.Holds = true → s.cursorIdx < r.maxSubs
  entry : s.pc.stage.Holds = true → r.cursors s.cursorIdx = s.entry
  cursor_le : s.cursor ≤ 2 ^ SEQ_WRITING
  start : s.startPos.InRange = true
  receiving : ∀ call pc, s.pc = .receiving call pc → pc.cursor = s.cursor ∧ pc.InRange

variable {s s' : Subscriber} {r r' : RingBuffer}

/-- A subscriber's entry does not look free. -/
theorem Local.claimed (h : s.Local r) (hlim : r.tail ≤ 2 ^ SEQ_WRITING) (hh : s.pc.stage.Holds = true) :
    r.cursors s.cursorIdx ≠ CURSOR_UNCLAIMED := by
  have hle : s.entry ≤ 2 ^ SEQ_WRITING := by
    unfold Subscriber.entry
    split
    · exact h.cursor_le
    · exact h.tail_le.trans hlim
  rw [h.entry hh]
  exact (hle.trans_lt (by decide)).ne

/-- Only the tail and the subscriber's own entry matter. -/
theorem Local.of_ring (h : s.Local r) (htail : r.tail ≤ r'.tail) (hmax : r'.maxSubs = r.maxSubs)
    (hentry : s.pc.stage.Holds = true → r'.cursors s.cursorIdx = r.cursors s.cursorIdx) : s.Local r' where
  tail_le := h.tail_le.trans htail
  idx_lt hh := hmax ▸ h.idx_lt hh
  entry hh := (hentry hh).trans (h.entry hh)
  cursor_le := h.cursor_le
  start := h.start
  receiving := h.receiving

theorem startCursor_le {capacity tail c : Nat} {start : StartPos} (hlim : tail ≤ 2 ^ SEQ_WRITING)
    (hrange : start.InRange = true) (hc : startCursor capacity tail start = some c) : c ≤ 2 ^ SEQ_WRITING := by
  cases start with
  | now =>
    cases hc
    exact hlim
  | historyBack n =>
    cases hc
    omega
  | explicit p =>
    simp only [startCursor] at hc
    split at hc
    · cases hc
      simp only [StartPos.InRange, decide_eq_true_eq] at hrange
      omega
    · cases hc

/-- A subscriber's own step -/
theorem Local.step {listening : Bool} {choice : Choice} (h : s.Local r) (hlim : r.tail ≤ 2 ^ SEQ_WRITING)
    (hseq : ∀ j, (r.slots j).seq < 2 ^ 64) (hs : s.step r listening choice = some (r', s')) : s'.Local r' := by
  have hrec : ∀ call pc, s'.pc = .receiving call pc → pc.cursor = s'.cursor ∧ pc.InRange := by
    intro call pc hpc
    rcases receiving_step hs hpc with rfl | ⟨pc₀, hpc₀, hstep, heq, -⟩ | ⟨hpc₀, -, heq⟩
    · exact ⟨rfl, trivial⟩
    · obtain ⟨hcur, hrange⟩ := h.receiving call pc₀ hpc₀
      exact ⟨(ReceivePc.cursor_step hstep).trans (by rw [hcur, heq]), ReceivePc.inRange_step hrange hlim hseq hstep⟩
    · rw [heq]
      exact h.receiving call pc hpc₀
  have heff := step_effect hs
  cases heff with
  | keep stage start own =>
    refine ⟨h.tail_le, fun hh => h.idx_lt (stage ▸ hh), fun hh => ?_,
      h.cursor_le, ?_, hrec⟩
    · refine (h.entry (stage ▸ hh)).trans ?_
      simp only [Subscriber.entry, stage]
    · rcases start with rfl | ⟨-, hrange⟩
      · exact h.start
      · exact hrange
  | readTail _ stage' =>
    exact ⟨le_rfl, fun hh => absurd hh (by simp [stage', Stage.Holds]),
      fun hh => absurd hh (by simp [stage', Stage.Holds]), h.cursor_le, h.start, hrec⟩
  | giveUp _ stage' =>
    exact ⟨h.tail_le, fun hh => absurd hh (by simp [stage', Stage.Holds]),
      fun hh => absurd hh (by simp [stage', Stage.Holds]), h.cursor_le, h.start, hrec⟩
  | claim stage stage' lt =>
    refine ⟨h.tail_le, fun _ => lt, fun _ => ?_, h.cursor_le, h.start,
      hrec⟩
    simp [setCursor_cursors, Subscriber.entry, stage']
  | position stage stage' hc =>
    refine ⟨h.tail_le, fun _ => h.idx_lt (by rw [stage]; rfl),
      fun _ => ?_, startCursor_le hlim h.start hc, h.start, hrec⟩
    refine (h.entry (by rw [stage]; rfl)).trans ?_
    simp [Subscriber.entry, stage, stage']
  | publish stage stage' =>
    refine ⟨h.tail_le, fun _ => h.idx_lt (by rw [stage]; rfl), fun _ => ?_, h.cursor_le, h.start,
      hrec⟩
    simp [setCursor_cursors, Subscriber.entry, stage']
  | deliver at_store stage' =>
    refine ⟨h.tail_le, fun _ => h.idx_lt (by rw [at_store]; rfl), fun _ => ?_,
      (h.receiving _ _ at_store).2, h.start, hrec⟩
    simp [setCursor_cursors, Subscriber.entry, stage']
  | release _ stage' =>
    exact ⟨h.tail_le, fun hh => absurd hh (by simp [stage', Stage.Holds]),
      fun hh => absurd hh (by simp [stage', Stage.Holds]), h.cursor_le, h.start, hrec⟩

end Subscriber

/-! ### The invariant of the bus -/

/-- A ring as `Publisher::create` hands it to a new generation: its tail is 0, and its slots and its tables hold
anything. -/
structure RingBuffer.Started (r : RingBuffer) : Prop where
  cap_pos : 0 < r.cap
  tail : r.tail = 0
  seq_lt : ∀ j, (r.slots j).seq < 2 ^ 64

theorem RingBuffer.started_createOrReuse {existing : Option RingBuffer}
    (h : ∀ r, existing = some r → ∀ j, (r.slots j).seq < 2 ^ 64) {capacity slotPayloadSize maxSubscribers : UInt32}
    (hcap : 0 < capacity) : (createOrReuse existing capacity slotPayloadSize maxSubscribers).Started := by
  have hfresh : (create capacity slotPayloadSize maxSubscribers).Started :=
    ⟨UInt32.lt_iff_toNat_lt.1 hcap, rfl, fun _ => Nat.two_pow_pos 64⟩
  cases existing with
  | none => exact hfresh
  | some r =>
    simp only [createOrReuse]
    split
    · rename_i hshape
      obtain ⟨rfl, -, -⟩ := hshape
      exact ⟨UInt32.lt_iff_toNat_lt.1 hcap, rfl, h r rfl⟩
    · exact hfresh

namespace Bus

structure Inv (s : Bus) : Prop where
  publish : PublishInv 0 s.chan s.phase.ring
  fits : s.phase.Fits s.chan.ring.slotSize
  seq_lt : ∀ j, (s.chan.ring.slots j).seq < 2 ^ 64
  sub : ∀ i, (s.subs i).Local s.chan.ring
  distinct : ∀ i k, i ≠ k → (s.subs i).pc.stage.Holds = true → (s.subs k).pc.stage.Holds = true →
    (s.subs i).cursorIdx ≠ (s.subs k).cursorIdx

theorem Inv.init {r : RingBuffer} {backpressure : BackpressurePolicy} (h : r.Started) :
    (Bus.init r backpressure).Inv where
  publish := .fresh h.cap_pos h.tail rfl
  fits := trivial
  seq_lt := h.seq_lt
  sub i := ⟨Nat.zero_le _, fun h => (Bool.false_ne_true h).elim, fun h => (Bool.false_ne_true h).elim,
    Nat.zero_le _, rfl, fun _ _ h => by cases h⟩
  distinct i k _ h := (Bool.false_ne_true h).elim

theorem publishInv_restart {base : Nat} {policy : BackpressurePolicy} {c : Channel} {pc pc' : PublishPc}
    (h : PublishInv base c pc) (hr : Restart policy c pc pc') : PublishInv base c pc' := by
  cases hr with
  | same => exact h
  | done free => exact h.finish free
  | next free fits room => exact h.begin free fits room

variable {s s' : Bus}

/-- What the other parties see of a step of the publisher -/
theorem Inv.publisher_ring (h : s.Inv) (he : PublisherEffect s s') :
    s'.chan.ring.cap = s.chan.ring.cap ∧ s'.chan.ring.slotSize = s.chan.ring.slotSize ∧
      s'.chan.ring.maxSubs = s.chan.ring.maxSubs ∧ s'.chan.ring.cursors = s.chan.ring.cursors ∧
      s'.chan.ring.generation = s.chan.ring.generation ∧ s.chan.ring.tail ≤ s'.chan.ring.tail := by
  obtain ⟨chan, pc, flags, hstep, hchan, -⟩ := he.chan
  rw [hchan]
  rcases hstep with ⟨rfl, rfl⟩ | hstep
  · exact ⟨rfl, rfl, rfl, rfl, rfl, le_rfl⟩
  · obtain ⟨hcap, hslot, hmax, hcur, -, hgen⟩ := PublishPc.frame_step hstep
    have htail := h.publish.tail_le_step hstep
    exact ⟨hcap, hslot, hmax, hcur, hgen, htail⟩

theorem Inv.publisher (h : s.Inv) (he : PublisherEffect s s') : s'.Inv := by
  obtain ⟨-, hslot, hmax, hcur, -, htail⟩ := h.publisher_ring he
  refine ⟨?_, hslot ▸ he.fits, ?_, fun i => ?_, fun i k hik hi hk => ?_⟩
  · obtain ⟨chan, pc, flags, hstep, hchan, hrestart⟩ := he.chan
    rw [hchan]
    rcases hstep with ⟨rfl, rfl⟩ | hstep
    · exact (publishInv_restart h.publish hrestart).tables _ _
    · exact (publishInv_restart (h.publish.step hstep) hrestart).tables _ _
  · obtain ⟨chan, pc, flags, hstep, hchan, -⟩ := he.chan
    rw [hchan]
    rcases hstep with ⟨rfl, rfl⟩ | hstep
    · exact h.seq_lt
    · have hseq := h.publish.seq_lt_step h.seq_lt hstep
      exact hseq
  · have hl := (h.sub i).of_ring htail hmax fun _ => by rw [hcur]
    obtain ⟨efd, hup, acceptedAt, heq⟩ := he.subs i
    rw [heq]
    exact ⟨hl.tail_le, hl.idx_lt, hl.entry, hl.cursor_le, hl.start, hl.receiving⟩
  · obtain ⟨hpc, -, -, hidx, -⟩ := he.fields i
    obtain ⟨hpc', -, -, hidx', -⟩ := he.fields k
    rw [hpc] at hi
    rw [hpc'] at hk
    rw [hidx, hidx']
    exact h.distinct i k hik hi hk

/-- A subscriber's step writes no other subscriber's entry. -/
theorem Inv.others_entry (h : s.Inv) {i k : Nat} (hik : k ≠ i) {ring : RingBuffer} {sub : Subscriber}
    (he : Effect s.chan.ring (s.subs i) ring sub) (hk : (s.subs k).pc.stage.Holds = true) :
    ring.cursors (s.subs k).cursorIdx = s.chan.ring.cursors (s.subs k).cursorIdx := by
  obtain ⟨cursors, flags, rfl, hcur, -⟩ := he.frame
  by_contra hne
  rcases hcur _ hne with ⟨hi, heq⟩ | ⟨-, -, hfree⟩
  · exact h.distinct k i hik hk hi heq
  · exact (h.sub k).claimed h.publish.tail_le hk hfree

theorem Inv.subscriber (h : s.Inv) {i : Nat} {choice : Choice} {ring : RingBuffer} {sub : Subscriber}
    {backlog : List Nat} (hs : (s.subs i).step s.chan.ring s.listening choice = some (ring, sub)) :
    Inv { s with
      chan := { s.chan with ring := ring }
      subs := Function.update s.subs i sub
      backlog := backlog } := by
  have he := Subscriber.step_effect hs
  obtain ⟨cursors, flags, hring, -, -⟩ := he.frame
  refine ⟨hring ▸ h.publish.tables _ _, hring ▸ h.fits, hring ▸ h.seq_lt, fun k => ?_, fun k l hkl hk hl => ?_⟩
  · show (Function.update s.subs i sub k).Local ring
    by_cases hki : k = i
    · subst hki
      rw [Function.update_self]
      exact (h.sub k).step h.publish.tail_le h.seq_lt hs
    · rw [Function.update_of_ne hki]
      exact (h.sub k).of_ring (hring ▸ le_rfl) (hring ▸ rfl) (h.others_entry hki he)
  · -- the moving subscriber keeps its entry, or takes one that looked free to everybody
    have moved : ∀ k, k ≠ i → sub.pc.stage.Holds = true → (s.subs k).pc.stage.Holds = true →
        (s.subs k).cursorIdx ≠ sub.cursorIdx := by
      intro k hki hi hk heq
      rcases he.holds hi with ⟨hi₀, hidx⟩ | ⟨-, hfree⟩
      · exact h.distinct k i hki hk hi₀ (heq.trans hidx)
      · exact (h.sub k).claimed h.publish.tail_le hk (heq ▸ hfree)
    simp only at hk hl ⊢
    by_cases hki : k = i
    · subst hki
      rw [Function.update_of_ne (Ne.symm hkl)] at hl ⊢
      rw [Function.update_self] at hk ⊢
      exact (moved l (Ne.symm hkl) hk hl).symm
    · rw [Function.update_of_ne hki] at hk ⊢
      by_cases hli : l = i
      · subst hli
        rw [Function.update_self] at hl ⊢
        exact moved k hki hl hk
      · rw [Function.update_of_ne hli] at hl ⊢
        exact h.distinct k l hkl hk hl

theorem Inv.step {a : Act} (h : s.Inv) (hs : s.step a = some s') : s'.Inv := by
  rcases step_cases h.fits hs with ⟨i, choice, ring, sub, rfl, hsub, rfl⟩ | ⟨-, he⟩
  · exact h.subscriber hsub
  · exact h.publisher he

end Bus

end Mmbus
