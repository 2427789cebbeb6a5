import Mmbus.Delivery
import Mmbus.Connections

/-!
# Faults of a connection inside a publish

The publisher of `Bus` with what can go wrong on its own side: the listener may fail, and a log may be full or refuse a
record.  `tolerates_iff`: a call ends with an error that is not one of these, and leaves connections waiting behind a
faulty one, exactly when it comes to a connection whose peer has closed it before sending its eventfd.
-/

namespace Mmbus

open Transition

/-- A reason of the publisher's own to end a call with an error, besides those in `CallResult` -/
inductive OwnFault
  | listener
  | wal
  deriving DecidableEq

structure FaultyBus where
  bus : Bus
  /-- The publisher has a log. -/
  logging : Bool
  /-- The fault of its own that the last call of the publisher has met -/
  fault : Option OwnFault

namespace FaultyBus

/-- A step of the bus, the failure of `accept`, and what the log adds before the ring's publish: the check of
`is_full`, whatever it has found, and an append that fails. -/
inductive Act
  | bus (a : Mmbus.Act)
  | acceptFails
  | isFull
  | appendFails

variable (s : FaultyBus)

/-- The call ends before the ring's publish has looked at anything: `publish` returns, `publish_many` wakes the
subscribers of what it has published first. -/
def endBeforeRing (single : CallResult) (many : Nat → CallResult) : Option Bus :=
  match s.bus.phase with
  | .publishing (.loadTail _ _) => some (s.bus.setPhase (.idle single))
  | .publishingMany _ count (.loadTail _ _) => some (s.bus.finishMany (many count) count)
  | _ => none

def step : Act → Option FaultyBus
  | .bus a =>
    (s.bus.step a).map fun bus =>
      { s with bus := bus, fault := match a with
        | .begin _ => none
        | _ => s.fault }
  | .acceptFails =>
    match s.bus.phase with
    | .accept _ => some { s with bus := s.bus.setPhase (.idle .io), fault := some .listener }
    | _ => none
  | .isFull =>
    if s.logging ∧ s.bus.backpressure = .error then
      (s.endBeforeRing .full .count).map fun bus => { s with bus := bus }
    else none
  | .appendFails =>
    if s.logging then
      (s.endBeforeRing .io fun _ => .io).map fun bus => { s with bus := bus, fault := some .wal }
    else none

/-- The publisher has just been created on the ring `r`. -/
def init (r : RingBuffer) (backpressure : BackpressurePolicy) (logging : Bool) : FaultyBus :=
  ⟨.init r backpressure, logging, none⟩

end FaultyBus

/-- How the call of the publisher ends, or has ended -/
def Phase.outcome : Phase → Option CallResult
  | idle result | probe result _ | take result _ | fire result _ => some result
  | _ => none

/-- The call is inside `accept_clients`. -/
def Phase.Accepting : Phase → Bool
  | accept _ | recvFd _ _ => true
  | _ => false

namespace Bus

variable {s s' : Bus}

@[simp] theorem broadcastAt_outcome (result : CallResult) (i : Nat) :
    (s.broadcastAt result i).phase.outcome = some result := by
  unfold broadcastAt setPhase
  dsimp only
  split <;> rfl

@[simp] theorem broadcastAt_accepting (result : CallResult) (i : Nat) :
    (s.broadcastAt result i).phase.Accepting = false := by
  unfold broadcastAt setPhase
  dsimp only
  split <;> rfl

@[simp] theorem finishMany_outcome (result : CallResult) (count : Nat) :
    (s.finishMany result count).phase.outcome = some result := by
  unfold finishMany
  split
  · exact broadcastAt_outcome ..
  · rfl

@[simp] theorem finishMany_accepting (result : CallResult) (count : Nat) :
    (s.finishMany result count).phase.Accepting = false := by
  unfold finishMany
  split
  · exact broadcastAt_accepting ..
  · rfl

theorem nextItem_outcome {count : Nat} {items : List Bytes} (hs : s.nextItem count items = some s') :
    s'.phase.outcome ≠ some .io ∧ s'.phase.Accepting = false := by
  cases items with
  | nil =>
    cases hs
    simp
  | cons data rest =>
    simp only [nextItem] at hs
    split at hs
    · cases hs
      simp
    · split at hs
      · cases hs
        exact ⟨by simp [setPhase, Phase.outcome], rfl⟩
      · cases hs

/-- `accept_clients` has come to a connection whose peer has closed it before sending its eventfd. -/
def MeetsClosed (s : Bus) : Prop := ∃ call i, s.phase = .recvFd call i ∧ s.closedUnsent i = true

/-- The effect of a step on the call of the publisher: outside `accept_clients`, none at all, on to the next
connection, from a connection to a client, and out of `accept_clients` in one of two ways -/
inductive CallEffect (s s' : Bus) : Act → Prop
  | outside {a} (accepting : s.phase.Accepting = false) (accepting' : s'.phase.Accepting = false)
      (outcome : s'.phase.outcome = some .io → s.phase.outcome = some .io) : CallEffect s s' a
  | stay {a} (phase : s'.phase = s.phase) : CallEffect s s' a
  | next {a} (accepting : s.phase.Accepting = true) (conn : s.phase.conn = [])
      (accepting' : s'.phase.Accepting = true) : CallEffect s s' a
  | join {a i} (accepting : s.phase.Accepting = true) (conn : s.phase.conn = [i])
      (accepting' : s'.phase.Accepting = true) (client : ∃ c ∈ s'.clients, c.sub = i) : CallEffect s s' a
  | leave {a} (accepting : s.phase.Accepting = true) (conn : s.phase.conn = []) (backlog : s.backlog = [])
      (accepting' : s'.phase.Accepting = false) (outcome : s'.phase.outcome ≠ some .io) : CallEffect s s' a
  | closed (meets : s.MeetsClosed) (phase' : s'.phase = .idle .io) : CallEffect s s' .publisher

theorem outcome_of_accepting {phase : Phase} (h : phase.Accepting = true) : phase.outcome = none := by
  cases phase <;> first | rfl | cases h

theorem publisherStep_call (hs : s.publisherStep = some s') : CallEffect s s' .publisher := by
  unfold publisherStep at hs
  cases hphase : s.phase with
  | idle | dropped => simp [hphase] at hs
  | accept call =>
    have hacc : s.phase.Accepting = true := by rw [hphase]; rfl
    have hconn : s.phase.conn = [] := by rw [hphase]; rfl
    simp only [hphase] at hs
    split at hs
    · cases hs
      exact .next hacc hconn rfl
    · rename_i hback
      cases call with
      | publish data =>
        simp only [afterAccept] at hs
        split at hs
        · cases hs
          exact .leave hacc hconn hback rfl (by simp [setPhase, Phase.outcome])
        · cases hs
      | publishMany items =>
        obtain ⟨hout, hleft⟩ := nextItem_outcome hs
        exact .leave hacc hconn hback hleft hout
      | waitForSubscribers minCount =>
        simp only [afterAccept, Option.some.injEq] at hs
        subst hs
        split
        · exact .leave hacc hconn hback rfl (by simp [setPhase, Phase.outcome])
        · exact .stay rfl
  | recvFd call i =>
    have hacc : s.phase.Accepting = true := by rw [hphase]; rfl
    have hconn : s.phase.conn = [i] := by rw [hphase]; rfl
    simp only [hphase] at hs
    split at hs
    · cases hs
      exact .join hacc hconn rfl ⟨⟨(s.subs i).cursorIdx, i⟩, by simp, rfl⟩
    · split at hs
      · rename_i hclosed
        cases hs
        exact .closed ⟨call, i, hphase, hclosed⟩ rfl
      · cases hs
  | publishing pc =>
    have hout : s.phase.Accepting = false := by rw [hphase]; rfl
    simp only [hphase] at hs
    split at hs
    · cases hs
      exact .outside hout (by simp) (by simp)
    · cases hs
      exact .outside hout rfl (by simp [setPhase, Phase.outcome])
    · cases hs
      exact .outside hout rfl (by simp [setPhase, Phase.outcome])
    · cases hs
  | publishingMany rest count pc =>
    have hout : s.phase.Accepting = false := by rw [hphase]; rfl
    simp only [hphase] at hs
    split at hs
    · obtain ⟨hne, hleft⟩ := nextItem_outcome hs
      exact .outside hout hleft fun h => absurd h hne
    · cases hs
      exact .outside hout (by simp) (by simp)
    · cases hs
      exact .outside hout rfl (by simp [setPhase, Phase.outcome])
    · cases hs
  | probe result k =>
    have hout : s.phase.Accepting = false := by rw [hphase]; rfl
    simp only [hphase] at hs
    split at hs
    · split at hs <;> cases hs
      · exact .outside hout (by simp) (by rw [broadcastAt_outcome, hphase]; exact id)
      · exact .outside hout rfl (by rw [hphase]; exact id)
    · cases hs
  | take result k =>
    have hout : s.phase.Accepting = false := by rw [hphase]; rfl
    simp only [hphase] at hs
    split at hs
    · simp only [Option.some.injEq] at hs
      subst hs
      split
      · exact .outside hout rfl (by rw [hphase]; exact id)
      · exact .outside hout (by simp) (by rw [broadcastAt_outcome, hphase]; exact id)
    · cases hs
  | fire result k =>
    have hout : s.phase.Accepting = false := by rw [hphase]; rfl
    simp only [hphase] at hs
    split at hs
    · cases hs
      exact .outside hout (by simp) (by rw [broadcastAt_outcome, hphase]; exact id)
    · cases hs

theorem conn_of_not_accepting {phase : Phase} (h : phase.Accepting = false) : phase.conn = [] := by
  cases phase <;> first | rfl | cases h

theorem step_call {a : Act} (ha : ∀ call, a ≠ .begin call) (hs : s.step a = some s') : CallEffect s s' a := by
  cases a with
  | sub i choice =>
    simp only [step] at hs
    split at hs
    · cases hs
      exact .stay rfl
    · cases hs
  | begin call => exact absurd rfl (ha call)
  | publisher => exact publisherStep_call hs
  | timeout =>
    simp only [step] at hs
    split at hs
    · rename_i hphase
      split at hs
      · rename_i hback
        cases hs
        exact .leave (by rw [hphase]; rfl) (by rw [hphase]; rfl) hback.1 rfl (by simp [setPhase, Phase.outcome])
      · cases hs
    · cases hs
  | drop =>
    simp only [step] at hs
    split at hs
    · rename_i hphase
      cases hs
      exact .outside (by rw [hphase]; rfl) rfl (by simp [setPhase, Phase.outcome])
    · cases hs
  | closeSock i =>
    simp only [step] at hs
    split at hs
    · split at hs
      · cases hs
        exact .stay rfl
      · cases hs
    · cases hs

end Bus

namespace FaultyBus

/-- What a step must not do to the subscribers' connections: an error has a reason of the publisher's own, a connection
that has been accepted becomes a client, and `accept_clients` goes on until no connection waits. -/
structure Tolerates (s s' : FaultyBus) : Prop where
  reason : s'.bus.phase = .idle .io → s'.fault ≠ none
  promoted : ∀ i ∈ s.bus.phase.conn, i ∈ s'.bus.phase.conn ∨ ∃ c ∈ s'.bus.clients, c.sub = i
  drained : s.bus.phase.Accepting = true → s'.bus.phase.Accepting = false → s'.fault = none → s.bus.backlog = []

/-- The step does not come to a connection closed before its eventfd was sent. -/
def HandleArrives (s : FaultyBus) : Act → Prop
  | .bus .publisher => ¬s.bus.MeetsClosed
  | _ => True

/-- An error that is on its way has its reason, and there is none while connections are accepted. -/
structure Attributed (s : FaultyBus) : Prop where
  reason : s.bus.phase.outcome = some .io → s.fault ≠ none
  accepting : s.bus.phase.Accepting = true → s.fault = none

variable {s s' : FaultyBus}

theorem Attributed.init {r : RingBuffer} {backpressure : BackpressurePolicy} {logging : Bool} :
    (FaultyBus.init r backpressure logging).Attributed :=
  ⟨nofun, nofun⟩

/-- A call that ends before the ring's publish was not accepting connections. -/
theorem endBeforeRing_outcome {single : CallResult} {many : Nat → CallResult} {bus : Bus}
    (hs : s.endBeforeRing single many = some bus) : s.bus.phase.Accepting = false ∧ s.bus.phase.conn = [] ∧
      bus.phase.Accepting = false ∧ (bus.phase.outcome = some single ∨ ∃ n, bus.phase.outcome = some (many n)) := by
  unfold endBeforeRing at hs
  split at hs
  · rename_i hphase
    cases hs
    exact ⟨by rw [hphase]; rfl, by rw [hphase]; rfl, rfl, .inl rfl⟩
  · rename_i count _ _ hphase
    cases hs
    exact ⟨by rw [hphase]; rfl, by rw [hphase]; rfl, by simp, .inr ⟨count, by simp⟩⟩
  · cases hs

/-- A call is begun. -/
theorem Attributed.begin {call : PublisherCall} {bus : Bus} (hs : s.bus.step (.begin call) = some bus) :
    Attributed { s with bus := bus, fault := none } ∧ s.Tolerates { s with bus := bus, fault := none } := by
  simp only [Bus.step] at hs
  split at hs
  · rename_i hphase
    cases hs
    have hout : (s.bus.beginCall call).phase.outcome ≠ some .io := by
      unfold Bus.beginCall
      split
      · split <;> simp [Bus.setPhase, Phase.outcome]
      · simp [Bus.setPhase, Phase.outcome]
    refine ⟨⟨fun h => absurd h hout, fun _ => rfl⟩, fun h => absurd (by rw [h]; rfl) hout, ?_, ?_⟩
    · rw [hphase]
      rintro k ⟨⟩
    · rw [hphase]
      rintro ⟨⟩
  · cases hs

/-- A step of the bus on the way -/
theorem Attributed.bus {a : Mmbus.Act} {bus : Bus} (h : s.Attributed) (ha : ∀ call, a ≠ .begin call)
    (hmeets : a = .publisher → ¬s.bus.MeetsClosed) (hs : s.bus.step a = some bus) :
    Attributed { s with bus := bus } ∧ s.Tolerates { s with bus := bus } := by
  have idle : ∀ {phase : Phase}, phase = .idle .io → phase.outcome = some .io := by
    rintro phase rfl
    rfl
  cases Bus.step_call ha hs with
  | outside hacc hacc' hout =>
    refine ⟨⟨fun ho => h.reason (hout ho), fun hin => ?_⟩, fun hidle => h.reason (hout (idle hidle)), ?_, ?_⟩
    · simp [hacc'] at hin
    · simp [Bus.conn_of_not_accepting hacc]
    · simp [hacc]
  | stay hphase =>
    refine ⟨⟨fun ho => h.reason (hphase ▸ ho), fun hin => h.accepting (hphase ▸ hin)⟩,
      fun hidle => h.reason (hphase ▸ idle hidle), fun i hi => .inl (hphase ▸ hi), fun hin hout => ?_⟩
    simp [hphase, hin] at hout
  | next hacc hconn hacc' =>
    have hnone := Bus.outcome_of_accepting hacc'
    refine ⟨⟨fun ho => ?_, fun _ => h.accepting hacc⟩, fun hidle => ?_, ?_, fun _ hout => ?_⟩
    · simp [hnone] at ho
    · simp [idle hidle] at hnone
    · simp [hconn]
    · simp [hacc'] at hout
  | join hacc hconn hacc' hclient =>
    have hnone := Bus.outcome_of_accepting hacc'
    refine ⟨⟨fun ho => ?_, fun _ => h.accepting hacc⟩, fun hidle => ?_, fun i hi => .inr ?_, fun _ hout => ?_⟩
    · simp [hnone] at ho
    · simp [idle hidle] at hnone
    · obtain rfl : i = _ := by simpa [hconn] using hi
      exact hclient
    · simp [hacc'] at hout
  | leave hacc hconn hback hacc' hout =>
    refine ⟨⟨fun ho => absurd ho hout, fun hin => ?_⟩, fun hidle => absurd (idle hidle) hout, ?_, fun _ _ _ => hback⟩
    · simp [hacc'] at hin
    · simp [hconn]
  | closed hclosed => exact absurd hclosed (hmeets rfl)

/-- The log ends the call. -/
theorem Attributed.log {single : CallResult} {many : Nat → CallResult} {bus : Bus} {fault : Option OwnFault}
    (hs : s.endBeforeRing single many = some bus)
    (hreason : single = .io ∨ (∃ n, many n = .io) → fault ≠ none) :
    Attributed { s with bus := bus, fault := fault } ∧ s.Tolerates { s with bus := bus, fault := fault } := by
  obtain ⟨hacc, hconn, hacc', hout⟩ := endBeforeRing_outcome hs
  have hio : bus.phase.outcome = some .io → fault ≠ none := by
    intro ho
    rcases hout with heq | ⟨n, heq⟩
    · exact hreason (.inl (by simpa [ho] using heq.symm))
    · exact hreason (.inr ⟨n, by simpa [ho] using heq.symm⟩)
  refine ⟨⟨hio, fun hin => ?_⟩, fun hidle => hio (by rw [hidle]; rfl), ?_, ?_⟩
  · simp [hacc'] at hin
  · simp [hconn]
  · simp [hacc]

/-- A step that does not come to a closed connection keeps every error attributed and tolerates faults. -/
theorem Attributed.step {a : Act} (h : s.Attributed) (ha : s.HandleArrives a) (hs : s.step a = some s') :
    s'.Attributed ∧ s.Tolerates s' := by
  cases a with
  | bus a =>
    obtain ⟨bus, hbus, rfl⟩ := Option.map_eq_some_iff.1 hs
    cases a with
    | begin call => exact begin hbus
    | publisher => exact h.bus (by simp) (fun _ => ha) hbus
    | _ => exact h.bus (by simp) (by simp) hbus
  | acceptFails =>
    simp only [FaultyBus.step] at hs
    split at hs
    · rename_i hphase
      cases hs
      refine ⟨⟨nofun, nofun⟩, nofun, ?_, nofun⟩
      rw [hphase]
      nofun
    · cases hs
  | isFull =>
    simp only [FaultyBus.step] at hs
    split at hs
    · obtain ⟨bus, hbus, rfl⟩ := Option.map_eq_some_iff.1 hs
      exact log hbus (by simp)
    · cases hs
  | appendFails =>
    simp only [FaultyBus.step] at hs
    split at hs
    · obtain ⟨bus, hbus, rfl⟩ := Option.map_eq_some_iff.1 hs
      exact log hbus fun _ => nofun
    · cases hs

/-- The step that comes to a closed connection reports it as the call's own error. -/
theorem step_of_meetsClosed (hmeets : s.bus.MeetsClosed) :
    s.step (.bus .publisher) = some { s with bus := s.bus.setPhase (.idle .io) } := by
  obtain ⟨call, i, hphase, hclosed⟩ := hmeets
  have hunsent : (s.bus.subs i).sent = false := by
    simp only [Bus.closedUnsent, Bool.and_eq_true] at hclosed
    simpa using hclosed.1
  have hstep : s.bus.step .publisher = some (s.bus.setPhase (.idle .io)) := by
    simp [Bus.step, Bus.publisherStep, hphase, hunsent, hclosed]
  simp only [FaultyBus.step, hstep, Option.map_some]

theorem handleArrives_of_tolerates {a : Act} (h : s.Attributed) (ht : ∀ s', s.step a = some s' → s.Tolerates s') :
    s.HandleArrives a := by
  unfold HandleArrives
  split
  · intro hmeets
    have hfault : s.fault = none := by
      obtain ⟨call, i, hphase, -⟩ := hmeets
      exact h.accepting (by rw [hphase]; rfl)
    exact (ht _ (step_of_meetsClosed hmeets)).reason rfl hfault
  · trivial

/-- In every run, whatever the listener and the log do, no step is affected by a fault of a subscriber if and only if
none comes to a connection that was closed before its eventfd was sent. -/
theorem tolerates_iff {r : RingBuffer} {backpressure : BackpressurePolicy} {logging : Bool} {acts : List Act} :
    Meets step (fun s a => ∀ s', s.step a = some s' → s.Tolerates s') (init r backpressure logging) acts ↔
      Meets step HandleArrives (init r backpressure logging) acts := by
  have hall : ∀ s : FaultyBus, s.Attributed →
      (Meets step (fun s a => ∀ s', s.step a = some s' → s.Tolerates s') s acts ↔ Meets step HandleArrives s acts) := by
    induction acts with
    | nil => exact fun _ _ => Iff.rfl
    | cons a acts ih =>
      intro s h
      constructor
      · intro ⟨ht, hrest⟩
        have ha := handleArrives_of_tolerates h ht
        exact ⟨ha, fun s' hs => (ih s' (h.step ha hs).1).1 (hrest s' hs)⟩
      · intro ⟨ha, hrest⟩
        exact ⟨fun s' hs => (h.step ha hs).2, fun s' hs => (ih s' (h.step ha hs).1).2 (hrest s' hs)⟩
  exact hall _ Attributed.init

/-- A subscriber dies between its connection and the hand-over of its eventfd, another one connects; then a message is
to be published. -/
def diesBeforeHandover : List Act :=
  let acts : List Mmbus.Act := .sub 0 (.connect .now) :: List.replicate 4 (.sub 0 .go) ++
    .sub 0 .kill :: Bus.connectActs 1 ++ [.sub 1 .go, .begin (.publish [7]), .publisher]
  acts.map .bus

/-- The publish fails, and the healthy connection still waits. -/
theorem tolerates_fails : ∃ s, run step (init (.create 2 4 2) .error false)
      (diesBeforeHandover ++ [.bus .publisher]) = some s ∧
    s.bus.phase = .idle .io ∧ s.fault = none ∧ s.bus.backlog = [1] ∧ (s.bus.subs 1).sent = true ∧
    ¬Meets step (fun s a => ∀ s', s.step a = some s' → s.Tolerates s') (init (.create 2 4 2) .error false)
      (diesBeforeHandover ++ [.bus .publisher]) := by
  obtain ⟨s, hrun, hs⟩ := Option.map_eq_some_iff.1
    (show (run step (init (.create 2 4 2) .error false) diesBeforeHandover).map
        (fun s => (s.bus.phase.conn, s.fault, s.bus.backlog, (s.bus.subs 1).sent, s.bus.closedUnsent 0)) =
      some ([0], none, [1], true, true) by decide)
  simp only [Prod.mk.injEq] at hs
  obtain ⟨hconn, hfault, hback, hsent, hclosed⟩ := hs
  have hmeets : s.bus.MeetsClosed := by
    cases hphase : s.bus.phase with
    | recvFd call i =>
      obtain rfl : i = 0 := by simpa [hphase, Phase.conn] using hconn
      exact ⟨call, 0, hphase, hclosed⟩
    | _ => simp [hphase, Phase.conn] at hconn
  have hstep := step_of_meetsClosed hmeets
  refine ⟨_, run_append.2 ⟨s, hrun, run_cons.2 ⟨_, hstep, rfl⟩⟩, rfl, hfault, hback, hsent, fun hall => ?_⟩
  exact ((hall.append_right hrun).1 _ hstep).reason rfl hfault

end FaultyBus

end Mmbus
