import Mmbus.BridgeMesh
import Mmbus.Lib.Transition
import Mathlib.Algebra.GroupWithZero.Nat
import Mathlib.Data.List.Induction

/-!
# The queue of a peer

The bounded queue between the topic threads and the forwarder of a peer: `Sender::send`, `Receiver::recv_timeout`, and
the handles, which share an `Arc`.  A step is one region of the lock, one read of the strong count, or one change of it.

While the receiver lives the queue keeps the newest items and counts all others (`queue_accounts`).  It is closed by the
drop of a sender that finds no other handle but the receiver's: the last two drops can miss each other, and then it stays
open (`closed_with_last_sender`).
-/

namespace Mmbus.Bridge.Queue

open Transition

variable {T : Type}

structure Inner (T : Type) where
  queue : List T
  closed : Bool

/-- `Sender::send` under the lock, with the number of dropped items that it returns -/
def Inner.send (inner : Inner T) (capacity : Nat) (item : T) : Inner T × Nat :=
  if inner.closed then (inner, 0)
  else ({ inner with queue := Bridge.send capacity inner.queue item }, if capacity ≤ inner.queue.length then 1 else 0)

/-- A round of the loop of `recv_timeout` under the lock, with what it returns, or `none` when it waits.  `expired` says
whether the deadline has passed. -/
def Inner.recvRound (inner : Inner T) (expired : Bool) : Inner T × Option (Option T) :=
  match inner.queue with
  | item :: queue => ({ inner with queue := queue }, some (some item))
  | [] => (inner, if inner.closed ∨ expired then some none else none)

/-- `recv_timeout` after `wait_timeout` -/
def Inner.recvWoken (inner : Inner T) (timedOut expired : Bool) : Inner T × Option (Option T) :=
  if timedOut ∧ inner.queue.isEmpty then (inner, some none) else inner.recvRound expired

/-- A sender.  `counted` and `leaving` are inside its drop, before and after the region that may close the queue. -/
inductive Handle
  | usable
  | counted (strongCount : Nat)
  | leaving
  | dropped
  deriving DecidableEq

/-- Where the receiver is -/
inductive RecvPc
  | idle
  | waiting
  deriving DecidableEq

/-- The shared state and the handles, with what has been sent, received and returned.  An item is kept with its place
among the sent ones, which no thread looks at. -/
structure State (T : Type) where
  capacity : Nat
  inner : Inner (T × Nat)
  strongCount : Nat
  senders : List Handle
  /-- `none` after the receiver is dropped -/
  receiver : Option RecvPc
  sent : List T
  received : List (T × Nat)
  /-- What the calls of `send` returned -/
  returned : List Nat

/-- `channel(capacity)`, which panics for the capacity zero -/
def channel (capacity : Nat) : State T where
  capacity := capacity
  inner := ⟨[], false⟩
  strongCount := 2
  senders := [.usable]
  receiver := some .idle
  sent := []
  received := []
  returned := []

inductive Act (T : Type)
  | clone (k : Nat)
  | send (k : Nat) (item : T)
  | recv (expired : Bool)
  | wake (timedOut expired : Bool)
  | readCount (k : Nat)
  | closeIfLast (k : Nat)
  | dropField (k : Nat)
  | dropReceiver

namespace State

variable (s : State T)

/-- What the receiver has after a region of `recv_timeout` -/
def afterRecv (p : Inner (T × Nat) × Option (Option (T × Nat))) : State T :=
  { s with
    inner := p.1
    receiver := some (if p.2.isNone then .waiting else .idle)
    received := s.received ++ (p.2.getD none).toList }

def setSender (k : Nat) (h : Handle) : State T := { s with senders := s.senders.set k h }

end State

def step (s : State T) : Act T → Option (State T)
  | .clone k =>
    match s.senders[k]? with
    | some .usable => some { s with strongCount := s.strongCount + 1, senders := s.senders ++ [.usable] }
    | _ => none
  | .send k item =>
    match s.senders[k]? with
    | some .usable =>
      let p := s.inner.send s.capacity (item, s.sent.length)
      some { s with inner := p.1, sent := s.sent ++ [item], returned := s.returned ++ [p.2] }
    | _ => none
  | .recv expired =>
    if s.receiver = some .idle then some (s.afterRecv (s.inner.recvRound expired)) else none
  | .wake timedOut expired =>
    if s.receiver = some .waiting then some (s.afterRecv (s.inner.recvWoken timedOut expired)) else none
  | .readCount k => -- `Drop for Sender` begins
    match s.senders[k]? with
    | some .usable => some (s.setSender k (.counted s.strongCount))
    | _ => none
  | .closeIfLast k =>
    match s.senders[k]? with
    | some (.counted strongCount) =>
      some ({ s with inner := { s.inner with closed := s.inner.closed || strongCount ≤ 2 } }.setSender k .leaving)
    | _ => none
  | .dropField k => -- the `Arc` of the sender is dropped
    match s.senders[k]? with
    | some .leaving => some ({ s with strongCount := s.strongCount - 1 }.setSender k .dropped)
    | _ => none
  | .dropReceiver =>
    if s.receiver = some .idle then some { s with receiver := none, strongCount := s.strongCount - 1 } else none

/-! ### What a step does to the handles -/

namespace State

/-- The senders that are not in their drop -/
def usable (s : State T) : Nat := s.senders.countP fun h => h = .usable

/-- The senders in their drop -/
def dropping (s : State T) : Nat := s.senders.countP fun h => h ≠ .usable ∧ h ≠ .dropped

/-- The handle of the receiver -/
def alive (s : State T) : Nat := s.receiver.toList.length

/-- The queue is closed, or a drop has read a count on which it will close it. -/
def WillClose (s : State T) : Prop :=
  s.inner.closed = true ∨ ∃ strongCount, .counted strongCount ∈ s.senders ∧ strongCount ≤ 2

end State

variable {s s' : State T} {a : Act T} {acts : List (Act T)} {k : Nat} {capacity : Nat}

private theorem countP_set {α : Type} {p : α → Bool} {l : List α} {k : Nat} {x y : α} (hk : l[k]? = some x) :
    (l.set k y).countP p + (if p x then 1 else 0) = l.countP p + if p y then 1 else 0 := by
  obtain ⟨hlt, rfl⟩ := List.getElem?_eq_some_iff.1 hk
  rw [List.countP_set hlt]
  have hpos : p l[k] = true → 0 < l.countP p := fun hp => List.countP_pos_iff.2 ⟨_, List.getElem_mem hlt, hp⟩
  split
  · have := hpos ‹_›
    omega
  · omega

/-- A sender moves on in its drop. -/
private theorem mem_set_iff {l : List Handle} {x y h : Handle} (hk : l[k]? = some x) (hne : h ≠ x) :
    h ∈ l.set k y ↔ h ∈ l ∨ h = y := by
  obtain ⟨hlt, rfl⟩ := List.getElem?_eq_some_iff.1 hk
  constructor
  · intro hmem
    exact List.mem_or_eq_of_mem_set hmem
  · rintro (hmem | rfl)
    · obtain ⟨j, hj, rfl⟩ := List.getElem_of_mem hmem
      have hjk : k ≠ j := by
        rintro rfl
        exact hne rfl
      exact List.mem_iff_getElem?.2 ⟨j, by rw [List.getElem?_set_ne hjk, List.getElem?_eq_getElem hj]⟩
    · exact List.mem_set hlt _

/-- What has not changed -/
structure Same (s s' : State T) : Prop where
  usable : s'.usable = s.usable
  dropping : s'.dropping = s.dropping
  alive : s'.alive = s.alive
  strongCount : s'.strongCount = s.strongCount
  willClose : s'.WillClose ↔ s.WillClose

theorem usable_pos (hk : s.senders[k]? = some .usable) : 0 < s.usable :=
  List.countP_pos_iff.2 ⟨.usable, List.mem_of_getElem? hk, by simp⟩

private theorem inner_send_closed (inner : Inner T) (capacity : Nat) (item : T) :
    (inner.send capacity item).1.closed = inner.closed := by
  unfold Inner.send
  split <;> rfl

private theorem recvRound_closed (inner : Inner T) (expired : Bool) :
    (inner.recvRound expired).1.closed = inner.closed := by
  unfold Inner.recvRound
  split <;> rfl

private theorem recvWoken_closed (inner : Inner T) (timedOut expired : Bool) :
    (inner.recvWoken timedOut expired).1.closed = inner.closed := by
  unfold Inner.recvWoken
  split
  · rfl
  · exact recvRound_closed inner expired

/-- A region of `recv_timeout` leaves the handles alone. -/
private theorem same_afterRecv {p : Inner (T × Nat) × Option (Option (T × Nat))} (hclosed : p.1.closed = s.inner.closed)
    (halive : s.receiver ≠ none) : Same s (s.afterRecv p) where
  usable := rfl
  dropping := rfl
  alive := by
    cases hreceiver : s.receiver with
    | none => exact absurd hreceiver halive
    | some pc => simp [State.alive, State.afterRecv, hreceiver]
  strongCount := rfl
  willClose := by
    simp only [State.WillClose, State.afterRecv, hclosed]

/-- The counts of the handles after a step -/
theorem step_effect (h : step s a = some s') :
    (∃ k, a = .clone k ∧ 0 < s.usable ∧ s'.usable = s.usable + 1 ∧ s'.dropping = s.dropping ∧ s'.alive = s.alive ∧
      s'.strongCount = s.strongCount + 1 ∧ (s'.WillClose ↔ s.WillClose)) ∨
    (∃ k, a = .readCount k ∧ s.usable = s'.usable + 1 ∧ s'.dropping = s.dropping + 1 ∧ s'.alive = s.alive ∧
      s'.strongCount = s.strongCount ∧ (s'.WillClose ↔ s.WillClose ∨ s.strongCount ≤ 2)) ∨
    (∃ k, a = .dropField k ∧ s.dropping = s'.dropping + 1 ∧ s'.usable = s.usable ∧ s'.alive = s.alive ∧
      s'.strongCount = s.strongCount - 1 ∧ (s'.WillClose ↔ s.WillClose)) ∨
    (a = .dropReceiver ∧ s.alive = s'.alive + 1 ∧ s'.usable = s.usable ∧ s'.dropping = s.dropping ∧
      s'.strongCount = s.strongCount - 1 ∧ (s'.WillClose ↔ s.WillClose)) ∨
    ((∀ k, a ≠ .readCount k) ∧ Same s s') := by
  cases a with
  | clone k =>
    simp only [step] at h
    split at h
    · rename_i hk
      cases h
      refine .inl ⟨k, rfl, usable_pos hk, ?_, ?_, rfl, rfl, ?_⟩
      · simp [State.usable]
      · simp [State.dropping]
      · simp [State.WillClose]
    · cases h
  | send k item =>
    simp only [step] at h
    split at h
    · cases h
      refine .inr (.inr (.inr (.inr ⟨fun _ => by simp, rfl, rfl, rfl, rfl, ?_⟩)))
      simp only [State.WillClose, inner_send_closed]
    · cases h
  | recv expired =>
    simp only [step] at h
    split at h
    · rename_i hidle
      cases h
      exact .inr (.inr (.inr (.inr ⟨fun _ => by simp, same_afterRecv (recvRound_closed ..) (by simp [hidle])⟩)))
    · cases h
  | wake timedOut expired =>
    simp only [step] at h
    split at h
    · rename_i hwaiting
      cases h
      exact .inr (.inr (.inr (.inr ⟨fun _ => by simp, same_afterRecv (recvWoken_closed ..) (by simp [hwaiting])⟩)))
    · cases h
  | readCount k =>
    simp only [step] at h
    split at h
    · rename_i hk
      cases h
      have husable := countP_set (p := fun h => h = Handle.usable) (y := .counted s.strongCount) hk
      have hdropping := countP_set (p := fun h => h ≠ Handle.usable ∧ h ≠ .dropped) (y := .counted s.strongCount) hk
      refine .inr (.inl ⟨k, rfl, ?_, ?_, rfl, rfl, ?_⟩)
      · simpa [State.usable, State.setSender] using husable.symm
      · simpa [State.dropping, State.setSender] using hdropping
      · have hmem (c : Nat) := mem_set_iff (y := .counted s.strongCount) (h := .counted c) hk (by simp)
        simp only [State.WillClose, State.setSender, hmem, Handle.counted.injEq]
        constructor
        · rintro (hclosed | ⟨c, hc | rfl, hle⟩)
          · exact .inl (.inl hclosed)
          · exact .inl (.inr ⟨c, hc, hle⟩)
          · exact .inr hle
        · rintro ((hclosed | ⟨c, hc, hle⟩) | hle)
          · exact .inl hclosed
          · exact .inr ⟨c, .inl hc, hle⟩
          · exact .inr ⟨_, .inr rfl, hle⟩
    · cases h
  | closeIfLast k =>
    simp only [step] at h
    split at h
    · rename_i c hk
      cases h
      have husable := countP_set (p := fun h => h = Handle.usable) (y := .leaving) hk
      have hdropping := countP_set (p := fun h => h ≠ Handle.usable ∧ h ≠ .dropped) (y := .leaving) hk
      refine .inr (.inr (.inr (.inr ⟨fun _ => by simp, ?_, ?_, rfl, rfl, ?_⟩)))
      · simpa [State.usable, State.setSender] using husable
      · simpa [State.dropping, State.setSender] using hdropping
      · simp only [State.WillClose, State.setSender, Bool.or_eq_true, decide_eq_true_eq]
        constructor
        · rintro ((hclosed | hle) | ⟨c', hc', hle⟩)
          · exact .inl hclosed
          · exact .inr ⟨c, List.mem_of_getElem? hk, hle⟩
          · rcases List.mem_or_eq_of_mem_set hc' with hc' | hc'
            · exact .inr ⟨c', hc', hle⟩
            · cases hc'
        · rintro (hclosed | ⟨c', hc', hle⟩)
          · exact .inl (.inl hclosed)
          · by_cases hcc : c' = c
            · subst hcc
              exact .inl (.inr hle)
            · exact .inr ⟨c', (mem_set_iff hk (by simpa using hcc)).2 (.inl hc'), hle⟩
    · cases h
  | dropField k =>
    simp only [step] at h
    split at h
    · rename_i hk
      cases h
      have husable := countP_set (p := fun h => h = Handle.usable) (y := .dropped) hk
      have hdropping := countP_set (p := fun h => h ≠ Handle.usable ∧ h ≠ .dropped) (y := .dropped) hk
      refine .inr (.inr (.inl ⟨k, rfl, ?_, ?_, rfl, rfl, ?_⟩))
      · simpa [State.dropping, State.setSender] using hdropping.symm
      · simpa [State.usable, State.setSender] using husable
      · have hmem (c : Nat) := mem_set_iff (y := .dropped) (h := .counted c) hk (by simp)
        simp only [State.WillClose, State.setSender, hmem, reduceCtorEq, or_false]
    · cases h
  | dropReceiver =>
    simp only [step] at h
    split at h
    · rename_i hidle
      cases h
      refine .inr (.inr (.inr (.inl ⟨rfl, ?_, rfl, rfl, rfl, Iff.rfl⟩)))
      simp [State.alive, hidle]
    · cases h

/-! ### Closing -/

/-- The strong count counts the handles, and while the receiver lives only the last sender closes the queue. -/
structure Inv (s : State T) : Prop where
  count : s.strongCount = s.usable + s.dropping + s.alive
  last : s.alive = 1 → s.WillClose → s.usable = 0

theorem inv_channel (capacity : Nat) : Inv (channel capacity : State T) where
  count := rfl
  last _ h := by
    obtain hclosed | ⟨c, hc, -⟩ := h
    · cases hclosed
    · simp [channel] at hc

theorem Inv.step (h : Inv s) (hs : step s a = some s') : Inv s' := by
  obtain ⟨hcount, hlast⟩ := h
  obtain ⟨k, rfl, hpos, husable, hdropping, halive, hstrong, hwill⟩ |
    ⟨k, rfl, husable, hdropping, halive, hstrong, hwill⟩ | ⟨k, rfl, hdropping, husable, halive, hstrong, hwill⟩ |
    ⟨rfl, halive, husable, hdropping, hstrong, hwill⟩ | ⟨-, husable, hdropping, halive, hstrong, hwill⟩ := step_effect hs
  · refine ⟨by omega, fun ha hw => ?_⟩
    have := hlast (by omega) (hwill.1 hw)
    omega
  · refine ⟨by omega, fun ha hw => ?_⟩
    obtain hw | hle := hwill.1 hw
    · have := hlast (by omega) hw
      omega
    · -- a drop that finds the receiver's handle only, besides its own
      omega
  · refine ⟨by omega, fun ha hw => ?_⟩
    have := hlast (by omega) (hwill.1 hw)
    omega
  · have hle : s.alive ≤ 1 := by
      rw [State.alive]
      cases s.receiver <;> simp
    exact ⟨by omega, fun ha => by omega⟩
  · refine ⟨by omega, fun ha hw => ?_⟩
    have := hlast (by omega) (hwill.1 hw)
    omega

/-- A drop reads the count while no other can miss it: with the receiver there, the last usable sender's drop finds no
other drop that has not given up its handle; without the receiver, a drop does not leave just one other usable sender. -/
def ReadsAlone (s : State T) : Act T → Prop
  | .readCount _ =>
    (s.receiver ≠ none → s.usable = 1 → s.dropping = 0) ∧ (s.receiver = none → 1 < s.usable → 2 < s.usable + s.dropping)
  | _ => True

instance (s : State T) : ∀ a, Decidable (ReadsAlone s a)
  | .readCount _ => by unfold ReadsAlone; infer_instance
  | .clone _ | .send _ _ | .recv _ | .wake _ _ | .closeIfLast _ | .dropField _ | .dropReceiver => .isTrue trivial

/-- The queue is closed when all senders are gone and the receiver is not, and never before: then `recv_timeout` does not
wait. -/
structure ClosesExactly (s : State T) : Prop where
  atLast : s.receiver ≠ none → (∀ h ∈ s.senders, h = .dropped) →
    s.inner.closed = true ∧ ∀ expired, (s.inner.recvRound expired).2 ≠ none
  notBefore : s.inner.closed = true → ∀ h ∈ s.senders, h ≠ .usable

/-- Whoever will close the queue is the last sender, and while the receiver lives somebody will. -/
def Decided (s : State T) : Prop := (s.WillClose → s.usable = 0) ∧ (s.alive = 1 → s.usable = 0 → s.WillClose)

theorem alive_eq_one_iff : s.alive = 1 ↔ s.receiver ≠ none := by
  rw [State.alive]
  cases s.receiver <;> simp

theorem Decided.step (h : Decided s) (hinv : Inv s) (halone : ReadsAlone s a) (hs : step s a = some s') : Decided s' := by
  obtain ⟨hclose, hlast⟩ := h
  obtain ⟨k, rfl, hpos, husable, hdropping, halive, hstrong, hwill⟩ |
    ⟨k, rfl, husable, hdropping, halive, hstrong, hwill⟩ | ⟨k, rfl, hdropping, husable, halive, hstrong, hwill⟩ |
    ⟨rfl, halive, husable, hdropping, hstrong, hwill⟩ | ⟨-, husable, hdropping, halive, hstrong, hwill⟩ := step_effect hs
  · refine ⟨fun hw => ?_, fun _ hu => by omega⟩
    have := hclose (hwill.1 hw)
    omega
  · have hcount := hinv.count
    obtain ⟨hthere, hgone⟩ := halone
    rw [← alive_eq_one_iff] at hthere
    refine ⟨fun hw => ?_, fun ha hu => hwill.2 (.inr ?_)⟩
    · obtain hw | hle := hwill.1 hw
      · have := hclose hw
        omega
      · by_cases ha : s.alive = 1
        · omega
        · have := hgone (by simpa [alive_eq_one_iff] using ha)
          omega
    · have := hthere (by omega) (by omega)
      omega
  · exact ⟨fun hw => husable ▸ hclose (hwill.1 hw), fun ha hu => hwill.2 (hlast (by omega) (by omega))⟩
  · have hle : s.alive ≤ 1 := by
      rw [State.alive]
      cases s.receiver <;> simp
    exact ⟨fun hw => husable ▸ hclose (hwill.1 hw), fun ha => by omega⟩
  · exact ⟨fun hw => husable ▸ hclose (hwill.1 hw), fun ha hu => hwill.2 (hlast (by omega) (by omega))⟩

/-- Nobody uses the queue or will close it. -/
def Lost (s : State T) : Prop := s.usable = 0 ∧ ¬s.WillClose

theorem Lost.step (h : Lost s) (hs : step s a = some s') : Lost s' := by
  obtain ⟨hzero, hnot⟩ := h
  obtain ⟨k, rfl, hpos, -⟩ | ⟨k, rfl, husable, -⟩ | ⟨k, rfl, -, husable, -, -, hwill⟩ | ⟨rfl, -, husable, -, -, hwill⟩ |
    ⟨-, husable, -, -, -, hwill⟩ := step_effect hs
  · omega
  · omega
  · exact ⟨husable.trans hzero, fun hw => hnot (hwill.1 hw)⟩
  · exact ⟨husable.trans hzero, fun hw => hnot (hwill.1 hw)⟩
  · exact ⟨husable.trans hzero, fun hw => hnot (hwill.1 hw)⟩

/-- A drop that misses another leaves the queue open for good. -/
theorem lost_of_not_alone (hinv : Inv s) (halive : s.receiver ≠ none) (halone : ¬ReadsAlone s a)
    (hs : step s a = some s') : Lost s' := by
  have ha := alive_eq_one_iff.2 halive
  obtain ⟨k, rfl, -⟩ | ⟨k, rfl, husable, hdropping, -, hstrong, hwill⟩ | ⟨k, rfl, -⟩ | ⟨rfl, -⟩ | ⟨hne, -⟩ := step_effect hs
  · exact absurd trivial halone
  · have hmiss : s.usable = 1 ∧ s.dropping ≠ 0 := by
      by_contra hnot
      refine halone ⟨fun _ hu => ?_, fun hnone => absurd hnone halive⟩
      by_contra hd
      exact hnot ⟨hu, hd⟩
    have hcount := hinv.count
    refine ⟨by omega, fun hw => ?_⟩
    obtain hw | hle := hwill.1 hw
    · have := hinv.last ha hw
      omega
    · omega
  · exact absurd trivial halone
  · exact absurd trivial halone
  · cases a with
    | readCount k => exact absurd rfl (hne k)
    | _ => exact absurd trivial halone

theorem usable_eq_zero_iff : s.usable = 0 ↔ ∀ h ∈ s.senders, h ≠ .usable := by
  simp [State.usable, List.countP_eq_zero]

theorem closesExactly_of_decided (h : Decided s) : ClosesExactly s where
  atLast hreceiver hdropped := by
    have hzero : s.usable = 0 := usable_eq_zero_iff.2 fun h hh => by simp [hdropped h hh]
    obtain hclosed | ⟨c, hc, -⟩ := h.2 (alive_eq_one_iff.2 hreceiver) hzero
    · refine ⟨hclosed, fun expired => ?_⟩
      unfold Inner.recvRound
      split
      · simp
      · simp [hclosed]
    · cases hdropped _ hc
  notBefore hclosed := usable_eq_zero_iff.1 (h.1 (.inl hclosed))

/-- The receiver was there all along if it is there at the end. -/
private theorem receiver_of_run (hr : run step s acts = some s') (h : s'.receiver ≠ none) : s.receiver ≠ none := by
  intro hnone
  have hgone : s'.alive = 0 := by
    refine run_invariant (fun s => s.alive = 0) (fun s a s' hs hstep => ?_) (by simp [State.alive, hnone]) hr
    obtain ⟨k, rfl, -, -, -, ha, -⟩ | ⟨k, rfl, -, -, ha, -⟩ | ⟨k, rfl, -, -, ha, -⟩ | ⟨rfl, ha, -⟩ | ⟨-, -, -, ha, -⟩ :=
      step_effect hstep <;> omega
  have := alive_eq_one_iff.2 h
  omega

/-- A queue that closes with its receiver there has not lost a drop. -/
private theorem meets_of_closed (hinv : Inv s) (hr : run step s acts = some s') (halive : s'.receiver ≠ none)
    (hclosed : s'.inner.closed = true) : Meets step ReadsAlone s acts := by
  induction acts generalizing s with
  | nil => trivial
  | cons a acts ih =>
    have hreceiver := receiver_of_run hr halive
    obtain ⟨s₁, h₁, h₂⟩ := run_cons.1 hr
    refine ⟨?_, fun s₂ h => ?_⟩
    · by_contra halone
      have hlost := lost_of_not_alone hinv hreceiver halone h₁
      exact (run_invariant Lost (fun _ _ _ h hs => h.step hs) hlost h₂).2 (.inl hclosed)
    · rw [h₁, Option.some.injEq] at h
      subst h
      exact ih (hinv.step h₁) h₂

/-- In a run in which every drop reads the count alone, the queue is closed when all senders are gone and never before; a
run that closes it before its receiver is gone is such a run. -/
theorem closed_with_last_sender (capacity : Nat) (acts : List (Act T)) (s : State T)
    (hr : run step (channel capacity) acts = some s) :
    (Meets step ReadsAlone (channel capacity) acts → ClosesExactly s) ∧
    (s.receiver ≠ none → s.inner.closed = true → Meets step ReadsAlone (channel capacity) acts) := by
  refine ⟨fun hmeets => ?_, fun halive hclosed => meets_of_closed (inv_channel capacity) hr halive hclosed⟩
  have hinit : Inv (channel capacity : State T) ∧ Decided (channel capacity : State T) := by
    refine ⟨inv_channel capacity, fun hw => ?_, fun _ hu => ?_⟩
    · exact (inv_channel capacity).last rfl hw
    · simp [State.usable, channel] at hu
  have hfinal := run_invariant_when (fun s => Inv s ∧ Decided s) ReadsAlone
    (fun _ _ _ h halone hs => ⟨h.1.step hs, h.2.step h.1 halone hs⟩) hmeets hinit hr
  exact closesExactly_of_decided hfinal.2

/-- Two senders that go one after the other -/
def oneByOne : List (Act Nat) :=
  [.clone 0, .readCount 0, .closeIfLast 0, .dropField 0, .readCount 1, .closeIfLast 1, .dropField 1]

theorem closed_with_last_sender_two : ∃ s, run step (channel 8) oneByOne = some s ∧ ClosesExactly s := by
  refine ⟨_, rfl, (closed_with_last_sender 8 oneByOne _ rfl).1 ?_⟩
  decide

/-- Two senders whose drops overlap leave the queue open for ever; without the receiver, the drop of one of two senders
closes the queue under the other. -/
theorem not_closed_with_last_sender :
    (∃ s, run step (channel 8 : State Nat) [.clone 0, .readCount 0, .readCount 1, .closeIfLast 0, .dropField 0,
      .closeIfLast 1, .dropField 1] = some s ∧ s.senders = [.dropped, .dropped] ∧ s.receiver = some .idle ∧
      s.inner.closed = false ∧ ¬ClosesExactly s) ∧
    ∃ s, run step (channel 8 : State Nat) [.clone 0, .dropReceiver, .readCount 0, .closeIfLast 0] = some s ∧
      s.senders = [.leaving, .usable] ∧ s.inner.closed = true ∧ ¬ClosesExactly s := by
  refine ⟨⟨_, rfl, rfl, rfl, rfl, fun h => ?_⟩, ⟨_, rfl, rfl, rfl, fun h => ?_⟩⟩
  · have hclosed := (h.atLast (by decide) (by decide)).1
    cases hclosed
  · exact h.notBefore rfl .usable (by decide) rfl

/-! ### What is kept and what is counted -/

/-- The items, what is returned, and the capacity are as they were. -/
structure SameItems (s s' : State T) : Prop where
  capacity : s'.capacity = s.capacity
  queue : s'.inner.queue = s.inner.queue
  sent : s'.sent = s.sent
  received : s'.received = s.received
  returned : s'.returned = s.returned

/-- The receiver takes the oldest item. -/
structure Takes (s s' : State T) : Prop where
  capacity : s'.capacity = s.capacity
  received : ∃ item, s.inner.queue = item :: s'.inner.queue ∧ s'.received = s.received ++ [item]
  sent : s'.sent = s.sent
  returned : s'.returned = s.returned

private theorem takes_or_same (s : State T) (expired : Bool) :
    Takes s (s.afterRecv (s.inner.recvRound expired)) ∨ SameItems s (s.afterRecv (s.inner.recvRound expired)) := by
  cases hqueue : s.inner.queue with
  | nil =>
    refine .inr ⟨rfl, ?_, rfl, ?_, rfl⟩
    · simp [State.afterRecv, Inner.recvRound, hqueue]
    · simp only [State.afterRecv, Inner.recvRound, hqueue]
      split <;> simp
  | cons item queue =>
    refine .inl ⟨rfl, ⟨item, ?_, ?_⟩, rfl, rfl⟩
    · simp [State.afterRecv, Inner.recvRound, hqueue]
    · simp [State.afterRecv, Inner.recvRound, hqueue]

/-- What a step does with the items -/
theorem step_items (h : step s a = some s') :
    (∃ k item, a = .send k item ∧ 0 < s.usable ∧ s'.capacity = s.capacity ∧
      s'.inner = (s.inner.send s.capacity (item, s.sent.length)).1 ∧ s'.sent = s.sent ++ [item] ∧
      s'.received = s.received ∧ s'.returned = s.returned ++ [(s.inner.send s.capacity (item, s.sent.length)).2]) ∨
    Takes s s' ∨ SameItems s s' := by
  cases a with
  | send k item =>
    simp only [step] at h
    split at h
    · rename_i hk
      cases h
      exact .inl ⟨k, item, rfl, usable_pos hk, rfl, rfl, rfl, rfl, rfl⟩
    · cases h
  | recv expired =>
    simp only [step] at h
    split at h
    · cases h
      exact .inr (takes_or_same s expired)
    · cases h
  | wake timedOut expired =>
    simp only [step, Inner.recvWoken] at h
    split at h
    · split at h
      · cases h
        exact .inr (.inr ⟨rfl, rfl, rfl, by simp [State.afterRecv], rfl⟩)
      · cases h
        exact .inr (takes_or_same s expired)
    · cases h
  | dropReceiver =>
    simp only [step] at h
    split at h
    · cases h
      exact .inr (.inr ⟨rfl, rfl, rfl, rfl, rfl⟩)
    · cases h
  | clone k | readCount k | closeIfLast k | dropField k =>
    simp only [step] at h
    split at h
    · cases h
      exact .inr (.inr ⟨rfl, rfl, rfl, rfl, rfl⟩)
    · cases h

/-- What a run has done with the items that were sent, each with its place -/
structure Accounts (capacity : Nat) (acts : List (Act T)) (s : State T) : Prop where
  inOrder : (s.received ++ s.inner.queue).Sublist s.sent.zipIdx
  bounded : s.inner.queue.length ≤ capacity
  /-- An item that was neither received nor is queued was the oldest one when a send found the queue full. -/
  evicted : ∀ e ∈ s.sent.zipIdx, e ∉ s.received ++ s.inner.queue → ∃ before k item after s₁,
    acts = before ++ .send k item :: after ∧ run step (channel capacity) before = some s₁ ∧
      s₁.inner.queue.length = capacity ∧ s₁.inner.queue.head? = some e
  newest : s.inner.queue <:+ s.sent.zipIdx
  conserved : s.sent.length = s.received.length + s.inner.queue.length + s.returned.sum

/-- An item that was evicted before -/
private theorem Accounts.evicted_before {capacity : Nat} (h : Accounts capacity acts s) (a : Act T) {e : T × Nat}
    (he : e ∈ s.sent.zipIdx) (hnot : e ∉ s.received ++ s.inner.queue) : ∃ before k item after s₁,
      acts ++ [a] = before ++ .send k item :: after ∧ run step (channel capacity) before = some s₁ ∧
        s₁.inner.queue.length = capacity ∧ s₁.inner.queue.head? = some e := by
  obtain ⟨before, k, item, after, s₁, rfl, hrest⟩ := h.evicted e he hnot
  exact ⟨before, k, item, after ++ [a], s₁, by simp, hrest⟩

theorem Accounts.same {capacity : Nat} (h : Accounts capacity acts s) (hsame : SameItems s s') (a : Act T) :
    Accounts capacity (acts ++ [a]) s' where
  inOrder := by
    rw [hsame.queue, hsame.sent, hsame.received]
    exact h.inOrder
  bounded := by
    rw [hsame.queue]
    exact h.bounded
  evicted e he hnot := by
    rw [hsame.sent] at he
    rw [hsame.queue, hsame.received] at hnot
    exact h.evicted_before a he hnot
  newest := by
    rw [hsame.queue, hsame.sent]
    exact h.newest
  conserved := by
    rw [hsame.queue, hsame.sent, hsame.received, hsame.returned]
    exact h.conserved

theorem Accounts.takes {capacity : Nat} (h : Accounts capacity acts s) (htakes : Takes s s') (a : Act T) :
    Accounts capacity (acts ++ [a]) s' := by
  obtain ⟨-, ⟨item, hqueue, hreceived⟩, hsent, hreturned⟩ := htakes
  have hkept : s'.received ++ s'.inner.queue = s.received ++ s.inner.queue := by
    rw [hreceived, hqueue, List.append_assoc]
    rfl
  have hlen := congrArg List.length hqueue
  rw [List.length_cons] at hlen
  refine ⟨?_, ?_, fun e he hnot => ?_, ?_, ?_⟩
  · rw [hkept, hsent]
    exact h.inOrder
  · have := h.bounded
    omega
  · rw [hsent] at he
    rw [hkept] at hnot
    exact h.evicted_before a he hnot
  · rw [hsent]
    refine List.IsSuffix.trans ?_ h.newest
    rw [hqueue]
    exact List.suffix_cons ..
  · have hconserved := h.conserved
    rw [hsent, hreceived, hreturned, List.length_append, List.length_singleton]
    omega

/-- A send to an open queue, which drops the oldest item of a full one -/
theorem Accounts.send {capacity : Nat} (hcap : 0 < capacity) (h : Accounts capacity acts s)
    (hrun : run step (channel capacity) acts = some s) (hopen : s.inner.closed = false) {k : Nat} {item : T}
    (hinner : s'.inner = (s.inner.send capacity (item, s.sent.length)).1) (hsent : s'.sent = s.sent ++ [item])
    (hreceived : s'.received = s.received)
    (hreturned : s'.returned = s.returned ++ [(s.inner.send capacity (item, s.sent.length)).2]) :
    Accounts capacity (acts ++ [.send k item]) s' := by
  have hplaces : s'.sent.zipIdx = s.sent.zipIdx ++ [(item, s.sent.length)] := by
    rw [hsent, List.zipIdx_append]
    simp
  have hconserved := h.conserved
  have hbounded := h.bounded
  have hqueue : s'.inner.queue = Bridge.send capacity s.inner.queue (item, s.sent.length) := by
    rw [hinner, Inner.send, hopen]
    rfl
  have hdropped : (s.inner.send capacity (item, s.sent.length)).2 = if capacity ≤ s.inner.queue.length then 1 else 0 := by
    rw [Inner.send, hopen]
    rfl
  rw [Bridge.send] at hqueue
  by_cases hfull : capacity ≤ s.inner.queue.length
  · rw [if_pos hfull] at hqueue hdropped
    obtain ⟨e, queue, hcons⟩ : ∃ e queue, s.inner.queue = e :: queue :=
      List.exists_cons_of_ne_nil fun hnil => by simp [hnil] at hfull; omega
    rw [hcons, List.tail_cons] at hqueue
    have hlen := congrArg List.length hcons
    rw [List.length_cons] at hlen
    refine ⟨?_, ?_, fun e' he' hnot => ?_, ?_, ?_⟩
    · rw [hreceived, hqueue, hplaces, ← List.append_assoc]
      refine List.Sublist.append (List.Sublist.trans ?_ h.inOrder) (List.Sublist.refl _)
      rw [hcons]
      exact List.Sublist.append (List.Sublist.refl _) (List.sublist_cons_self ..)
    · rw [hqueue, List.length_append, List.length_singleton]
      omega
    · rw [hplaces, List.mem_append] at he'
      rw [hreceived, hqueue, ← List.append_assoc, List.mem_append, not_or] at hnot
      have hold := he'.resolve_right hnot.2
      by_cases hee : e' = e
      · exact ⟨acts, k, item, [], s, rfl, hrun, by omega, by rw [hcons, hee]; rfl⟩
      · refine h.evicted_before _ hold fun hmem => hnot.1 ?_
        rw [hcons, List.mem_append, List.mem_cons] at hmem
        rw [List.mem_append]
        rcases hmem with hmem | hmem | hmem
        · exact .inl hmem
        · exact absurd hmem hee
        · exact .inr hmem
    · have hsuffix : queue <:+ s.sent.zipIdx := (hcons ▸ List.suffix_cons e queue).trans h.newest
      obtain ⟨front, hfront⟩ := hsuffix
      exact ⟨front, by rw [hqueue, hplaces, ← hfront, List.append_assoc]⟩
    · rw [hsent, hreceived, hqueue, hreturned, hdropped, List.sum_append]
      simp only [List.length_append, List.length_singleton, List.sum_singleton]
      omega
  · rw [if_neg hfull] at hqueue hdropped
    refine ⟨?_, ?_, fun e he hnot => ?_, ?_, ?_⟩
    · rw [hreceived, hqueue, hplaces, ← List.append_assoc]
      exact List.Sublist.append h.inOrder (List.Sublist.refl _)
    · rw [hqueue, List.length_append, List.length_singleton]
      omega
    · rw [hplaces, List.mem_append] at he
      rw [hreceived, hqueue, ← List.append_assoc, List.mem_append, not_or] at hnot
      exact h.evicted_before _ (he.resolve_right hnot.2) hnot.1
    · obtain ⟨front, hfront⟩ := h.newest
      exact ⟨front, by rw [hqueue, hplaces, ← hfront, List.append_assoc]⟩
    · rw [hsent, hreceived, hqueue, hreturned, hdropped, List.sum_append]
      simp only [List.length_append, List.length_singleton, List.sum_singleton]
      omega

/-- While the receiver lives, the queue keeps the newest items in order, and every send is accounted for. -/
theorem queue_accounts (capacity : Nat) (hcap : 0 < capacity) (acts : List (Act T)) (s : State T)
    (hr : run step (channel capacity) acts = some s) (hreceiver : s.receiver ≠ none) : Accounts capacity acts s := by
  suffices h : Accounts capacity acts s ∧ Inv s ∧ s.capacity = capacity from h.1
  induction acts using List.reverseRecOn generalizing s with
  | nil =>
    cases hr
    refine ⟨⟨by simp [channel], by simp [channel], by simp [channel], by simp [channel], by simp [channel]⟩,
      inv_channel capacity, rfl⟩
  | append_singleton acts a ih =>
    obtain ⟨s₁, h₁, h₂⟩ := run_append.1 hr
    have hreceiver₁ := receiver_of_run h₂ hreceiver
    obtain ⟨haccounts, hinv, hcapacity⟩ := ih s₁ h₁ hreceiver₁
    obtain ⟨s₂, hstep, hnil⟩ := run_cons.1 h₂
    cases hnil
    refine ⟨?_, hinv.step hstep, ?_⟩
    · obtain ⟨k, item, rfl, husable, -, hinner, hsent, hreceived, hreturned⟩ | htakes | hsame := step_items hstep
      · have hopen : s₁.inner.closed = false := by
          by_contra hclosed
          have := hinv.last (alive_eq_one_iff.2 hreceiver₁) (.inl (by simpa using hclosed))
          omega
        rw [hcapacity] at hinner hreturned
        exact haccounts.send hcap h₁ hopen hinner hsent hreceived hreturned
      · exact haccounts.takes htakes a
      · exact haccounts.same hsame a
    · obtain ⟨k, item, -, -, hsame, -⟩ | htakes | hsame := step_items hstep
      · exact hsame.trans hcapacity
      · exact htakes.capacity.trans hcapacity
      · exact hsame.capacity.trans hcapacity

/-- Three sends to a queue of two items, and a receive -/
def overflowing : List (Act Nat) := [.send 0 1, .clone 0, .send 1 2, .send 0 3, .recv false]

theorem queue_accounts_overflowing : ∃ s, run step (channel 2) overflowing = some s ∧ s.received = [(2, 1)] ∧
    s.inner.queue = [(3, 2)] ∧ s.returned = [0, 0, 1] ∧ Accounts 2 overflowing s := by
  exact ⟨_, rfl, rfl, rfl, rfl, queue_accounts 2 (by decide) overflowing _ rfl (by decide)⟩

end Mmbus.Bridge.Queue
