import Mathlib.Algebra.Order.Group.Multiset
import Mathlib.Data.List.Infix
import Mathlib.Tactic.Abel
import Mmbus.Lib.Transition

/-!
# Slow consumers

One consumer's `Subscription`: the queue that the fan-out fills, what is done when it is full, the close signal, and the
iterator, which races a `get` of the queue against that signal.  All of it runs on one event loop: a step is what happens
between two awaits.  The items are of any type.

Without cancellation nothing is lost but what the policy drops (`slow_policy_law`).  A call that is cancelled loses the
item that its `get` has taken already (`nothing_lost_iff`).
-/

namespace Mmbus.Cast.SlowConsumer

open Transition

/-- `_SLOW_POLICIES` -/
inductive SlowPolicy
  | dropOldest
  | dropNewest
  | disconnect
  deriving DecidableEq

variable {α : Type}

/-- `asyncio.Queue` -/
structure Queue (α : Type) where
  maxsize : Nat
  items : List α

namespace Queue

/-- `full`; a queue without a positive `maxsize` is never full. -/
def Full (q : Queue α) : Prop := 0 < q.maxsize ∧ q.maxsize ≤ q.items.length

instance (q : Queue α) : Decidable q.Full := inferInstanceAs (Decidable (_ ∧ _))

/-- `none` for `QueueFull` -/
def putNowait (q : Queue α) (data : α) : Option (Queue α) :=
  if q.Full then none else some { q with items := q.items ++ [data] }

/-- `none` for `QueueEmpty` -/
def getNowait (q : Queue α) : Option (α × Queue α) :=
  match q.items with
  | [] => none
  | data :: items => some (data, { q with items := items })

end Queue

structure Subscription (α : Type) where
  queue : Queue α
  slowPolicy : SlowPolicy
  closed : Bool
  closeEvent : Bool
  slowCount : Nat
  deliveredCount : Nat

namespace Subscription

def init (queueDepth : Nat) (slowPolicy : SlowPolicy) : Subscription α :=
  ⟨⟨queueDepth, []⟩, slowPolicy, false, false, 0, 0⟩

/-- `_close_from_fanout`, and what `__aexit__` does with the subscription -/
def closeFromFanout (s : Subscription α) : Subscription α := { s with closed := true, closeEvent := true }

/-- `_on_full` -/
def onFull (s : Subscription α) (data : α) : Subscription α :=
  match s.slowPolicy with
  | .dropOldest =>
    match s.queue.getNowait with
    | none => s
    | some (_, queue) =>
      match queue.putNowait data with
      | none => { s with queue := queue }
      | some queue => { s with queue := queue }
  | .dropNewest => s
  | .disconnect => s.closeFromFanout

/-- `_enqueue` -/
def enqueue (s : Subscription α) (data : α) : Subscription α :=
  if s.closed then s
  else
    match s.queue.putNowait data with
    | some queue => { s with queue := queue }
    | none => onFull { s with slowCount := s.slowCount + 1 } data

/-- What the policy drops when `data` is enqueued -/
def drops (s : Subscription α) (data : α) : List α :=
  if s.closed = false ∧ s.queue.Full then
    match s.slowPolicy with
    | .dropOldest => s.queue.items.take 1
    | .dropNewest | .disconnect => [data]
  else []

end Subscription

/-- The task of `self._queue.get()`, once the call has cancelled it -/
inductive GetTask (α : Type)
  | pending
  | done (data : α)
  | cancelled

/-- Where the consumer is in `__anext__` -/
inductive Call (α : Type)
  /-- Between two calls -/
  | idle
  /-- In `asyncio.wait`: what `get_task` is done with, if it is done, and whether `close_wait` is done -/
  | waiting (taken : Option α) (closeWait : Bool)
  /-- The close has won: in `await get_task`, after its `cancel` -/
  | recovering (getTask : GetTask α)
  /-- `StopAsyncIteration` -/
  | ended

/-- The item that the task of the call has taken -/
def Call.inFlight : Call α → List α
  | .waiting (some data) _ => [data]
  | .recovering (.done data) => [data]
  | _ => []

/-- The call has seen the close signal. -/
def Call.HeardClose : Call α → Prop
  | .idle => False
  | .waiting _ closeWait => closeWait = true
  | .recovering _ => True
  | .ended => True

structure State (α : Type) where
  sub : Subscription α
  call : Call α
  /-- The tasks that cancelled calls have left behind, cancelled but not over -/
  orphans : Nat
  /-- What `_enqueue` got while the subscription was open -/
  enqueued : List α
  /-- What the calls have returned -/
  returned : List α
  /-- What the policy has dropped -/
  dropped : List α
  /-- What has been taken from the queue by a task nobody looks at any more -/
  lost : List α

namespace State

def start (queueDepth : Nat) (slowPolicy : SlowPolicy) : State α := ⟨.init queueDepth slowPolicy, .idle, 0, [], [], [], []⟩

abbrev items (s : State α) : List α := s.sub.queue.items

abbrev inFlight (s : State α) : List α := s.call.inFlight

/-- `self.delivered_count += 1`, and `return` -/
def deliver (s : State α) (data : α) : State α :=
  { s with
    sub := { s.sub with deliveredCount := s.sub.deliveredCount + 1 }
    call := .idle
    returned := s.returned ++ [data] }

/-- `__anext__` up to its first `await` -/
def begin (s : State α) : State α :=
  match s.sub.queue.getNowait with
  | some (data, queue) => deliver { s with sub := { s.sub with queue := queue } } data
  | none => { s with call := if s.sub.closed then .ended else .waiting none false }

/-- The end of `__anext__` after a `get` that was cancelled -/
def recover (s : State α) : State α :=
  match s.sub.queue.getNowait with
  | some (data, queue) => deliver { s with sub := { s.sub with queue := queue } } data
  | none => { s with call := .ended }

end State

inductive Act (α : Type)
  | enqueue (data : α)
  | close
  /-- `__anext__` is called. -/
  | anext
  /-- Its task takes the head of the queue. -/
  | getTakes
  /-- Its task, with the `cancel` of the call, is over without an item. -/
  | getCancelled
  /-- `close_wait` is done. -/
  | closeWaits
  /-- The call goes on after its `await`. -/
  | resume
  /-- `CancelledError` is thrown into the call. -/
  | cancel
  /-- A task that was left behind takes the head of the queue. -/
  | orphanTakes
  /-- A task that was left behind is over without an item. -/
  | orphanCancelled

open State in
def step (s : State α) : Act α → Option (State α)
  | .enqueue data => some { s with
      sub := s.sub.enqueue data
      enqueued := if s.sub.closed then s.enqueued else s.enqueued ++ [data]
      dropped := s.dropped ++ s.sub.drops data }
  | .close => some { s with sub := s.sub.closeFromFanout }
  | .anext =>
    match s.call with
    | .idle | .ended => some s.begin
    | .waiting _ _ | .recovering _ => none
  | .getTakes =>
    match s.call, s.sub.queue.getNowait with
    | .waiting none closeWait, some (data, queue) =>
      some { s with sub := { s.sub with queue := queue }, call := .waiting (some data) closeWait }
    | .recovering .pending, some (data, queue) =>
      some { s with sub := { s.sub with queue := queue }, call := .recovering (.done data) }
    | _, _ => none
  | .getCancelled =>
    match s.call with
    | .recovering .pending => some { s with call := .recovering .cancelled }
    | _ => none
  | .closeWaits =>
    match s.call, s.sub.closeEvent with
    | .waiting taken false, true => some { s with call := .waiting taken true }
    | _, _ => none
  | .resume =>
    match s.call with
    | .waiting (some data) _ => some (s.deliver data)
    | .waiting none true => some { s with call := .recovering .pending }
    | .recovering (.done data) => some (s.deliver data)
    | .recovering .cancelled => some s.recover
    | _ => none
  | .cancel =>
    match s.call with
    | .waiting none _ => some { s with call := .idle, orphans := s.orphans + 1 }
    | .waiting (some data) _ => some { s with call := .idle, lost := s.lost ++ [data] }
    -- the `except` of `await get_task` takes the cancellation for the one of the task
    | .recovering (.done data) => some { s with call := .recovering .cancelled, lost := s.lost ++ [data] }
    | .recovering _ => some s
    | .idle | .ended => none
  | .orphanTakes =>
    match s.orphans, s.sub.queue.getNowait with
    | orphans + 1, some (data, queue) =>
      some { s with sub := { s.sub with queue := queue }, orphans := orphans, lost := s.lost ++ [data] }
    | _, _ => none
  | .orphanCancelled =>
    match s.orphans with
    | orphans + 1 => some { s with orphans := orphans }
    | 0 => none

/-! ### The queue and the policies -/

variable {s s' : State α} {q q' : Queue α} {data : α} {sub : Subscription α}

theorem Queue.getNowait_eq_some_iff : q.getNowait = some (data, q') ↔ q = ⟨q'.maxsize, data :: q'.items⟩ := by
  obtain ⟨maxsize, items⟩ := q
  obtain ⟨maxsize', items'⟩ := q'
  cases items with
  | nil => simp [Queue.getNowait]
  | cons x xs =>
    simp only [Queue.getNowait, Option.some.injEq, Prod.mk.injEq, Queue.mk.injEq, List.cons.injEq]
    constructor
    · rintro ⟨rfl, rfl, rfl⟩
      exact ⟨rfl, rfl, rfl⟩
    · rintro ⟨rfl, rfl, rfl⟩
      exact ⟨rfl, rfl, rfl⟩

theorem Queue.getNowait_eq_none_iff : q.getNowait = none ↔ q.items = [] := by
  obtain ⟨maxsize, items⟩ := q
  cases items <;> simp [Queue.getNowait]

/-- What `_enqueue` does -/
theorem Subscription.enqueue_cases (hbound : 0 < sub.queue.maxsize → sub.queue.items.length ≤ sub.queue.maxsize) (data : α) :
    (sub.closed = true ∧ sub.enqueue data = sub ∧ sub.drops data = []) ∨
    (sub.closed = false ∧ ¬sub.queue.Full ∧
      sub.enqueue data = { sub with queue := ⟨sub.queue.maxsize, sub.queue.items ++ [data]⟩ } ∧ sub.drops data = []) ∨
    (sub.closed = false ∧ sub.queue.Full ∧ sub.slowPolicy = .dropOldest ∧ ∃ oldest items,
      sub.queue.items = oldest :: items ∧
      sub.enqueue data =
        { sub with queue := ⟨sub.queue.maxsize, items ++ [data]⟩, slowCount := sub.slowCount + 1 } ∧
      sub.drops data = [oldest]) ∨
    (sub.closed = false ∧ sub.queue.Full ∧ sub.slowPolicy = .dropNewest ∧
      sub.enqueue data = { sub with slowCount := sub.slowCount + 1 } ∧ sub.drops data = [data]) ∨
    (sub.closed = false ∧ sub.queue.Full ∧ sub.slowPolicy = .disconnect ∧
      sub.enqueue data = { sub with slowCount := sub.slowCount + 1, closed := true, closeEvent := true } ∧
      sub.drops data = [data]) := by
  cases hclosed : sub.closed with
  | true =>
    refine Or.inl ⟨rfl, ?_, ?_⟩
    · rw [enqueue, if_pos hclosed]
    · rw [drops, if_neg (by simp [hclosed])]
  | false =>
    have hne : ¬sub.closed = true := by rw [hclosed]; exact Bool.false_ne_true
    by_cases hfull : sub.queue.Full
    · have hput : sub.queue.putNowait data = none := if_pos hfull
      have hdrops : sub.drops data = match sub.slowPolicy with
          | .dropOldest => sub.queue.items.take 1
          | .dropNewest | .disconnect => [data] := if_pos ⟨hclosed, hfull⟩
      have henqueue : sub.enqueue data = onFull { sub with slowCount := sub.slowCount + 1 } data := by
        rw [enqueue, if_neg hne, hput]
      cases hpolicy : sub.slowPolicy with
      | dropOldest =>
        obtain ⟨hpos, hle⟩ := hfull
        have hlen := hbound hpos
        cases hitems : sub.queue.items with
        | nil =>
          rw [hitems, List.length_nil] at hle
          omega
        | cons oldest items =>
          rw [hitems, List.length_cons] at hlen
          -- there is room for the newcomer again
          have hroom : ¬(⟨sub.queue.maxsize, items⟩ : Queue α).Full := fun h => by
            have := h.2
            simp only at this
            omega
          have hget : sub.queue.getNowait = some (oldest, ⟨sub.queue.maxsize, items⟩) :=
            Queue.getNowait_eq_some_iff.2 (by rw [← hitems])
          refine Or.inr (Or.inr (Or.inl ⟨rfl, ⟨hpos, by rw [hitems]; exact hitems ▸ hle⟩, rfl, oldest, items, rfl, ?_, ?_⟩))
          · rw [henqueue]
            simp only [onFull, hpolicy, hget, Queue.putNowait, if_neg hroom, hclosed]
          · rw [hdrops, hpolicy, hitems]
            rfl
      | dropNewest =>
        refine Or.inr (Or.inr (Or.inr (Or.inl ⟨rfl, hfull, rfl, ?_, ?_⟩)))
        · rw [henqueue]
          simp only [onFull, hpolicy, hclosed]
        · rw [hdrops, hpolicy]
      | disconnect =>
        refine Or.inr (Or.inr (Or.inr (Or.inr ⟨rfl, hfull, rfl, ?_, ?_⟩)))
        · rw [henqueue]
          simp only [onFull, hpolicy, closeFromFanout]
        · rw [hdrops, hpolicy]
    · refine Or.inr (Or.inl ⟨rfl, hfull, ?_, ?_⟩)
      · rw [enqueue, if_neg hne, Queue.putNowait, if_neg hfull]
        simp only [hclosed]
      · rw [drops, if_neg (fun h => hfull h.2)]

/-! ### What the steps do -/

/-- A step of the consumer's side: items go from the queue to the call and from the call to its caller in their order, but
for the items `l`, which are lost. -/
structure Moves (s s' : State α) (l : List α) : Prop where
  sub : s'.sub = { s.sub with queue := ⟨s.sub.queue.maxsize, s'.items⟩, deliveredCount := s'.sub.deliveredCount }
  enqueued : s'.enqueued = s.enqueued
  dropped : s'.dropped = s.dropped
  count : s'.sub.deliveredCount + s.returned.length = s.sub.deliveredCount + s'.returned.length
  taken : ∃ before after, s.returned ++ s.inFlight ++ s.items = before ++ l ++ after ∧
    s'.returned ++ s'.inFlight ++ s'.items = before ++ after
  queue : s'.items <:+ s.items
  lost : s'.lost = s.lost ++ l

/-- Nothing that has left the queue is given up. -/
def Safe (s : State α) : Act α → Prop
  | .cancel => s.inFlight = []
  | .orphanTakes => False
  | _ => True

/-- What the consumer and the event loop do on their own -/
def Act.Consumer : Act α → Prop
  | .anext | .getTakes | .getCancelled | .closeWaits | .resume => True
  | .enqueue _ | .close | .cancel | .orphanTakes | .orphanCancelled => False

theorem Act.Consumer.safe {a : Act α} (ha : a.Consumer) : Safe s a := by
  cases a with
  | cancel => exact ha.elim
  | orphanTakes => exact ha.elim
  | enqueue data => trivial
  | close => trivial
  | anext => trivial
  | getTakes => trivial
  | getCancelled => trivial
  | closeWaits => trivial
  | resume => trivial
  | orphanCancelled => trivial

/-- A step that only changes where the call is -/
theorem moves_call {call : Call α} {orphans : Nat} (hcall : call.inFlight = s.inFlight) :
    Moves s { s with call := call, orphans := orphans } [] := by
  refine ⟨rfl, rfl, rfl, rfl, ⟨s.returned ++ s.inFlight, s.items, ?_, ?_⟩, List.suffix_rfl, ?_⟩
  · rw [List.append_nil]
  · simp only [State.inFlight, hcall]
  · rw [List.append_nil]

/-- The call returns the item that its task has taken. -/
theorem moves_deliver (hflight : s.inFlight = [data]) : Moves s (s.deliver data) [] := by
  refine ⟨rfl, rfl, rfl, ?_, ⟨s.returned ++ [data], s.items, ?_, ?_⟩, List.suffix_rfl, ?_⟩
  · simp only [State.deliver, List.length_append, List.length_singleton]
    omega
  · rw [hflight, List.append_nil]
  · simp [State.deliver, State.inFlight, Call.inFlight]
  · rw [State.deliver, List.append_nil]

/-- The call returns the head of the queue. -/
theorem moves_pop (hflight : s.inFlight = []) (hget : s.sub.queue.getNowait = some (data, q)) :
    Moves s (State.deliver { s with sub := { s.sub with queue := q } } data) [] := by
  have hqueue := Queue.getNowait_eq_some_iff.1 hget
  have hmax : q.maxsize = s.sub.queue.maxsize := by rw [hqueue]
  have hitems : s.items = data :: q.items := by rw [State.items, hqueue]
  refine ⟨?_, rfl, rfl, ?_, ⟨s.returned ++ [data], q.items, ?_, ?_⟩, ⟨[data], hitems.symm⟩, ?_⟩
  · simp only [State.deliver, State.items, ← hmax]
  · simp only [State.deliver, List.length_append, List.length_singleton]
    omega
  · rw [hflight, hitems]
    simp
  · simp [State.deliver, State.inFlight, Call.inFlight]
  · rw [State.deliver, List.append_nil]

/-- The task takes the head of the queue. -/
theorem moves_take {call : Call α} (hflight : s.inFlight = []) (hget : s.sub.queue.getNowait = some (data, q))
    (hcall : call.inFlight = [data]) : Moves s { s with sub := { s.sub with queue := q }, call := call } [] := by
  have hqueue := Queue.getNowait_eq_some_iff.1 hget
  have hmax : q.maxsize = s.sub.queue.maxsize := by rw [hqueue]
  have hitems : s.items = data :: q.items := by rw [State.items, hqueue]
  refine ⟨?_, rfl, rfl, rfl, ⟨s.returned ++ [data], q.items, ?_, ?_⟩, ⟨[data], hitems.symm⟩, ?_⟩
  · simp only [State.items, ← hmax]
  · rw [hflight, hitems]
    simp
  · simp [State.inFlight, hcall]
  · rw [List.append_nil]

/-- The item that the task of the call has taken is given up. -/
theorem moves_giveUp {call : Call α} (hflight : s.inFlight = [data]) (hcall : call.inFlight = []) :
    Moves s { s with call := call, lost := s.lost ++ [data] } [data] := by
  refine ⟨rfl, rfl, rfl, rfl, ⟨s.returned, s.items, ?_, ?_⟩, List.suffix_rfl, rfl⟩
  · rw [hflight]
  · simp [State.inFlight, hcall]

theorem moves_orphanTakes {orphans : Nat} (hget : s.sub.queue.getNowait = some (data, q)) :
    Moves s { s with sub := { s.sub with queue := q }, orphans := orphans, lost := s.lost ++ [data] } [data] := by
  have hqueue := Queue.getNowait_eq_some_iff.1 hget
  have hmax : q.maxsize = s.sub.queue.maxsize := by rw [hqueue]
  have hitems : s.items = data :: q.items := by rw [State.items, hqueue]
  refine ⟨?_, rfl, rfl, rfl, ⟨s.returned ++ s.inFlight, q.items, ?_, ?_⟩, ⟨[data], hitems.symm⟩, rfl⟩
  · simp only [State.items, ← hmax]
  · rw [hitems]
    simp
  · rfl

/-- Every step but those of the fan-out and of the close moves items; it loses one exactly if it is not safe. -/
theorem moves_of_step {a : Act α} (hs : step s a = some s') (henqueue : ∀ data, a ≠ .enqueue data) (hclose : a ≠ .close) :
    ∃ l, Moves s s' l ∧ (l = [] ↔ Safe s a) := by
  cases a with
  | enqueue data => exact absurd rfl (henqueue data)
  | close => exact absurd rfl hclose
  | anext =>
    have hbegin (hidle : s.inFlight = []) : Moves s s.begin [] := by
      unfold State.begin
      split
      · rename_i data q hget
        exact moves_pop hidle hget
      · refine moves_call ?_
        rw [hidle]
        cases s.sub.closed <;> rfl
    simp only [step] at hs
    split at hs
    · rename_i hcall
      cases hs
      exact ⟨[], hbegin (by rw [State.inFlight, hcall]; rfl), iff_of_true rfl trivial⟩
    · rename_i hcall
      cases hs
      exact ⟨[], hbegin (by rw [State.inFlight, hcall]; rfl), iff_of_true rfl trivial⟩
    · cases hs
    · cases hs
  | getTakes =>
    simp only [step] at hs
    split at hs
    · rename_i closeWait data q hcall hget
      cases hs
      exact ⟨[], moves_take (by rw [State.inFlight, hcall]; rfl) hget rfl, iff_of_true rfl trivial⟩
    · rename_i data q hcall hget
      cases hs
      exact ⟨[], moves_take (by rw [State.inFlight, hcall]; rfl) hget rfl, iff_of_true rfl trivial⟩
    · cases hs
  | getCancelled =>
    simp only [step] at hs
    split at hs
    · rename_i hcall
      cases hs
      exact ⟨[], moves_call (by rw [State.inFlight, hcall]; rfl), iff_of_true rfl trivial⟩
    · cases hs
  | closeWaits =>
    simp only [step] at hs
    split at hs
    · rename_i taken hcall hevent
      cases hs
      refine ⟨[], moves_call ?_, iff_of_true rfl trivial⟩
      rw [State.inFlight, hcall]
      cases taken <;> rfl
    · cases hs
  | resume =>
    simp only [step] at hs
    split at hs
    · rename_i data closeWait hcall
      cases hs
      exact ⟨[], moves_deliver (by rw [State.inFlight, hcall]; rfl), iff_of_true rfl trivial⟩
    · rename_i hcall
      cases hs
      exact ⟨[], moves_call (by rw [State.inFlight, hcall]; rfl), iff_of_true rfl trivial⟩
    · rename_i data hcall
      cases hs
      exact ⟨[], moves_deliver (by rw [State.inFlight, hcall]; rfl), iff_of_true rfl trivial⟩
    · rename_i hcall
      have hflight : s.inFlight = [] := by rw [State.inFlight, hcall]; rfl
      cases hs
      refine ⟨[], ?_, iff_of_true rfl trivial⟩
      unfold State.recover
      split
      · rename_i data q hget
        exact moves_pop hflight hget
      · exact moves_call hflight.symm
    · cases hs
  | cancel =>
    simp only [step] at hs
    split at hs
    · rename_i closeWait hcall
      have hflight : s.inFlight = [] := by rw [State.inFlight, hcall]; rfl
      cases hs
      exact ⟨[], moves_call hflight.symm, iff_of_true rfl hflight⟩
    · rename_i data closeWait hcall
      have hflight : s.inFlight = [data] := by rw [State.inFlight, hcall]; rfl
      cases hs
      exact ⟨[data], moves_giveUp hflight rfl, iff_of_false (List.cons_ne_nil _ _) (by simp [Safe, hflight])⟩
    · rename_i data hcall
      have hflight : s.inFlight = [data] := by rw [State.inFlight, hcall]; rfl
      cases hs
      exact ⟨[data], moves_giveUp hflight rfl, iff_of_false (List.cons_ne_nil _ _) (by simp [Safe, hflight])⟩
    · rename_i getTask hnot hcall
      have hflight : s.inFlight = [] := by
        rw [State.inFlight, hcall]
        cases getTask with
        | done data => exact absurd rfl (hnot data)
        | pending => rfl
        | cancelled => rfl
      cases hs
      exact ⟨[], moves_call rfl, iff_of_true rfl hflight⟩
    · cases hs
    · cases hs
  | orphanTakes =>
    simp only [step] at hs
    split at hs
    · rename_i orphans data q horphans hget
      cases hs
      exact ⟨[data], moves_orphanTakes hget, iff_of_false (List.cons_ne_nil _ _) id⟩
    · cases hs
  | orphanCancelled =>
    simp only [step] at hs
    split at hs
    · cases hs
      exact ⟨[], moves_call rfl, iff_of_true rfl trivial⟩
    · cases hs

/-! ### Every run -/

/-- What holds after every run -/
structure Inv (s : State α) : Prop where
  accounts : (s.enqueued : Multiset α) = s.returned + s.inFlight + s.items + s.dropped + s.lost
  order : (s.returned ++ s.inFlight ++ s.items).Sublist s.enqueued
  bounded : 0 < s.sub.queue.maxsize → s.items.length ≤ s.sub.queue.maxsize
  newest : s.sub.slowPolicy = .dropOldest → s.items <:+ s.enqueued
  slow : s.sub.slowCount = s.dropped.length
  delivered : s.sub.deliveredCount = s.returned.length
  event : s.sub.closeEvent = s.sub.closed
  heard : s.call.HeardClose → s.sub.closed = true
  ended : s.call = .ended → s.items = []

theorem inv_start (queueDepth : Nat) (slowPolicy : SlowPolicy) : Inv (.start queueDepth slowPolicy : State α) := by
  refine ⟨rfl, List.nil_sublist _, fun _ => Nat.zero_le _, fun _ => List.suffix_rfl, rfl, rfl, rfl, fun h => h.elim, ?_⟩
  intro h
  cases h

theorem Moves.closed {l : List α} (h : Moves s s' l) : s'.sub.closed = s.sub.closed := by rw [h.sub]

/-- The item that a queue without its first one has lost -/
private theorem coe_taken {a b c before l after : List α} (h : a ++ b ++ c = before ++ l ++ after) :
    (a + b + c : Multiset α) = before + l + after := by
  rw [Multiset.coe_add, Multiset.coe_add, h, ← Multiset.coe_add, ← Multiset.coe_add]

theorem Inv.moves {l : List α} (hI : Inv s) (h : Moves s s' l) (hheard : s'.call.HeardClose → s.sub.closed = true)
    (hended : s'.call = .ended → s'.items = []) : Inv s' := by
  obtain ⟨before, after, htaken, htaken'⟩ := h.taken
  have hsub := h.sub
  have hmax : s'.sub.queue.maxsize = s.sub.queue.maxsize := by rw [hsub]
  have hpolicy : s'.sub.slowPolicy = s.sub.slowPolicy := by rw [hsub]
  have hslow : s'.sub.slowCount = s.sub.slowCount := by rw [hsub]
  have hevent : s'.sub.closeEvent = s.sub.closeEvent := by rw [hsub]
  refine ⟨?_, ?_, fun hpos => ?_, fun hp => ?_, ?_, ?_, ?_, fun hh => ?_, hended⟩
  · have htaken'' : (s'.returned + s'.inFlight + s'.items : Multiset α) = before + after := by
      rw [Multiset.coe_add, Multiset.coe_add, htaken', ← Multiset.coe_add]
    rw [h.enqueued, h.dropped, h.lost, hI.accounts, coe_taken htaken, htaken'', ← Multiset.coe_add]
    abel
  · rw [h.enqueued, htaken']
    have hbefore : (before ++ after).Sublist (before ++ l ++ after) := by
      rw [List.append_assoc]
      exact (List.sublist_append_right l after).append_left before
    exact (hbefore.trans (by rw [← htaken])).trans hI.order
  · rw [hmax] at hpos ⊢
    exact h.queue.length_le.trans (hI.bounded hpos)
  · rw [h.enqueued]
    exact h.queue.trans (hI.newest (hpolicy ▸ hp))
  · rw [hslow, h.dropped]
    exact hI.slow
  · have hcount := h.count
    have hdelivered := hI.delivered
    omega
  · rw [hevent, h.closed]
    exact hI.event
  · rw [h.closed]
    exact hheard hh

theorem Inv.enqueue (hI : Inv s) (hs : step s (.enqueue data) = some s') : Inv s' := by
  have hcases := Subscription.enqueue_cases hI.bounded data
  have haccounts := hI.accounts
  have horder := hI.order
  have hslow := hI.slow
  cases hs
  rcases hcases with ⟨hclosed, hsub, hdrops⟩ | ⟨hopen, hroom, hsub, hdrops⟩ |
    ⟨hopen, hfull, hpolicy, oldest, items, hitems, hsub, hdrops⟩ | ⟨hopen, hfull, hpolicy, hsub, hdrops⟩ |
    ⟨hopen, hfull, hpolicy, hsub, hdrops⟩
  · simp only [hsub, hdrops, hclosed, if_true, List.append_nil]
    exact hI
  · simp only [hsub, hdrops, hopen, Bool.false_eq_true, if_false, List.append_nil]
    refine ⟨?_, ?_, fun hpos => ?_, fun hp => ?_, hslow, hI.delivered, hopen ▸ hI.event, fun hh => ?_, fun he => ?_⟩
    · simp only [State.items, ← Multiset.coe_add] at haccounts ⊢
      rw [haccounts]
      abel
    · rw [State.items, ← List.append_assoc]
      exact horder.append_right [data]
    · have hnot : ¬s.sub.queue.maxsize ≤ s.sub.queue.items.length := fun hle => hroom ⟨hpos, hle⟩
      simp only [State.items, List.length_append, List.length_singleton] at hpos ⊢
      omega
    · obtain ⟨before, hbefore⟩ := hI.newest hp
      exact ⟨before, by rw [← hbefore, List.append_assoc]⟩
    · rw [hI.heard hh] at hopen
      cases hopen
    · have hheard : s.call.HeardClose := by
        have hcall : s.call = .ended := he
        rw [hcall]
        trivial
      rw [hI.heard hheard] at hopen
      cases hopen
  · simp only [hsub, hdrops, hopen, Bool.false_eq_true, if_false]
    have hsuffix := hI.newest hpolicy
    refine ⟨?_, ?_, fun hpos => ?_, fun _ => ?_, ?_, hI.delivered, hopen ▸ hI.event, fun hh => ?_, fun he => ?_⟩
    · simp only [State.items, hitems, ← Multiset.coe_add, ← Multiset.cons_coe, ← Multiset.singleton_add] at haccounts ⊢
      rw [haccounts]
      abel
    · rw [State.items, hitems] at horder
      rw [State.items, ← List.append_assoc]
      exact (((List.sublist_cons_self oldest items).append_left _).trans horder).append_right [data]
    · have hlen := hI.bounded hpos
      rw [State.items, hitems, List.length_cons] at hlen
      simp only [State.items, List.length_append, List.length_singleton]
      omega
    · obtain ⟨before, hbefore⟩ := hsuffix
      rw [State.items, hitems] at hbefore
      refine ⟨before ++ [oldest], ?_⟩
      change before ++ [oldest] ++ (items ++ [data]) = s.enqueued ++ [data]
      rw [← hbefore]
      simp
    · rw [List.length_append, List.length_singleton, ← hslow]
    · rw [hI.heard hh] at hopen
      cases hopen
    · have hnil : s.items = [] := hI.ended he
      rw [State.items, hitems] at hnil
      cases hnil
  · simp only [hsub, hdrops, hopen, Bool.false_eq_true, if_false]
    refine ⟨?_, ?_, hI.bounded, fun hp => ?_, ?_, hI.delivered, hopen ▸ hI.event, fun hh => ?_, hI.ended⟩
    · simp only [State.items, ← Multiset.coe_add] at haccounts ⊢
      rw [haccounts]
      abel
    · exact horder.trans (List.sublist_append_left _ _)
    · rw [hpolicy] at hp
      cases hp
    · rw [List.length_append, List.length_singleton, ← hslow]
    · rw [hI.heard hh] at hopen
      cases hopen
  · simp only [hsub, hdrops, hopen, Bool.false_eq_true, if_false]
    refine ⟨?_, ?_, hI.bounded, fun hp => ?_, ?_, hI.delivered, rfl, fun _ => rfl, hI.ended⟩
    · simp only [State.items, ← Multiset.coe_add] at haccounts ⊢
      rw [haccounts]
      abel
    · exact horder.trans (List.sublist_append_left _ _)
    · rw [hpolicy] at hp
      cases hp
    · rw [List.length_append, List.length_singleton, ← hslow]

/-- Only the close signal ends the calls, and only when the queue is empty. -/
theorem Inv.call {a : Act α} (hI : Inv s) (hs : step s a = some s') (henqueue : ∀ data, a ≠ .enqueue data)
    (hclose : a ≠ .close) : (s'.call.HeardClose → s.sub.closed = true) ∧ (s'.call = .ended → s'.items = []) := by
  have hrest (h : s'.call = s.call) (hitems : s'.items <:+ s.items) :
      (s'.call.HeardClose → s.sub.closed = true) ∧ (s'.call = .ended → s'.items = []) := by
    rw [h]
    refine ⟨hI.heard, fun he => ?_⟩
    rw [hI.ended he] at hitems
    exact List.suffix_nil.1 hitems
  cases a with
  | enqueue data => exact absurd rfl (henqueue data)
  | close => exact absurd rfl hclose
  | anext =>
    have hbegin : (s.begin.call.HeardClose → s.sub.closed = true) ∧ (s.begin.call = .ended → s.begin.items = []) := by
      unfold State.begin
      cases hget : s.sub.queue.getNowait with
      | some p =>
        refine ⟨fun hh => hh.elim, fun he => ?_⟩
        cases he
      | none =>
        have hnil := Queue.getNowait_eq_none_iff.1 hget
        cases hclosed : s.sub.closed with
        | true => exact ⟨fun _ => rfl, fun _ => hnil⟩
        | false =>
          refine ⟨fun hh => ?_, fun _ => hnil⟩
          cases hh
    simp only [step] at hs
    split at hs <;> cases hs <;> exact hbegin
  | getTakes =>
    simp only [step] at hs
    split at hs
    · rename_i closeWait data q hcall hget
      cases hs
      refine ⟨fun hh => hI.heard (by rw [hcall]; exact hh), fun he => ?_⟩
      cases he
    · rename_i data q hcall hget
      cases hs
      refine ⟨fun _ => hI.heard (by rw [hcall]; trivial), fun he => ?_⟩
      cases he
    · cases hs
  | getCancelled =>
    simp only [step] at hs
    split at hs
    · rename_i hcall
      cases hs
      refine ⟨fun _ => hI.heard (by rw [hcall]; trivial), fun he => ?_⟩
      cases he
    · cases hs
  | closeWaits =>
    simp only [step] at hs
    split at hs
    · rename_i taken hcall hevent
      cases hs
      refine ⟨fun _ => by rw [← hI.event, hevent], fun he => ?_⟩
      cases he
    · cases hs
  | resume =>
    have hdeliver {t : State α} (data : α) :
        ((t.deliver data).call.HeardClose → s.sub.closed = true) ∧ ((t.deliver data).call = .ended → (t.deliver data).items = []) := by
      refine ⟨fun hh => hh.elim, fun he => ?_⟩
      cases he
    simp only [step] at hs
    split at hs
    · cases hs
      exact hdeliver _
    · rename_i hcall
      cases hs
      refine ⟨fun _ => hI.heard (by rw [hcall]; rfl), fun he => ?_⟩
      cases he
    · cases hs
      exact hdeliver _
    · rename_i hcall
      cases hs
      unfold State.recover
      cases hget : s.sub.queue.getNowait with
      | some p => exact hdeliver _
      | none => exact ⟨fun _ => hI.heard (by rw [hcall]; trivial), fun _ => Queue.getNowait_eq_none_iff.1 hget⟩
    · cases hs
  | cancel =>
    simp only [step] at hs
    split at hs
    · cases hs
      refine ⟨fun hh => hh.elim, fun he => ?_⟩
      cases he
    · cases hs
      refine ⟨fun hh => hh.elim, fun he => ?_⟩
      cases he
    · rename_i data hcall
      cases hs
      refine ⟨fun _ => hI.heard (by rw [hcall]; trivial), fun he => ?_⟩
      cases he
    · cases hs
      exact hrest rfl List.suffix_rfl
    · cases hs
    · cases hs
  | orphanTakes =>
    simp only [step] at hs
    split at hs
    · rename_i orphans data q horphans hget
      cases hs
      exact hrest rfl ⟨[data], by rw [State.items, State.items, Queue.getNowait_eq_some_iff.1 hget]; rfl⟩
    · cases hs
  | orphanCancelled =>
    simp only [step] at hs
    split at hs
    · cases hs
      exact hrest rfl List.suffix_rfl
    · cases hs

theorem Inv.step {a : Act α} (hI : Inv s) (hs : SlowConsumer.step s a = some s') : Inv s' := by
  by_cases henqueue : ∃ data, a = .enqueue data
  · obtain ⟨data, rfl⟩ := henqueue
    exact hI.enqueue hs
  by_cases hclose : a = .close
  · subst hclose
    cases hs
    exact ⟨hI.accounts, hI.order, hI.bounded, hI.newest, hI.slow, hI.delivered, rfl, fun _ => rfl, hI.ended⟩
  · have henqueue' : ∀ data, a ≠ .enqueue data := fun data h => henqueue ⟨data, h⟩
    obtain ⟨l, hmoves, -⟩ := moves_of_step hs henqueue' hclose
    obtain ⟨hheard, hended⟩ := hI.call hs henqueue' hclose
    exact hI.moves hmoves hheard hended

/-- The policy and the depth stay. -/
theorem Inv.config {a : Act α} (hI : Inv s) (hs : SlowConsumer.step s a = some s') :
    s'.sub.slowPolicy = s.sub.slowPolicy ∧ s'.sub.queue.maxsize = s.sub.queue.maxsize := by
  by_cases henqueue : ∃ data, a = .enqueue data
  · obtain ⟨data, rfl⟩ := henqueue
    have hcases := Subscription.enqueue_cases hI.bounded data
    cases hs
    rcases hcases with ⟨-, hsub, -⟩ | ⟨-, -, hsub, -⟩ | ⟨-, -, -, oldest, items, -, hsub, -⟩ | ⟨-, -, -, hsub, -⟩ |
      ⟨-, -, -, hsub, -⟩ <;> simp only [hsub, and_self]
  by_cases hclose : a = .close
  · subst hclose
    cases hs
    exact ⟨rfl, rfl⟩
  · obtain ⟨l, hmoves, -⟩ := moves_of_step hs (fun data h => henqueue ⟨data, h⟩) hclose
    rw [hmoves.sub]
    exact ⟨rfl, rfl⟩

theorem inv_run {queueDepth : Nat} {slowPolicy : SlowPolicy} {acts : List (Act α)}
    (hrun : run step (.start queueDepth slowPolicy) acts = some s) :
    Inv s ∧ s.sub.slowPolicy = slowPolicy ∧ s.sub.queue.maxsize = queueDepth := by
  refine run_invariant (fun s => Inv s ∧ s.sub.slowPolicy = slowPolicy ∧ s.sub.queue.maxsize = queueDepth)
    (fun s a s' hI hs => ?_) ⟨inv_start .., rfl, rfl⟩ hrun
  obtain ⟨hpolicy, hmax⟩ := hI.1.config hs
  exact ⟨hI.1.step hs, hpolicy.trans hI.2.1, hmax.trans hI.2.2⟩

/-- Under `dropNewest` the policy drops something only when the queue is full. -/
theorem Inv.dropNewest {a : Act α} (hI : Inv s) (hpolicy : s.sub.slowPolicy = .dropNewest)
    (hs : SlowConsumer.step s a = some s') (hdropped : s'.dropped ≠ s.dropped) :
    s.items.length = s.sub.queue.maxsize ∧ s'.items = s.items := by
  by_cases henqueue : ∃ data, a = .enqueue data
  · obtain ⟨data, rfl⟩ := henqueue
    have hcases := Subscription.enqueue_cases hI.bounded data
    cases hs
    rcases hcases with ⟨-, -, hdrops⟩ | ⟨-, -, -, hdrops⟩ | ⟨-, -, hp, -⟩ | ⟨-, hfull, -, hsub, -⟩ | ⟨-, -, hp, -⟩
    · exact absurd (by rw [hdrops, List.append_nil]) hdropped
    · exact absurd (by rw [hdrops, List.append_nil]) hdropped
    · rw [hpolicy] at hp
      cases hp
    · exact ⟨le_antisymm (hI.bounded hfull.1) hfull.2, by simp only [State.items, hsub]⟩
    · rw [hpolicy] at hp
      cases hp
  by_cases hclose : a = .close
  · subst hclose
    cases hs
    exact absurd rfl hdropped
  · obtain ⟨l, hmoves, -⟩ := moves_of_step hs (fun data h => henqueue ⟨data, h⟩) hclose
    exact absurd hmoves.dropped hdropped

/-! ### The calls go on -/

/-- The rest of the call weighs less from step to step, and an item more than any call. -/
def weight (s : State α) : Nat :=
  5 * s.items.length + match s.call with
    | .idle => 5
    | .waiting none false => 4
    | .waiting none true => 3
    | .waiting (some _) false => 7
    | .waiting (some _) true => 6
    | .recovering .pending => 2
    | .recovering (.done _) => 6
    | .recovering .cancelled => 1
    | .ended => 0

theorem weight_le (s : State α) : weight s ≤ 5 * (s.inFlight ++ s.items).length + 5 := by
  obtain ⟨sub, call, orphans, enqueued, returned, dropped, lost⟩ := s
  simp only [weight, State.inFlight, State.items, List.length_append]
  rcases call with _ | ⟨_ | _, _ | _⟩ | (_ | _ | _) | _ <;>
    simp only [Call.inFlight, List.length_nil, List.length_singleton] <;> omega

theorem length_of_getNowait (hget : s.sub.queue.getNowait = some (data, q)) : s.items.length = q.items.length + 1 := by
  rw [State.items, Queue.getNowait_eq_some_iff.1 hget, List.length_cons]

theorem weight_step {a : Act α} (ha : a.Consumer) (hne : s.call ≠ .ended) (hs : step s a = some s') :
    weight s' < weight s := by
  cases a with
  | enqueue data => exact ha.elim
  | close => exact ha.elim
  | cancel => exact ha.elim
  | orphanTakes => exact ha.elim
  | orphanCancelled => exact ha.elim
  | anext =>
    simp only [step] at hs
    split at hs
    · rename_i hcall
      cases hs
      unfold State.begin
      split
      · rename_i data q hget
        have hlen := length_of_getNowait hget
        simp only [weight, State.deliver, State.items, hcall] at hlen ⊢
        omega
      · simp only [weight, State.items, hcall]
        cases s.sub.closed <;> simp
    · rename_i hcall
      exact absurd hcall hne
    · cases hs
    · cases hs
  | getTakes =>
    simp only [step] at hs
    split at hs
    · rename_i closeWait data q hcall hget
      cases hs
      have hlen := length_of_getNowait hget
      cases closeWait <;> simp only [weight, State.items, hcall] at hlen ⊢ <;> omega
    · rename_i data q hcall hget
      cases hs
      have hlen := length_of_getNowait hget
      simp only [weight, State.items, hcall] at hlen ⊢
      omega
    · cases hs
  | getCancelled =>
    simp only [step] at hs
    split at hs
    · rename_i hcall
      cases hs
      simp only [weight, State.items, hcall]
      omega
    · cases hs
  | closeWaits =>
    simp only [step] at hs
    split at hs
    · rename_i taken hcall hevent
      cases hs
      cases taken <;> simp only [weight, State.items, hcall] <;> omega
    · cases hs
  | resume =>
    simp only [step] at hs
    split at hs
    · rename_i data closeWait hcall
      cases hs
      cases closeWait <;> simp only [weight, State.deliver, State.items, hcall] <;> omega
    · rename_i hcall
      cases hs
      simp only [weight, State.items, hcall]
      omega
    · rename_i data hcall
      cases hs
      simp only [weight, State.deliver, State.items, hcall]
      omega
    · rename_i hcall
      cases hs
      unfold State.recover
      split
      · rename_i data q hget
        have hlen := length_of_getNowait hget
        simp only [weight, State.deliver, State.items, hcall] at hlen ⊢
        omega
      · simp only [weight, State.items, hcall]
        omega
    · cases hs

/-- The calls of the consumer can go on as long as there are items or the subscription is closed. -/
theorem Inv.progress (hI : Inv s) (hne : s.call ≠ .ended) (hmore : s.inFlight ++ s.items ≠ [] ∨ s.sub.closed = true) :
    ∃ a : Act α, a.Consumer ∧ ∃ s', SlowConsumer.step s a = some s' := by
  cases hcall : s.call with
  | idle => exact ⟨.anext, trivial, s.begin, by simp only [SlowConsumer.step, hcall]⟩
  | ended => exact absurd hcall hne
  | waiting taken closeWait =>
    cases taken with
    | some data => exact ⟨.resume, trivial, s.deliver data, by simp only [SlowConsumer.step, hcall]⟩
    | none =>
      cases closeWait with
      | true => exact ⟨.resume, trivial, _, by simp only [SlowConsumer.step, hcall]; rfl⟩
      | false =>
        cases hget : s.sub.queue.getNowait with
        | some p =>
          obtain ⟨data, q⟩ := p
          exact ⟨.getTakes, trivial, _, by simp only [SlowConsumer.step, hcall, hget]; rfl⟩
        | none =>
          have hnil : s.items = [] := Queue.getNowait_eq_none_iff.1 hget
          have hflight : s.inFlight = [] := by rw [State.inFlight, hcall]; rfl
          rw [hnil, hflight] at hmore
          have hclosed : s.sub.closed = true := hmore.resolve_left fun h => h rfl
          have hevent : s.sub.closeEvent = true := hI.event.trans hclosed
          exact ⟨.closeWaits, trivial, _, by simp only [SlowConsumer.step, hcall, hevent]; rfl⟩
  | recovering getTask =>
    cases getTask with
    | pending => exact ⟨.getCancelled, trivial, _, by simp only [SlowConsumer.step, hcall]; rfl⟩
    | done data => exact ⟨.resume, trivial, s.deliver data, by simp only [SlowConsumer.step, hcall]⟩
    | cancelled => exact ⟨.resume, trivial, s.recover, by simp only [SlowConsumer.step, hcall]⟩

theorem Act.Consumer.moves {a : Act α} (ha : a.Consumer) (hs : step s a = some s') : Moves s s' [] := by
  have henqueue : ∀ data, a ≠ .enqueue data := by
    rintro data rfl
    exact ha
  have hclose : a ≠ .close := by
    rintro rfl
    exact ha
  obtain ⟨l, hmoves, hsafe⟩ := moves_of_step hs henqueue hclose
  rwa [hsafe.2 ha.safe] at hmoves

theorem Moves.conserved (h : Moves s s' []) :
    s'.returned ++ s'.inFlight ++ s'.items = s.returned ++ s.inFlight ++ s.items := by
  obtain ⟨before, after, htaken, htaken'⟩ := h.taken
  rw [htaken, htaken', List.append_nil]

/-- From here on the consumer, called again and again until it ends, gets what has not been returned yet in its order,
in whatever order its tasks take their turns: it makes so many steps at most, and when it can make no more, it has got
everything, and has ended if the subscription is closed. -/
def Drains (s : State α) : Prop :=
  ∀ (acts : List (Act α)) (s' : State α), (∀ a ∈ acts, a.Consumer) → Meets step (fun s _ => s.call ≠ .ended) s acts →
    run step s acts = some s' →
      acts.length ≤ 5 * (s.inFlight ++ s.items).length + 5 ∧
      s'.returned ++ s'.inFlight ++ s'.items = s.returned ++ s.inFlight ++ s.items ∧
      (s'.call = .ended ∨ (∀ a : Act α, a.Consumer → step s' a = none) →
        s'.returned = s.returned ++ s.inFlight ++ s.items ∧ (s.sub.closed = true → s'.call = .ended))

theorem Inv.drains (hI : Inv s) : Drains s := by
  intro acts s' hacts hopen hrun
  have hall : Inv s' ∧ s'.sub.closed = s.sub.closed ∧ weight s' + acts.length ≤ weight s ∧
      s'.returned ++ s'.inFlight ++ s'.items = s.returned ++ s.inFlight ++ s.items := by
    induction acts generalizing s with
    | nil =>
      cases hrun
      exact ⟨hI, rfl, le_rfl, rfl⟩
    | cons a acts ih =>
      obtain ⟨s₁, hs, hrest⟩ := run_cons.1 hrun
      have ha := hacts a (List.mem_cons_self ..)
      have hmoves : Moves s s₁ [] := ha.moves hs
      obtain ⟨hI', hclosed, hweight, hconserved⟩ := ih (hI.step hs) (fun b hb => hacts b (List.mem_cons_of_mem _ hb))
        (hopen.2 s₁ hs) hrest
      have hless := weight_step ha hopen.1 hs
      refine ⟨hI', hclosed.trans hmoves.closed, ?_, hconserved.trans hmoves.conserved⟩
      rw [List.length_cons]
      omega
  obtain ⟨hI', hclosed, hweight, hconserved⟩ := hall
  have hle := weight_le s
  refine ⟨by omega, hconserved, fun hstuck => ?_⟩
  by_cases hended : s'.call = .ended
  · refine ⟨?_, fun _ => hended⟩
    have hflight : s'.inFlight = [] := by rw [State.inFlight, hended]; rfl
    rw [← hconserved, hflight, hI'.ended hended, List.append_nil, List.append_nil]
  · have hnone := hstuck.resolve_left hended
    have hless : ¬(s'.inFlight ++ s'.items ≠ [] ∨ s'.sub.closed = true) := fun hmore => by
      obtain ⟨a, ha, s'', hs⟩ := hI'.progress hended hmore
      rw [hnone a ha] at hs
      cases hs
    rw [not_or, not_not] at hless
    refine ⟨?_, fun hc => absurd (hclosed.trans hc) hless.2⟩
    rw [← hconserved, List.append_assoc, hless.1, List.append_nil]

/-! ### Without cancellation -/

variable {queueDepth : Nat} {slowPolicy : SlowPolicy} {acts : List (Act α)}

/-- Nothing is dropped, or the subscription has been closed by the one item that is. -/
structure Kept (s : State α) : Prop where
  inv : Inv s
  noOrphan : s.orphans = 0
  noLoss : s.lost = []
  disconnect : s.sub.slowPolicy = .disconnect →
    (s.dropped = [] ∧ s.enqueued = s.returned ++ s.inFlight ++ s.items) ∨
    ∃ last, s.sub.closed = true ∧ s.dropped = [last] ∧ s.enqueued = s.returned ++ s.inFlight ++ s.items ++ [last]

theorem kept_start (queueDepth : Nat) (slowPolicy : SlowPolicy) : Kept (.start queueDepth slowPolicy : State α) :=
  ⟨inv_start .., rfl, rfl, fun _ => Or.inl ⟨rfl, rfl⟩⟩

theorem Kept.moves (hK : Kept s) (hI' : Inv s') (h : Moves s s' []) (horphans : s'.orphans = 0) : Kept s' := by
  refine ⟨hI', horphans, by rw [h.lost, hK.noLoss, List.append_nil], fun hp => ?_⟩
  have hpolicy : s'.sub.slowPolicy = s.sub.slowPolicy := by rw [h.sub]
  rw [h.dropped, h.enqueued, h.closed, h.conserved]
  exact hK.disconnect (hpolicy ▸ hp)

theorem Kept.enqueue (hK : Kept s) (hs : step s (.enqueue data) = some s') : Kept s' := by
  have hI' := hK.inv.enqueue hs
  have hcases := Subscription.enqueue_cases hK.inv.bounded data
  cases hs
  refine ⟨hI', hK.noOrphan, hK.noLoss, ?_⟩
  rcases hcases with ⟨hclosed, hsub, hdrops⟩ | ⟨hopen, hroom, hsub, hdrops⟩ |
    ⟨hopen, hfull, hpolicy, oldest, items, hitems, hsub, hdrops⟩ | ⟨hopen, hfull, hpolicy, hsub, hdrops⟩ |
    ⟨hopen, hfull, hpolicy, hsub, hdrops⟩
  · simp only [hsub, hdrops, if_pos hclosed, List.append_nil]
    exact hK.disconnect
  · simp only [hsub, hdrops, hopen, Bool.false_eq_true, if_false, List.append_nil]
    intro hp
    rcases hK.disconnect hp with ⟨hdropped, henqueued⟩ | ⟨last, hclosed, -, -⟩
    · refine Or.inl ⟨hdropped, ?_⟩
      rw [henqueued, State.items, List.append_assoc]
    · rw [hclosed] at hopen
      cases hopen
  · simp only [hsub]
    intro hp
    rw [hpolicy] at hp
    cases hp
  · simp only [hsub]
    intro hp
    rw [hpolicy] at hp
    cases hp
  · simp only [hsub, hdrops, hopen, Bool.false_eq_true, if_false]
    intro hp
    rcases hK.disconnect hp with ⟨hdropped, henqueued⟩ | ⟨last, hclosed, -, -⟩
    · refine Or.inr ⟨data, trivial, ?_, ?_⟩
      · rw [hdropped, List.nil_append]
      · rw [henqueued]
    · rw [hclosed] at hopen
      cases hopen

theorem orphans_step {a : Act α} (ha : a.Consumer) (hs : SlowConsumer.step s a = some s') : s'.orphans = s.orphans := by
  cases a with
  | enqueue data => exact ha.elim
  | close => exact ha.elim
  | cancel => exact ha.elim
  | orphanTakes => exact ha.elim
  | orphanCancelled => exact ha.elim
  | anext =>
    have hbegin : s.begin.orphans = s.orphans := by
      unfold State.begin
      split <;> rfl
    simp only [SlowConsumer.step] at hs
    split at hs <;> cases hs <;> exact hbegin
  | getTakes =>
    simp only [SlowConsumer.step] at hs
    split at hs <;> cases hs <;> rfl
  | getCancelled =>
    simp only [SlowConsumer.step] at hs
    split at hs <;> cases hs
    rfl
  | closeWaits =>
    simp only [SlowConsumer.step] at hs
    split at hs <;> cases hs
    rfl
  | resume =>
    have hrecover : s.recover.orphans = s.orphans := by
      unfold State.recover
      split <;> rfl
    simp only [SlowConsumer.step] at hs
    split at hs <;> cases hs
    · rfl
    · rfl
    · rfl
    · exact hrecover

theorem Kept.step {a : Act α} (hK : Kept s) (ha : a ≠ .cancel) (hs : SlowConsumer.step s a = some s') : Kept s' := by
  have hI' := hK.inv.step hs
  have hconsumer (ha : a.Consumer) : Kept s' := hK.moves hI' (ha.moves hs) ((orphans_step ha hs).trans hK.noOrphan)
  cases a with
  | enqueue data => exact hK.enqueue hs
  | close =>
    cases hs
    refine ⟨hI', hK.noOrphan, hK.noLoss, fun hp => ?_⟩
    rcases hK.disconnect hp with hall | ⟨last, -, hlast⟩
    · exact Or.inl hall
    · exact Or.inr ⟨last, rfl, hlast⟩
  | cancel => exact absurd rfl ha
  | orphanTakes =>
    simp only [SlowConsumer.step, hK.noOrphan] at hs
    cases hs
  | orphanCancelled =>
    simp only [SlowConsumer.step, hK.noOrphan] at hs
    cases hs
  | anext => exact hconsumer trivial
  | getTakes => exact hconsumer trivial
  | getCancelled => exact hconsumer trivial
  | closeWaits => exact hconsumer trivial
  | resume => exact hconsumer trivial

/-- What the policies do, after any interleaving of `_enqueue`, closes and calls that are not cancelled.  What the task of
the call has taken is returned by that call, so it counts as delivered; what is retained is in the queue. -/
theorem slow_policy_law (queueDepth : Nat) (slowPolicy : SlowPolicy) (hdepth : 1 ≤ queueDepth) (acts : List (Act α))
    (hcancel : ∀ a ∈ acts, a ≠ .cancel) (s : State α) (hrun : run step (.start queueDepth slowPolicy) acts = some s) :
    (s.returned ++ s.inFlight ++ s.items).Sublist s.enqueued ∧
    (s.enqueued : Multiset α) = s.returned + s.inFlight + s.items + s.dropped ∧
    (slowPolicy = .dropOldest → s.items <:+ s.enqueued ∧ s.items.length ≤ queueDepth) ∧
    (slowPolicy = .dropNewest → ∀ a s', step s a = some s' → s'.dropped ≠ s.dropped →
      s.items.length = queueDepth ∧ s'.items = s.items) ∧
    (slowPolicy ≠ .disconnect →
      s.enqueued.length = (s.returned ++ s.inFlight).length + s.items.length + s.sub.slowCount) ∧
    (slowPolicy = .disconnect →
      (s.sub.slowCount = 0 ∧ s.enqueued = s.returned ++ s.inFlight ++ s.items) ∨
      ∃ last, s.sub.closed = true ∧ s.sub.slowCount = 1 ∧ s.enqueued = s.returned ++ s.inFlight ++ s.items ++ [last]) ∧
    Drains s := by
  obtain ⟨-, rfl, hmax⟩ := inv_run hrun
  have hK : Kept s := run_invariant_of Kept (fun a => a ≠ .cancel) (fun s a s' hK ha hs => hK.step ha hs) hcancel
    (kept_start ..) hrun
  have haccounts := hK.inv.accounts
  rw [hK.noLoss, Multiset.coe_nil, add_zero] at haccounts
  have hslow := hK.inv.slow
  refine ⟨hK.inv.order, haccounts, fun hp => ⟨hK.inv.newest hp, ?_⟩, ?_, fun hp => ?_, fun hp => ?_, hK.inv.drains⟩
  · rw [← hmax]
    exact hK.inv.bounded (by omega)
  · intro hp a s' hs hdropped
    rw [← hmax]
    exact hK.inv.dropNewest hp hs hdropped
  · have hcard := congrArg Multiset.card haccounts
    simp only [Multiset.card_add, Multiset.coe_card] at hcard
    rw [List.length_append]
    omega
  · rcases hK.disconnect hp with ⟨hdropped, henqueued⟩ | ⟨last, hclosed, hdropped, henqueued⟩
    · exact Or.inl ⟨by rw [hslow, hdropped, List.length_nil], henqueued⟩
    · exact Or.inr ⟨last, hclosed, by rw [hslow, hdropped, List.length_singleton], henqueued⟩

/-- Three items at a queue of two, and a close -/
theorem slow_policy_law_dropOldest : ∃ s : State Nat,
    run step (.start 2 .dropOldest) [.enqueue 1, .enqueue 2, .enqueue 3, .anext, .close, .anext, .anext] = some s ∧
      s.returned = [2, 3] ∧ s.sub.slowCount = 1 ∧
      s.enqueued.length = (s.returned ++ s.inFlight).length + s.items.length + s.sub.slowCount := by
  obtain ⟨s, hrun, hs⟩ := Option.map_eq_some_iff.1 (show (run step (State.start 2 .dropOldest)
    [.enqueue 1, .enqueue 2, .enqueue 3, .anext, .close, .anext, .anext]).map
      (fun s => (s.returned, s.sub.slowCount)) = some ([2, 3], 1) by decide)
  have hcancel : ∀ a ∈ [Act.enqueue 1, .enqueue 2, .enqueue 3, .anext, .close, .anext, .anext], a ≠ .cancel := by
    intro a ha heq
    subst heq
    simp at ha
  obtain ⟨-, -, -, -, hcount, -, -⟩ := slow_policy_law 2 .dropOldest (by decide) _ hcancel s hrun
  rw [Prod.mk.injEq] at hs
  exact ⟨s, hrun, hs.1, hs.2, hcount (by decide)⟩

/-! ### With cancellation -/

/-- Only an unsafe step loses something. -/
theorem lost_step {a : Act α} (hs : step s a = some s') :
    s.lost.length ≤ s'.lost.length ∧ (s'.lost.length = s.lost.length ↔ Safe s a) := by
  by_cases henqueue : ∃ data, a = .enqueue data
  · obtain ⟨data, rfl⟩ := henqueue
    cases hs
    exact ⟨le_rfl, iff_of_true rfl trivial⟩
  by_cases hclose : a = .close
  · subst hclose
    cases hs
    exact ⟨le_rfl, iff_of_true rfl trivial⟩
  · obtain ⟨l, hmoves, hsafe⟩ := moves_of_step hs (fun data h => henqueue ⟨data, h⟩) hclose
    rw [hmoves.lost, List.length_append, ← hsafe, ← List.length_eq_zero_iff]
    omega

/-- After any interleaving of `_enqueue`, closes, and calls that may be cancelled at any point: everything that was enqueued
and that the policy has not dropped has been returned or is still returned, in its order, if and only if no call has been
cancelled when its task had an item and no task that a cancelled call left behind has taken one. -/
theorem nothing_lost_iff (queueDepth : Nat) (slowPolicy : SlowPolicy) (acts : List (Act α)) (s : State α)
    (hrun : run step (.start queueDepth slowPolicy) acts = some s) :
    ((s.enqueued : Multiset α) = s.returned + s.inFlight + s.items + s.dropped ∧
        (s.returned ++ s.inFlight ++ s.items).Sublist s.enqueued ∧ Drains s) ↔
      Meets step Safe (.start queueDepth slowPolicy) acts := by
  obtain ⟨hI, -, -⟩ := inv_run hrun
  have hkept := (run_kept_iff Inv (fun s => s.lost.length) Safe (fun s a s' hI hs => ⟨hI.step hs, lost_step hs⟩)
    (inv_start queueDepth slowPolicy) hrun).2
  change s.lost.length = 0 ↔ _ at hkept
  rw [← hkept, List.length_eq_zero_iff]
  have haccounts := hI.accounts
  constructor
  · rintro ⟨hall, -, -⟩
    rw [hall] at haccounts
    exact (Multiset.coe_eq_zero _).1 (left_eq_add.1 haccounts)
  · intro hlost
    rw [hlost, Multiset.coe_nil, add_zero] at haccounts
    exact ⟨haccounts, hI.order, hI.drains⟩

/-- A call that is cancelled while it waits, and one that returns -/
theorem nothing_lost_iff_timeout : ∃ s : State Nat,
    run step (.start 2 .dropOldest) [.anext, .cancel, .enqueue 1, .orphanCancelled, .anext] = some s ∧
      s.returned = [1] ∧ (s.enqueued : Multiset Nat) = s.returned + s.inFlight + s.items + s.dropped := by
  obtain ⟨s, hrun, hs⟩ := Option.map_eq_some_iff.1 (show (run step (State.start 2 .dropOldest)
    [.anext, .cancel, .enqueue 1, .orphanCancelled, .anext]).map (fun s => s.returned) = some [1] by decide)
  refine ⟨s, hrun, hs, ((nothing_lost_iff 2 .dropOldest _ s hrun).2 ?_).1⟩
  refine ⟨trivial, fun s₁ h₁ => ⟨?_, fun s₂ h₂ => ⟨trivial, fun s₃ h₃ => ⟨trivial, fun s₄ h₄ => ⟨trivial, fun _ _ => trivial⟩⟩⟩⟩⟩
  cases h₁
  rfl

/-- The call is cancelled when its task has taken the item. -/
theorem item_lost_by_cancel : ¬∀ (acts : List (Act Nat)) (s : State Nat),
    run step (.start 2 .dropOldest) acts = some s →
      (s.enqueued : Multiset Nat) = s.returned + s.inFlight + s.items + s.dropped := by
  intro hall
  have hrun : run step (State.start 2 .dropOldest) [.anext, .enqueue 1, .getTakes, .cancel] =
      some ⟨⟨⟨2, []⟩, .dropOldest, false, false, 0, 0⟩, .idle, 0, [1], [], [], [1]⟩ := rfl
  have hnone := hall _ _ hrun
  have hcard := congrArg Multiset.card hnone
  simp [State.inFlight, State.items, Call.inFlight] at hcard

end Mmbus.Cast.SlowConsumer
