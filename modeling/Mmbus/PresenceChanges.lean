import Mathlib.Data.List.DropRight
import Mmbus.Presence
import Mmbus.SlowConsumer

/-!
# The changes of a presence

The consumer of a `Presence`, which iterates over its changes: the queue that the records and the scans fill, and the
calls of `__anext__`, which race a `get` of the queue against the close.  A step is what happens between two awaits.

The iterator takes the steps of a subscription's iterator (`step_view`), but it never cancels the task of a call that is
cancelled while it waits, so that the task stays and takes a later change (`changes_kept_iff`).
-/

namespace Mmbus.Cast.Presence

open Transition
open SlowConsumer (Call)

variable {T : Type}

/-! ### Records and scans -/

/-- What a full queue drops when the table goes from `s` to `s'` -/
def overflow (s s' : Presence T) : List PresenceChange :=
  (s.changes ++ s'.emitted.drop s.emitted.length).rdrop s.changesQueueMax

/-- The table emits the changes `new`, and the queue keeps the last ones. -/
structure Emits (s s' : Presence T) (new : List PresenceChange) : Prop where
  emitted : s'.emitted = s.emitted ++ new
  changes : s'.changes = (s.changes ++ new).rtake s.changesQueueMax
  changesQueueMax : s'.changesQueueMax = s.changesQueueMax

section
variable {s s' s'' : Presence T} {new new' : List PresenceChange}

private theorem rtake_append_rtake {α : Type} (n : Nat) (l l' : List α) :
    (l.rtake n ++ l').rtake n = (l ++ l').rtake n := by
  simp only [List.rtake_eq_reverse_take_reverse, List.reverse_append, List.reverse_reverse, List.take_append,
    List.take_take, Nat.min_eq_left (Nat.sub_le n _)]

private theorem rtake_of_length_le {α : Type} {n : Nat} {l : List α} (h : l.length ≤ n) : l.rtake n = l := by
  rw [List.rtake, Nat.sub_eq_zero_of_le h, List.drop_zero]

theorem Emits.trans (h : Emits s s' new) (h' : Emits s' s'' new') : Emits s s'' (new ++ new') := by
  refine ⟨?_, ?_, h'.changesQueueMax.trans h.changesQueueMax⟩
  · rw [h'.emitted, h.emitted, List.append_assoc]
  · rw [h'.changes, h.changesQueueMax, h.changes, rtake_append_rtake, List.append_assoc]

/-- The queue of a `Presence` has room for a change, and is never longer than that. -/
structure Bounded (s : Presence T) : Prop where
  pos : 0 < s.changesQueueMax
  length : s.changes.length ≤ s.changesQueueMax

theorem Emits.bounded (h : Emits s s' new) (hb : s.Bounded) : s'.Bounded := by
  refine ⟨h.changesQueueMax ▸ hb.pos, ?_⟩
  rw [h.changes, h.changesQueueMax, List.rtake, List.length_drop]
  omega

theorem emits_nil (hb : s.Bounded) (members : Dict Str T) : Emits s { s with members := members } [] := by
  refine ⟨?_, ?_, rfl⟩
  · rw [List.append_nil]
  · rw [List.append_nil, rtake_of_length_le hb.length]

theorem emits_emitChange (hb : s.Bounded) (members : Dict Str T) (change : PresenceChange) :
    Emits s (emitChange { s with members := members } change) [change] := by
  refine ⟨rfl, ?_, rfl⟩
  obtain ⟨n, hn⟩ := Nat.exists_eq_succ_of_ne_zero hb.pos.ne'
  have hlength := hb.length
  rw [hn] at hlength
  rw [emitChange, hn, List.rtake_concat_succ]
  by_cases hroom : s.changes.length < n + 1
  · rw [if_pos hroom, rtake_of_length_le (Nat.le_of_lt_succ hroom)]
  · have hdrop : s.changes.length - n = 1 := by omega
    rw [if_neg hroom, List.rtake, hdrop, List.drop_one]

theorem emits_apply (hb : s.Bounded) (member : Str) (kind : Kind) (now : T) :
    ∃ new, Emits s (s.apply member kind now) new := by
  cases kind with
  | leave =>
    simp only [Presence.apply]
    split_ifs
    · exact ⟨_, emits_emitChange hb _ _⟩
    · exact ⟨_, emits_nil hb s.members⟩
  | join | heartbeat =>
    simp only [Presence.apply]
    split_ifs
    · exact ⟨_, emits_nil hb s.members⟩
    · exact ⟨_, emits_nil hb _⟩
    · exact ⟨_, emits_emitChange hb _ _⟩

theorem emits_evict_all (hb : s.Bounded) (ms : List Str) : ∃ new, Emits s (ms.foldl Presence.evict s) new := by
  induction ms generalizing s with
  | nil => exact ⟨_, emits_nil hb s.members⟩
  | cons m ms ih =>
    have hfirst : Emits s (s.evict m) [⟨m, false⟩] := emits_emitChange hb _ _
    obtain ⟨new, hrest⟩ := ih (hfirst.bounded hb)
    exact ⟨_, hfirst.trans hrest⟩

theorem emits_step [Sub T] [LT T] [DecidableLT T] {a : Act T} (hb : s.Bounded) (hs : s.step a = some s') :
    ∃ new, Emits s s' new := by
  cases a with
  | consume length loaded now =>
    simp only [step] at hs
    split at hs <;> cases hs
    · exact emits_apply hb _ _ now
    · exact ⟨_, emits_nil hb s.members⟩
  | scan now =>
    cases hs
    exact emits_evict_all hb _

/-- What is in the queue and what it drops -/
theorem Emits.overflow (h : Emits s s' new) : s.overflow s' ++ s'.changes = s.changes ++ new := by
  rw [Presence.overflow, h.emitted, List.drop_left, h.changes, List.rdrop, List.rtake, List.take_append_drop]

end

/-! ### The consumer -/

/-- A `Presence` with the calls of its iterator -/
structure Consumer (T : Type) where
  presence : Presence T
  /-- `_closed`, and `_closed_event` -/
  closed : Bool
  call : Call PresenceChange
  /-- The tasks that cancelled calls have left behind -/
  orphans : Nat
  /-- What the calls have returned -/
  returned : List PresenceChange
  /-- What the full queue has dropped -/
  dropped : List PresenceChange
  /-- What has been taken from the queue by a task nobody looks at any more -/
  swallowed : List PresenceChange

namespace Consumer

def start (presence : Presence T) : Consumer T := ⟨presence, false, .idle, 0, [], [], []⟩

variable (s : Consumer T)

abbrev inFlight : List PresenceChange := s.call.inFlight

/-- What the consumer has been told, or will be -/
def told : List PresenceChange := s.returned ++ s.inFlight ++ s.presence.changes

/-- `get_nowait`; `none` for `QueueEmpty` -/
def getNowait : Option (PresenceChange × Consumer T) :=
  match s.presence.changes with
  | [] => none
  | change :: changes => some (change, { s with presence := { s.presence with changes := changes } })

/-- A call returns. -/
def deliver (change : PresenceChange) : Consumer T := { s with call := .idle, returned := s.returned ++ [change] }

/-- `__anext__` up to its first `await` -/
def begin : Consumer T :=
  match s.getNowait with
  | some (change, s) => s.deliver change
  | none => { s with call := if s.closed then .ended else .waiting none false }

/-- The end of `__anext__` after a `get` that was cancelled -/
def recover : Consumer T :=
  match s.getNowait with
  | some (change, s) => s.deliver change
  | none => { s with call := .ended }

inductive Act (T : Type)
  /-- `_consume_loop` applies a record, or `_eviction_loop` scans. -/
  | table (a : Presence.Act T)
  /-- `__aexit__` -/
  | close
  /-- `__anext__` is called. -/
  | anext
  /-- Its task takes the head of the queue. -/
  | getTakes
  /-- Its task, with the `cancel` of the call, is over without a change. -/
  | getCancelled
  /-- `close_wait` is done. -/
  | closeWaits
  /-- The call goes on after its `await`. -/
  | resume
  /-- `CancelledError` is thrown into the call. -/
  | cancel
  /-- A task that was left behind takes the head of the queue. -/
  | orphanTakes

def Act.isCancel : Act T → Bool
  | .cancel => true
  | _ => false

def step [Sub T] [LT T] [DecidableLT T] (s : Consumer T) : Act T → Option (Consumer T)
  | .table a => (s.presence.step a).map fun presence =>
      { s with presence := presence, dropped := s.dropped ++ s.presence.overflow presence }
  | .close => some { s with closed := true }
  | .anext =>
    match s.call with
    | .idle | .ended => some s.begin
    | .waiting _ _ | .recovering _ => none
  | .getTakes =>
    match s.call, s.getNowait with
    | .waiting none closeWait, some (change, s) => some { s with call := .waiting (some change) closeWait }
    | .recovering .pending, some (change, s) => some { s with call := .recovering (.done change) }
    | _, _ => none
  | .getCancelled =>
    match s.call with
    | .recovering .pending => some { s with call := .recovering .cancelled }
    | _ => none
  | .closeWaits =>
    match s.call, s.closed with
    | .waiting taken false, true => some { s with call := .waiting taken true }
    | _, _ => none
  | .resume =>
    match s.call with
    | .waiting (some change) _ => some (s.deliver change)
    | .waiting none true => some { s with call := .recovering .pending }
    | .recovering (.done change) => some (s.deliver change)
    | .recovering .cancelled => some s.recover
    | _ => none
  | .cancel =>
    match s.call with
    -- only `close_wait` is cancelled
    | .waiting none _ => some { s with call := .idle, orphans := s.orphans + 1 }
    | .waiting (some change) _ => some { s with call := .idle, swallowed := s.swallowed ++ [change] }
    -- the `except` of `await get_task` takes the cancellation for the one of the task
    | .recovering (.done change) =>
      some { s with call := .recovering .cancelled, swallowed := s.swallowed ++ [change] }
    | .recovering _ => some s
    | .idle | .ended => none
  | .orphanTakes =>
    match s.orphans, s.getNowait with
    | orphans + 1, some (change, s) => some { s with orphans := orphans, swallowed := s.swallowed ++ [change] }
    | _, _ => none

/-! ### The iterator of a subscription -/

/-- The consumer, as one of a subscription that drops its oldest items -/
def view : SlowConsumer.State PresenceChange where
  sub := ⟨⟨s.presence.changesQueueMax, s.presence.changes⟩, .dropOldest, s.closed, s.closed, s.dropped.length,
    s.returned.length⟩
  call := s.call
  orphans := s.orphans
  enqueued := s.presence.emitted
  returned := s.returned
  dropped := s.dropped
  lost := s.swallowed

def Act.view : Act T → Option (SlowConsumer.Act PresenceChange)
  | .table _ => none
  | .close => some .close
  | .anext => some .anext
  | .getTakes => some .getTakes
  | .getCancelled => some .getCancelled
  | .closeWaits => some .closeWaits
  | .resume => some .resume
  | .cancel => some .cancel
  | .orphanTakes => some .orphanTakes

variable {s} {s' : Consumer T} {change : PresenceChange}

theorem view_deliver (s : Consumer T) (change : PresenceChange) : (s.deliver change).view = s.view.deliver change := by
  simp only [view, deliver, SlowConsumer.State.deliver, List.length_append, List.length_singleton]

theorem getNowait_cons {changes : List PresenceChange} (h : s.presence.changes = change :: changes) :
    s.getNowait = some (change, { s with presence := { s.presence with changes := changes } }) := by
  rw [getNowait, h]

theorem getNowait_nil (h : s.presence.changes = []) : s.getNowait = none := by rw [getNowait, h]

theorem getNowait_view (s : Consumer T) :
    s.view.sub.queue.getNowait = s.getNowait.map fun p => (p.1, p.2.view.sub.queue) := by
  obtain ⟨presence, closed, call, orphans, returned, dropped, swallowed⟩ := s
  obtain ⟨memberId, ttl, changesQueueMax, members, changes, emitted⟩ := presence
  cases changes <;> rfl

theorem view_begin (s : Consumer T) : s.begin.view = s.view.begin := by
  rw [begin, SlowConsumer.State.begin, getNowait_view]
  cases hchanges : s.presence.changes with
  | nil =>
    rw [getNowait_nil hchanges]
    rfl
  | cons change changes =>
    rw [getNowait_cons hchanges]
    exact view_deliver _ change

theorem view_recover (s : Consumer T) : s.recover.view = s.view.recover := by
  rw [recover, SlowConsumer.State.recover, getNowait_view]
  cases hchanges : s.presence.changes with
  | nil =>
    rw [getNowait_nil hchanges]
    rfl
  | cons change changes =>
    rw [getNowait_cons hchanges]
    exact view_deliver _ change

/-- Only the queue and the call change. -/
structure Quiet (s s' : Consumer T) : Prop where
  presence : s'.presence = { s.presence with changes := s'.presence.changes }
  swallowed : s'.swallowed = s.swallowed
  orphans : s'.orphans = s.orphans

theorem quiet_getNowait (hget : s.getNowait = some (change, s')) : Quiet s s' := by
  cases hchanges : s.presence.changes with
  | nil =>
    rw [getNowait_nil hchanges] at hget
    cases hget
  | cons head changes =>
    rw [getNowait_cons hchanges] at hget
    cases hget
    exact ⟨rfl, rfl, rfl⟩

theorem quiet_begin (s : Consumer T) : Quiet s s.begin := by
  unfold begin
  split
  · obtain ⟨hpresence, hswallowed, horphans⟩ := quiet_getNowait ‹_›
    exact ⟨hpresence, hswallowed, horphans⟩
  · exact ⟨rfl, rfl, rfl⟩

theorem quiet_recover (s : Consumer T) : Quiet s s.recover := by
  unfold recover
  split
  · obtain ⟨hpresence, hswallowed, horphans⟩ := quiet_getNowait ‹_›
    exact ⟨hpresence, hswallowed, horphans⟩
  · exact ⟨rfl, rfl, rfl⟩

section
variable [Sub T] [LT T] [DecidableLT T]

/-- The calls take the steps of a subscription's iterator. -/
theorem step_view {a : Act T} {b : SlowConsumer.Act PresenceChange} (hview : a.view = some b) :
    (s.step a).map view = SlowConsumer.step s.view b := by
  have hcall : s.view.call = s.call := rfl
  cases a with
  | table a => cases hview
  | close =>
    cases hview
    rfl
  | anext =>
    cases hview
    simp only [step, SlowConsumer.step, hcall]
    cases s.call with
    | idle => exact congrArg some s.view_begin
    | ended => exact congrArg some s.view_begin
    | waiting taken closeWait => rfl
    | recovering getTask => rfl
  | getTakes =>
    cases hview
    simp only [step, SlowConsumer.step, hcall, getNowait_view]
    cases hchanges : s.presence.changes with
    | nil =>
      rw [getNowait_nil hchanges]
      rcases s.call with _ | ⟨_ | _, _⟩ | (_ | _ | _) | _ <;> rfl
    | cons change changes =>
      rw [getNowait_cons hchanges]
      rcases s.call with _ | ⟨_ | _, _⟩ | (_ | _ | _) | _ <;> rfl
  | getCancelled =>
    cases hview
    simp only [step, SlowConsumer.step, hcall]
    rcases s.call with _ | ⟨_ | _, _⟩ | (_ | _ | _) | _ <;> rfl
  | closeWaits =>
    cases hview
    obtain ⟨presence, closed, call, orphans, returned, dropped, swallowed⟩ := s
    rcases call with _ | ⟨_, _ | _⟩ | _ | _ <;> cases closed <;> rfl
  | resume =>
    cases hview
    simp only [step, SlowConsumer.step, hcall]
    rcases s.call with _ | ⟨_ | change, _ | _⟩ | (_ | change | _) | _ <;>
      first | rfl | exact congrArg some (view_deliver s _) | exact congrArg some s.view_recover
  | cancel =>
    cases hview
    simp only [step, SlowConsumer.step, hcall]
    rcases s.call with _ | ⟨_ | _, _⟩ | (_ | _ | _) | _ <;> rfl
  | orphanTakes =>
    cases hview
    have horphans : s.view.orphans = s.orphans := rfl
    simp only [step, SlowConsumer.step, horphans, getNowait_view]
    cases hchanges : s.presence.changes with
    | nil =>
      rw [getNowait_nil hchanges]
      cases s.orphans <;> rfl
    | cons change changes =>
      rw [getNowait_cons hchanges]
      cases s.orphans <;> rfl

theorem view_of_step {a : Act T} {b : SlowConsumer.Act PresenceChange} (hview : a.view = some b)
    (hs : s.step a = some s') : SlowConsumer.step s.view b = some s'.view := by
  rw [← step_view hview, hs, Option.map_some]

/-- A step of the iterator takes changes from the queue only, and a task that was left behind takes one at most. -/
theorem rest_of_step {a : Act T} (htable : ∀ b, a ≠ .table b) (hs : s.step a = some s') :
    s'.presence = { s.presence with changes := s'.presence.changes } ∧
      s'.swallowed.length + s'.orphans ≤ s.swallowed.length + s.orphans + if a.isCancel then 1 else 0 := by
  have hquiet {t : Consumer T} (h : Quiet s t) : t.presence = { s.presence with changes := t.presence.changes } ∧
      t.swallowed.length + t.orphans ≤ s.swallowed.length + s.orphans + if a.isCancel then 1 else 0 := by
    refine ⟨h.presence, ?_⟩
    rw [h.swallowed, h.orphans]
    exact Nat.le_add_right ..
  cases a with
  | table b => exact absurd rfl (htable b)
  | close =>
    cases hs
    exact hquiet ⟨rfl, rfl, rfl⟩
  | anext =>
    simp only [step] at hs
    split at hs <;> cases hs
    · exact hquiet s.quiet_begin
    · exact hquiet s.quiet_begin
  | getTakes =>
    simp only [step] at hs
    split at hs <;> cases hs
    · obtain ⟨hpresence, hswallowed, horphans⟩ := quiet_getNowait ‹_›
      exact hquiet ⟨hpresence, hswallowed, horphans⟩
    · obtain ⟨hpresence, hswallowed, horphans⟩ := quiet_getNowait ‹_›
      exact hquiet ⟨hpresence, hswallowed, horphans⟩
  | getCancelled =>
    simp only [step] at hs
    split at hs <;> cases hs
    exact hquiet ⟨rfl, rfl, rfl⟩
  | closeWaits =>
    simp only [step] at hs
    split at hs <;> cases hs
    exact hquiet ⟨rfl, rfl, rfl⟩
  | resume =>
    simp only [step] at hs
    split at hs <;> cases hs
    · exact hquiet ⟨rfl, rfl, rfl⟩
    · exact hquiet ⟨rfl, rfl, rfl⟩
    · exact hquiet ⟨rfl, rfl, rfl⟩
    · exact hquiet s.quiet_recover
  | cancel =>
    simp only [step] at hs
    split at hs <;> cases hs
    · exact ⟨rfl, le_rfl⟩
    · refine ⟨rfl, ?_⟩
      simp only [List.length_append, List.length_singleton, Act.isCancel, if_true]
      omega
    · refine ⟨rfl, ?_⟩
      simp only [List.length_append, List.length_singleton, Act.isCancel, if_true]
      omega
    · exact hquiet ⟨rfl, rfl, rfl⟩
  | orphanTakes =>
    simp only [step] at hs
    split at hs <;> cases hs
    rename_i orphans change t horphans hget
    obtain ⟨hpresence, hswallowed, -⟩ := quiet_getNowait hget
    refine ⟨hpresence, ?_⟩
    simp only [hswallowed, horphans, List.length_append, List.length_singleton]
    omega

end

/-! ### Every run -/

/-- What holds after every run -/
structure Inv (s : Consumer T) : Prop where
  accounts : (s.presence.emitted : Multiset PresenceChange) = s.told + s.dropped + s.swallowed
  order : s.told.Sublist s.presence.emitted
  newest : s.presence.changes <:+ s.presence.emitted
  bounded : s.presence.Bounded
  tells : s.presence.Tells
  heard : s.call.HeardClose → s.closed = true

theorem inv_start (memberId : Str) (ttl : T) (changesQueueMax : Nat) (now : T) :
    Inv (start (enter memberId ttl changesQueueMax now)) :=
  ⟨rfl, List.nil_sublist _, List.suffix_rfl, ⟨Nat.le_max_left .., Nat.zero_le _⟩, tells_enter .., fun h => h.elim⟩

/-- Before its end the iterator is one of a subscription. -/
theorem Inv.view (hI : Inv s) (hne : s.call ≠ .ended) : SlowConsumer.Inv s.view := by
  refine ⟨?_, hI.order, fun _ => hI.bounded.length, fun _ => hI.newest, rfl, rfl, rfl, hI.heard, fun h => absurd h hne⟩
  have haccounts := hI.accounts
  rw [told, ← Multiset.coe_add, ← Multiset.coe_add] at haccounts
  exact haccounts

/-- The consumer has been told everything, or will be, exactly if nothing has been lost. -/
theorem Inv.told_eq_iff (hI : Inv s) : s.told = s.presence.emitted ↔ s.dropped.length + s.swallowed.length = 0 := by
  have hlength := congrArg Multiset.card hI.accounts
  simp only [Multiset.card_add, Multiset.coe_card] at hlength
  constructor
  · intro htold
    rw [htold] at hlength
    omega
  · intro hlost
    exact hI.order.eq_of_length (by omega)

section
variable [Sub T] [LT T] [DecidableLT T]

/-- The queue has room for what the table emits, and no task takes a change that nobody waits for. -/
def Keeps (s : Consumer T) : Act T → Prop
  | .table a => ∀ presence, s.presence.step a = some presence → s.presence.overflow presence = []
  | .cancel => s.inFlight = []
  | .orphanTakes => False
  | _ => True

theorem exists_view (s : Consumer T) {a : Act T} (htable : ∀ b, a ≠ .table b) (hclose : a ≠ .close) :
    ∃ b, a.view = some b ∧ (∀ data, b ≠ .enqueue data) ∧ b ≠ .close ∧ (SlowConsumer.Safe s.view b ↔ s.Keeps a) := by
  cases a with
  | table b => exact absurd rfl (htable b)
  | close => exact absurd rfl hclose
  | anext | getTakes | getCancelled | closeWaits | resume | cancel | orphanTakes =>
    refine ⟨_, rfl, fun data h => ?_, fun h => ?_, Iff.rfl⟩ <;> cases h

/-- Every step of the iterator moves changes; it loses one exactly if it does not keep them. -/
theorem moves_of_step {a : Act T} (htable : ∀ b, a ≠ .table b) (hclose : a ≠ .close) (hs : s.step a = some s') :
    ∃ l, SlowConsumer.Moves s.view s'.view l ∧ (l = [] ↔ s.Keeps a) := by
  obtain ⟨b, hview, henqueue, hclose', hsafe⟩ := s.exists_view htable hclose
  rw [← hsafe]
  exact SlowConsumer.moves_of_step (view_of_step hview hs) henqueue hclose'

/-- A record or a scan -/
theorem Inv.table {a : Presence.Act T} (hI : Inv s) (hs : s.step (.table a) = some s') : Inv s' := by
  obtain ⟨presence, hstep, rfl⟩ := Option.map_eq_some_iff.1 hs
  obtain ⟨new, hemits⟩ := emits_step hI.bounded hstep
  have hsuffix : presence.changes <:+ s.presence.changes ++ new := ⟨_, hemits.overflow⟩
  refine ⟨?_, ?_, ?_, hemits.bounded hI.bounded, tells_step hI.tells hstep, hI.heard⟩
  · have hqueue : (s.presence.overflow presence + presence.changes : Multiset PresenceChange) =
        s.presence.changes + new := by
      rw [Multiset.coe_add, hemits.overflow, ← Multiset.coe_add]
    have haccounts := hI.accounts
    simp only [told, ← Multiset.coe_add] at haccounts ⊢
    rw [hemits.emitted, ← Multiset.coe_add, haccounts]
    calc (s.returned + s.inFlight + s.presence.changes + s.dropped + s.swallowed + new : Multiset PresenceChange)
        = s.returned + s.inFlight + s.dropped + s.swallowed + (s.presence.changes + new) := by abel
      _ = s.returned + s.inFlight + s.dropped + s.swallowed + (s.presence.overflow presence + presence.changes) := by
        rw [hqueue]
      _ = s.returned + s.inFlight + presence.changes + (s.dropped + s.presence.overflow presence) + s.swallowed := by
        abel
  · rw [hemits.emitted]
    refine (List.Sublist.append_left hsuffix.sublist (s.returned ++ s.inFlight)).trans ?_
    rw [← List.append_assoc]
    exact hI.order.append_right new
  · rw [hemits.emitted]
    refine hsuffix.trans ?_
    obtain ⟨before, hbefore⟩ := hI.newest
    exact ⟨before, by rw [← List.append_assoc, hbefore]⟩

theorem Inv.iterator {a : Act T} (hI : Inv s) (htable : ∀ b, a ≠ .table b) (hclose : a ≠ .close)
    (hs : s.step a = some s') : Inv s' := by
  obtain ⟨l, hmoves, -⟩ := moves_of_step htable hclose hs
  obtain ⟨before, after, htold, htold'⟩ := hmoves.taken
  change s.told = before ++ l ++ after at htold
  change s'.told = before ++ after at htold'
  have hemitted : s'.presence.emitted = s.presence.emitted := hmoves.enqueued
  have hdropped : s'.dropped = s.dropped := hmoves.dropped
  have hswallowed : s'.swallowed = s.swallowed ++ l := hmoves.lost
  have hclosed : s'.closed = s.closed := hmoves.closed
  have hqueue : s'.presence.changes <:+ s.presence.changes := hmoves.queue
  have hpresence := (rest_of_step htable hs).1
  refine ⟨?_, ?_, ?_, ⟨?_, ?_⟩, ?_, fun hheard => ?_⟩
  · rw [hemitted, hdropped, hswallowed, hI.accounts, htold, htold']
    simp only [← Multiset.coe_add]
    abel
  · rw [hemitted, htold']
    refine List.Sublist.trans ?_ hI.order
    rw [htold, List.append_assoc]
    exact (List.sublist_append_right l after).append_left before
  · rw [hemitted]
    exact hqueue.trans hI.newest
  · rw [hpresence]
    exact hI.bounded.pos
  · have hmax : s'.presence.changesQueueMax = s.presence.changesQueueMax := by rw [hpresence]
    rw [hmax]
    exact hqueue.length_le.trans hI.bounded.length
  · rw [hpresence]
    exact ⟨hI.tells.replayed, hI.tells.alternate, hI.tells.last, hI.tells.bounded⟩
  · rw [hclosed]
    by_cases hended : s.call = .ended
    · exact hI.heard (by rw [hended]; trivial)
    · obtain ⟨b, hview, henqueue, hclose', -⟩ := s.exists_view htable hclose
      exact ((hI.view hended).call (view_of_step hview hs) henqueue hclose').1 hheard

theorem Inv.step {a : Act T} (hI : Inv s) (hs : s.step a = some s') : Inv s' := by
  by_cases htable : ∃ b, a = .table b
  · obtain ⟨b, rfl⟩ := htable
    exact hI.table hs
  by_cases hclose : a = .close
  · subst hclose
    cases hs
    exact ⟨hI.accounts, hI.order, hI.newest, hI.bounded, hI.tells, fun _ => rfl⟩
  · exact hI.iterator (fun b h => htable ⟨b, h⟩) hclose hs

theorem memberId_of_step {a : Act T} (hs : s.step a = some s') : s'.presence.memberId = s.presence.memberId := by
  by_cases htable : ∃ b, a = .table b
  · obtain ⟨b, rfl⟩ := htable
    obtain ⟨presence, hstep, rfl⟩ := Option.map_eq_some_iff.1 hs
    exact memberId_step hstep
  · rw [(rest_of_step (fun b h => htable ⟨b, h⟩) hs).1]

/-- Only a step that does not keep the changes loses one. -/
theorem lost_step {a : Act T} (hs : s.step a = some s') :
    s.dropped.length + s.swallowed.length ≤ s'.dropped.length + s'.swallowed.length ∧
      (s'.dropped.length + s'.swallowed.length = s.dropped.length + s.swallowed.length ↔ s.Keeps a) := by
  by_cases htable : ∃ b, a = .table b
  · obtain ⟨b, rfl⟩ := htable
    obtain ⟨presence, hstep, rfl⟩ := Option.map_eq_some_iff.1 hs
    have hkeeps : s.Keeps (.table b) ↔ s.presence.overflow presence = [] := by
      simp only [Keeps, hstep, Option.some.injEq, forall_eq']
    rw [hkeeps, ← List.length_eq_zero_iff]
    simp only [List.length_append]
    omega
  by_cases hclose : a = .close
  · subst hclose
    cases hs
    exact ⟨le_rfl, iff_of_true rfl trivial⟩
  · obtain ⟨l, hmoves, hkeeps⟩ := moves_of_step (fun b h => htable ⟨b, h⟩) hclose hs
    have hdropped : s'.dropped = s.dropped := hmoves.dropped
    have hswallowed : s'.swallowed = s.swallowed ++ l := hmoves.lost
    rw [hdropped, hswallowed, List.length_append, ← hkeeps, ← List.length_eq_zero_iff]
    omega

theorem swallowed_step {a : Act T} (hs : s.step a = some s') :
    s'.swallowed.length + s'.orphans ≤ s.swallowed.length + s.orphans + if a.isCancel then 1 else 0 := by
  by_cases htable : ∃ b, a = .table b
  · obtain ⟨b, rfl⟩ := htable
    obtain ⟨presence, -, rfl⟩ := Option.map_eq_some_iff.1 hs
    exact le_rfl
  · exact (rest_of_step (fun b h => htable ⟨b, h⟩) hs).2

/-! ### The calls go on -/

/-- What the consumer and the event loop do on their own -/
def Act.Own : Act T → Prop
  | .anext | .getTakes | .getCancelled | .closeWaits | .resume => True
  | .table _ | .close | .cancel | .orphanTakes => False

/-- From here on the consumer, called again and again until it ends, gets what it has not been told yet in its order, in
whatever order its tasks take their turns: it makes so many steps at most, and when it can make no more, it has been
told everything, and has ended if the presence is closed. -/
def Drains (s : Consumer T) : Prop :=
  ∀ (acts : List (Act T)) (s' : Consumer T), (∀ a ∈ acts, a.Own) → Meets step (fun s _ => s.call ≠ .ended) s acts →
    run step s acts = some s' →
      acts.length ≤ 5 * (s.inFlight ++ s.presence.changes).length + 5 ∧ s'.told = s.told ∧
      (s'.call = .ended ∨ (∀ a : Act T, a.Own → s'.step a = none) →
        s'.returned = s.told ∧ (s.closed = true → s'.call = .ended))

/-- The steps of a run of the consumer, as a subscription's -/
theorem run_view {acts : List (Act T)} (hacts : ∀ a ∈ acts, a.Own)
    (hopen : Meets step (fun s _ => s.call ≠ .ended) s acts) (hrun : run step s acts = some s') :
    ∃ bs : List (SlowConsumer.Act PresenceChange), bs.length = acts.length ∧ (∀ b ∈ bs, b.Consumer) ∧
      Meets SlowConsumer.step (fun s _ => s.call ≠ .ended) s.view bs ∧
      run SlowConsumer.step s.view bs = some s'.view := by
  induction acts generalizing s with
  | nil =>
    cases hrun
    exact ⟨[], rfl, fun b hb => (List.not_mem_nil hb).elim, trivial, rfl⟩
  | cons a acts ih =>
    obtain ⟨s₁, hs, hrest⟩ := run_cons.1 hrun
    obtain ⟨bs, hlength, hbs, hopen', hrun'⟩ :=
      ih (fun b hb => hacts b (List.mem_cons_of_mem _ hb)) (hopen.2 s₁ hs) hrest
    obtain ⟨b, hview, hb⟩ : ∃ b, a.view = some b ∧ b.Consumer := by
      have ha := hacts a (List.mem_cons_self ..)
      cases a with
      | table b => exact ha.elim
      | close | cancel | orphanTakes => exact ha.elim
      | anext | getTakes | getCancelled | closeWaits | resume => exact ⟨_, rfl, trivial⟩
    have hs' := view_of_step hview hs
    refine ⟨b :: bs, congrArg Nat.succ hlength, ?_, ⟨hopen.1, fun s₂ h₂ => ?_⟩, run_cons.2 ⟨_, hs', hrun'⟩⟩
    · exact List.forall_mem_cons.2 ⟨hb, hbs⟩
    · rw [hs', Option.some.injEq] at h₂
      exact h₂ ▸ hopen'

theorem Inv.drains (hI : Inv s) (hne : s.call ≠ .ended) : Drains s := by
  intro acts s' hacts hopen hrun
  obtain ⟨bs, hlength, hbs, hopen', hrun'⟩ := run_view hacts hopen hrun
  obtain ⟨hle, htold, hstuck⟩ := (hI.view hne).drains bs s'.view hbs hopen' hrun'
  refine ⟨hlength ▸ hle, htold, fun hend => hstuck (hend.imp_right fun hnone b hb => ?_)⟩
  have hstep {a : Act T} (ha : a.Own) (hview : a.view = some b) : SlowConsumer.step s'.view b = none := by
    rw [← step_view hview, hnone a ha, Option.map_none]
  cases b with
  | enqueue data => exact hb.elim
  | close | cancel | orphanTakes | orphanCancelled => exact hb.elim
  | anext => exact hstep (a := .anext) trivial rfl
  | getTakes => exact hstep (a := .getTakes) trivial rfl
  | getCancelled => exact hstep (a := .getCancelled) trivial rfl
  | closeWaits => exact hstep (a := .closeWaits) trivial rfl
  | resume => exact hstep (a := .resume) trivial rfl

/-- After any interleaving of records, scans, the close, and calls that may be cancelled at any point, the consumer has
been told, or will be, what the table has emitted, in its order, but for what the full queue has dropped and for one
change at most for each cancellation; it is told everything if and only if the queue has always had room, no call has been
cancelled when its task had a change and no task of a cancelled call has taken one, and then it knows the members. -/
theorem changes_kept_iff (memberId : Str) (ttl now : T) (changesQueueMax : Nat) (acts : List (Act T)) (s : Consumer T)
    (hrun : run step (start (enter memberId ttl changesQueueMax now)) acts = some s) :
    (s.presence.emitted : Multiset PresenceChange) = s.told + s.dropped + s.swallowed ∧
      s.told.Sublist s.presence.emitted ∧ s.presence.changes <:+ s.presence.emitted ∧
      s.swallowed.length + s.orphans ≤ acts.countP Act.isCancel ∧
      (s.told = s.presence.emitted ↔ Meets step Keeps (start (enter memberId ttl changesQueueMax now)) acts) ∧
      (s.told = s.presence.emitted → ∀ m, m ∈ s.presence.members.keys ↔ m ∈ replay {memberId} s.told) ∧
      (s.call ≠ .ended → Drains s) := by
  have hinv : s.presence.memberId = memberId ∧ Inv s := by
    refine run_invariant (fun s => s.presence.memberId = memberId ∧ Inv s) (fun s a s' hI hs => ?_)
      ⟨rfl, inv_start ..⟩ hrun
    exact ⟨(memberId_of_step hs).trans hI.1, hI.2.step hs⟩
  obtain ⟨rfl, hI⟩ := hinv
  have hcount := run_countup (fun s : Consumer T => s.swallowed.length + s.orphans) Act.isCancel
    (fun _ _ _ => swallowed_step) hrun
  change _ ≤ 0 + _ at hcount
  have hkept := (run_kept_iff Inv (fun s => s.dropped.length + s.swallowed.length) Keeps
    (fun s a s' hI hs => ⟨hI.step hs, lost_step hs⟩) (inv_start ..) hrun).2
  change s.dropped.length + s.swallowed.length = 0 ↔ _ at hkept
  rw [Nat.zero_add] at hcount
  refine ⟨hI.accounts, hI.order, hI.newest, hcount, hI.told_eq_iff.trans hkept, fun htold m => ?_, hI.drains⟩
  rw [htold]
  exact hI.tells.replayed m

/-- A call that is cancelled while it waits, and a member that joins and is evicted -/
theorem changes_kept_iff_timeout : ∃ s,
    run step (start (enter (str "me") (10 : Int) 4 0))
      [.anext, .cancel, .table (.consume 30 (ofYou "join") 1), .orphanTakes, .table (.scan 12)] = some s ∧
      s.presence.emitted = [⟨str "you", true⟩, ⟨str "you", false⟩] ∧ s.told = [⟨str "you", false⟩] ∧
      s.swallowed.length + s.orphans ≤ 1 := by
  obtain ⟨s, hrun, hs⟩ := Option.map_eq_some_iff.1 (show (run step (start (enter (str "me") (10 : Int) 4 0))
      [.anext, .cancel, .table (.consume 30 (ofYou "join") 1), .orphanTakes, .table (.scan 12)]).map
        (fun s => (s.presence.emitted, s.told)) =
      some ([⟨str "you", true⟩, ⟨str "you", false⟩], [⟨str "you", false⟩]) by decide +kernel)
  rw [Prod.mk.injEq] at hs
  exact ⟨s, hrun, hs.1, hs.2, (changes_kept_iff _ _ _ _ _ s hrun).2.2.2.1⟩

end

end Consumer

end Mmbus.Cast.Presence
