import Mmbus.Lib.Dict
import Mmbus.Lib.Transition

/-!
# The fan-out hub of a channel

`_Channel` of mmcast with its coroutines: the calls of `start_subscriptions` that a `subscribe` or the reconnect loop makes,
the opens that such a call gathers, the fan-out tasks, and `close`.  A step runs one coroutine from one `await` to the next.

A fan-out that ends leaves its key in `_mmbus_subs`, so its peer is neither read nor missing (`step_reported`).
-/

namespace Mmbus.Cast

open Transition

/-- A fan-out task: the key of its peer, its mmbus subscription, whether it has not ended, and whether it has been cancelled -/
structure Fanout where
  key : String
  handle : Nat
  running : Bool
  cancelled : Bool
  deriving DecidableEq

/-- An `_open_mmbus_sub` in a gather -/
inductive Opening
  | waiting
  | opened (handle : Nat)
  | offline
  deriving DecidableEq

inductive CoroutineKind
  | subscribe
  | reconnect
  deriving DecidableEq

/-- Where a coroutine awaits.  `created` is a task that has not run yet, `lock` the acquisition of `_start_lock`, `gather` the
opens of `start_subscriptions`, and `sleep` the interval of the reconnect loop. -/
inductive CoroutinePc
  | created
  | lock
  | gather
  | sleep
  | done
  deriving DecidableEq

structure Coroutine where
  kind : CoroutineKind
  pc : CoroutinePc
  cancelled : Bool
  deriving DecidableEq

/-- A `Subscription` that has been handed out: whether it is closed, and whether it is in `_subs` -/
structure Subscription where
  closed : Bool
  attached : Bool
  deriving DecidableEq

/-- Where `close` awaits: the tasks that it has cancelled, by number, or the exit of the mmbus subscription before
`position`, with the size that the iterated dictionary had at first; or how it has ended -/
inductive Closing
  | no
  | tasks (fanouts : List Nat) (reconnect : Option Nat)
  | exits (position size : Nat)
  | returned
  | raised
  deriving DecidableEq

structure Hub where
  /-- The keys of `_peers_or_default` -/
  peers : List String
  closed : Bool
  mmbusSubs : Dict String Nat
  /-- The fan-out tasks, ended ones included -/
  fanouts : List Fanout
  /-- The coroutine that holds `_start_lock`, and the opens that it gathers meanwhile -/
  startLock : Option (Nat × List (String × Opening))
  coroutines : List Coroutine
  reconnectTask : Option Nat
  subs : List Subscription
  /-- The mmbus subscriptions that have been opened: whether `__aexit__` has been called -/
  exited : List Bool
  /-- The opens that nobody awaits any more -/
  strays : Nat
  closing : Closing

namespace Hub

/-- A new channel -/
def create (peers : List String) : Hub where
  peers := peers
  closed := false
  mmbusSubs := .empty
  fanouts := []
  startLock := none
  coroutines := []
  reconnectTask := none
  subs := []
  exited := []
  strays := 0
  closing := .no

variable (s : Hub)

def missingPeers : List String := s.peers.filter fun k => k ∉ s.mmbusSubs.keys

def setPc (i : Nat) (pc : CoroutinePc) : Hub :=
  { s with coroutines := s.coroutines.modify i fun c => { c with pc := pc } }

/-- The end of the reconnect loop -/
def endReconnect (i : Nat) : Hub := { s.setPc i .done with reconnectTask := none }

/-- The condition of the reconnect loop -/
def reconnectLoop (i : Nat) : Hub :=
  if s.closed = false ∧ s.missingPeers ≠ [] then s.setPc i .sleep else s.endReconnect i

/-- What follows `start_subscriptions`: `_attach`, or the next round of the reconnect loop -/
def afterStart (i : Nat) : CoroutineKind → Hub
  | .subscribe => { s.setPc i .done with subs := s.subs ++ [⟨false, true⟩] }
  | .reconnect => s.reconnectLoop i

/-- `start_subscriptions` with the lock, up to its gather -/
def enter (i : Nat) (kind : CoroutineKind) : Hub :=
  if s.closed then s.afterStart i kind
  else if s.missingPeers = [] then s.afterStart i kind
  else { s.setPc i .gather with startLock := some (i, s.missingPeers.map fun k => (k, .waiting)) }

/-- The acquisition of the lock, which is immediate if the lock is free and nobody waits for it -/
def start (i : Nat) (kind : CoroutineKind) : Hub :=
  if s.startLock = none ∧ ∀ c ∈ s.coroutines, c.pc ≠ .lock then s.enter i kind else s.setPc i .lock

/-- A new coroutine -/
def spawn (kind : CoroutineKind) : Hub := { s with coroutines := s.coroutines ++ [⟨kind, .created, false⟩] }

/-- The registration of one mmbus subscription -/
def register (s : Hub) : String × Opening → Hub
  | (key, .opened handle) =>
    { s with mmbusSubs := s.mmbusSubs.set key handle, fanouts := s.fanouts ++ [⟨key, handle, true, false⟩] }
  | _ => s

/-- The reconnect loop is started if a peer is missing. -/
def ensureReconnect : Hub :=
  if s.missingPeers ≠ [] ∧ s.reconnectTask = none then
    { s.spawn .reconnect with reconnectTask := some s.coroutines.length }
  else s

/-- `start_subscriptions` after its gather -/
def finishStart (i : Nat) (kind : CoroutineKind) (opens : List (String × Opening)) : Hub :=
  { (opens.foldl register s).ensureReconnect with startLock := none }.afterStart i kind

/-- The open `j` of the gather has a result. -/
def setOpening (i : Nat) (opens : List (String × Opening)) (j : Nat) (result : Opening) : Hub :=
  { s with startLock := some (i, opens.modify j fun x => (x.1, result)) }

/-- The gather is left behind: what it has opened is lost, and what it still waits for goes on. -/
def abandon (opens : List (String × Opening)) : Hub :=
  { s with startLock := none, strays := s.strays + (opens.filter fun x => x.2 = .waiting).length }

/-- `_close_from_fanout` of every attached `Subscription` -/
def closeSubs : Hub := { s with subs := s.subs.map fun sub => if sub.attached then { sub with closed := true } else sub }

inductive Act
  | subscribe
  | run (i : Nat)
  | acquire (i : Nat)
  | opened (j : Nat)
  | offline (j : Nat)
  | raises (j : Nat)
  | resume
  | wake (i : Nat)
  | cancel (i : Nat)
  | strayOpens
  | strayEnds
  | fanoutEnds (t : Nat) (failed : Bool)
  | fanoutCancelled (t : Nat)
  | leave (n : Nat)
  | disconnect (n : Nat)
  | close
  | closeStep

/-- `close` up to its first `await` -/
def close : Hub :=
  if s.closed then s
  else { s with
    closed := true
    fanouts := s.fanouts.map fun f => if f.running then { f with cancelled := true } else f
    coroutines :=
      match s.reconnectTask with
      | some i => s.coroutines.modify i fun c => { c with cancelled := true }
      | none => s.coroutines
    closing := .tasks (List.range s.fanouts.length) s.reconnectTask }

def finishClose : Hub := { s.closeSubs with mmbusSubs := .empty, closing := .returned }

/-- One more await of `close` is over. -/
def closeStep : Option Hub :=
  match s.closing with
  | .tasks (t :: ts) reconnect =>
    if s.fanouts[t]?.any Fanout.running then none else some { s with closing := .tasks ts reconnect }
  | .tasks [] (some i) =>
    if s.coroutines[i]?.any (fun c => c.pc ≠ .done) then none else some { s with closing := .tasks [] none }
  | .tasks [] none => some { s with closing := .exits 0 s.mmbusSubs.entries.length }
  | .exits position size =>
    if s.mmbusSubs.entries.length ≠ size then some { s with closing := .raised }
    else
      match s.mmbusSubs.values[position]? with
      | some handle => some { s with exited := s.exited.set handle true, closing := .exits (position + 1) size }
      | none => some s.finishClose
  | _ => none

/-- The coroutine `i`, if it is to go on -/
def awake (i : Nat) : Option Coroutine := s.coroutines[i]?.filter fun c => !c.cancelled

/-- The holder of the lock, its kind, and its opens, of which the `j`-th still waits -/
def awaited (j : Nat) : Option (Nat × CoroutineKind × List (String × Opening)) :=
  s.startLock.bind fun (i, opens) => (s.awake i).bind fun c =>
    if opens[j]?.any (fun x => x.2 = .waiting) then some (i, c.kind, opens) else none

def step : Act → Option Hub
  | .subscribe => some ((s.spawn .subscribe).start s.coroutines.length .subscribe)
  | .run i =>
    match s.awake i with
    | some ⟨.reconnect, .created, _⟩ => some (s.reconnectLoop i)
    | _ => none
  | .acquire i =>
    match s.awake i with
    | some ⟨kind, .lock, _⟩ => if s.startLock = none then some (s.enter i kind) else none
    | _ => none
  | .opened j => (s.awaited j).map fun (i, _, opens) =>
    { s.setOpening i opens j (.opened s.exited.length) with exited := s.exited ++ [false] }
  | .offline j => (s.awaited j).map fun (i, _, opens) => s.setOpening i opens j .offline
  | .raises j => (s.awaited j).map fun (i, kind, opens) =>
    let left := s.abandon (opens.eraseIdx j)
    match kind with
    | .subscribe => left.setPc i .done
    | .reconnect => left.endReconnect i
  | .resume =>
    match s.startLock with
    | some (i, opens) =>
      match s.awake i with
      | some c => if opens.any (fun x => x.2 = .waiting) then none else some (s.finishStart i c.kind opens)
      | none => none
    | none => none
  | .wake i =>
    match s.awake i with
    | some ⟨.reconnect, .sleep, _⟩ => some (if s.closed then s.endReconnect i else s.start i .reconnect)
    | _ => none
  | .cancel i =>
    match s.coroutines[i]? with
    | some ⟨_, .created, true⟩ => some (s.setPc i .done)
    | some ⟨_, .lock, true⟩ | some ⟨_, .sleep, true⟩ => some (s.endReconnect i)
    | some ⟨_, .gather, true⟩ => s.startLock.map fun x => (s.abandon x.2).endReconnect i
    | _ => none
  | .strayOpens => if 0 < s.strays then some { s with strays := s.strays - 1, exited := s.exited ++ [false] } else none
  | .strayEnds => if 0 < s.strays then some { s with strays := s.strays - 1 } else none
  | .fanoutEnds t failed =>
    match s.fanouts[t]? with
    | some ⟨key, handle, true, false⟩ =>
      let left := { s with fanouts := s.fanouts.set t ⟨key, handle, false, false⟩ }
      some (if failed then left.closeSubs else left)
    | _ => none
  | .fanoutCancelled t =>
    match s.fanouts[t]? with
    | some ⟨key, handle, true, true⟩ => some { s with fanouts := s.fanouts.set t ⟨key, handle, false, true⟩ }
    | _ => none
  | .leave n =>
    if n < s.subs.length then some { s with subs := s.subs.set n ⟨true, false⟩ } else none
  | .disconnect n => some { s with subs := s.subs.modify n fun sub => { sub with closed := true } }
  | .close => some s.close
  | .closeStep => s.closeStep

/-! ### What the steps leave alone -/

/-- Only coroutines, the lock, the subscriptions that have been handed out, and the strays have changed. -/
structure Quiet (s s' : Hub) : Prop where
  peers : s'.peers = s.peers
  closed : s'.closed = s.closed
  mmbusSubs : s'.mmbusSubs = s.mmbusSubs
  fanouts : s'.fanouts = s.fanouts
  exited : s'.exited = s.exited
  closing : s'.closing = s.closing

variable {s s' s'' : Hub} {i : Nat} {kind : CoroutineKind} {opens : List (String × Opening)} {c : Coroutine}

theorem Quiet.trans (h : Quiet s s') (h' : Quiet s' s'') : Quiet s s'' :=
  ⟨h'.peers.trans h.peers, h'.closed.trans h.closed, h'.mmbusSubs.trans h.mmbusSubs, h'.fanouts.trans h.fanouts,
    h'.exited.trans h.exited, h'.closing.trans h.closing⟩

theorem Quiet.missingPeers (h : Quiet s s') : s'.missingPeers = s.missingPeers := by
  rw [Hub.missingPeers, h.peers, h.mmbusSubs]
  rfl

theorem quiet_reconnectLoop : Quiet s (s.reconnectLoop i) := by
  unfold reconnectLoop
  split <;> exact ⟨rfl, rfl, rfl, rfl, rfl, rfl⟩

theorem quiet_afterStart : Quiet s (s.afterStart i kind) := by
  cases kind with
  | subscribe => exact ⟨rfl, rfl, rfl, rfl, rfl, rfl⟩
  | reconnect => exact quiet_reconnectLoop

theorem quiet_enter : Quiet s (s.enter i kind) := by
  unfold enter
  split
  · exact quiet_afterStart
  · split
    · exact quiet_afterStart
    · exact ⟨rfl, rfl, rfl, rfl, rfl, rfl⟩

theorem quiet_start : Quiet s (s.start i kind) := by
  unfold start
  split
  · exact quiet_enter
  · exact ⟨rfl, rfl, rfl, rfl, rfl, rfl⟩

theorem quiet_ensureReconnect : Quiet s s.ensureReconnect := by
  unfold ensureReconnect
  split <;> exact ⟨rfl, rfl, rfl, rfl, rfl, rfl⟩

/-- The lock is as it was, or has been taken for the missing peers. -/
def Locks (s s' : Hub) : Prop :=
  s'.startLock = s.startLock ∨ s.startLock = none ∧ s.closed = false ∧ s.missingPeers ≠ [] ∧
    ∃ i, s'.startLock = some (i, s.missingPeers.map fun k => (k, .waiting))

theorem locks_reconnectLoop : (s.reconnectLoop i).startLock = s.startLock := by
  unfold reconnectLoop
  split <;> rfl

theorem locks_afterStart : (s.afterStart i kind).startLock = s.startLock := by
  cases kind with
  | subscribe => rfl
  | reconnect => exact locks_reconnectLoop

theorem locks_enter (h : s.startLock = none) : Locks s (s.enter i kind) := by
  unfold enter
  split
  · exact .inl locks_afterStart
  · rename_i hopen
    split
    · exact .inl locks_afterStart
    · rename_i hmissing
      exact .inr ⟨h, Bool.eq_false_iff.2 hopen, hmissing, i, rfl⟩

theorem locks_start : Locks s (s.start i kind) := by
  unfold start
  split
  · rename_i hfree
    exact locks_enter hfree.1
  · exact .inl rfl

/-- What a step that leaves the fan-outs alone does to the lock -/
inductive Act.IsQuiet : Act → Prop
  | subscribe : IsQuiet .subscribe
  | run (i : Nat) : IsQuiet (.run i)
  | acquire (i : Nat) : IsQuiet (.acquire i)
  | wake (i : Nat) : IsQuiet (.wake i)
  | strayEnds : IsQuiet .strayEnds
  | leave (n : Nat) : IsQuiet (.leave n)
  | disconnect (n : Nat) : IsQuiet (.disconnect n)

theorem step_quiet {a : Act} (ha : a.IsQuiet) (hs : s.step a = some s') : Quiet s s' ∧ Locks s s' := by
  cases ha with
  | subscribe =>
    cases hs
    have hspawn : Quiet s (s.spawn .subscribe) := ⟨rfl, rfl, rfl, rfl, rfl, rfl⟩
    exact ⟨hspawn.trans quiet_start, locks_start (s := s.spawn .subscribe)⟩
  | run i =>
    simp only [step] at hs
    split at hs
    · cases hs
      exact ⟨quiet_reconnectLoop, .inl locks_reconnectLoop⟩
    · cases hs
  | acquire i =>
    simp only [step] at hs
    split at hs
    · split at hs
      · rename_i hfree
        cases hs
        exact ⟨quiet_enter, locks_enter hfree⟩
      · cases hs
    · cases hs
  | wake i =>
    simp only [step] at hs
    split at hs
    · cases hs
      split
      · exact ⟨⟨rfl, rfl, rfl, rfl, rfl, rfl⟩, .inl rfl⟩
      · exact ⟨quiet_start, locks_start⟩
    · cases hs
  | strayEnds | leave =>
    simp only [step] at hs
    split at hs
    · cases hs
      exact ⟨⟨rfl, rfl, rfl, rfl, rfl, rfl⟩, .inl rfl⟩
    · cases hs
  | disconnect =>
    cases hs
    exact ⟨⟨rfl, rfl, rfl, rfl, rfl, rfl⟩, .inl rfl⟩

theorem awaited_eq_some {j : Nat} (h : s.awaited j = some (i, kind, opens)) :
    s.startLock = some (i, opens) ∧ (∃ c, s.awake i = some c ∧ c.kind = kind) ∧ ∃ k, opens[j]? = some (k, .waiting) := by
  obtain ⟨⟨i', opens'⟩, hlock, h⟩ := Option.bind_eq_some_iff.1 h
  obtain ⟨c, hawake, h⟩ := Option.bind_eq_some_iff.1 h
  split at h
  · rename_i hwaiting
    cases h
    refine ⟨hlock, ⟨c, hawake, rfl⟩, ?_⟩
    cases hopen : opens[j]? with
    | none =>
      rw [hopen] at hwaiting
      cases hwaiting
    | some x =>
      obtain ⟨k, o⟩ := x
      rw [hopen] at hwaiting
      obtain rfl : o = .waiting := by simpa using hwaiting
      exact ⟨k, rfl⟩
  · cases h

/-! ### Registration -/

/-- The fan-out tasks that a registration starts -/
def newFanouts (opens : List (String × Opening)) : List Fanout :=
  opens.filterMap fun x => match x.2 with
    | .opened handle => some ⟨x.1, handle, true, false⟩
    | _ => none

theorem register_opens (s : Hub) (opens : List (String × Opening)) : (opens.foldl register s).fanouts =
    s.fanouts ++ newFanouts opens ∧ (∀ k, k ∈ (opens.foldl register s).mmbusSubs.keys ↔
      k ∈ s.mmbusSubs.keys ∨ ∃ f ∈ newFanouts opens, f.key = k) := by
  induction opens generalizing s with
  | nil => simp [newFanouts]
  | cons x opens ih =>
    obtain ⟨key, o⟩ := x
    obtain ⟨hfanouts, hkeys⟩ := ih (register s (key, o))
    rw [List.foldl_cons]
    cases o with
    | opened handle =>
      refine ⟨?_, fun k => ?_⟩
      · rw [hfanouts]
        simp [register, newFanouts]
      · rw [hkeys k]
        simp only [register, Dict.mem_keys_set, newFanouts, List.filterMap_cons, List.mem_cons, exists_eq_or_imp]
        constructor
        · rintro ((rfl | h) | h)
          · exact .inr (.inl rfl)
          · exact .inl h
          · exact .inr (.inr h)
        · rintro (h | rfl | h)
          · exact .inl (.inr h)
          · exact .inl (.inl rfl)
          · exact .inr h
    | waiting | offline => exact ⟨hfanouts, hkeys⟩

/-- What a registration leaves alone -/
theorem register_rest (s : Hub) (opens : List (String × Opening)) :
    (opens.foldl register s).peers = s.peers ∧ (opens.foldl register s).closed = s.closed ∧
      (opens.foldl register s).exited = s.exited ∧ (opens.foldl register s).closing = s.closing ∧
        (opens.foldl register s).coroutines = s.coroutines ∧ (opens.foldl register s).reconnectTask = s.reconnectTask ∧
          (opens.foldl register s).subs = s.subs ∧ (opens.foldl register s).strays = s.strays := by
  induction opens generalizing s with
  | nil => exact ⟨rfl, rfl, rfl, rfl, rfl, rfl, rfl, rfl⟩
  | cons x opens ih =>
    obtain ⟨key, o⟩ := x
    have := ih (register s (key, o))
    cases o <;> exact this

theorem mem_newFanouts {f : Fanout} (h : f ∈ newFanouts opens) :
    f.running = true ∧ f.cancelled = false ∧ (f.key, .opened f.handle) ∈ opens := by
  obtain ⟨⟨key, o⟩, hx, hf⟩ := List.mem_filterMap.1 h
  cases o with
  | opened handle =>
    cases hf
    exact ⟨rfl, rfl, hx⟩
  | waiting | offline => cases hf

/-- The end of `start_subscriptions`: the registration, then steps that leave the fan-outs alone -/
theorem finishStart_quiet (s : Hub) (i : Nat) (kind : CoroutineKind) (opens : List (String × Opening)) :
    Quiet (opens.foldl register s) (s.finishStart i kind opens) ∧ (s.finishStart i kind opens).startLock = none := by
  have hunlock : Quiet (opens.foldl register s) { (opens.foldl register s).ensureReconnect with startLock := none } :=
    quiet_ensureReconnect.trans ⟨rfl, rfl, rfl, rfl, rfl, rfl⟩
  exact ⟨hunlock.trans quiet_afterStart, locks_afterStart⟩

/-! ### Peers that are read or missing -/

/-- While the channel is open, every expected peer is read by a running fan-out or is reported missing. -/
def Reported (s : Hub) : Prop := s.closed = false → ∀ k ∈ s.peers,
  (∃ (t : Nat) (f : Fanout), s.fanouts[t]? = some f ∧ f.running = true ∧ f.key = k) ∨ k ∈ s.missingPeers

/-- What the code keeps: the keys of the fan-outs of an open channel are in the dictionary, and only peers are opened, while
one is missing. -/
structure Keyed (s : Hub) : Prop where
  fanouts : s.closed = false → ∀ f ∈ s.fanouts, f.key ∈ s.mmbusSubs.keys ∧ f.key ∈ s.peers ∧ f.cancelled = false
  opens : ∀ i opens, s.startLock = some (i, opens) →
    (s.closed = false → s.missingPeers ≠ []) ∧ ∀ x ∈ opens, x.1 ∈ s.peers
  closing : s.closed = false → s.closing = .no

theorem Keyed.of_quiet (h : s.Keyed) (hq : Quiet s s')
    (hopens : ∀ i opens, s'.startLock = some (i, opens) →
      (s.closed = false → s.missingPeers ≠ []) ∧ ∀ x ∈ opens, x.1 ∈ s.peers) : s'.Keyed where
  fanouts := by
    rw [hq.closed, hq.fanouts, hq.mmbusSubs, hq.peers]
    exact h.fanouts
  opens := by
    rw [hq.missingPeers, hq.closed, hq.peers]
    exact hopens
  closing := by
    rw [hq.closed, hq.closing]
    exact h.closing

theorem reported_of_quiet (hq : Quiet s s') : s'.Reported ↔ s.Reported := by
  unfold Reported
  rw [hq.closed, hq.peers, hq.fanouts, hq.missingPeers]

theorem Keyed.resume (h : s.Keyed) (hlock : s.startLock = some (i, opens)) (hcov : s.Reported) :
    (s.finishStart i kind opens).Keyed ∧ (s.finishStart i kind opens).Reported := by
  obtain ⟨hq, hfree⟩ := finishStart_quiet s i kind opens
  obtain ⟨hfanouts, hkeys⟩ := register_opens s opens
  obtain ⟨hpeers, hclosed, -, hclosing, -⟩ := register_rest s opens
  have hkeyed : Keyed { opens.foldl register s with startLock := none } := by
    refine ⟨fun hopen f hf => ?_, nofun, ?_⟩
    · change (opens.foldl register s).closed = false at hopen
      change f ∈ (opens.foldl register s).fanouts at hf
      change f.key ∈ (opens.foldl register s).mmbusSubs.keys ∧ f.key ∈ (opens.foldl register s).peers ∧ _
      rw [hclosed] at hopen
      rw [hfanouts] at hf
      rw [hkeys, hpeers]
      rcases List.mem_append.1 hf with hold | hnew
      · obtain ⟨hin, hpeer, hcancelled⟩ := h.fanouts hopen f hold
        exact ⟨.inl hin, hpeer, hcancelled⟩
      · obtain ⟨-, hcancelled, hopened⟩ := mem_newFanouts hnew
        exact ⟨.inr ⟨f, hnew, rfl⟩, (h.opens i opens hlock).2 _ hopened, hcancelled⟩
    · change (opens.foldl register s).closed = false → (opens.foldl register s).closing = .no
      rw [hclosed, hclosing]
      exact h.closing
  have hq' : Quiet { opens.foldl register s with startLock := none } (s.finishStart i kind opens) :=
    ⟨hq.peers, hq.closed, hq.mmbusSubs, hq.fanouts, hq.exited, hq.closing⟩
  refine ⟨hkeyed.of_quiet hq' (by rw [hfree]; exact nofun), ?_⟩
  rw [reported_of_quiet hq]
  intro hopen k hk
  rw [hclosed] at hopen
  rw [hpeers] at hk
  rcases hcov hopen k hk with ⟨t, f, hf, hrunning, hkey⟩ | hmissing
  · refine .inl ⟨t, f, ?_, hrunning, hkey⟩
    rw [hfanouts, List.getElem?_append_left (List.getElem?_eq_some_iff.1 hf).1, hf]
  · by_cases hnew : ∃ f ∈ newFanouts opens, f.key = k
    · obtain ⟨f, hf, hkey⟩ := hnew
      obtain ⟨t, ht⟩ := List.mem_iff_getElem?.1 (hfanouts ▸ List.mem_append_right s.fanouts hf)
      exact .inl ⟨t, f, ht, (mem_newFanouts hf).1, hkey⟩
    · refine .inr (List.mem_filter.2 ⟨hpeers ▸ hk, ?_⟩)
      rw [decide_eq_true_eq, hkeys]
      simp only [missingPeers, List.mem_filter, decide_eq_true_eq] at hmissing
      exact not_or.2 ⟨hmissing.2, hnew⟩

theorem Keyed.setOpening {j : Nat} {result : Opening} (h : s.Keyed) (hlock : s.startLock = some (i, opens)) :
    (s.setOpening i opens j result).Keyed := by
  refine h.of_quiet ⟨rfl, rfl, rfl, rfl, rfl, rfl⟩ fun i' opens' hlock' => ?_
  have hlock'' : some (i, opens.modify j fun x => (x.1, result)) = some (i', opens') := hlock'
  cases hlock''
  obtain ⟨hmissing, hpeers⟩ := h.opens i opens hlock
  refine ⟨hmissing, fun x hx => ?_⟩
  obtain ⟨n, hn⟩ := List.mem_iff_getElem?.1 hx
  rw [List.getElem?_modify] at hn
  obtain ⟨y, hy, rfl⟩ := Option.map_eq_some_iff.1 hn
  have hy' := hpeers y (List.mem_of_getElem? hy)
  split <;> exact hy'

theorem Keyed.unlock (h : s.Keyed) (hq : Quiet s s') (hfree : s'.startLock = none) : s'.Keyed :=
  h.of_quiet hq (by rw [hfree]; exact nofun)

/-- The end of one fan-out -/
theorem Keyed.endFanout {t : Nat} {f : Fanout} (h : s.Keyed) (hcov : s.Reported) (hf : s.fanouts[t]? = some f)
    (hquiet : Quiet { s with fanouts := s.fanouts.set t { f with running := false } } s')
    (hlock : s'.startLock = s.startLock) : s'.Keyed ∧ (s'.Reported ↔ (s.closed = false →
      ∃ (t' : Nat) (f' : Fanout), t' ≠ t ∧ s.fanouts[t']? = some f' ∧ f'.running = true ∧ f'.key = f.key)) := by
  have hkeyed : Keyed { s with fanouts := s.fanouts.set t { f with running := false } } := by
    refine ⟨fun hopen g hg => ?_, h.opens, h.closing⟩
    rcases List.mem_or_eq_of_mem_set hg with hold | rfl
    · exact h.fanouts hopen g hold
    · exact h.fanouts hopen f (List.mem_of_getElem? hf)
  refine ⟨hkeyed.of_quiet hquiet (by rw [hlock]; exact h.opens), ?_⟩
  rw [reported_of_quiet hquiet]
  -- a fan-out that is left runs in both states
  have hleft : ∀ t' f', t' ≠ t → ((s.fanouts.set t { f with running := false })[t']? = some f' ↔
      s.fanouts[t']? = some f') := fun t' f' hne => by rw [List.getElem?_set_ne (Ne.symm hne)]
  constructor
  · intro hcov' hopen
    obtain ⟨hin, hpeer, -⟩ := h.fanouts hopen f (List.mem_of_getElem? hf)
    rcases hcov' hopen f.key hpeer with ⟨t', f', hf', hrunning', hkey⟩ | hmissing
    · have hne : t' ≠ t := by
        rintro rfl
        rw [List.getElem?_set_self (List.getElem?_eq_some_iff.1 hf).1] at hf'
        cases hf'
        cases hrunning'
      exact ⟨t', f', hne, (hleft t' f' hne).1 hf', hrunning', hkey⟩
    · simp only [missingPeers, List.mem_filter, decide_eq_true_eq] at hmissing
      exact absurd hin hmissing.2
  · intro hstays hopen k hk
    rcases hcov hopen k hk with ⟨t', f', hf', hrunning', hkey⟩ | hmissing
    · by_cases hne : t' = t
      · obtain ⟨t'', f'', hne', hf'', hrunning'', hkey'⟩ := hstays hopen
        rw [hne, hf] at hf'
        cases hf'
        exact .inl ⟨t'', f'', (hleft t'' f'' hne').2 hf'', hrunning'', hkey'.trans hkey⟩
      · exact .inl ⟨t', f', (hleft t' f' hne).2 hf', hrunning', hkey⟩
    · exact .inr hmissing

theorem Keyed.close (h : s.Keyed) (hcov : s.Reported) : s.close.Keyed ∧ s.close.Reported := by
  unfold Hub.close
  split
  · exact ⟨h, hcov⟩
  · exact ⟨⟨nofun, fun i opens hlock => ⟨nofun, (h.opens i opens hlock).2⟩, nofun⟩, nofun⟩

/-- Only a closed channel is being closed. -/
theorem Keyed.closeStep_closed (h : s.Keyed) (hs : s.closeStep = some s') : s'.closed = true := by
  have hclosed : s.closed = true := by
    cases hopen : s.closed with
    | true => rfl
    | false =>
      rw [Hub.closeStep, h.closing hopen] at hs
      cases hs
  unfold Hub.closeStep at hs
  split at hs
  · split at hs <;> cases hs
    exact hclosed
  · split at hs <;> cases hs
    exact hclosed
  · cases hs
    exact hclosed
  · split at hs
    · cases hs
      exact hclosed
    · split at hs <;> cases hs <;> exact hclosed
  · cases hs

theorem Keyed.closeStep (h : s.Keyed) (hs : s.closeStep = some s') : s'.Keyed ∧ s'.Reported := by
  have hclosed' : s'.closed = true := h.closeStep_closed hs
  have hkept : s'.startLock = s.startLock ∧ s'.peers = s.peers := by
    unfold Hub.closeStep at hs
    split at hs
    · split at hs <;> cases hs
      exact ⟨rfl, rfl⟩
    · split at hs <;> cases hs
      exact ⟨rfl, rfl⟩
    · cases hs
      exact ⟨rfl, rfl⟩
    · split at hs
      · cases hs
        exact ⟨rfl, rfl⟩
      · split at hs <;> cases hs <;> exact ⟨rfl, rfl⟩
    · cases hs
  obtain ⟨hlock', hpeers'⟩ := hkept
  refine ⟨⟨?_, ?_, ?_⟩, ?_⟩
  · rw [hclosed']
    exact nofun
  · rw [hlock', hpeers', hclosed']
    exact fun i opens hlock => ⟨nofun, (h.opens i opens hlock).2⟩
  · rw [hclosed']
    exact nofun
  · unfold Reported
    rw [hclosed']
    exact nofun

end Hub

end Mmbus.Cast
