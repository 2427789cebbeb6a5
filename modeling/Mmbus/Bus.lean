import Mmbus.Lib.Transition
import Mmbus.Subscriber
import Mmbus.Backpressure

/-!
# One publisher and its subscribers

The live topic of one publisher generation with the WAL off: a publisher that runs `publish`, `publish_many` and
`wait_for_subscribers` and is dropped at last, and any number of subscribers, over the ring, the listener's backlog
and the subscribers' sockets and eventfds.  Every step is one access of one party.
-/

namespace Mmbus

open RingBuffer

/-- Per-subscriber connection state held by the publisher.  `sub` stands for the socket and the eventfd. -/
structure Client where
  cursorIdx : Nat
  sub : Nat
  deriving DecidableEq

/-- `Vec::swap_remove` -/
def swapRemove {α : Type*} (l : List α) (i : Nat) : List α :=
  match l.getLast? with
  | some last => (l.set i last).dropLast
  | none => l

inductive PublisherCall
  | publish (data : Bytes)
  | publishMany (items : List Bytes)
  | waitForSubscribers (minCount : Nat)

/-- How the last call of the publisher ended -/
inductive CallResult
  | created
  | published
  | count (n : Nat)
  | full
  | tooLarge
  | subscribersConnected
  | timeout
  | io
  deriving DecidableEq

/-- What the next access of the publisher is.  `publishing` and `publishingMany` are inside the ring's publish,
`probe`, `take` and `fire` are the three accesses of `broadcast_wakeup` for the client `i`. -/
inductive Phase
  | idle (last : CallResult)
  | accept (call : PublisherCall)
  | recvFd (call : PublisherCall) (sub : Nat)
  | publishing (pc : PublishPc)
  | publishingMany (rest : List Bytes) (count : Nat) (pc : PublishPc)
  | probe (result : CallResult) (i : Nat)
  | take (result : CallResult) (i : Nat)
  | fire (result : CallResult) (i : Nat)
  | dropped

/-- The ring's publish call in progress -/
def Phase.ring : Phase → PublishPc
  | publishing pc | publishingMany _ _ pc => pc
  | _ => .idle

structure Bus where
  chan : Channel
  backpressure : BackpressurePolicy
  phase : Phase
  clients : List Client
  /-- The connections that wait to be accepted -/
  backlog : List Nat
  subs : Nat → Subscriber

/-- The steps: an access of a subscriber, a call of the publisher begun, its next access, the deadline of
`wait_for_subscribers`, its drop, and the closing of one of its sockets after that. -/
inductive Act
  | sub (i : Nat) (choice : Choice)
  | begin (call : PublisherCall)
  | publisher
  | timeout
  | drop
  | closeSock (i : Nat)

namespace Bus

variable (s : Bus)

def setSub (i : Nat) (sub : Subscriber) : Bus := { s with subs := Function.update s.subs i sub }

def setPhase (phase : Phase) : Bus := { s with phase := phase }

/-! ### The publisher -/

/-- The entry of `broadcast_wakeup`, and its loop before the client `i` -/
def broadcastAt (result : CallResult) (i : Nat) : Bus :=
  s.setPhase (if i < s.clients.length then .probe result i else .idle result)

/-- The end of `publish_many` after `count` messages -/
def finishMany (result : CallResult) (count : Nat) : Bus :=
  if 0 < count then s.broadcastAt result 0 else s.setPhase (.idle result)

/-- The loop of `publish_many` before its next item.  Positions stay below the marker bit. -/
def nextItem (count : Nat) : List Bytes → Option Bus
  | [] => some (s.finishMany (.count count) count)
  | data :: rest =>
    if s.chan.ring.slotSize < data.length then some (s.finishMany .tooLarge count)
    else if s.chan.ring.tail < 2 ^ SEQ_WRITING then
      some (s.setPhase (.publishingMany rest count (.loadTail s.backpressure data)))
    else none

/-- The rest of the call once no connection waits -/
def afterAccept : PublisherCall → Option Bus
  | .publish data =>
    if s.chan.ring.tail < 2 ^ SEQ_WRITING then
      some (s.setPhase (.publishing (.loadTail s.backpressure data)))
    else none
  | .publishMany items => s.nextItem 0 items
  | .waitForSubscribers minCount =>
    some (if minCount ≤ s.clients.length then s.setPhase (.idle .subscribersConnected) else s)

/-- The peer of an accepted connection has closed it without sending anything. -/
def closedUnsent (i : Nat) : Bool :=
  !(s.subs i).sent && (!(s.subs i).alive || (s.subs i).pc == .failed)

/-- The next access of the publisher -/
def publisherStep : Option Bus :=
  match s.phase with
  | .accept call =>
    match s.backlog with
    | i :: rest => some { s with phase := .recvFd call i, backlog := rest }
    | [] => s.afterAccept call
  | .recvFd call i =>
    if (s.subs i).sent then
      some { s with
        phase := .accept call
        clients := s.clients ++ [⟨(s.subs i).cursorIdx, i⟩]
        subs := Function.update s.subs i { s.subs i with acceptedAt := some s.chan.ring.tail } }
    else if s.closedUnsent i then some (s.setPhase (.idle .io))
    else none
  | .publishing pc =>
    match pc.step s.chan with
    | some (chan, .returned true) => some ({ s with chan := chan }.broadcastAt .published 0)
    | some (chan, .returned false) => some ({ s with chan := chan }.setPhase (.idle .full))
    | some (chan, pc) => some ({ s with chan := chan }.setPhase (.publishing pc))
    | none => none
  | .publishingMany rest count pc =>
    match pc.step s.chan with
    | some (chan, .returned true) => { s with chan := chan }.nextItem (count + 1) rest
    | some (chan, .returned false) => some ({ s with chan := chan }.finishMany (.count count) count)
    | some (chan, pc) => some ({ s with chan := chan }.setPhase (.publishingMany rest count pc))
    | none => none
  | .probe result i =>
    match s.clients[i]? with
    | some client =>
      if s.chan.ring.cursorIsUnclaimed client.cursorIdx then
        some ({ s with
          clients := swapRemove s.clients i
          subs := Function.update s.subs client.sub { s.subs client.sub with hup := true } }.broadcastAt result i)
      else some (s.setPhase (.take result i))
    | none => none
  | .take result i =>
    match s.clients[i]? with
    | some client =>
      let (ring, waiting) := s.chan.ring.takeWakeflag client.cursorIdx
      let s := { s with chan := { s.chan with ring := ring } }
      some (if waiting then s.setPhase (.fire result i) else s.broadcastAt result (i + 1))
    | none => none
  | .fire result i =>
    match s.clients[i]? with
    | some client =>
      some ((s.setSub client.sub
        { s.subs client.sub with efd := (s.subs client.sub).efd + 1 }).broadcastAt result (i + 1))
    | none => none
  | .idle _ | .dropped => none

/-- The beginning of a call; `publish` checks the size of the payload before anything else. -/
def beginCall (call : PublisherCall) : Bus :=
  match call with
  | .publish data =>
    if s.chan.ring.slotSize < data.length then s.setPhase (.idle .tooLarge) else s.setPhase (.accept call)
  | _ => s.setPhase (.accept call)

/-- The publisher's listener accepts connections until the publisher is dropped. -/
def listening : Bool :=
  match s.phase with
  | .dropped => false
  | _ => true

/-! ### The system -/

/-- One step of the system -/
def step : Act → Option Bus
  | .sub i choice =>
    match (s.subs i).step s.chan.ring s.listening choice with
    | some (ring, sub) =>
      some { s with
        chan := { s.chan with ring := ring }
        subs := Function.update s.subs i sub
        backlog := if (s.subs i).pc = .connectSock ∧ sub.pc = .sendFd then s.backlog ++ [i] else s.backlog }
    | none => none
  | .begin call =>
    match s.phase with
    | .idle _ => some (s.beginCall call)
    | _ => none
  | .publisher => s.publisherStep
  | .timeout =>
    match s.phase with
    | .accept (.waitForSubscribers minCount) =>
      if s.backlog = [] ∧ s.clients.length < minCount then some (s.setPhase (.idle .timeout)) else none
    | _ => none
  | .drop =>
    match s.phase with
    | .idle _ => some (s.setPhase .dropped)
    | _ => none
  | .closeSock i =>
    match s.phase with
    | .dropped =>
      if i ∈ s.backlog ∨ i ∈ s.clients.map Client.sub then
        some (s.setSub i { s.subs i with hup := true })
      else none
    | _ => none

end Bus

/-- The state in which `Publisher::create` has just made or taken over the ring `r`: no client and no subscriber of
this generation yet. -/
def Bus.init (r : RingBuffer) (backpressure : BackpressurePolicy) : Bus where
  chan := ⟨r, fun _ => none⟩
  backpressure := backpressure
  phase := .idle .created
  clients := []
  backlog := []
  subs := fun _ => .init

end Mmbus
