import Mmbus.Lib.Transition
import Mmbus.Replay
import Mmbus.Subscriber

/-!
# A topic over the lives of its processes

Publishers that come and go, with the log or without it, and subscriber processes that connect, replay the log, read,
are dropped or die, over one ring file that every new publisher takes over.  The steps are whole operations, except that
`connect_with` is two: the claim of a cursor entry, and what follows the handshake.
-/

namespace Mmbus

open RingBuffer Transition

structure BusConfig where
  capacity : UInt32
  slotSize : UInt32
  maxSubscribers : UInt32
  backpressure : BackpressurePolicy
  wal : WalConfig

/-- A subscriber process: not yet connected, with an entry and in its handshake, connected, or without an entry again -/
inductive SessionPhase
  | absent
  | connecting (start : StartPos)
  | connected
  | closed

structure Session where
  phase : SessionPhase
  alive : Bool
  cursorIdx : Nat
  cursor : Nat
  generation : Nat
  walReplay : Option WalReplayer

/-- The process holds the cursor entry `cursorIdx`. -/
def Session.Holds (s : Session) : Bool :=
  match s.phase with
  | .connecting _ | .connected => true
  | _ => false

/-- A publisher process -/
structure LivePublisher where
  backpressure : BackpressurePolicy
  wal : Option Wal

structure Topic where
  /-- `ring.mmap` -/
  ring : Option RingBuffer
  /-- The directory `wal`, as the last publisher with a log has left it -/
  dir : WalDir
  publisher : Option LivePublisher
  sessions : Nat → Session

/-- A topic nobody has used yet -/
def Topic.init : Topic where
  ring := none
  dir := .empty
  publisher := none
  sessions := fun _ => ⟨.absent, true, 0, 0, 0, none⟩

/-- The operations: of the publisher, of the flusher thread, and of the subscriber `i`.  A publisher that crashes runs no
`Drop`, and neither does a subscriber that is killed. -/
inductive Topic.Act
  | create (cfg : BusConfig)
  | publish (data : Bytes) (ts : Nat) (io : WalIo)
  | flush (io : WalIo)
  | dropPublisher
  | crash
  | claim (i : Nat) (start : StartPos)
  | handshakeFails (i : Nat)
  | finish (i : Nat)
  | nextWal (i : Nat)
  | tryReceive (i : Nat)
  | drop (i : Nat)
  | kill (i : Nat)

namespace Topic

variable (s : Topic)

def setSession (i : Nat) (session : Session) : Topic := { s with sessions := Function.update s.sessions i session }

/-- The segment files as they are now -/
def files : WalDir :=
  match s.publisher with
  | some ⟨_, some w⟩ => w.dir
  | _ => s.dir

/-! ### The publisher -/

/-- The log a new publisher opens, if it is to have one -/
def openWal (cfg : WalConfig) : Except WalError (Option Wal) :=
  if cfg.enabled then (Wal.open cfg s.dir).map some else .ok none

/-- `Publisher::create`.  A ring of another shape would be cut down under the processes that have mapped it; that is not
modelled. -/
def create (cfg : BusConfig) : Option Topic :=
  if s.publisher.isSome ∨ ∃ r ∈ s.ring,
      (r.capacity, r.slotPayloadSize, r.maxSubscribers) ≠ (cfg.capacity, cfg.slotSize, cfg.maxSubscribers) then none
  else
    let r := createOrReuse s.ring cfg.capacity cfg.slotSize cfg.maxSubscribers
    match s.openWal cfg.wal with
    | .ok none => some { s with ring := some r, publisher := some ⟨cfg.backpressure, none⟩ }
    | .ok (some w) =>
      some { s with
        ring := some (if r.tail < w.pendingCursor then r.setTail w.pendingCursor else r)
        publisher := some ⟨cfg.backpressure, some w⟩ }
    | .error _ => some { s with ring := some r }

/-- The ring's publish -/
def ringPublish (policy : BackpressurePolicy) (r : RingBuffer) (data : Bytes) : RingBuffer :=
  match policy with
  | .error => (r.tryPublish data).1
  | .dropOldest => (r.publishDropOldest data).1

/-- `publish`, at a moment when no connection waits.  Positions stay below the marker bit. -/
def publish (data : Bytes) (ts : Nat) (io : WalIo) : Option Topic :=
  match s.ring, s.publisher with
  | some r, some p =>
    if r.slotSize < data.length then some s
    else if 2 ^ SEQ_WRITING ≤ r.tail then none
    else
      match p.wal with
      | none => some { s with ring := some (ringPublish p.backpressure r data) }
      | some w =>
        if p.backpressure = .error ∧ r.isFull then some s
        else
          match w.append r.tail ts data io with
          | (w, .ok _) =>
            some { s with
              ring := some (ringPublish p.backpressure r data)
              publisher := some { p with wal := some w } }
          | (w, .error _) => some { s with publisher := some { p with wal := some w } }
  | _, _ => none

def flush (io : WalIo) : Option Topic :=
  match s.publisher with
  | some ⟨policy, some w⟩ => some { s with publisher := some ⟨policy, some (w.flusherTick io)⟩ }
  | _ => none

/-- The publisher is dropped, or (`crashed`) dies with what its log has buffered. -/
def endPublisher (crashed : Bool) : Option Topic :=
  match s.publisher with
  | some ⟨_, some w⟩ => some { s with publisher := none, dir := if crashed then w.dir else w.drop }
  | some ⟨_, none⟩ => some { s with publisher := none }
  | none => none

/-! ### The subscribers -/

/-- `connect_with` up to the claim of an entry at the tail -/
def claim (i : Nat) (start : StartPos) : Option Topic :=
  let c := s.sessions i
  match s.ring, c.phase with
  | some r, .absent =>
    match r.claimCursor r.tail with
    | some (idx, r) =>
      some ({ s with ring := some r }.setSession i { c with phase := .connecting start, cursorIdx := idx })
    | none => some (s.setSession i { c with phase := .closed })
  | _, _ => none

/-- Give the entry back. -/
def release (i : Nat) (r : RingBuffer) : Topic :=
  let c := s.sessions i
  { s with ring := some (r.releaseCursor c.cursorIdx) }.setSession i { c with phase := .closed }

def handshakeFails (i : Nat) : Option Topic :=
  match s.ring, (s.sessions i).phase with
  | some r, .connecting _ => some (s.release i r)
  | _, _ => none

/-- The start position and the replay, from the tail re-read after the handshake; `none` is an error. -/
def startFrom (capacity tail : Nat) (files : WalDir) (start : StartPos) : Option (Nat × Option WalReplayer) :=
  match Subscriber.startCursor capacity tail start, start with
  | some c, _ => some (c, none)
  | none, .explicit c =>
    if files.keys = [] then none
    else
      match files.readFrom c with
      | .ok replayer => some (c, some replayer)
      | .error _ => none
  | none, _ => none

/-- `connect_with` after the handshake: a subscriber that replays the log is parked at the tail. -/
def finish (i : Nat) : Option Topic :=
  let c := s.sessions i
  match s.ring, c.phase with
  | some r, .connecting start =>
    match startFrom r.cap r.tail s.files start with
    | some (cursor, replay) =>
      some ({ s with ring := some (r.setCursor c.cursorIdx (if replay.isSome then r.tail else cursor)) }.setSession i
        { c with phase := .connected, cursor := cursor, walReplay := replay, generation := r.generation })
    | none => some (s.release i r)
  | _, _ => none

/-- `next_wal_record`: a record, an error, or the hand-off to the ring -/
def nextWal (i : Nat) : Option Topic :=
  let c := s.sessions i
  match s.ring, c.phase, c.walReplay with
  | some r, .connected, some p =>
    match p.next s.files with
    | (some (.ok record), p) => some (s.setSession i { c with cursor := record.cursor + 1, walReplay := some p })
    | (some (.error _), _) => some (s.setSession i { c with walReplay := none })
    | (none, _) =>
      some ({ s with ring := some (r.setCursor c.cursorIdx c.cursor) }.setSession i { c with walReplay := none })
  | _, _, _ => none

/-- The ring's `try_receive`; `try_receive_into_slice` runs it even while a replay is in progress. -/
def tryReceive (i : Nat) : Option Topic :=
  let c := s.sessions i
  match s.ring, c.phase with
  | some r, .connected =>
    match r.tryReceive c.cursorIdx c.cursor with
    | (r, some (cursor, _)) => some ({ s with ring := some r }.setSession i { c with cursor := cursor })
    | (_, none) => some s
  | _, _ => none

def drop (i : Nat) : Option Topic :=
  match s.ring, (s.sessions i).phase with
  | some r, .connected => some (s.release i r)
  | _, _ => none

/-! ### The system -/

def step : Act → Option Topic
  | .create cfg => s.create cfg
  | .publish data ts io => s.publish data ts io
  | .flush io => s.flush io
  | .dropPublisher => s.endPublisher false
  | .crash => s.endPublisher true
  | .claim i start => if (s.sessions i).alive then s.claim i start else none
  | .handshakeFails i => if (s.sessions i).alive then s.handshakeFails i else none
  | .finish i => if (s.sessions i).alive then s.finish i else none
  | .nextWal i => if (s.sessions i).alive then s.nextWal i else none
  | .tryReceive i => if (s.sessions i).alive then s.tryReceive i else none
  | .drop i => if (s.sessions i).alive then s.drop i else none
  | .kill i =>
    if (s.sessions i).alive then some (s.setSession i { s.sessions i with alive := false }) else none

end Topic

end Mmbus
