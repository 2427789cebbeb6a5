import Mmbus.BridgeReaders
import Mmbus.Lib.Transition

/-!
# A mesh of bridges

Machines with one bridge each.  On every machine local producers and the bridge publish; a thread for each topic takes
what is published and hands it to the queues of all peers, the forwarders write the queues to their connections, the
readers on the other side pass on what is not their own, and the publisher thread publishes that on its own machine.
-/

namespace Mmbus.Bridge

open Transition

/-! ### The configuration -/

inductive TransportKind
  | tcp
  | quic
  deriving DecidableEq

structure TopicConfig where
  name : String
  forward : Bool := true
  receive : Bool := true
  deriving DecidableEq

structure PeerConfig extends Peer where
  endpoint : String
  transport : TransportKind := .tcp
  peerCertFingerprint : Option String := none

/-- `originId` is the configured one or the random one. -/
structure BridgeConfig where
  bus : String
  originId : UInt64
  peerBufferMax : Nat := 4096
  quicWorkerThreads : Nat := 2
  topics : List TopicConfig
  peers : List PeerConfig

inductive ConfigError
  | emptyBus
  | badEndpoint (endpoint : String)
  | duplicatePeerName (name : String)
  | quicPeerMissingFingerprint (name : String)
  | badCertFingerprint (peer got : String)
  | quicWorkerThreadsZero
  deriving DecidableEq

/-- `char::is_whitespace` -/
def isWhitespace (c : Char) : Bool :=
  let n := c.toNat
  (9 ≤ n ∧ n ≤ 13) ∨ n = 0x20 ∨ n = 0x85 ∨ n = 0xA0 ∨ n = 0x1680 ∨ (0x2000 ≤ n ∧ n ≤ 0x200A) ∨ n = 0x2028 ∨ n = 0x2029 ∨
    n = 0x202F ∨ n = 0x205F ∨ n = 0x3000

/-- `char::is_ascii_hexdigit` -/
def isAsciiHexdigit (c : Char) : Bool :=
  ('0' ≤ c ∧ c ≤ '9') ∨ ('a' ≤ c ∧ c ≤ 'f') ∨ ('A' ≤ c ∧ c ≤ 'F')

def validateCertFingerprint (peer fp : String) : Except ConfigError Unit :=
  let scheme := "sha256:".toList
  let rest := fp.toList.drop scheme.length
  if ¬scheme.isPrefixOf fp.toList then .error (.badCertFingerprint peer fp)
  else if rest.isEmpty ∨ ¬rest.all isAsciiHexdigit then .error (.badCertFingerprint peer fp)
  else .ok ()

def PeerConfig.validate (peer : PeerConfig) : Except ConfigError Unit :=
  if ':' ∉ peer.endpoint.toList then .error (.badEndpoint peer.endpoint)
  else if peer.transport = .quic then
    match peer.peerCertFingerprint with
    | none => .error (.quicPeerMissingFingerprint peer.name)
    | some fp => validateCertFingerprint peer.name fp
  else .ok ()

/-- The first name that has been seen before -/
def duplicateName : (seen : List String) → List PeerConfig → Option String
  | _, [] => none
  | seen, peer :: peers => if peer.name ∈ seen then some peer.name else duplicateName (peer.name :: seen) peers

def BridgeConfig.validate (cfg : BridgeConfig) : Except ConfigError Unit := do
  if cfg.bus.toList.all isWhitespace then throw .emptyBus
  cfg.peers.forM PeerConfig.validate
  if let some name := duplicateName [] cfg.peers then throw (.duplicatePeerName name)
  if cfg.quicWorkerThreads = 0 then throw .quicWorkerThreadsZero

/-- The topics that are received -/
def BridgeConfig.receiveTopics (cfg : BridgeConfig) : List String :=
  (cfg.topics.filter fun t => t.receive).map fun t => t.name

/-- What the readers of the bridge are started with -/
def BridgeConfig.reader (cfg : BridgeConfig) : ReaderConfig :=
  readerConfig cfg.originId cfg.receiveTopics (cfg.peers.map fun p => p.toPeer)

/-- The key that is told with the hello is one of a configured peer.  The length word of the hello has two bytes. -/
def Accepts (cfg : ReaderConfig) (psk : Bytes) : Prop := psk.take (psk.length % 2 ^ 16) ∈ cfg.acceptedPsks

local instance : LawfulBEq Bytes := inferInstance

instance {cfg : ReaderConfig} {psk : Bytes} : Decidable (Accepts cfg psk) := inferInstanceAs (Decidable (_ ∈ _))

/-! ### The machines -/

/-- The configuration of each machine's bridge, and the machine whose bridge listens at an endpoint -/
structure Net (H : Type) where
  config : H → BridgeConfig
  listener : String → Option H

variable {H : Type}

/-- The machine at the other end of the connection to the peer `k` -/
def Net.peerHost (net : Net H) (h : H) (k : Nat) : Option H :=
  (net.config h).peers[k]?.bind fun peer => net.listener peer.endpoint

/-- A message: the machine of its local producer, and its place in what has been published there -/
abbrev MessageId (H : Type) := H × Nat

/-- What a local producer has published (`source` is `none`), or what the bridge has published for a message -/
structure Published (H : Type) where
  topic : String
  payload : Bytes
  source : Option (MessageId H)

/-- Who holds the producer lock of a topic -/
inductive Producer
  | localProducer
  | bridge
  deriving DecidableEq

structure Host (H : Type) where
  /-- All that has been published on the machine's bus -/
  published : List (Published H)
  producer : String → Option Producer
  /-- The subscription of the topic thread `i`: what it has not passed yet begins at this place of `published`. -/
  cursors : Nat → Option Nat
  seqs : Nat → UInt64
  /-- The queue of the peer `k`.  A frame is kept with the message that it carries, which no thread looks at. -/
  queues : Nat → List (Frame × MessageId H)
  /-- What has been written to the peer `k` and not been read -/
  wires : Nat → List (Frame × MessageId H)
  /-- What the readers have sent to the publisher thread -/
  channel : List ((String × Bytes) × MessageId H)

def Host.init : Host H := ⟨[], fun _ => none, fun _ => none, fun _ => 0, fun _ => [], fun _ => [], []⟩

abbrev Mesh (H : Type) := H → Host H

/-- `Sender::send`: a full queue drops its oldest item. -/
def send {α : Type} (capacity : Nat) (queue : List α) (item : α) : List α :=
  (if capacity ≤ queue.length then queue.tail else queue) ++ [item]

namespace Mesh

def init : Mesh H := fun _ => .init

/-- What happens on the machine `h`: a local producer takes the lock of a topic, publishes, gives the lock back; the
bridge takes the lock; the thread of the topic `i` subscribes, and receives what is published at `p`; the forwarder of
the peer `k` writes a frame; the frame `j` of the connection is lost, or read at the other end; the publisher thread
takes up what the readers have sent, and publishes it or fails. -/
inductive Act (H : Type)
  | acquire (h : H) (topic : String)
  | produce (h : H) (topic : String) (payload : Bytes)
  | release (h : H) (topic : String)
  | create (h : H) (topic : String)
  | subscribe (h : H) (i : Nat)
  | receive (h : H) (i p : Nat)
  | forward (h : H) (k : Nat)
  | lose (h : H) (k j : Nat)
  | deliver (h : H) (k j : Nat)
  | publish (h : H) (ok : Bool)

variable [DecidableEq H] (net : Net H) (s : Mesh H)

def set (h : H) (host : Host H) : Mesh H := Function.update s h host

/-! ### Producers -/

def acquire (h : H) (topic : String) : Option (Mesh H) :=
  if (s h).producer topic = none then
    some (s.set h { s h with producer := Function.update (s h).producer topic (some .localProducer) })
  else none

def produce (h : H) (topic : String) (payload : Bytes) : Option (Mesh H) :=
  if (s h).producer topic = some .localProducer then
    some (s.set h { s h with published := (s h).published ++ [⟨topic, payload, none⟩] })
  else none

def release (h : H) (topic : String) : Option (Mesh H) :=
  if (s h).producer topic = some .localProducer then
    some (s.set h { s h with producer := Function.update (s h).producer topic none })
  else none

/-- `ensure_publisher` for a topic that is received -/
def create (h : H) (topic : String) : Option (Mesh H) :=
  if topic ∈ (net.config h).receiveTopics ∧ (s h).producer topic = none then
    some (s.set h { s h with producer := Function.update (s h).producer topic (some .bridge) })
  else none

/-! ### From the bus to the peers -/

/-- `subscriber_main` subscribes, or subscribes again, to what is published from now on. -/
def subscribe (h : H) (i : Nat) : Option (Mesh H) :=
  match (net.config h).topics[i]? with
  | some topic =>
    if topic.forward then
      some (s.set h { s h with cursors := Function.update (s h).cursors i (some (s h).published.length) })
    else none
  | none => none

/-- `subscriber_main` receives a message of its topic, the next one or, after it was too slow, a later one, and sends a
frame to all peers. -/
def receive (h : H) (i p : Nat) : Option (Mesh H) :=
  let cfg := net.config h
  match cfg.topics[i]?, (s h).cursors i, (s h).published[p]? with
  | some topic, some cursor, some message =>
    if topic.forward ∧ cursor ≤ p ∧ message.topic = topic.name then
      let frame : Frame := ⟨.msg, cfg.originId, (s h).seqs i, asBytes topic.name, message.payload⟩
      some (s.set h { s h with
        cursors := Function.update (s h).cursors i (some (p + 1))
        seqs := Function.update (s h).seqs i ((s h).seqs i + 1)
        queues := fun k => send cfg.peerBufferMax ((s h).queues k) (frame, message.source.getD (h, p)) })
    else none
  | _, _, _ => none

/-- `run_connection` takes a frame off the queue and writes it. -/
def forward (h : H) (k : Nat) : Option (Mesh H) :=
  match (net.config h).peers[k]?, (s h).queues k with
  | some _, frame :: queue =>
    some (s.set h { s h with
      queues := Function.update (s h).queues k queue
      wires := Function.update (s h).wires k ((s h).wires k ++ [frame]) })
  | _, _ => none

/-- A frame that was not written completely, or not read before the connection broke -/
def lose (h : H) (k j : Nat) : Option (Mesh H) :=
  if j < ((s h).wires k).length then
    some (s.set h { s h with wires := Function.update (s h).wires k (((s h).wires k).eraseIdx j) })
  else none

/-! ### From a peer to the bus -/

/-- What a reader passes on of a frame; it closes the connection of a peer that tells no accepted key. -/
def passesOn (cfg : ReaderConfig) (peer : PeerConfig) (frame : Frame) : List (String × Bytes) :=
  if Accepts cfg (asBytes peer.presharedKey) then
    match peer.transport with
    | .tcp => (Tcp.handleFrame cfg frame .start).sent
    | .quic => (Quic.handleInboundFrame cfg frame .start).sent
  else []

/-- A reader at the other end reads a frame.  What was written to an old connection may be read after what was written
to a new one. -/
def deliver (h : H) (k j : Nat) : Option (Mesh H) :=
  match (net.config h).peers[k]?, ((s h).wires k)[j]? with
  | some peer, some (frame, message) =>
    match net.listener peer.endpoint with
    | some h' =>
      let s := s.set h { s h with wires := Function.update (s h).wires k (((s h).wires k).eraseIdx j) }
      let sent := passesOn (net.config h').reader peer frame
      some (s.set h' { s h' with channel := (s h').channel ++ sent.map fun m => (m, message) })
    | none => none
  | _, _ => none

/-- `publisher_main`: publishing fails while a local producer has the topic, or when it fails for another reason. -/
def publish (h : H) (ok : Bool) : Option (Mesh H) :=
  match (s h).channel with
  | ((topic, payload), message) :: channel =>
    if ok = false ∨ (s h).producer topic = some .localProducer then some (s.set h { s h with channel := channel })
    else
      some (s.set h { s h with
        channel := channel
        producer := Function.update (s h).producer topic (some .bridge)
        published := (s h).published ++ [⟨topic, payload, some message⟩] })
  | [] => none

def step (s : Mesh H) : Act H → Option (Mesh H)
  | .acquire h topic => s.acquire h topic
  | .produce h topic payload => s.produce h topic payload
  | .release h topic => s.release h topic
  | .create h topic => s.create net h topic
  | .subscribe h i => s.subscribe net h i
  | .receive h i p => s.receive net h i p
  | .forward h k => s.forward net h k
  | .lose h k j => s.lose h k j
  | .deliver h k j => s.deliver net h k j
  | .publish h ok => s.publish h ok

/-- How often the machine `h` has published a message that a peer has sent -/
def republications (h : H) (m : MessageId H) : Nat := (s h).published.countP fun e => e.source = some m

end Mesh

end Mmbus.Bridge
