import Mmbus.BridgeForwarders

/-!
# The start of a bridge

`Bridge::start` builds a queue and a forwarder for every configured peer.  What it builds has preconditions of its own:
the queue a capacity, the forwarders an endpoint that is an address.

The validation does not ask for these preconditions, and the start and the forwarders are safe exactly for the
configurations that meet them (`start_safe_iff`).
-/

namespace Mmbus.Bridge

open SocketAddr Transition

/-! ### What is given -/

/-- The listen addresses, which the validation does not look at -/
structure StartConfig extends BridgeConfig where
  listen : Option String := none
  listenQuic : Option String := none

/-- What the system answers during the start -/
structure Env where
  runtime : Bool := true
  identity : Except String Unit := .ok ()
  bind : Bool := true
  setNonblocking : Bool := true
  localAddr : Bool := true
  serverConfig : Except String Unit := .ok ()

inductive QuicSetup
  | listenQuic (address : String)
  | identityMissing
  | quic (e : String)

inductive BridgeError
  | listen
  | quicNotCompiled (reason : String)
  | quicSetup (cause : QuicSetup)

inductive Panic
  /-- `DropOldestQueue capacity must be > 0` -/
  | queueCapacity
  /-- `VecDeque::with_capacity` of more than `isize::MAX` bytes -/
  | capacityOverflow
  | workerThreads
  | mpscChannel
  /-- `quic_runtime must exist if any quic peer is configured`, `runtime must exist if QUIC requested` -/
  | noRuntime
  /-- `validated at config parse time` -/
  | noFingerprint
  /-- `QuicNotCompiled guard should have fired` -/
  | notCompiled

inductive Stop
  | panic (p : Panic)
  | error (e : BridgeError)

/-! ### The start -/

/-- `isize::MAX` -/
def ISIZE_MAX : Nat := 2 ^ 63 - 1

/-- The bytes of a `Vec<u8>` itself -/
def VEC_SIZE : Nat := 24

/-- `queue::channel::<Vec<u8>>` -/
def channel (capacity : Nat) : Except Stop Unit :=
  if capacity = 0 then .error (.panic .queueCapacity)
  else if ISIZE_MAX < capacity * VEC_SIZE then .error (.panic .capacityOverflow)
  else .ok ()

structure StartedBridge where
  originId : UInt64
  forwarders : List Forwarder
  /-- The topics of the subscriber threads -/
  subscribers : List String
  listens : Bool
  listensQuic : Bool

namespace StartConfig

variable (q : Quic) (env : Env) (cfg : StartConfig)

def anyQuicPeer : Bool := cfg.peers.any fun p => p.transport = .quic

/-- The guard of a bridge that is compiled without QUIC -/
def refuseQuic : Except Stop Unit :=
  if q.compiled then .ok ()
  else if cfg.listenQuic.isSome then .error (.error (.quicNotCompiled "listen_quic is set"))
  else if cfg.anyQuicPeer then .error (.error (.quicNotCompiled "one or more peers use transport = \"quic\""))
  else .ok ()

/-- `build_quic_runtime_and_identity`: whether there is a runtime, and an identity -/
def buildQuicRuntimeAndIdentity : Except Stop (Bool × Bool) :=
  if q.compiled = false ∨ (cfg.anyQuicPeer = false ∧ cfg.listenQuic.isSome = false) then .ok (false, false)
  else if q.workerThreads cfg.quicWorkerThreads = false then .error (.panic .workerThreads)
  else if env.runtime = false then .error (.error .listen)
  else if cfg.listenQuic.isSome then
    match env.identity with
    | .ok () => .ok (true, true)
    | .error e => .error (.error (.quicSetup (.quic e)))
  else .ok (true, false)

/-- A round of the loop over the peers -/
def forwarder (runtime : Bool) (peer : PeerConfig) : Except Stop Forwarder := do
  channel cfg.peerBufferMax
  let hello := (Frame.peerHelloWithPsk cfg.originId (asBytes peer.presharedKey)).encode
  match peer.transport with
  | .tcp => return ⟨peer.name, peer.endpoint, hello, cfg.peerBufferMax, .tcp⟩
  | .quic =>
    if q.compiled = false then throw (.panic .notCompiled)
    if runtime = false then throw (.panic .noRuntime)
    let buffer := max cfg.peerBufferMax 1
    if q.mpscChannel buffer = false then throw (.panic .mpscChannel)
    match peer.peerCertFingerprint with
    | none => throw (.panic .noFingerprint)
    | some fp => return ⟨peer.name, peer.endpoint, hello, cfg.peerBufferMax, .quic fp buffer⟩

def forwarders (runtime : Bool) : List PeerConfig → Except Stop (List Forwarder)
  | [] => .ok []
  | peer :: peers => do
    let fwd ← cfg.forwarder q runtime peer
    let fwds ← forwarders runtime peers
    return fwd :: fwds

/-- The topics with a subscriber thread -/
def subscribers : List String := (cfg.topics.filter fun t => t.forward).map fun t => t.name

def listenTcp : Except Stop Unit :=
  if cfg.listen = none then .ok ()
  else if env.bind = false ∨ env.setNonblocking = false ∨ env.localAddr = false then .error (.error .listen)
  else .ok ()

/-- The QUIC listener binds later, in a task of its own. -/
def listenOnQuic (runtime identity : Bool) : Except Stop Unit :=
  match cfg.listenQuic with
  | none => .ok ()
  | some address => do
    if parse address.toList = none then throw (.error (.quicSetup (.listenQuic address)))
    if identity = false then throw (.error (.quicSetup .identityMissing))
    match env.serverConfig with
    | .error e => throw (.error (.quicSetup (.quic e)))
    | .ok () => if runtime = false then throw (.panic .noRuntime)

/-- `Bridge::start` -/
def start : Except Stop StartedBridge := do
  cfg.refuseQuic q
  let (runtime, identity) ← cfg.buildQuicRuntimeAndIdentity q env
  let forwarders ← cfg.forwarders q runtime cfg.peers
  cfg.listenTcp env
  if q.compiled then cfg.listenOnQuic env runtime identity
  return ⟨cfg.originId, forwarders, cfg.subscribers, cfg.listen.isSome, q.compiled && cfg.listenQuic.isSome⟩

end StartConfig

/-! ### What the validation tells -/

theorem forM_eq_ok {α ε : Type} {f : α → Except ε Unit} {l : List α} (h : l.forM f = .ok ()) :
    ∀ a ∈ l, f a = .ok () := by
  induction l with
  | nil => exact fun a ha => absurd ha List.not_mem_nil
  | cons a l ih =>
    change (f a >>= fun _ => l.forM f) = _ at h
    cases ha : f a with
    | error e =>
      rw [ha] at h
      cases h
    | ok u =>
      rw [ha] at h
      intro b hb
      rcases List.mem_cons.1 hb with rfl | hb
      · exact ha
      · exact ih h b hb

/-- Every peer is validated, and there are threads for the runtime. -/
theorem BridgeConfig.validate_eq_ok {cfg : BridgeConfig} (h : cfg.validate = .ok ()) :
    (∀ peer ∈ cfg.peers, peer.validate = .ok ()) ∧ 0 < cfg.quicWorkerThreads := by
  rw [BridgeConfig.validate] at h
  by_cases hbus : cfg.bus.toList.all isWhitespace = true
  · simp only [hbus, if_true] at h
    cases h
  · simp only [hbus, if_false, Bool.false_eq_true] at h
    cases hpeers : cfg.peers.forM PeerConfig.validate with
    | error e =>
      rw [hpeers] at h
      cases h
    | ok u =>
      refine ⟨forM_eq_ok hpeers, Nat.pos_of_ne_zero fun hzero => ?_⟩
      rw [hpeers] at h
      cases hname : duplicateName [] cfg.peers with
      | some name =>
        rw [hname] at h
        cases h
      | none =>
        rw [hname, hzero] at h
        cases h

theorem PeerConfig.fingerprint_of_validate {peer : PeerConfig} (h : peer.validate = .ok ())
    (hquic : peer.transport = .quic) : ∃ fp, peer.peerCertFingerprint = some fp := by
  rw [PeerConfig.validate] at h
  by_cases hcolon : ':' ∉ peer.endpoint.toList
  · rw [if_pos hcolon] at h
    cases h
  · rw [if_neg hcolon, if_pos hquic] at h
    cases hfp : peer.peerCertFingerprint with
    | none =>
      rw [hfp] at h
      cases h
    | some fp => exact ⟨fp, rfl⟩

/-! ### What does not panic -/

/-- No panic is reached. -/
def Calm {α : Type} (x : Except Stop α) : Prop := ∀ p, x ≠ .error (.panic p)

section Calm

variable {α β : Type}

theorem calm_ok (a : α) : Calm (.ok a) := by
  intro p h
  cases h

theorem calm_error (e : BridgeError) : Calm (.error (.error e) : Except Stop α) := by
  intro p h
  cases h

theorem Calm.bind {x : Except Stop α} {f : α → Except Stop β} (hx : Calm x) (hf : ∀ a, x = .ok a → Calm (f a)) :
    Calm (x >>= f) := by
  cases x with
  | ok a => exact hf a rfl
  | error stop =>
    intro p h
    cases h
    exact hx p rfl

theorem Calm.ite {c : Prop} [Decidable c] {x y : Except Stop α} (hx : c → Calm x) (hy : ¬c → Calm y) :
    Calm (if c then x else y) := by
  by_cases hc : c
  · rw [if_pos hc]
    exact hx hc
  · rw [if_neg hc]
    exact hy hc

end Calm

/-! ### The start of a validated configuration -/

/-- A forwarder for the peer -/
def Forwarder.For (fwd : Forwarder) (peer : PeerConfig) : Prop :=
  fwd.endpoint = peer.endpoint ∧ ((∃ fp buffer, fwd.transport = .quic fp buffer) ↔ peer.transport = .quic)

namespace StartConfig

/-- The capacity of the queues is one that `channel` takes. -/
def Fits (cfg : StartConfig) : Prop := 0 < cfg.peerBufferMax ∧ cfg.peerBufferMax * VEC_SIZE ≤ ISIZE_MAX

/-- The start is refused for want of QUIC. -/
def Refused (q : Quic) (cfg : StartConfig) : Prop :=
  q.compiled = false ∧ (cfg.listenQuic.isSome = true ∨ cfg.anyQuicPeer = true)

/-- The start fails at the QUIC listener. -/
def BadListen (cfg : StartConfig) : Prop := ∃ address, cfg.listenQuic = some address ∧ parse address.toList = none

variable {q : Quic} {env : Env} {cfg : StartConfig} {runtime identity : Bool} {peers : List PeerConfig} {peer : PeerConfig}

theorem channel_of_fits (h : cfg.Fits) : channel cfg.peerBufferMax = .ok () := by
  rw [channel, if_neg (Nat.ne_of_gt h.1), if_neg (Nat.not_lt.2 h.2)]

theorem channel_of_not_fits (h : ¬cfg.Fits) : ∃ p, channel cfg.peerBufferMax = .error (.panic p) := by
  rw [channel]
  by_cases hzero : cfg.peerBufferMax = 0
  · exact ⟨.queueCapacity, by rw [if_pos hzero]⟩
  · have hlarge : ISIZE_MAX < cfg.peerBufferMax * VEC_SIZE :=
      Nat.lt_of_not_le fun hle => h ⟨Nat.pos_of_ne_zero hzero, hle⟩
    exact ⟨.capacityOverflow, by rw [if_neg hzero, if_pos hlarge]⟩

theorem refuseQuic_of_not_refused (h : ¬cfg.Refused q) : cfg.refuseQuic q = .ok () := by
  rw [refuseQuic]
  by_cases hcompiled : q.compiled = true
  · rw [if_pos hcompiled]
  · have hno := not_or.1 fun hor => h ⟨Bool.eq_false_iff.2 hcompiled, hor⟩
    rw [if_neg hcompiled, if_neg hno.1, if_neg hno.2]

theorem refuseQuic_of_refused (h : cfg.Refused q) : ∃ e, cfg.refuseQuic q = .error (.error e) := by
  rw [refuseQuic, if_neg (by rw [h.1]; decide)]
  by_cases hlisten : cfg.listenQuic.isSome = true
  · exact ⟨_, by rw [if_pos hlisten]⟩
  · exact ⟨_, by rw [if_neg hlisten, if_pos (h.2.resolve_left hlisten)]⟩

theorem calm_build (hq : q.Documented) (hworkers : 0 < cfg.quicWorkerThreads) :
    Calm (cfg.buildQuicRuntimeAndIdentity q env) := by
  rw [buildQuicRuntimeAndIdentity]
  refine Calm.ite (fun _ => calm_ok _) fun _ => Calm.ite (fun hpanic => ?_) fun _ =>
    Calm.ite (fun _ => calm_error _) fun _ => Calm.ite (fun _ => ?_) fun _ => calm_ok _
  · rw [(hq.workerThreads _).2 hworkers] at hpanic
    cases hpanic
  · cases env.identity with
    | ok u => exact calm_ok _
    | error e => exact calm_error _

/-- Where QUIC is used there is a runtime. -/
theorem runtime_of_build (h : cfg.buildQuicRuntimeAndIdentity q env = .ok (runtime, identity))
    (hcompiled : q.compiled = true) (huses : cfg.listenQuic.isSome = true ∨ cfg.anyQuicPeer = true) : runtime = true := by
  have hneeded : ¬(q.compiled = false ∨ (cfg.anyQuicPeer = false ∧ cfg.listenQuic.isSome = false)) := by
    rintro (hno | ⟨hno, hno'⟩)
    · rw [hcompiled] at hno
      cases hno
    · rcases huses with huses | huses
      · rw [huses] at hno'
        cases hno'
      · rw [huses] at hno
        cases hno
  rw [buildQuicRuntimeAndIdentity, if_neg hneeded] at h
  split at h
  · cases h
  split at h
  · cases h
  split at h
  · cases hid : env.identity with
    | ok u =>
      rw [hid] at h
      cases h
      rfl
    | error e =>
      rw [hid] at h
      cases h
  · cases h
    rfl

/-- A system without failures gives the runtime and the identity. -/
theorem build_eq_ok (hq : q.Documented) (hworkers : 0 < cfg.quicWorkerThreads) :
    ∃ runtime, cfg.buildQuicRuntimeAndIdentity q {} = .ok (runtime, q.compiled && cfg.listenQuic.isSome) := by
  rw [buildQuicRuntimeAndIdentity]
  by_cases hneeded : q.compiled = false ∨ (cfg.anyQuicPeer = false ∧ cfg.listenQuic.isSome = false)
  · refine ⟨false, ?_⟩
    rw [if_pos hneeded]
    rcases hneeded with hno | ⟨_, hno⟩
    · rw [hno, Bool.false_and]
    · rw [hno, Bool.and_false]
  · have hcompiled : q.compiled = true := by
      by_contra hno
      exact hneeded (.inl (Bool.eq_false_iff.2 hno))
    refine ⟨true, ?_⟩
    rw [if_neg hneeded, (hq.workerThreads _).2 hworkers, hcompiled]
    cases hlisten : cfg.listenQuic with
    | none => rfl
    | some address => rfl

/-- A validated peer gets its forwarder. -/
theorem forwarder_eq_ok (hq : q.Documented) (hfits : cfg.Fits) (hpeer : peer.validate = .ok ())
    (hready : peer.transport = .quic → q.compiled = true ∧ runtime = true) :
    ∃ fwd, cfg.forwarder q runtime peer = .ok fwd ∧ fwd.For peer := by
  rw [forwarder, channel_of_fits hfits]
  cases htransport : peer.transport with
  | tcp =>
    refine ⟨_, rfl, rfl, ?_⟩
    rw [htransport]
    constructor
    · rintro ⟨fp, buffer, h⟩
      cases h
    · intro h
      cases h
  | quic =>
    obtain ⟨hcompiled, rfl⟩ := hready htransport
    obtain ⟨fp, hfp⟩ := PeerConfig.fingerprint_of_validate hpeer htransport
    have hbuffer : q.mpscChannel (max cfg.peerBufferMax 1) = true := by
      have hmax : cfg.peerBufferMax * VEC_SIZE ≤ ISIZE_MAX := hfits.2
      rw [hq.mpscChannel]
      simp only [VEC_SIZE, ISIZE_MAX, MAX_PERMITS] at hmax ⊢
      omega
    refine ⟨⟨peer.name, peer.endpoint, (Frame.peerHelloWithPsk cfg.originId (asBytes peer.presharedKey)).encode,
      cfg.peerBufferMax, .quic fp (max cfg.peerBufferMax 1)⟩, ?_, rfl, ?_⟩
    · simp only [hcompiled, hbuffer, hfp]
      rfl
    · rw [htransport]
      exact ⟨fun _ => rfl, fun _ => ⟨_, _, rfl⟩⟩

theorem forwarders_eq_ok (h : ∀ peer ∈ peers, ∃ fwd, cfg.forwarder q runtime peer = .ok fwd ∧ fwd.For peer) :
    ∃ fwds, cfg.forwarders q runtime peers = .ok fwds ∧ List.Forall₂ Forwarder.For fwds peers := by
  induction peers with
  | nil => exact ⟨[], rfl, .nil⟩
  | cons peer peers ih =>
    obtain ⟨fwd, hfwd, hfor⟩ := h peer (List.mem_cons_self ..)
    obtain ⟨fwds, hfwds, hall⟩ := ih fun peer' hpeer' => h peer' (List.mem_cons_of_mem _ hpeer')
    refine ⟨fwd :: fwds, ?_, .cons hfor hall⟩
    rw [forwarders, hfwd, hfwds]
    rfl

theorem anyQuicPeer_of_mem (hmem : peer ∈ cfg.peers) (hquic : peer.transport = .quic) : cfg.anyQuicPeer = true :=
  List.any_eq_true.2 ⟨peer, hmem, decide_eq_true hquic⟩

/-- The loop over the peers of a validated configuration, where the queues fit -/
theorem forwarders_of_validate (hq : q.Documented) (hvalid : cfg.validate = .ok ()) (hrefuse : ¬cfg.Refused q)
    (hfits : cfg.peers = [] ∨ cfg.Fits) (hbuild : cfg.buildQuicRuntimeAndIdentity q env = .ok (runtime, identity)) :
    ∃ fwds, cfg.forwarders q runtime cfg.peers = .ok fwds ∧ List.Forall₂ Forwarder.For fwds cfg.peers := by
  apply forwarders_eq_ok
  intro peer hmem
  have hfits' : cfg.Fits := hfits.resolve_left (List.ne_nil_of_mem hmem)
  refine forwarder_eq_ok hq hfits' ((BridgeConfig.validate_eq_ok hvalid).1 peer hmem) fun hquic => ?_
  have hany := anyQuicPeer_of_mem hmem hquic
  have hcompiled : q.compiled = true := by
    by_contra hno
    exact hrefuse ⟨Bool.eq_false_iff.2 hno, .inr hany⟩
  exact ⟨hcompiled, runtime_of_build hbuild hcompiled (.inr hany)⟩

theorem calm_listenTcp : Calm (cfg.listenTcp env) := by
  rw [listenTcp]
  exact Calm.ite (fun _ => calm_ok _) fun _ => Calm.ite (fun _ => calm_error _) fun _ => calm_ok _

theorem calm_listenOnQuic (h : cfg.listenQuic.isSome = true → runtime = true) :
    Calm (cfg.listenOnQuic env runtime identity) := by
  rw [listenOnQuic]
  cases hlisten : cfg.listenQuic with
  | none => exact calm_ok _
  | some address =>
    obtain rfl := h (by rw [hlisten]; rfl)
    refine Calm.ite (fun _ => calm_error _) fun _ => Calm.ite (fun _ => calm_error _) fun _ => ?_
    cases env.serverConfig with
    | ok u => exact calm_ok _
    | error e => exact calm_error _

/-- The start of a validated configuration whose queues fit reaches no panic. -/
theorem calm_start (hq : q.Documented) (hvalid : cfg.validate = .ok ())
    (hfits : cfg.Refused q ∨ cfg.peers = [] ∨ cfg.Fits) : Calm (cfg.start q env) := by
  rw [start]
  by_cases hrefuse : cfg.Refused q
  · obtain ⟨e, he⟩ := refuseQuic_of_refused hrefuse
    rw [he]
    exact calm_error e
  refine Calm.bind (by rw [refuseQuic_of_not_refused hrefuse]; exact calm_ok _) fun _ _ =>
    Calm.bind (calm_build hq (BridgeConfig.validate_eq_ok hvalid).2) fun built hbuild => ?_
  obtain ⟨runtime, identity⟩ := built
  obtain ⟨fwds, hfwds, -⟩ := forwarders_of_validate hq hvalid hrefuse (hfits.resolve_left hrefuse) hbuild
  refine Calm.bind (by rw [hfwds]; exact calm_ok _) fun _ _ => Calm.bind calm_listenTcp fun _ _ =>
    Calm.ite (fun hcompiled => ?_) fun _ => calm_ok _
  exact Calm.bind (calm_listenOnQuic fun hlisten => runtime_of_build hbuild hcompiled (.inl hlisten)) fun _ _ => calm_ok _

theorem bind_eq_ok {α β : Type} {x : Except Stop α} {f : α → Except Stop β} {b : β} (h : (x >>= f) = .ok b) :
    ∃ a, x = .ok a ∧ f a = .ok b := by
  cases x with
  | ok a => exact ⟨a, rfl, h⟩
  | error e => cases h

/-- What a bridge that runs has been through -/
theorem start_eq_ok {bridge : StartedBridge} (h : cfg.start q env = .ok bridge) : ∃ runtime identity fwds,
    cfg.refuseQuic q = .ok () ∧ cfg.buildQuicRuntimeAndIdentity q env = .ok (runtime, identity) ∧
    cfg.forwarders q runtime cfg.peers = .ok fwds ∧
    (q.compiled = true → cfg.listenOnQuic env runtime identity = .ok ()) ∧
    bridge = ⟨cfg.originId, fwds, cfg.subscribers, cfg.listen.isSome, q.compiled && cfg.listenQuic.isSome⟩ := by
  rw [start] at h
  obtain ⟨_, hrefuse, h⟩ := bind_eq_ok h
  obtain ⟨⟨runtime, identity⟩, hbuild, h⟩ := bind_eq_ok h
  obtain ⟨fwds, hfwds, h⟩ := bind_eq_ok h
  obtain ⟨_, -, h⟩ := bind_eq_ok h
  refine ⟨runtime, identity, fwds, hrefuse, hbuild, hfwds, ?_⟩
  by_cases hcompiled : q.compiled = true
  · rw [if_pos hcompiled] at h
    obtain ⟨_, hquic, h⟩ := bind_eq_ok h
    cases h
    exact ⟨fun _ => hquic, rfl⟩
  · rw [if_neg hcompiled] at h
    cases h
    exact ⟨fun hyes => absurd hyes hcompiled, rfl⟩

theorem not_refused_of_ok (h : cfg.refuseQuic q = .ok ()) : ¬cfg.Refused q := by
  intro hrefused
  obtain ⟨e, he⟩ := refuseQuic_of_refused hrefused
  rw [he] at h
  cases h

theorem not_badListen_of_ok (h : cfg.listenOnQuic env runtime identity = .ok ()) : ¬cfg.BadListen := by
  rintro ⟨address, hlisten, hparse⟩
  rw [listenOnQuic, hlisten] at h
  simp only [hparse, if_true] at h
  cases h

theorem length_forwarders {fwds : List Forwarder} (h : cfg.forwarders q runtime peers = .ok fwds) :
    fwds.length = peers.length := by
  induction peers generalizing fwds with
  | nil =>
    cases h
    rfl
  | cons peer peers ih =>
    rw [forwarders] at h
    obtain ⟨fwd, -, h⟩ := bind_eq_ok h
    obtain ⟨rest, hrest, h⟩ := bind_eq_ok h
    cases h
    rw [List.length_cons, List.length_cons, ih hrest]

/-- The threads of a bridge that runs -/
theorem threads_of_start {bridge : StartedBridge} (h : cfg.start q env = .ok bridge) :
    bridge.subscribers = cfg.subscribers ∧ bridge.forwarders.length = cfg.peers.length := by
  obtain ⟨runtime, identity, fwds, -, -, hfwds, -, rfl⟩ := start_eq_ok h
  exact ⟨rfl, length_forwarders hfwds⟩

/-- Without failures of the system the bridge starts. -/
theorem start_of_fits (hq : q.Documented) (hvalid : cfg.validate = .ok ()) (hrefuse : ¬cfg.Refused q)
    (hfits : cfg.peers = [] ∨ cfg.Fits) (hlisten : ¬(q.compiled = true ∧ cfg.BadListen)) :
    ∃ bridge, cfg.start q {} = .ok bridge ∧ List.Forall₂ Forwarder.For bridge.forwarders cfg.peers := by
  obtain ⟨runtime, hbuild⟩ := build_eq_ok hq (BridgeConfig.validate_eq_ok hvalid).2
  obtain ⟨fwds, hfwds, hall⟩ := forwarders_of_validate hq hvalid hrefuse hfits hbuild
  have htcp : cfg.listenTcp {} = .ok () := by
    rw [listenTcp]
    split
    · rfl
    · rfl
  have hquic : q.compiled = true → cfg.listenOnQuic {} runtime (q.compiled && cfg.listenQuic.isSome) = .ok () := by
    intro hcompiled
    rw [listenOnQuic]
    cases haddr : cfg.listenQuic with
    | none => rfl
    | some address =>
      obtain rfl := runtime_of_build hbuild hcompiled (.inl (by rw [haddr]; rfl))
      have hparse : parse address.toList ≠ none := fun hnone => hlisten ⟨hcompiled, address, haddr, hnone⟩
      simp only [hparse, hcompiled]
      rfl
  refine ⟨⟨cfg.originId, fwds, cfg.subscribers, cfg.listen.isSome, q.compiled && cfg.listenQuic.isSome⟩, ?_, hall⟩
  rw [start, refuseQuic_of_not_refused hrefuse, hbuild]
  simp only [bind, Except.bind, hfwds, htcp]
  by_cases hcompiled : q.compiled = true
  · rw [if_pos hcompiled, hquic hcompiled]
    rfl
  · rw [if_neg hcompiled]
    rfl

/-- A queue that does not fit stops the start with a panic at the first peer. -/
theorem start_of_not_fits (hq : q.Documented) (hvalid : cfg.validate = .ok ()) (hrefuse : ¬cfg.Refused q)
    (hpeers : cfg.peers ≠ []) (hfits : ¬cfg.Fits) : ∃ p, cfg.start q {} = .error (.panic p) := by
  obtain ⟨runtime, hbuild⟩ := build_eq_ok hq (BridgeConfig.validate_eq_ok hvalid).2
  obtain ⟨p, hp⟩ := channel_of_not_fits hfits
  refine ⟨p, ?_⟩
  rw [start, refuseQuic_of_not_refused hrefuse, hbuild]
  cases hlist : cfg.peers with
  | nil => exact absurd hlist hpeers
  | cons peer peers =>
    simp only [bind, Except.bind, forwarders, forwarder, hp]

end StartConfig

/-! ### The start and the forwarders -/

/-- The endpoint is an address, and for QUIC one that the crates take. -/
def PeerConfig.Reachable (q : Quic) (peer : PeerConfig) : Prop :=
  ∃ addr, parse peer.endpoint.toList = some addr ∧
    (peer.transport = .quic → q.clientConfig = true ∧ q.connect addr = true)

theorem Forwarder.For.reachable_iff {q : Quic} {fwd : Forwarder} {peer : PeerConfig} (h : fwd.For peer) :
    fwd.Reachable q ↔ peer.Reachable q := by
  rw [Forwarder.Reachable, PeerConfig.Reachable, h.1, h.2]

theorem exists_of_mem_left {α β : Type} {R : α → β → Prop} {l : List α} {l' : List β} (h : List.Forall₂ R l l') {a : α}
    (ha : a ∈ l) : ∃ b ∈ l', R a b := by
  induction h with
  | nil => exact absurd ha List.not_mem_nil
  | cons hab _ ih =>
    rcases List.mem_cons.1 ha with rfl | ha
    · exact ⟨_, List.mem_cons_self .., hab⟩
    · obtain ⟨b, hb, hab⟩ := ih ha
      exact ⟨b, List.mem_cons_of_mem _ hb, hab⟩

theorem exists_of_mem_right {α β : Type} {R : α → β → Prop} {l : List α} {l' : List β} (h : List.Forall₂ R l l') {b : β}
    (hb : b ∈ l') : ∃ a ∈ l, R a b :=
  exists_of_mem_left h.flip hb

/-- What the start and the forwarders ask of a configuration: the queues have a capacity that fits, and every endpoint is
an address.  Nothing is asked of one with which the start is refused; one with a bad listen address is only asked for
the queues. -/
def StartConfig.Startable (q : Quic) (cfg : StartConfig) : Prop :=
  cfg.Refused q ∨ (cfg.peers = [] ∨ cfg.Fits) ∧
    (q.compiled = true ∧ cfg.BadListen ∨ ∀ peer ∈ cfg.peers, peer.Reachable q)

/-- The start of a validated configuration reaches no panic, and its forwarders retry all peers until the shutdown, if and
only if the configuration meets the preconditions of the queues and the forwarders. -/
theorem start_safe_iff (q : Quic) (hq : q.Documented) (cfg : StartConfig) (hvalid : cfg.validate = .ok ()) :
    ((∀ env p, cfg.start q env ≠ .error (.panic p)) ∧
      ∀ env bridge, cfg.start q env = .ok bridge → ∀ fwd ∈ bridge.forwarders, Link.Retries Bytes q fwd) ↔
    cfg.Startable q := by
  constructor
  · rintro ⟨hcalm, hretries⟩
    by_cases hrefuse : cfg.Refused q
    · exact .inl hrefuse
    have hfits : cfg.peers = [] ∨ cfg.Fits := by
      by_contra hno
      obtain ⟨hpeers, hfits⟩ := not_or.1 hno
      obtain ⟨p, hp⟩ := StartConfig.start_of_not_fits hq hvalid hrefuse hpeers hfits
      exact hcalm {} p hp
    refine .inr ⟨hfits, ?_⟩
    by_cases hlisten : q.compiled = true ∧ cfg.BadListen
    · exact .inl hlisten
    · obtain ⟨bridge, hstart, hall⟩ := StartConfig.start_of_fits hq hvalid hrefuse hfits hlisten
      refine .inr fun peer hpeer => ?_
      obtain ⟨fwd, hfwd, hfor⟩ := exists_of_mem_right hall hpeer
      exact hfor.reachable_iff.1 ((Link.retries_iff Bytes q fwd).1 (hretries {} bridge hstart fwd hfwd))
  · intro hstartable
    refine ⟨fun env p => StartConfig.calm_start hq hvalid (hstartable.imp_right And.left) p, ?_⟩
    intro env bridge hstart fwd hfwd
    obtain ⟨runtime, identity, fwds, hok, hbuild, hfwds, hlisten, rfl⟩ := StartConfig.start_eq_ok hstart
    have hrefuse := StartConfig.not_refused_of_ok hok
    obtain ⟨hfits, hreach⟩ := hstartable.resolve_left hrefuse
    obtain ⟨fwds', hfwds', hall⟩ := StartConfig.forwarders_of_validate hq hvalid hrefuse hfits hbuild
    obtain rfl : fwds = fwds' := Except.ok.inj (hfwds.symm.trans hfwds')
    obtain ⟨peer, hpeer, hfor⟩ := exists_of_mem_left hall hfwd
    have hpeers := hreach.resolve_left fun hbad => StartConfig.not_badListen_of_ok (hlisten hbad.1) hbad.2
    exact (Link.retries_iff Bytes q fwd).2 (hfor.reachable_iff.2 (hpeers peer hpeer))

/-- A host name is not retried: no address begins like one. -/
theorem PeerConfig.not_reachable_of_name {q : Quic} {peer : PeerConfig} {c : Char} {rest : List Char}
    (hname : peer.endpoint.toList = c :: rest) (hdigit : toDigit 10 c = none) (hbracket : c ≠ '[') : ¬peer.Reachable q := by
  rintro ⟨addr, haddr, -⟩
  rw [hname, parse_of_not_digit hdigit hbracket] at haddr
  cases haddr

/-- QUIC crates that refuse no address -/
def sampleQuic : Quic where
  compiled := true
  workerThreads n := 0 < n
  mpscChannel n := 0 < n ∧ n ≤ MAX_PERMITS
  clientConfig := true
  connect _ := true

theorem sampleQuic_documented : sampleQuic.Documented where
  workerThreads _ := decide_eq_true_iff
  mpscChannel _ := decide_eq_true_iff

/-- A configuration with one peer -/
def dialing (endpoint : String) (peerBufferMax : Nat) : StartConfig where
  bus := "demo"
  originId := 1
  peerBufferMax := peerBufferMax
  topics := []
  peers := [{ name := "machine-b", presharedKey := "secret", endpoint := endpoint }]

/-- A peer with an address -/
theorem start_safe_iff_dialing : (∀ env p, (dialing "10.0.0.2:4443" 4096).start sampleQuic env ≠ .error (.panic p)) ∧
    ∀ env bridge, (dialing "10.0.0.2:4443" 4096).start sampleQuic env = .ok bridge →
      ∀ fwd ∈ bridge.forwarders, Link.Retries Bytes sampleQuic fwd := by
  refine (start_safe_iff sampleQuic sampleQuic_documented _ (by decide +kernel)).2
    (.inr ⟨.inr ⟨by decide, by decide⟩, .inr ?_⟩)
  intro peer hpeer
  obtain rfl := List.mem_singleton.1 hpeer
  exact ⟨.v4 ⟨10, 0, 0, 2⟩ 4443, by decide +kernel, by decide⟩

/-- The validation accepts a queue without capacity, and the start panics.  It accepts the endpoint of the configuration's
documentation, and the forwarder returns at once. -/
theorem start_not_safe :
    ((dialing "10.0.0.2:4443" 0).validate = .ok () ∧
      (dialing "10.0.0.2:4443" 0).start sampleQuic {} = .error (.panic .queueCapacity)) ∧
    (dialing "machine-b.internal:4443" 4096).validate = .ok () ∧
      ∃ bridge, (dialing "machine-b.internal:4443" 4096).start sampleQuic {} = .ok bridge ∧
        ∃ fwd ∈ bridge.forwarders, ∃ s : Link Bytes,
          run (Link.step sampleQuic fwd) {} [.main true] = some s ∧ s.shutdown = false ∧ s.hungUp = true := by
  refine ⟨⟨by decide +kernel, rfl⟩, by decide +kernel, _, rfl, _, List.mem_singleton.2 rfl, _, rfl, ?_, ?_⟩
  · rfl
  · rfl

end Mmbus.Bridge
