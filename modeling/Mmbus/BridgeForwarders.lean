import Mmbus.BridgeWire
import Mmbus.Lib.SocketAddr
import Mmbus.Lib.Transition

/-!
# Forwarders

The threads of a peer: they connect, write what is in the peer's queue, and start over when the connection fails, until
the shutdown is requested.  A TCP peer has one thread; a QUIC peer has one that empties the queue into a channel, and a
task that writes what is in the channel.

A forwarder that has an address connects again and again, and none of its threads returns before the shutdown; one that
has no address returns at once (`retries_iff`).
-/

namespace Mmbus.Bridge

open SocketAddr Transition

/-! ### What a forwarder is given -/

/-- The QUIC crates: what they accept, and whether the bridge is compiled with them. -/
structure Quic where
  compiled : Bool
  /-- The numbers with which `Builder::worker_threads` does not panic -/
  workerThreads : Nat → Bool
  /-- The numbers with which `tokio::sync::mpsc::channel` does not panic -/
  mpscChannel : Nat → Bool
  /-- `client_config_pinning` builds a configuration. -/
  clientConfig : Bool
  /-- The addresses for which `Endpoint::connect` does not fail at once -/
  connect : Addr → Bool

/-- `Semaphore::MAX_PERMITS` -/
def MAX_PERMITS : Nat := 2 ^ 61 - 1

/-- The panics that are documented -/
structure Quic.Documented (q : Quic) : Prop where
  workerThreads : ∀ n, q.workerThreads n = true ↔ 0 < n
  mpscChannel : ∀ n, q.mpscChannel n = true ↔ 0 < n ∧ n ≤ MAX_PERMITS

/-- How the frames of a peer go out -/
inductive Transport
  | tcp
  | quic (pinnedFp : String) (buffer : Nat)

/-- What the threads of a peer are started with -/
structure Forwarder where
  name : String
  endpoint : String
  hello : Bytes
  capacity : Nat
  transport : Transport

/-! ### The threads -/

/-- Where `forwarder_main` or `outbound_main` is: at the head of its loop; binding its own endpoint (QUIC) or connecting;
asleep, for so many milliseconds more; writing the hello; at the head of the inner loop; waiting for a frame; after a
wait without one (TCP); writing a frame; done, or ended by a panic. -/
inductive Phase (α : Type)
  | top
  | binding (addr : Addr)
  | dialing (addr : Addr)
  | sleeping (left : Nat)
  | greeting
  | serving
  | receiving
  | polled
  | writing (frame : α)
  | returned
  | panicked

/-- Where the thread of `spawn_queue_bridge` is -/
inductive Drain (α : Type)
  | top
  | receiving
  | polled
  | sending (frame : α)
  | returned

/-- The queue of a peer and the threads that empty it.  The threads do not look at the frames, which are of any type. -/
structure Link (α : Type) where
  shutdown : Bool := false
  queue : List α := []
  main : Phase α := .top
  /-- In milliseconds -/
  backoff : Nat := 50
  /-- All that has been written: a hello on every connection, and the frames after it -/
  stream : List (Bytes ⊕ α) := []
  /-- The channel between the two threads of a QUIC peer -/
  chan : List α := []
  drain : Drain α := .top

def MAX_BACKOFF : Nat := 1000

namespace Link

variable {α : Type} (q : Quic) (fwd : Forwarder) (s : Link α)

/-- A connection attempt has failed. -/
def retry : Link α := { s with main := .sleeping s.backoff }

/-- A round of `sleep_interruptible`, and what follows it -/
def sleep (left : Nat) : Link α :=
  if left = 0 ∨ s.shutdown then { s with main := .top, backoff := min (s.backoff * 2) MAX_BACKOFF }
  else { s with main := .sleeping (left - min left 50) }

/-- The connection is there or not. -/
def connected (ok : Bool) : Link α := if ok then { s with main := .greeting, backoff := 50 } else s.retry

/-- The hello is written, or a call before it or the write has failed. -/
def greet (ok : Bool) : Link α :=
  if ok then { s with main := .serving, stream := s.stream ++ [.inl fwd.hello] } else { s with main := .top }

/-- The head of the inner loop.  A shutdown ends the connection, not yet the loop around it. -/
def serve : Link α := { s with main := if s.shutdown then .top else .receiving }

def write (frame : α) (ok : Bool) : Link α :=
  if ok then { s with main := .serving, stream := s.stream ++ [.inr frame] } else { s with main := .top }

/-- `forwarder_main` with `run_connection` goes on.  `ok` is how the call ends that it is in. -/
def tcpMain (ok : Bool) : Link α :=
  match s.main with
  | .top =>
    if s.shutdown then { s with main := .returned }
    else
      match parse fwd.endpoint.toList with
      | some addr => { s with main := .dialing addr }
      | none => { s with main := .returned }
  | .dialing _ => s.connected ok
  | .sleeping left => s.sleep left
  | .greeting => s.greet fwd ok
  | .serving => s.serve
  | .receiving =>
    match s.queue with
    | frame :: queue => { s with main := .writing frame, queue }
    | [] => { s with main := .polled }
  | .polled => { s with main := if s.shutdown then .top else .serving }
  | .writing frame => s.write frame ok
  | .binding _ | .returned | .panicked => s

/-- The own address that a QUIC peer's endpoint is bound to; the literals are parsed. -/
def bindAddr (addr : Addr) : Option Addr :=
  if addr.isIpv6 then parse "[::]:0".toList else parse "0.0.0.0:0".toList

/-- `outbound_main` with `run_quic_connection` -/
def quicMain (ok : Bool) : Link α :=
  match s.main with
  | .top =>
    if s.shutdown then { s with main := .returned }
    else if q.clientConfig = false then { s with main := .returned }
    else
      match parse fwd.endpoint.toList with
      | some addr => { s with main := if (bindAddr addr).isSome then .binding addr else .panicked }
      | none => { s with main := .returned }
  | .binding addr =>
    if ok then { s with main := if q.connect addr then .dialing addr else .returned } else s.retry
  | .dialing _ => s.connected ok
  | .sleeping left => s.sleep left
  | .greeting => s.greet fwd ok
  | .serving => s.serve
  | .receiving =>
    match s.chan with
    | frame :: chan => { s with main := .writing frame, chan }
    -- the channel is closed, or there was nothing in it for a while
    | [] => { s with main := match s.drain with | .returned => .top | _ => .serving }
  | .writing frame => s.write frame ok
  | .polled | .returned | .panicked => s

/-- The receiver of the channel is dropped with the task. -/
def hungUp : Bool :=
  match s.main with
  | .returned | .panicked => true
  | _ => false

/-- The thread of `spawn_queue_bridge` goes on.  It waits for room in the channel. -/
def quicDrain (buffer : Nat) : Link α :=
  match s.drain with
  | .top => { s with drain := if s.shutdown then .returned else .receiving }
  | .receiving =>
    match s.queue with
    | frame :: queue => { s with drain := .sending frame, queue }
    | [] => { s with drain := .polled }
  | .polled => { s with drain := if s.shutdown then .returned else .top }
  | .sending frame =>
    if s.hungUp then { s with drain := .returned }
    else if s.chan.length < buffer then { s with drain := .top, chan := s.chan ++ [frame] }
    else s
  | .returned => s

/-- A frame is sent to the queue, the shutdown is requested, or one of the peer's threads goes on. -/
inductive Act (α : Type)
  | send (frame : α)
  | requestShutdown
  | main (ok : Bool)
  | drain

def main' (ok : Bool) : Link α :=
  match fwd.transport with
  | .tcp => s.tcpMain fwd ok
  | .quic .. => s.quicMain q fwd ok

def step : Act α → Option (Link α)
  | .send frame => some { s with queue := Bridge.send fwd.capacity s.queue frame }
  | .requestShutdown => some { s with shutdown := true }
  | .main ok => some (s.main' q fwd ok)
  | .drain =>
    match fwd.transport with
    | .tcp => none
    | .quic _ buffer => some (s.quicDrain buffer)

end Link

/-! ### The runs -/

/-- The endpoint is an address, and for QUIC one that the crates take. -/
def Forwarder.Reachable (q : Quic) (fwd : Forwarder) : Prop :=
  ∃ addr, parse fwd.endpoint.toList = some addr ∧
    ((∃ fp buffer, fwd.transport = .quic fp buffer) → q.clientConfig = true ∧ q.connect addr = true)

/-- The forwarder is connecting or connected. -/
def Phase.active {α : Type} : Phase α → Bool
  | .binding _ | .dialing _ | .greeting | .serving | .receiving | .polled | .writing _ => true
  | .top | .sleeping _ | .returned | .panicked => false

namespace Link

variable {α : Type}

/-- However the calls end, the forwarder is soon connecting or connected again. -/
def Tries (q : Quic) (fwd : Forwarder) (s : Link α) : Prop :=
  ∀ answers : List Bool, MAX_BACKOFF + 2 ≤ answers.length →
    ∃ first, first <+: answers ∧ ∃ s', run (step q fwd) s (first.map .main) = some s' ∧ s'.main.active = true

/-- The peer is retried for as long as the bridge runs: no thread of it returns or panics before the shutdown. -/
structure Retries (α : Type) (q : Quic) (fwd : Forwarder) : Prop where
  stays : ∀ acts, ∀ s : Link α, run (step q fwd) {} acts = some s → s.shutdown = false →
    s.hungUp = false ∧ s.drain ≠ .returned
  tries : ∀ acts, ∀ s : Link α, run (step q fwd) {} acts = some s → s.shutdown = false → s.Tries q fwd

/-- Where the forwarder can be -/
def Fine (fwd : Forwarder) (shutdown : Bool) : Phase α → Prop
  | .binding addr => parse fwd.endpoint.toList = some addr
  | .sleeping left => left ≤ MAX_BACKOFF
  | .returned => shutdown = true
  | .panicked => False
  | _ => True

structure Inv (fwd : Forwarder) (s : Link α) : Prop where
  main : Fine fwd s.shutdown s.main
  backoff : s.backoff ≤ MAX_BACKOFF
  drain : s.drain = .returned → s.shutdown = true

variable {q : Quic} {fwd : Forwarder} {s s' : Link α} {addr : Addr} {ok : Bool}

theorem inv_init (fwd : Forwarder) : Inv fwd ({} : Link α) where
  main := trivial
  backoff := (by decide : 50 ≤ MAX_BACKOFF)
  drain := by
    intro h
    cases h

/-- Both own addresses are parsed. -/
theorem bindAddr_isSome (addr : Addr) : (bindAddr addr).isSome = true := by
  cases addr with
  | v4 ip port => exact (by decide : (parse "0.0.0.0:0".toList).isSome = true)
  | v6 ip port scopeId => exact (by decide : (parse "[::]:0".toList).isSome = true)

theorem Inv.retry (h : Inv fwd s) : Inv fwd s.retry := ⟨h.backoff, h.backoff, h.drain⟩

theorem Inv.sleep {left : Nat} (h : Inv fwd s) (hleft : left ≤ MAX_BACKOFF) : Inv fwd (s.sleep left) := by
  rw [Link.sleep]
  split
  · exact ⟨trivial, Nat.min_le_right .., h.drain⟩
  · exact ⟨Nat.le_trans (Nat.sub_le ..) hleft, h.backoff, h.drain⟩

theorem Inv.connected (h : Inv fwd s) (ok : Bool) : Inv fwd (s.connected ok) := by
  cases ok with
  | false => exact h.retry
  | true => exact ⟨trivial, (by decide : 50 ≤ MAX_BACKOFF), h.drain⟩

theorem Inv.greet (h : Inv fwd s) (ok : Bool) : Inv fwd (s.greet fwd ok) := by
  cases ok with
  | false => exact ⟨trivial, h.backoff, h.drain⟩
  | true => exact ⟨trivial, h.backoff, h.drain⟩

theorem Inv.serve (h : Inv fwd s) : Inv fwd s.serve := by
  refine ⟨?_, h.backoff, h.drain⟩
  simp only [Link.serve]
  split
  · exact trivial
  · exact trivial

theorem Inv.write (h : Inv fwd s) (frame : α) (ok : Bool) : Inv fwd (s.write frame ok) := by
  cases ok with
  | false => exact ⟨trivial, h.backoff, h.drain⟩
  | true => exact ⟨trivial, h.backoff, h.drain⟩

theorem Inv.tcpMain (h : Inv fwd s) (haddr : parse fwd.endpoint.toList = some addr) (ok : Bool) :
    Inv fwd (s.tcpMain fwd ok) := by
  have hfine := h.main
  rw [Link.tcpMain]
  cases hmain : s.main with
  | top =>
    simp only [haddr]
    split
    · rename_i hshut
      exact ⟨hshut, h.backoff, h.drain⟩
    · exact ⟨trivial, h.backoff, h.drain⟩
  | dialing addr => exact h.connected ok
  | sleeping left =>
    rw [hmain] at hfine
    exact h.sleep hfine
  | greeting => exact h.greet ok
  | serving => exact h.serve
  | receiving =>
    cases s.queue with
    | nil => exact ⟨trivial, h.backoff, h.drain⟩
    | cons frame queue => exact ⟨trivial, h.backoff, h.drain⟩
  | polled =>
    refine ⟨?_, h.backoff, h.drain⟩
    simp only
    split
    · exact trivial
    · exact trivial
  | writing frame => exact h.write frame ok
  | binding addr => exact h
  | returned => exact h
  | panicked => exact h

theorem Inv.quicMain (h : Inv fwd s) (haddr : parse fwd.endpoint.toList = some addr) (hclient : q.clientConfig = true)
    (hconnect : q.connect addr = true) (ok : Bool) : Inv fwd (s.quicMain q fwd ok) := by
  have hfine := h.main
  rw [Link.quicMain]
  cases hmain : s.main with
  | top =>
    simp only [haddr, hclient, bindAddr_isSome, if_true]
    split
    · rename_i hshut
      exact ⟨hshut, h.backoff, h.drain⟩
    · exact ⟨haddr, h.backoff, h.drain⟩
  | binding addr' =>
    rw [hmain] at hfine
    obtain rfl : addr = addr' := Option.some.inj (haddr.symm.trans hfine)
    simp only [hconnect, if_true]
    split
    · exact ⟨trivial, h.backoff, h.drain⟩
    · exact h.retry
  | dialing addr => exact h.connected ok
  | sleeping left =>
    rw [hmain] at hfine
    exact h.sleep hfine
  | greeting => exact h.greet ok
  | serving => exact h.serve
  | receiving =>
    cases s.chan with
    | nil =>
      refine ⟨?_, h.backoff, h.drain⟩
      simp only
      split
      · exact trivial
      · exact trivial
    | cons frame chan => exact ⟨trivial, h.backoff, h.drain⟩
  | writing frame => exact h.write frame ok
  | polled => exact h
  | returned => exact h
  | panicked => exact h

theorem Inv.hungUp (h : Inv fwd s) (hup : s.hungUp = true) : s.shutdown = true := by
  have hfine := h.main
  rw [Link.hungUp] at hup
  cases hmain : s.main with
  | returned =>
    rw [hmain] at hfine
    exact hfine
  | panicked =>
    rw [hmain] at hfine
    exact hfine.elim
  | top | binding _ | dialing _ | sleeping _ | greeting | serving | receiving | polled | writing _ =>
    rw [hmain] at hup
    cases hup

theorem Inv.quicDrain {buffer : Nat} (h : Inv fwd s) : Inv fwd (s.quicDrain buffer) := by
  rw [Link.quicDrain]
  cases s.drain with
  | top =>
    refine ⟨h.main, h.backoff, fun hreturned => ?_⟩
    by_contra hshut
    simp only [hshut, if_false] at hreturned
    cases hreturned
  | receiving =>
    cases s.queue with
    | nil => exact ⟨h.main, h.backoff, fun hreturned => by cases hreturned⟩
    | cons frame queue => exact ⟨h.main, h.backoff, fun hreturned => by cases hreturned⟩
  | polled =>
    refine ⟨h.main, h.backoff, fun hreturned => ?_⟩
    by_contra hshut
    simp only [hshut, if_false] at hreturned
    cases hreturned
  | sending frame =>
    simp only
    split
    · rename_i hup
      exact ⟨h.main, h.backoff, fun _ => h.hungUp hup⟩
    · split
      · exact ⟨h.main, h.backoff, fun hreturned => by cases hreturned⟩
      · exact h
  | returned => exact h

theorem Inv.main' (h : Inv fwd s) (hreach : fwd.Reachable q) (ok : Bool) : Inv fwd (s.main' q fwd ok) := by
  obtain ⟨addr, haddr, hquic⟩ := hreach
  rw [Link.main']
  cases htransport : fwd.transport with
  | tcp => exact h.tcpMain haddr ok
  | quic fp buffer =>
    obtain ⟨hclient, hconnect⟩ := hquic ⟨fp, buffer, htransport⟩
    exact h.quicMain haddr hclient hconnect ok

theorem Inv.step {a : Act α} (h : Inv fwd s) (hreach : fwd.Reachable q) (hs : step q fwd s a = some s') : Inv fwd s' := by
  cases a with
  | send frame =>
    cases hs
    exact ⟨h.main, h.backoff, h.drain⟩
  | requestShutdown =>
    cases hs
    refine ⟨?_, h.backoff, fun _ => rfl⟩
    have hfine := h.main
    cases hmain : s.main with
    | returned => exact rfl
    | binding _ | sleeping _ | panicked =>
      rw [hmain] at hfine
      exact hfine
    | top | dialing _ | greeting | serving | receiving | polled | writing _ => exact trivial
  | main ok =>
    cases hs
    exact h.main' hreach ok
  | drain =>
    rw [Link.step] at hs
    cases htransport : fwd.transport with
    | tcp =>
      rw [htransport] at hs
      cases hs
    | quic fp buffer =>
      rw [htransport] at hs
      cases hs
      exact h.quicDrain

/-- How long the forwarder is neither connecting nor connected at the most -/
def wait : Phase α → Nat
  | .top => 1
  | .sleeping left => left + 2
  | _ => 0

/-- On its way to the next attempt the forwarder makes progress with every step. -/
theorem wait_main' (h : Inv fwd s) (hreach : fwd.Reachable q) (hshut : s.shutdown = false)
    (hactive : s.main.active = false) (ok : Bool) : (s.main' q fwd ok).shutdown = false ∧
      ((s.main' q fwd ok).main.active = true ∨ wait (s.main' q fwd ok).main < wait s.main) := by
  obtain ⟨addr, haddr, hquic⟩ := hreach
  have hfine := h.main
  cases hmain : s.main with
  | top =>
    rw [Link.main']
    cases htransport : fwd.transport with
    | tcp =>
      simp only [tcpMain, hmain, haddr, hshut, if_false, Bool.false_eq_true]
      exact ⟨trivial, .inl rfl⟩
    | quic fp buffer =>
      obtain ⟨hclient, hconnect⟩ := hquic ⟨fp, buffer, htransport⟩
      simp only [quicMain, hmain, haddr, hshut, hclient, bindAddr_isSome, if_true, if_false, Bool.false_eq_true,
        Bool.true_eq_false]
      exact ⟨trivial, .inl rfl⟩
  | sleeping left =>
    have heq : s.main' q fwd ok = s.sleep left := by
      rw [Link.main']
      cases fwd.transport with
      | tcp => simp only [tcpMain, hmain]
      | quic fp buffer => simp only [quicMain, hmain]
    rw [heq, Link.sleep]
    split
    · exact ⟨hshut, .inr (by simp only [wait]; omega)⟩
    · rename_i hno
      exact ⟨hshut, .inr (by simp only [wait]; omega)⟩
  | returned =>
    rw [hmain] at hfine
    rw [Fine, hshut] at hfine
    cases hfine
  | panicked =>
    rw [hmain] at hfine
    exact hfine.elim
  | binding _ | dialing _ | greeting | serving | receiving | polled | writing _ =>
    rw [hmain] at hactive
    cases hactive

/-- By induction on the steps that are left until the next attempt -/
theorem Inv.tries_of_wait {n : Nat} (h : Inv fwd s) (hreach : fwd.Reachable q) (hshut : s.shutdown = false)
    (hwait : wait s.main ≤ n) {answers : List Bool} (hlen : n ≤ answers.length) :
    ∃ first, first <+: answers ∧ ∃ s', run (Link.step q fwd) s (first.map .main) = some s' ∧ s'.main.active = true := by
  by_cases hactive : s.main.active = true
  · exact ⟨[], List.nil_prefix, s, rfl, hactive⟩
  have hactive := Bool.eq_false_iff.2 hactive
  induction n generalizing s answers with
  | zero =>
    have hpos : 0 < wait s.main := by
      have hfine := h.main
      cases hmain : s.main with
      | top => exact Nat.one_pos
      | sleeping left => exact Nat.succ_pos _
      | returned =>
        rw [hmain] at hfine
        rw [Fine, hshut] at hfine
        cases hfine
      | panicked =>
        rw [hmain] at hfine
        exact hfine.elim
      | binding _ | dialing _ | greeting | serving | receiving | polled | writing _ =>
        rw [hmain] at hactive
        cases hactive
    omega
  | succ n ih =>
    cases answers with
    | nil => exact absurd hlen (Nat.not_succ_le_zero n)
    | cons ok answers =>
      obtain ⟨hshut', hnext⟩ := wait_main' h hreach hshut hactive ok
      have hinv := h.main' hreach ok
      have hstep : Link.step q fwd s (.main ok) = some (s.main' q fwd ok) := rfl
      by_cases hactive' : (s.main' q fwd ok).main.active = true
      · exact ⟨[ok], ⟨answers, rfl⟩, _, run_cons.2 ⟨_, hstep, rfl⟩, hactive'⟩
      · have hless := hnext.resolve_left hactive'
        obtain ⟨first, hfirst, s', hrun, hend⟩ :=
          ih hinv hshut' (by omega) (Nat.le_of_succ_le_succ hlen) hactive' (Bool.eq_false_iff.2 hactive')
        exact ⟨ok :: first, List.cons_prefix_cons.2 ⟨rfl, hfirst⟩, s', run_cons.2 ⟨_, hstep, hrun⟩, hend⟩

theorem Inv.tries (h : Inv fwd s) (hreach : fwd.Reachable q) (hshut : s.shutdown = false) : s.Tries q fwd := by
  intro answers hlen
  refine h.tries_of_wait hreach hshut ?_ hlen
  have hfine := h.main
  cases hmain : s.main with
  | sleeping left =>
    rw [hmain] at hfine
    exact Nat.add_le_add_right hfine 2
  | top | binding _ | dialing _ | greeting | serving | receiving | polled | writing _ | returned | panicked =>
    simp only [wait, MAX_BACKOFF]
    omega

theorem main_of_parse_none (h : parse fwd.endpoint.toList = none) :
    (main' q fwd {} ok : Link α) = { main := .returned } := by
  rw [Link.main']
  cases fwd.transport with
  | tcp => simp only [tcpMain, h, if_false, Bool.false_eq_true]
  | quic fp buffer =>
    simp only [quicMain, h]
    split
    · rfl
    · split
      · rfl
      · rfl

/-- A forwarder without an address returns, and the shutdown has not been requested. -/
theorem returns_of_not_reachable (α : Type) (h : ¬fwd.Reachable q) : ∃ acts, ∃ s : Link α,
    run (step q fwd) {} acts = some s ∧ s.main = .returned ∧ s.shutdown = false := by
  cases haddr : parse fwd.endpoint.toList with
  | none =>
    refine ⟨[.main true], _, run_cons.2 ⟨_, rfl, rfl⟩, ?_, ?_⟩
    · rw [main_of_parse_none haddr]
    · rw [main_of_parse_none haddr]
  | some addr =>
    cases htransport : fwd.transport with
    | tcp =>
      refine absurd ⟨addr, haddr, ?_⟩ h
      rintro ⟨fp, buffer, hquic⟩
      rw [htransport] at hquic
      cases hquic
    | quic fp buffer =>
      have hmain (s : Link α) (ok : Bool) : s.main' q fwd ok = s.quicMain q fwd ok := by rw [Link.main', htransport]
      by_cases hclient : q.clientConfig = true
      · -- the address is one that `connect` refuses
        have hconnect : q.connect addr = false :=
          Bool.eq_false_iff.2 fun hconnect => h ⟨addr, haddr, fun _ => ⟨hclient, hconnect⟩⟩
        have hfirst : (main' q fwd {} true : Link α) = { main := .binding addr } := by
          rw [hmain, quicMain]
          simp only [haddr, hclient, bindAddr_isSome, if_true, if_false, Bool.false_eq_true, Bool.true_eq_false]
        have hsecond : (main' q fwd { main := .binding addr } true : Link α) = { main := .returned } := by
          rw [hmain, quicMain]
          simp only [hconnect, if_true, if_false, Bool.false_eq_true]
        refine ⟨[.main true, .main true], { main := .returned }, ?_, rfl, rfl⟩
        refine run_cons.2 ⟨_, rfl, run_cons.2 ⟨_, rfl, ?_⟩⟩
        rw [run_nil, hfirst, hsecond]
      · have hfirst : (main' q fwd {} true : Link α) = { main := .returned } := by
          rw [hmain, quicMain]
          simp only [Bool.eq_false_iff.2 hclient, if_true, if_false, Bool.false_eq_true]
        refine ⟨[.main true], _, run_cons.2 ⟨_, rfl, rfl⟩, ?_, ?_⟩
        · rw [hfirst]
        · rw [hfirst]

/-- A forwarder retries its peer exactly if it has an address for it. -/
theorem retries_iff (α : Type) (q : Quic) (fwd : Forwarder) : Retries α q fwd ↔ fwd.Reachable q := by
  constructor
  · intro h
    by_contra hreach
    obtain ⟨acts, s, hrun, hmain, hshut⟩ := returns_of_not_reachable α hreach
    have hup := (h.stays acts s hrun hshut).1
    rw [Link.hungUp, hmain] at hup
    cases hup
  · intro hreach
    have hinv (acts : List (Act α)) (s : Link α) (hrun : run (step q fwd) {} acts = some s) : Inv fwd s :=
      run_invariant (Inv fwd) (fun s a s' hI hs => hI.step hreach hs) (inv_init fwd) hrun
    refine ⟨fun acts s hrun hshut => ⟨?_, ?_⟩, fun acts s hrun hshut => (hinv acts s hrun).tries hreach hshut⟩
    · by_contra hup
      rw [(hinv acts s hrun).hungUp (by simpa using hup)] at hshut
      cases hshut
    · intro hreturned
      rw [(hinv acts s hrun).drain hreturned] at hshut
      cases hshut

/-! ### After the shutdown -/

/-- How many steps the forwarder goes on at most, when the shutdown has been requested -/
def stepsLeft : Phase α → Nat
  | .returned | .panicked => 0
  | .top => 1
  | .sleeping _ | .serving | .polled => 2
  | .greeting | .writing _ => 3
  | .dialing _ | .receiving => 4
  | .binding _ => 5

/-- How much it writes at most -/
def writesLeft : Phase α → Nat
  | .binding _ | .dialing _ | .greeting | .receiving | .writing _ => 1
  | .top | .sleeping _ | .serving | .polled | .returned | .panicked => 0

/-- A TCP peer has no endpoint to bind, and a QUIC peer does not poll its queue. -/
def Apt (fwd : Forwarder) : Phase α → Prop
  | .binding _ => fwd.transport ≠ .tcp
  | .polled => fwd.transport = .tcp
  | _ => True

/-- One step of the forwarder after the shutdown has been requested -/
structure Ends (fwd : Forwarder) (s s' : Link α) : Prop where
  apt : Apt fwd s'.main
  left : stepsLeft s'.main ≤ stepsLeft s.main - 1
  stream : s'.stream.length + writesLeft s'.main ≤ s.stream.length + writesLeft s.main

/-- Nothing is written. -/
theorem Ends.quiet {before after : Phase α} (hbefore : s.main = before) (hafter : s'.main = after)
    (hstream : s'.stream = s.stream) (hapt : Apt fwd after) (hleft : stepsLeft after + 1 ≤ stepsLeft before)
    (hwrites : writesLeft after ≤ writesLeft before) : Ends fwd s s' := by
  subst hbefore hafter
  refine ⟨hapt, Nat.le_sub_of_add_le hleft, ?_⟩
  rw [hstream]
  exact Nat.add_le_add_left hwrites _

theorem ends_connected (hmain : s.main = .dialing addr) (ok : Bool) : Ends fwd s (s.connected ok) := by
  cases ok with
  | false => exact .quiet hmain rfl rfl trivial (by decide : 2 + 1 ≤ 4) (by decide : 0 ≤ 1)
  | true => exact .quiet hmain rfl rfl trivial (by decide : 3 + 1 ≤ 4) (by decide : 1 ≤ 1)

theorem ends_sleep {n : Nat} (hmain : s.main = .sleeping n) (hshut : s.shutdown = true) : Ends fwd s (s.sleep n) := by
  rw [Link.sleep, if_pos (.inr hshut)]
  exact .quiet hmain rfl rfl trivial (by decide : 1 + 1 ≤ 2) (by decide : 0 ≤ 0)

theorem ends_greet (hmain : s.main = .greeting) (ok : Bool) : Ends fwd s (s.greet fwd ok) := by
  cases ok with
  | false => exact .quiet hmain rfl rfl trivial (by decide : 1 + 1 ≤ 3) (by decide : 0 ≤ 1)
  | true =>
    refine ⟨trivial, by rw [hmain]; exact Nat.le_refl 2, ?_⟩
    rw [hmain]
    simp only [greet, if_true, List.length_append, List.length_singleton, writesLeft]
    omega

theorem ends_serve (hmain : s.main = .serving) (hshut : s.shutdown = true) : Ends fwd s s.serve := by
  have hserve : s.serve = { s with main := .top } := by rw [serve, if_pos hshut]
  rw [hserve]
  exact .quiet hmain rfl rfl trivial (by decide : 1 + 1 ≤ 2) (by decide : 0 ≤ 0)

theorem ends_write {frame : α} (hmain : s.main = .writing frame) (ok : Bool) : Ends fwd s (s.write frame ok) := by
  cases ok with
  | false => exact .quiet hmain rfl rfl trivial (by decide : 1 + 1 ≤ 3) (by decide : 0 ≤ 1)
  | true =>
    refine ⟨trivial, by rw [hmain]; exact Nat.le_refl 2, ?_⟩
    rw [hmain]
    simp only [write, if_true, List.length_append, List.length_singleton, writesLeft]
    omega

/-- A thread that has ended does nothing. -/
theorem ends_self (hapt : Apt fwd s.main) (hleft : stepsLeft s.main = 0) : Ends fwd s s :=
  ⟨hapt, hleft.le.trans (Nat.zero_le _), Nat.le_refl _⟩

theorem ends_tcpMain (htcp : fwd.transport = .tcp) (hapt : Apt fwd s.main) (hshut : s.shutdown = true) (ok : Bool) :
    Ends fwd s (s.tcpMain fwd ok) := by
  rw [Link.tcpMain]
  cases hmain : s.main with
  | top =>
    simp only [hshut, if_true]
    exact .quiet hmain rfl rfl trivial (by decide : 0 + 1 ≤ 1) (by decide : 0 ≤ 0)
  | dialing addr => exact ends_connected hmain ok
  | sleeping n => exact ends_sleep hmain hshut
  | greeting => exact ends_greet hmain ok
  | serving => exact ends_serve hmain hshut
  | receiving =>
    cases s.queue with
    | nil => exact .quiet hmain rfl rfl htcp (by decide : 2 + 1 ≤ 4) (by decide : 0 ≤ 1)
    | cons frame queue => exact .quiet hmain rfl rfl trivial (by decide : 3 + 1 ≤ 4) (by decide : 1 ≤ 1)
  | polled =>
    simp only [hshut, if_true]
    exact .quiet hmain rfl rfl trivial (by decide : 1 + 1 ≤ 2) (by decide : 0 ≤ 0)
  | writing frame => exact ends_write hmain ok
  | binding addr =>
    rw [hmain] at hapt
    exact absurd htcp hapt
  | returned | panicked => exact ends_self hapt (by rw [hmain]; rfl)

theorem ends_quicMain (hquic : fwd.transport ≠ .tcp) (hapt : Apt fwd s.main) (hshut : s.shutdown = true) (ok : Bool) :
    Ends fwd s (s.quicMain q fwd ok) := by
  rw [Link.quicMain]
  cases hmain : s.main with
  | top =>
    simp only [hshut, if_true]
    exact .quiet hmain rfl rfl trivial (by decide : 0 + 1 ≤ 1) (by decide : 0 ≤ 0)
  | binding addr =>
    cases ok with
    | false => exact .quiet hmain rfl rfl trivial (by decide : 2 + 1 ≤ 5) (by decide : 0 ≤ 1)
    | true =>
      simp only [if_true]
      cases q.connect addr with
      | false => exact .quiet hmain rfl rfl trivial (by decide : 0 + 1 ≤ 5) (by decide : 0 ≤ 1)
      | true => exact .quiet hmain rfl rfl trivial (by decide : 4 + 1 ≤ 5) (by decide : 1 ≤ 1)
  | dialing addr => exact ends_connected hmain ok
  | sleeping n => exact ends_sleep hmain hshut
  | greeting => exact ends_greet hmain ok
  | serving => exact ends_serve hmain hshut
  | receiving =>
    cases s.chan with
    | nil =>
      cases s.drain with
      | returned => exact .quiet hmain rfl rfl trivial (by decide : 1 + 1 ≤ 4) (by decide : 0 ≤ 1)
      | top | receiving | polled | sending _ =>
        exact .quiet hmain rfl rfl trivial (by decide : 2 + 1 ≤ 4) (by decide : 0 ≤ 1)
    | cons frame chan => exact .quiet hmain rfl rfl trivial (by decide : 3 + 1 ≤ 4) (by decide : 1 ≤ 1)
  | writing frame => exact ends_write hmain ok
  | polled =>
    rw [hmain] at hapt
    exact absurd hapt hquic
  | returned | panicked => exact ends_self hapt (by rw [hmain]; rfl)

theorem ends_main' (hapt : Apt fwd s.main) (hshut : s.shutdown = true) (ok : Bool) : Ends fwd s (s.main' q fwd ok) := by
  rw [Link.main']
  cases htransport : fwd.transport with
  | tcp => exact ends_tcpMain htransport hapt hshut ok
  | quic fp buffer => exact ends_quicMain (by rw [htransport]; intro h; cases h) hapt hshut ok

theorem apt_tcpMain (htcp : fwd.transport = .tcp) (hapt : Apt fwd s.main) (ok : Bool) :
    Apt fwd (s.tcpMain fwd ok).main := by
  rw [Link.tcpMain]
  cases hmain : s.main with
  | top =>
    simp only
    split
    · trivial
    · split <;> trivial
  | dialing addr => cases ok <;> trivial
  | sleeping n =>
    simp only [Link.sleep]
    split <;> trivial
  | greeting => cases ok <;> trivial
  | serving =>
    simp only [Link.serve]
    split <;> trivial
  | receiving =>
    cases s.queue with
    | nil => exact htcp
    | cons frame queue => trivial
  | polled =>
    simp only
    split <;> trivial
  | writing frame => cases ok <;> trivial
  | binding addr =>
    rw [hmain] at hapt
    exact absurd htcp hapt
  | returned | panicked => exact hapt

theorem apt_quicMain (hquic : fwd.transport ≠ .tcp) (hapt : Apt fwd s.main) (ok : Bool) :
    Apt fwd (s.quicMain q fwd ok).main := by
  rw [Link.quicMain]
  cases hmain : s.main with
  | top =>
    simp only
    split
    · trivial
    split
    · trivial
    split
    · simp only [bindAddr_isSome, if_true]
      exact hquic
    · trivial
  | binding addr =>
    cases ok with
    | false => trivial
    | true =>
      simp only [if_true]
      cases q.connect addr <;> trivial
  | dialing addr => cases ok <;> trivial
  | sleeping n =>
    simp only [Link.sleep]
    split <;> trivial
  | greeting => cases ok <;> trivial
  | serving =>
    simp only [Link.serve]
    split <;> trivial
  | receiving =>
    cases s.chan with
    | nil => cases s.drain <;> trivial
    | cons frame chan => trivial
  | writing frame => cases ok <;> trivial
  | polled =>
    rw [hmain] at hapt
    exact absurd hapt hquic
  | returned | panicked => exact hapt

/-- The thread of the queue touches neither the forwarder nor the connection. -/
theorem main_quicDrain (buffer : Nat) : (s.quicDrain buffer).main = s.main ∧ (s.quicDrain buffer).stream = s.stream ∧
    (s.quicDrain buffer).shutdown = s.shutdown := by
  rw [Link.quicDrain]
  cases s.drain with
  | top | polled | returned => exact ⟨rfl, rfl, rfl⟩
  | receiving =>
    simp only
    split <;> exact ⟨rfl, rfl, rfl⟩
  | sending frame =>
    simp only
    split
    · exact ⟨rfl, rfl, rfl⟩
    · split <;> exact ⟨rfl, rfl, rfl⟩

/-- Where the forwarder of a run is -/
theorem apt_step {a : Act α} (hapt : Apt fwd s.main) (hs : step q fwd s a = some s') : Apt fwd s'.main := by
  cases a with
  | send frame =>
    cases hs
    exact hapt
  | requestShutdown =>
    cases hs
    exact hapt
  | main ok =>
    cases hs
    rw [Link.main']
    cases htransport : fwd.transport with
    | tcp => exact apt_tcpMain htransport hapt ok
    | quic fp buffer => exact apt_quicMain (by rw [htransport]; intro h; cases h) hapt ok
  | drain =>
    rw [Link.step] at hs
    cases htransport : fwd.transport with
    | tcp =>
      rw [htransport] at hs
      cases hs
    | quic fp buffer =>
      rw [htransport] at hs
      cases hs
      rw [(main_quicDrain buffer).1]
      exact hapt

/-- A request for the shutdown stays. -/
theorem shutdown_main' (ok : Bool) : (s.main' q fwd ok).shutdown = s.shutdown := by
  unfold main' tcpMain quicMain connected retry sleep greet serve write
  repeat' first | rfl | split

theorem drain_main' (ok : Bool) : (s.main' q fwd ok).drain = s.drain := by
  unfold main' tcpMain quicMain connected retry sleep greet serve write
  repeat' first | rfl | split

/-- The action is a step of the forwarder. -/
def Act.isMain : Act α → Bool
  | .main _ => true
  | _ => false

/-- The action is a step of the thread that empties the queue. -/
def Act.isDrain : Act α → Bool
  | .drain => true
  | _ => false

/-- A step after the request for the shutdown -/
theorem shutdown_step {a : Act α} (h : Apt fwd s.main ∧ s.shutdown = true) (hs : step q fwd s a = some s') :
    (Apt fwd s'.main ∧ s'.shutdown = true) ∧ stepsLeft s'.main ≤ stepsLeft s.main - (if a.isMain then 1 else 0) ∧
      s'.stream.length + writesLeft s'.main ≤ s.stream.length + writesLeft s.main := by
  obtain ⟨hapt, hshut⟩ := h
  cases a with
  | send frame =>
    cases hs
    exact ⟨⟨hapt, hshut⟩, Nat.le_refl _, Nat.le_refl _⟩
  | requestShutdown =>
    cases hs
    exact ⟨⟨hapt, rfl⟩, Nat.le_refl _, Nat.le_refl _⟩
  | main ok =>
    cases hs
    have hends : Ends fwd s (s.main' q fwd ok) := ends_main' hapt hshut ok
    exact ⟨⟨hends.apt, (shutdown_main' ok).trans hshut⟩, hends.left, hends.stream⟩
  | drain =>
    rw [Link.step] at hs
    cases htransport : fwd.transport with
    | tcp =>
      rw [htransport] at hs
      cases hs
    | quic fp buffer =>
      rw [htransport] at hs
      cases hs
      obtain ⟨hmain, hstream, hshutdown⟩ := main_quicDrain (s := s) buffer
      rw [hmain, hstream, hshutdown]
      exact ⟨⟨hapt, hshut⟩, Nat.le_refl _, Nat.le_refl _⟩

theorem hungUp_iff : s.hungUp = true ↔ stepsLeft s.main = 0 := by
  rw [Link.hungUp]
  cases s.main with
  | returned | panicked => exact ⟨fun _ => rfl, fun _ => rfl⟩
  | top | binding _ | dialing _ | sleeping _ | greeting | serving | receiving | polled | writing _ =>
    constructor
    · intro h
      cases h
    · intro h
      cases h

/-- How many steps the thread of the queue goes on at most, when the forwarder has ended -/
def drainLeft : Drain α → Nat
  | .returned => 0
  | .top | .polled | .sending _ => 1
  | .receiving => 2

theorem drainLeft_quicDrain (hshut : s.shutdown = true) (hup : s.hungUp = true) (buffer : Nat) :
    drainLeft (s.quicDrain buffer).drain ≤ drainLeft s.drain - 1 := by
  rw [Link.quicDrain]
  cases hdrain : s.drain with
  | top | polled =>
    simp only [hshut, if_true]
    exact Nat.zero_le _
  | receiving =>
    cases s.queue with
    | nil => exact Nat.le_refl 1
    | cons frame queue => exact Nat.le_refl 1
  | sending frame =>
    simp only [hup, if_true]
    exact Nat.zero_le _
  | returned =>
    rw [hdrain]
    exact Nat.zero_le _

theorem drain_step {a : Act α} (h : (Apt fwd s.main ∧ s.shutdown = true) ∧ s.hungUp = true)
    (hs : step q fwd s a = some s') : ((Apt fwd s'.main ∧ s'.shutdown = true) ∧ s'.hungUp = true) ∧
      drainLeft s'.drain ≤ drainLeft s.drain - if a.isDrain then 1 else 0 := by
  obtain ⟨hstop, hleft, -⟩ := shutdown_step h.1 hs
  have hup : s'.hungUp = true := by
    rw [hungUp_iff] at *
    omega
  refine ⟨⟨hstop, hup⟩, ?_⟩
  cases a with
  | send frame =>
    cases hs
    exact Nat.le_refl _
  | requestShutdown =>
    cases hs
    exact Nat.le_refl _
  | main ok =>
    cases hs
    rw [drain_main']
    exact Nat.le_refl _
  | drain =>
    rw [Link.step] at hs
    cases htransport : fwd.transport with
    | tcp =>
      rw [htransport] at hs
      cases hs
    | quic fp buffer =>
      rw [htransport] at hs
      cases hs
      exact drainLeft_quicDrain h.1.2 h.2 buffer

/-- Once the shutdown is requested, and however the calls end that the threads are in, the forwarder ends after five steps
of its own at most, and the thread that empties the queue after two more of its own; what is sent to the queue does not
delay them.  At most one more frame or hello is written. -/
theorem shutdown_ends (q : Quic) (fwd : Forwarder) (acts mains drains : List (Act α)) (s s₁ s₂ : Link α)
    (hrun : run (step q fwd) {} acts = some s) (hshut : s.shutdown = true) (hrun₁ : run (step q fwd) s mains = some s₁)
    (hrun₂ : run (step q fwd) s₁ drains = some s₂) (hmains : 5 ≤ mains.countP Act.isMain) :
    s₁.hungUp = true ∧ s₂.hungUp = true ∧ (2 ≤ drains.countP Act.isDrain → s₂.drain = .returned) ∧
      s₂.stream.length ≤ s.stream.length + 1 := by
  have htop : Apt fwd ({} : Link α).main := trivial
  have hapt : Apt fwd s.main :=
    run_invariant (fun s : Link α => Apt fwd s.main) (fun s a s' h hs => apt_step h hs) htop hrun
  obtain ⟨hstop, hleft⟩ := run_countdown (fun s : Link α => Apt fwd s.main ∧ s.shutdown = true) (fun s => stepsLeft s.main)
    Act.isMain (fun s a s' h hs => ⟨(shutdown_step h hs).1, (shutdown_step h hs).2.1⟩) ⟨hapt, hshut⟩ hrun₁
  have hfive : stepsLeft s.main ≤ 5 := by
    cases s.main <;> simp [stepsLeft]
  have hup : s₁.hungUp = true := hungUp_iff.2 (by omega)
  obtain ⟨⟨-, hup₂⟩, hdrain⟩ := run_countdown (fun s : Link α => (Apt fwd s.main ∧ s.shutdown = true) ∧ s.hungUp = true)
    (fun s => drainLeft s.drain) Act.isDrain (fun s a s' h hs => drain_step h hs) ⟨hstop, hup⟩ hrun₂
  refine ⟨hup, hup₂, fun hdrains => ?_, ?_⟩
  · have htwo : drainLeft s₁.drain ≤ 2 := by
      cases s₁.drain <;> simp [drainLeft]
    have hzero : drainLeft s₂.drain = 0 := by omega
    cases hreturned : s₂.drain with
    | returned => rfl
    | top | receiving | polled | sending frame =>
      rw [hreturned] at hzero
      cases hzero
  · -- what is written and what may still be written
    have hwrites : (Apt fwd s₂.main ∧ s₂.shutdown = true) ∧
        s₂.stream.length + writesLeft s₂.main ≤ s.stream.length + writesLeft s.main := by
      refine run_invariant (fun s' : Link α => (Apt fwd s'.main ∧ s'.shutdown = true) ∧
        s'.stream.length + writesLeft s'.main ≤ s.stream.length + writesLeft s.main) (fun s₃ a s₄ h hs => ?_)
        ⟨⟨hapt, hshut⟩, Nat.le_refl _⟩ (run_append.2 ⟨s₁, hrun₁, hrun₂⟩)
      obtain ⟨hstop, -, hstream⟩ := shutdown_step h.1 hs
      exact ⟨hstop, hstream.trans h.2⟩
    have hone : writesLeft s.main ≤ 1 := by
      cases s.main <;> simp [writesLeft]
    omega

/-- A QUIC peer whose channel holds one frame -/
def narrow : Forwarder := ⟨"peer", "10.0.0.2:4443", [], 4, .quic "sha256:00" 1⟩

/-- The forwarder writes a frame, another one is in the channel, and the thread of the queue waits for room for a third. -/
def crowded : List (Act Nat) :=
  [.main true, .main true, .main true, .main true, .send 1, .send 2, .send 3, .drain, .drain, .drain, .main true, .main true,
    .drain, .drain, .drain, .drain, .drain, .requestShutdown]

/-- Both threads end, and a further frame is sent meanwhile. -/
def ending : List (Act Nat) := [.main true, .drain, .main true, .send 4, .main true, .main true, .main true]

theorem shutdown_ends_crowded :
    let q : Quic := ⟨true, fun _ => true, fun _ => true, true, fun _ => true⟩
    ∃ s s₁ s₂ : Link Nat, run (step q narrow) {} crowded = some s ∧ run (step q narrow) s ending = some s₁ ∧
      run (step q narrow) s₁ [.drain, .drain] = some s₂ ∧ s₂.hungUp = true ∧ s₂.drain = .returned ∧
      s₂.stream.length ≤ s.stream.length + 1 := by
  intro q
  obtain ⟨s₂, hrun⟩ := Option.isSome_iff_exists.1
    (show (run (step q narrow) {} ((crowded ++ ending) ++ [.drain, .drain])).isSome = true by decide +kernel)
  obtain ⟨s₁, hrun, hrun₂⟩ := run_append.1 hrun
  obtain ⟨s, hrun, hrun₁⟩ := run_append.1 hrun
  have hshut : s.shutdown = true := by
    have hmap : (run (step q narrow) {} crowded).map Link.shutdown = some true := by decide +kernel
    rw [hrun] at hmap
    exact Option.some.inj hmap
  have hends := shutdown_ends q narrow crowded ending [.drain, .drain] s s₁ s₂ hrun hshut hrun₁ hrun₂ (by decide)
  exact ⟨s, s₁, s₂, hrun, hrun₁, hrun₂, hends.2.1, hends.2.2.1 (by decide), hends.2.2.2⟩

end Link

end Mmbus.Bridge
