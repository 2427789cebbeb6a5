import Mathlib.Data.List.Nodup
import Mmbus.BridgeStart

/-!
# The sequence numbers of a bridge

A run of one bridge after its start.  The subscriber threads take what is published on the bus, one thread for each entry
of the topic list that is forwarded; each draws a number from its own counter for every message and sends the frame to
the queues of the peers, one after the other.  The forwarders empty the queues meanwhile.

A link keeps the order in which the frames were sent to its queue, whatever is evicted or lost on the way
(`Link.flow_step`).  The numbers on a link increase for every topic, and no message is sent twice to a peer, exactly if
the topic list has no name twice (`sequences_increase_iff`): two threads of one topic count it separately.
-/

namespace Mmbus.Bridge

open Transition
open scoped List

/-! ### What is on a link -/

namespace Link

variable {α : Type} {q : Quic} {fwd : Forwarder} {s s' : Link α} {a : Act α}

/-- The frames that have been written, on all connections -/
def frames (s : Link α) : List α := s.stream.filterMap Sum.getRight?

/-- The frame that is being written -/
def inWriting (s : Link α) : List α :=
  match s.main with
  | .writing frame => [frame]
  | _ => []

/-- The frame between the queue and the channel -/
def inHand (s : Link α) : List α :=
  match s.drain with
  | .sending frame => [frame]
  | _ => []

/-- All that the link has not lost, in the order in which it goes out -/
def flow (s : Link α) : List α := s.frames ++ s.inWriting ++ s.chan ++ s.inHand ++ s.queue

/-- What an action adds -/
def Act.sent : Act α → List α
  | .send frame => [frame]
  | _ => []

/-- A TCP peer has one thread and no channel. -/
def Plain (s : Link α) : Prop := s.chan = [] ∧ s.drain = .top

theorem frames_sublist_flow (s : Link α) : s.frames <+ s.flow := by
  rw [flow, List.append_assoc, List.append_assoc, List.append_assoc]
  exact List.sublist_append_left ..

/-- Only the position of the forwarder changes, and it is not writing. -/
theorem flow_move {main : Phase α} {backoff : Nat} (hmain : inWriting { s with main := main } = []) :
    flow { s with main := main, backoff := backoff } <+ s.flow := by
  have hnew : inWriting { s with main := main, backoff := backoff } = [] := hmain
  rw [flow, flow, hnew, List.append_nil]
  simp only [List.append_assoc]
  exact List.Sublist.append (List.Sublist.refl _) (List.sublist_append_right ..)

theorem flow_connected (ok : Bool) : (s.connected ok).flow <+ s.flow := by
  cases ok with
  | false => exact flow_move rfl
  | true => exact flow_move rfl

theorem flow_sleep (left : Nat) : (s.sleep left).flow <+ s.flow := by
  rw [sleep]
  split
  · exact flow_move rfl
  · exact flow_move rfl

theorem flow_greet (ok : Bool) : (s.greet fwd ok).flow <+ s.flow := by
  cases ok with
  | false => exact flow_move rfl
  | true =>
    have hframes : (s.greet fwd true).frames = s.frames := by
      simp only [greet, frames, if_true, List.filterMap_append, List.filterMap_cons, List.filterMap_nil, Sum.getRight?,
        List.append_nil]
    have hwriting : (s.greet fwd true).inWriting = [] := rfl
    rw [flow, hframes, hwriting, List.append_nil, flow]
    simp only [List.append_assoc]
    exact List.Sublist.append (List.Sublist.refl _) (List.sublist_append_right ..)

theorem flow_serve : s.serve.flow <+ s.flow := by
  rw [serve]
  split
  · exact flow_move rfl
  · exact flow_move rfl

/-- The frame that was being written is written, or lost. -/
theorem flow_write {frame : α} (hmain : s.main = .writing frame) (ok : Bool) : (s.write frame ok).flow <+ s.flow := by
  cases ok with
  | false => exact flow_move rfl
  | true =>
    have hframes : (s.write frame true).frames = s.frames ++ [frame] := by
      simp only [write, frames, if_true, List.filterMap_append, List.filterMap_cons, List.filterMap_nil, Sum.getRight?]
    have hwriting : (s.write frame true).inWriting = [] := rfl
    have hbefore : s.inWriting = [frame] := by
      rw [inWriting, hmain]
    rw [flow, hframes, hwriting, List.append_nil, flow, hbefore]
    exact List.Sublist.refl _

theorem Plain.connected (h : s.Plain) (ok : Bool) : (s.connected ok).Plain := by
  cases ok with
  | false => exact h
  | true => exact h

theorem Plain.sleep (h : s.Plain) (left : Nat) : (s.sleep left).Plain := by
  rw [Link.sleep]
  split
  · exact h
  · exact h

theorem Plain.greet (h : s.Plain) (ok : Bool) : (s.greet fwd ok).Plain := by
  cases ok with
  | false => exact h
  | true => exact h

theorem Plain.write (h : s.Plain) (frame : α) (ok : Bool) : (s.write frame ok).Plain := by
  cases ok with
  | false => exact h
  | true => exact h

theorem flow_tcpMain (hplain : s.Plain) (ok : Bool) : (s.tcpMain fwd ok).flow <+ s.flow ∧ (s.tcpMain fwd ok).Plain := by
  rw [tcpMain]
  cases hmain : s.main with
  | top =>
    simp only
    split
    · exact ⟨flow_move rfl, hplain⟩
    · split
      · exact ⟨flow_move rfl, hplain⟩
      · exact ⟨flow_move rfl, hplain⟩
  | dialing addr => exact ⟨flow_connected ok, hplain.connected ok⟩
  | sleeping left => exact ⟨flow_sleep left, hplain.sleep left⟩
  | greeting => exact ⟨flow_greet ok, hplain.greet ok⟩
  | serving => exact ⟨flow_serve, hplain⟩
  | receiving =>
    simp only
    split
    · rename_i frame queue hqueue
      refine ⟨?_, hplain⟩
      -- nothing is between the queue and the connection
      have hhand : s.inHand = [] := by rw [inHand, hplain.2]
      have hwriting : s.inWriting = [] := by rw [inWriting, hmain]
      have hflow : s.flow = s.frames ++ ([frame] ++ queue) := by
        rw [flow, hqueue, hwriting, hhand, hplain.1, List.append_nil, List.append_nil, List.append_nil,
          List.singleton_append]
      have hflow' : flow { s with main := .writing frame, queue := queue } =
          s.frames ++ [frame] ++ s.chan ++ s.inHand ++ queue := rfl
      rw [hflow, hflow', hhand, hplain.1, List.append_nil, List.append_nil, List.append_assoc]
    · exact ⟨flow_move rfl, hplain⟩
  | polled =>
    refine ⟨flow_move ?_, hplain⟩
    cases s.shutdown with
    | false => rfl
    | true => rfl
  | writing frame => exact ⟨flow_write hmain ok, hplain.write frame ok⟩
  | binding addr => exact ⟨List.Sublist.refl _, hplain⟩
  | returned => exact ⟨List.Sublist.refl _, hplain⟩
  | panicked => exact ⟨List.Sublist.refl _, hplain⟩

theorem flow_quicMain (ok : Bool) : (s.quicMain q fwd ok).flow <+ s.flow := by
  rw [quicMain]
  cases hmain : s.main with
  | top =>
    simp only
    split
    · exact flow_move rfl
    split
    · exact flow_move rfl
    split
    · refine flow_move ?_
      simp only [bindAddr_isSome, if_true, inWriting]
    · exact flow_move rfl
  | binding addr =>
    simp only
    split
    · refine flow_move ?_
      cases q.connect addr with
      | false => rfl
      | true => rfl
    · exact flow_move rfl
  | dialing addr => exact flow_connected ok
  | sleeping left => exact flow_sleep left
  | greeting => exact flow_greet ok
  | serving => exact flow_serve
  | receiving =>
    simp only
    split
    · rename_i frame chan hchan
      have hwriting : s.inWriting = [] := by rw [inWriting, hmain]
      have hflow : s.flow = s.frames ++ (frame :: chan) ++ s.inHand ++ s.queue := by
        rw [flow, hwriting, hchan, List.append_nil]
      have hflow' : flow { s with main := .writing frame, chan := chan } =
          s.frames ++ [frame] ++ chan ++ s.inHand ++ s.queue := rfl
      rw [hflow, hflow', List.append_assoc s.frames, List.singleton_append]
    · refine flow_move ?_
      cases s.drain with
      | returned => rfl
      | top | receiving | polled | sending _ => rfl
  | writing frame => exact flow_write hmain ok
  | polled => exact List.Sublist.refl _
  | returned => exact List.Sublist.refl _
  | panicked => exact List.Sublist.refl _

/-- Only the position of the draining thread changes, and it has no frame in its hand. -/
theorem flow_moveDrain {drain : Drain α} (hdrain : inHand { s with drain := drain } = []) :
    flow { s with drain := drain } <+ s.flow := by
  rw [flow, flow, hdrain, List.append_nil]
  exact List.Sublist.append (List.sublist_append_left ..) (List.Sublist.refl _)

theorem flow_quicDrain (buffer : Nat) : (s.quicDrain buffer).flow <+ s.flow := by
  rw [quicDrain]
  cases hdrain : s.drain with
  | top =>
    refine flow_moveDrain ?_
    cases s.shutdown with
    | false => rfl
    | true => rfl
  | receiving =>
    simp only
    split
    · rename_i frame queue hqueue
      have hhand : s.inHand = [] := by rw [inHand, hdrain]
      have hflow : s.flow = s.frames ++ s.inWriting ++ s.chan ++ (frame :: queue) := by
        rw [flow, hhand, hqueue, List.append_nil]
      have hflow' : flow { s with drain := .sending frame, queue := queue } =
          s.frames ++ s.inWriting ++ s.chan ++ [frame] ++ queue := rfl
      rw [hflow, hflow', List.append_assoc _ [frame], List.singleton_append]
    · exact flow_moveDrain rfl
  | polled =>
    refine flow_moveDrain ?_
    cases s.shutdown with
    | false => rfl
    | true => rfl
  | sending frame =>
    simp only
    split
    · exact flow_moveDrain rfl
    split
    · have hhand : s.inHand = [frame] := by rw [inHand, hdrain]
      have hflow' : flow { s with drain := .top, chan := s.chan ++ [frame] } =
          s.frames ++ s.inWriting ++ (s.chan ++ [frame]) ++ [] ++ s.queue := rfl
      rw [hflow', flow, hhand, List.append_nil, List.append_assoc _ s.chan]
    · exact List.Sublist.refl _
  | returned => exact List.Sublist.refl _

/-- `Sender::send` drops from the front only. -/
theorem flow_send (capacity : Nat) (frame : α) :
    flow { s with queue := Bridge.send capacity s.queue frame } <+ s.flow ++ [frame] := by
  have hqueue : Bridge.send capacity s.queue frame <+ s.queue ++ [frame] := by
    rw [Bridge.send]
    split
    · exact List.Sublist.append (List.tail_sublist _) (List.Sublist.refl _)
    · exact List.Sublist.refl _
  have hflow : flow { s with queue := Bridge.send capacity s.queue frame } =
      s.frames ++ s.inWriting ++ s.chan ++ s.inHand ++ Bridge.send capacity s.queue frame := rfl
  rw [hflow, flow, List.append_assoc _ s.queue]
  exact List.Sublist.append (List.Sublist.refl _) hqueue

/-- A link adds to its flow what is sent to it, at the end, and otherwise loses from it at most. -/
theorem flow_step (hplain : fwd.transport = .tcp → s.Plain) (hs : step q fwd s a = some s') :
    s'.flow <+ s.flow ++ a.sent ∧ (fwd.transport = .tcp → s'.Plain) := by
  cases a with
  | send frame =>
    cases hs
    exact ⟨flow_send fwd.capacity frame, hplain⟩
  | requestShutdown =>
    cases hs
    exact ⟨List.sublist_append_left .., hplain⟩
  | main ok =>
    cases hs
    change (s.main' q fwd ok).flow <+ s.flow ++ [] ∧ _
    rw [List.append_nil, main']
    cases htransport : fwd.transport with
    | tcp =>
      obtain ⟨hflow, hplain'⟩ : (s.tcpMain fwd ok).flow <+ s.flow ∧ (s.tcpMain fwd ok).Plain :=
        flow_tcpMain (hplain htransport) ok
      exact ⟨hflow, fun _ => hplain'⟩
    | quic fp buffer => exact ⟨flow_quicMain ok, fun htcp => by cases htcp⟩
  | drain =>
    rw [step] at hs
    cases htransport : fwd.transport with
    | tcp =>
      rw [htransport] at hs
      cases hs
    | quic fp buffer =>
      rw [htransport] at hs
      cases hs
      change (s.quicDrain buffer).flow <+ s.flow ++ [] ∧ _
      rw [List.append_nil]
      exact ⟨flow_quicDrain buffer, fun htcp => by cases htcp⟩

end Link

/-! ### The subscriber threads -/

/-- A frame, and the place in `published` of the message that it carries, which no thread looks at -/
structure Item where
  frame : Frame
  message : Nat

/-- Where a subscriber thread is -/
structure Subscriber where
  /-- What the subscription has not passed yet begins at this place of `published`. -/
  cursor : Option Nat := none
  /-- The counter, of which a frame takes the low 64 bits -/
  seq : Nat := 0
  /-- The frame that is sent to the peers, and the peer whose turn it is -/
  sending : Option (Item × Nat) := none

structure Traffic where
  /-- All that has been published on the bus -/
  published : List (String × Bytes) := []
  subscribers : Nat → Subscriber := fun _ => {}
  links : Nat → Link Item := fun _ => {}
  /-- All that has been sent to the queue of the peer `k` -/
  sent : Nat → List Item := fun _ => []

namespace Traffic

/-- A message is published; the thread `i` subscribes, again if it had a subscription, receives what is published at `p`
and draws a number for it, or sends its frame to the next peer; a thread of the link `k` goes on. -/
inductive Act
  | publish (topic : String) (payload : Bytes)
  | subscribe (i : Nat)
  | receive (i p : Nat)
  | send (i : Nat)
  | link (k : Nat) (a : Link.Act Item)

section Steps

variable (q : Quic) (bridge : StartedBridge) (s : Traffic)

def setSubscriber (i : Nat) (sub : Subscriber) : Traffic :=
  { s with subscribers := Function.update s.subscribers i sub }

def subscribe (i : Nat) : Option Traffic :=
  if i < bridge.subscribers.length ∧ (s.subscribers i).sending.isNone then
    some (s.setSubscriber i { s.subscribers i with cursor := some s.published.length })
  else none

/-- The next message of the thread's topic or, after it was too slow, a later one -/
def receive (i p : Nat) : Option Traffic :=
  match bridge.subscribers[i]?, s.subscribers i, s.published[p]? with
  | some topic, ⟨some cursor, seq, none⟩, some (name, payload) =>
    if cursor ≤ p ∧ name = topic then
      let frame := messageFrame bridge.originId (UInt64.ofNat seq) topic payload
      some (s.setSubscriber i ⟨some (p + 1), seq + 1, some (⟨frame, p⟩, 0)⟩)
    else none
  | _, _, _ => none

/-- A round of the loop over `peer_tx`, or its end -/
def send (i : Nat) : Option Traffic :=
  match (s.subscribers i).sending with
  | none => none
  | some (item, k) =>
    match bridge.forwarders[k]? with
    | none => some (s.setSubscriber i { s.subscribers i with sending := none })
    | some fwd => (Link.step q fwd (s.links k) (.send item)).map fun link =>
        { s.setSubscriber i { s.subscribers i with sending := some (item, k + 1) } with
          links := Function.update s.links k link
          sent := Function.update s.sent k (s.sent k ++ [item]) }

/-- Frames are sent to a queue by the subscriber threads only. -/
def link (k : Nat) (a : Link.Act Item) : Option Traffic :=
  match bridge.forwarders[k]?, a with
  | none, _ => none
  | some _, .send _ => none
  | some fwd, a => (Link.step q fwd (s.links k) a).map fun link => { s with links := Function.update s.links k link }

def step (s : Traffic) : Act → Option Traffic
  | .publish topic payload => some { s with published := s.published ++ [(topic, payload)] }
  | .subscribe i => s.subscribe bridge i
  | .receive i p => s.receive bridge i p
  | .send i => s.send q bridge i
  | .link k a => s.link q bridge k a

/-- On each link the frames of an origin and a topic have increasing numbers, and each message is sent to each peer once
at most. -/
def Increasing : Prop := ∀ k < bridge.forwarders.length,
  ((s.links k).frames.Pairwise fun a b => a.frame.originId = b.frame.originId → a.frame.topic = b.frame.topic →
    a.frame.originSeq < b.frame.originSeq) ∧
  ((s.sent k).map Item.message).Nodup

/-- No counter has passed its 64 bits when a number is drawn from it. -/
def NoWrap : Act → Prop
  | .receive i _ => (s.subscribers i).seq < 2 ^ 64
  | _ => True

instance : (a : Act) → Decidable (s.NoWrap a)
  | .receive i _ => inferInstanceAs (Decidable ((s.subscribers i).seq < 2 ^ 64))
  | .publish .. | .subscribe _ | .send _ | .link .. => .isTrue trivial

end Steps

/-! ### What the threads have drawn -/

variable {q : Quic} {bridge : StartedBridge} {s s' : Traffic} {i k p : Nat} {a : Act} {item : Item} {topic : String}

/-- A thread of the topic has drawn the number of the frame, and its subscription is past the message. -/
structure Drawn (topic : String) (published : List (String × Bytes)) (sub : Subscriber) (item : Item) : Prop where
  name : item.frame.topic = asBytes topic
  message : ∃ payload, published[item.message]? = some (topic, payload)
  seq : item.frame.originSeq.toNat < sub.seq
  cursor : ∃ cursor, sub.cursor = some cursor ∧ item.message < cursor

/-- What is drawn later has a larger number and carries a later message. -/
def Before (a b : Item) : Prop := a.frame.originSeq < b.frame.originSeq ∧ a.message < b.message

structure Inv (bridge : StartedBridge) (s : Traffic) : Prop where
  /-- A frame that is still to be sent to the peer is later than those of its thread that were. -/
  sent : ∀ k, ∀ item ∈ s.sent k, ∃ i topic, bridge.subscribers[i]? = some topic ∧
    Drawn topic s.published (s.subscribers i) item ∧
    ∀ next k', (s.subscribers i).sending = some (next, k') → k' ≤ k → Before item next
  sending : ∀ i next k, (s.subscribers i).sending = some (next, k) →
    ∃ topic, bridge.subscribers[i]? = some topic ∧ Drawn topic s.published (s.subscribers i) next
  ordered : ∀ k, (s.sent k).Pairwise fun a b => a.frame.topic = b.frame.topic → Before a b
  flow : ∀ k, (s.links k).flow <+ s.sent k
  plain : ∀ k fwd, bridge.forwarders[k]? = some fwd → fwd.transport = .tcp → (s.links k).Plain

theorem subscribers_set_self (s : Traffic) (i : Nat) (sub : Subscriber) : (s.setSubscriber i sub).subscribers i = sub :=
  Function.update_self ..

theorem subscribers_set_of_ne (s : Traffic) {i j : Nat} (h : j ≠ i) (sub : Subscriber) :
    (s.setSubscriber i sub).subscribers j = s.subscribers j :=
  Function.update_of_ne h ..

theorem inv_init (bridge : StartedBridge) : Inv bridge {} where
  sent := by
    intro k item hitem
    cases hitem
  sending := by
    intro i next k h
    cases h
  ordered := fun _ => .nil
  flow := fun _ => List.Sublist.refl []
  plain := fun _ _ _ _ => ⟨rfl, rfl⟩

theorem Drawn.publish {published : List (String × Bytes)} {sub : Subscriber} (h : Drawn topic published sub item)
    (message : String × Bytes) : Drawn topic (published ++ [message]) sub item := by
  obtain ⟨payload, hpayload⟩ := h.message
  refine ⟨h.name, ⟨payload, ?_⟩, h.seq, h.cursor⟩
  rw [List.getElem?_append_left (List.getElem?_eq_some_iff.1 hpayload).1]
  exact hpayload

theorem Drawn.message_lt {published : List (String × Bytes)} {sub : Subscriber} (h : Drawn topic published sub item) :
    item.message < published.length := by
  obtain ⟨payload, hpayload⟩ := h.message
  exact (List.getElem?_eq_some_iff.1 hpayload).1

/-- What a thread has drawn stays drawn when its counter and its subscription go on. -/
theorem Drawn.mono {published : List (String × Bytes)} {sub sub' : Subscriber} (h : Drawn topic published sub item)
    (hseq : sub.seq ≤ sub'.seq) (hcursor : ∃ cursor, sub'.cursor = some cursor ∧ item.message < cursor) :
    Drawn topic published sub' item := ⟨h.name, h.message, Nat.lt_of_lt_of_le h.seq hseq, hcursor⟩

theorem Inv.publish (h : Inv bridge s) (message : String × Bytes) :
    Inv bridge { s with published := s.published ++ [message] } where
  sent := by
    intro k item hitem
    obtain ⟨i, topic, hi, hdrawn, hnext⟩ := h.sent k item hitem
    exact ⟨i, topic, hi, hdrawn.publish message, hnext⟩
  sending := by
    intro i next k hsending
    obtain ⟨topic, hi, hdrawn⟩ := h.sending i next k hsending
    exact ⟨topic, hi, hdrawn.publish message⟩
  ordered := h.ordered
  flow := h.flow
  plain := h.plain

/-- A thread that has sent its frame everywhere goes on: what it has drawn stays drawn, and what it sends next is later
than that. -/
theorem Inv.setSubscriber (h : Inv bridge s) {sub : Subscriber}
    (hmono : ∀ topic item, bridge.subscribers[i]? = some topic → Drawn topic s.published (s.subscribers i) item →
      Drawn topic s.published sub item)
    (hnext : ∀ topic item next k, bridge.subscribers[i]? = some topic →
      Drawn topic s.published (s.subscribers i) item → sub.sending = some (next, k) → Before item next)
    (hsending : ∀ next k, sub.sending = some (next, k) →
      ∃ topic, bridge.subscribers[i]? = some topic ∧ Drawn topic s.published sub next) :
    Inv bridge (s.setSubscriber i sub) where
  sent := by
    intro k item hitem
    obtain ⟨j, topic, hj, hdrawn, hlater⟩ := h.sent k item hitem
    refine ⟨j, topic, hj, ?_⟩
    by_cases hij : j = i
    · subst hij
      rw [subscribers_set_self]
      exact ⟨hmono topic item hj hdrawn, fun next k' hsend _ => hnext topic item next k' hj hdrawn hsend⟩
    · rw [subscribers_set_of_ne s hij]
      exact ⟨hdrawn, hlater⟩
  sending := by
    intro j next k hsend
    by_cases hij : j = i
    · subst hij
      rw [subscribers_set_self] at hsend ⊢
      exact hsending next k hsend
    · rw [subscribers_set_of_ne s hij] at hsend ⊢
      exact h.sending j next k hsend
  ordered := h.ordered
  flow := h.flow
  plain := h.plain

theorem Inv.subscribe (h : Inv bridge s) (hs : s.subscribe bridge i = some s') : Inv bridge s' := by
  rw [Traffic.subscribe] at hs
  split at hs
  · rename_i hcond
    cases hs
    have hnone : (s.subscribers i).sending = none := Option.isNone_iff_eq_none.1 hcond.2
    refine h.setSubscriber ?_ ?_ ?_
    · intro topic item _ hdrawn
      exact hdrawn.mono (Nat.le_refl _) ⟨_, rfl, hdrawn.message_lt⟩
    · intro topic item next k _ _ hsend
      rw [hnone] at hsend
      cases hsend
    · intro next k hsend
      rw [hnone] at hsend
      cases hsend
  · cases hs

theorem Inv.receive (h : Inv bridge s) (hwrap : s.NoWrap (.receive i p)) (hs : s.receive bridge i p = some s') :
    Inv bridge s' := by
  rw [Traffic.receive] at hs
  split at hs
  · rename_i topic cursor seq name payload htopic hsub hmessage
    split at hs
    · rename_i hcond
      obtain ⟨hle, rfl⟩ := hcond
      cases hs
      -- the number that is drawn is the value of the counter
      have hseq : (UInt64.ofNat seq).toNat = seq := by
        rw [NoWrap, hsub] at hwrap
        exact UInt64.toNat_ofNat_of_lt' hwrap
      refine h.setSubscriber ?_ ?_ ?_
      · intro topic item _ hdrawn
        rw [hsub] at hdrawn
        obtain ⟨cursor', hcursor', hlt⟩ := hdrawn.cursor
        cases hcursor'
        exact hdrawn.mono (Nat.le_succ _) ⟨_, rfl, Nat.lt_succ_of_lt (Nat.lt_of_lt_of_le hlt hle)⟩
      · intro topic item next k _ hdrawn hsend
        cases hsend
        rw [hsub] at hdrawn
        obtain ⟨cursor', hcursor', hlt⟩ := hdrawn.cursor
        cases hcursor'
        refine ⟨?_, Nat.lt_of_lt_of_le hlt hle⟩
        change item.frame.originSeq < UInt64.ofNat seq
        rw [UInt64.lt_iff_toNat_lt, hseq]
        exact hdrawn.seq
      · intro next k hsend
        cases hsend
        refine ⟨name, htopic, rfl, ⟨payload, hmessage⟩, ?_, _, rfl, Nat.lt_succ_self p⟩
        change (UInt64.ofNat seq).toNat < seq + 1
        rw [hseq]
        exact Nat.lt_succ_self seq
    · cases hs
  · cases hs

/-- One link goes on. -/
theorem Inv.setLink (h : Inv bridge s) {fwd : Forwarder} {link : Link Item} {sent : Nat → List Item}
    (hfwd : bridge.forwarders[k]? = some fwd) (hflow : link.flow <+ sent k) (hsent : ∀ k' ≠ k, sent k' = s.sent k')
    (hplain : fwd.transport = .tcp → link.Plain) :
    (∀ k', (Function.update s.links k link k').flow <+ sent k') ∧
      ∀ k' fwd', bridge.forwarders[k']? = some fwd' → fwd'.transport = .tcp →
        (Function.update s.links k link k').Plain := by
  constructor
  · intro k'
    by_cases hk : k' = k
    · subst hk
      rw [Function.update_self]
      exact hflow
    · rw [Function.update_of_ne hk, hsent k' hk]
      exact h.flow k'
  · intro k' fwd' hfwd' htcp
    by_cases hk : k' = k
    · subst hk
      rw [hfwd] at hfwd'
      cases hfwd'
      rw [Function.update_self]
      exact hplain htcp
    · rw [Function.update_of_ne hk]
      exact h.plain k' fwd' hfwd' htcp

theorem index_unique {l : List String} (hnodup : l.Nodup) {i j : Nat} {name : String} (hi : l[i]? = some name)
    (hj : l[j]? = some name) : i = j := by
  obtain ⟨hlti, rfl⟩ := List.getElem?_eq_some_iff.1 hi
  obtain ⟨hltj, heq⟩ := List.getElem?_eq_some_iff.1 hj
  exact (hnodup.getElem_inj_iff.1 heq).symm

/-- A frame goes to a peer.  Threads of different topics send frames of different topics, so only what its own thread has
sent before must be earlier. -/
theorem Inv.send (h : Inv bridge s) (hnodup : bridge.subscribers.Nodup) (hs : s.send q bridge i = some s') :
    Inv bridge s' := by
  rw [Traffic.send] at hs
  cases hsending : (s.subscribers i).sending with
  | none =>
    rw [hsending] at hs
    cases hs
  | some pair =>
    obtain ⟨item, k⟩ := pair
    obtain ⟨topic, htopic, hdrawn⟩ := h.sending i item k hsending
    rw [hsending] at hs
    cases hfwd : bridge.forwarders[k]? with
    | none =>
      simp only [hfwd, Option.some.injEq] at hs
      subst hs
      refine h.setSubscriber ?_ ?_ ?_
      · intro topic item _ hdrawn
        exact hdrawn.mono (Nat.le_refl _) hdrawn.cursor
      · intro topic item next k _ _ hsend
        cases hsend
      · intro next k hsend
        cases hsend
    | some fwd =>
      simp only [hfwd, Option.map_eq_some_iff] at hs
      obtain ⟨link, hlink, rfl⟩ := hs
      obtain ⟨hflow, hplain⟩ := Link.flow_step (h.plain k fwd hfwd) hlink
      have hflow' : link.flow <+ Function.update s.sent k (s.sent k ++ [item]) k := by
        rw [Function.update_self]
        exact hflow.trans (List.Sublist.append (h.flow k) (List.Sublist.refl _))
      obtain ⟨hflows, hplains⟩ := h.setLink hfwd hflow' (fun k' hk => Function.update_of_ne hk ..) hplain
      refine ⟨?_, ?_, ?_, hflows, hplains⟩
      · intro k' item' hitem'
        have hcases : item' ∈ s.sent k' ∨ (k' = k ∧ item' = item) := by
          by_cases hk : k' = k
          · subst hk
            simp only [Function.update_self, List.mem_append, List.mem_singleton] at hitem'
            exact hitem'.imp_right fun heq => ⟨rfl, heq⟩
          · simp only [Function.update_of_ne hk] at hitem'
            exact .inl hitem'
        rcases hcases with hold | ⟨rfl, rfl⟩
        · obtain ⟨j, topic', hj, hdrawn', hlater⟩ := h.sent k' item' hold
          refine ⟨j, topic', hj, ?_⟩
          by_cases hij : j = i
          · subst hij
            simp only [Traffic.setSubscriber, Function.update_self]
            refine ⟨hdrawn'.mono (Nat.le_refl _) hdrawn'.cursor, fun next k'' hsend hle => ?_⟩
            cases hsend
            exact hlater item k hsending (Nat.le_of_succ_le hle)
          · simp only [Traffic.setSubscriber, Function.update_of_ne hij]
            exact ⟨hdrawn', hlater⟩
        · refine ⟨i, topic, htopic, ?_⟩
          simp only [Traffic.setSubscriber, Function.update_self]
          refine ⟨hdrawn.mono (Nat.le_refl _) hdrawn.cursor, fun next k'' hsend hle => ?_⟩
          cases hsend
          exact absurd hle (Nat.not_succ_le_self _)
      · intro j next k' hsend
        by_cases hij : j = i
        · subst hij
          simp only [Traffic.setSubscriber, Function.update_self] at hsend ⊢
          cases hsend
          exact ⟨topic, htopic, hdrawn.mono (Nat.le_refl _) hdrawn.cursor⟩
        · simp only [Traffic.setSubscriber, Function.update_of_ne hij] at hsend ⊢
          exact h.sending j next k' hsend
      · intro k'
        by_cases hk : k' = k
        · subst hk
          simp only [Function.update_self]
          refine List.pairwise_append.2 ⟨h.ordered k', List.pairwise_singleton .., ?_⟩
          intro item' hitem' next hnext htopics
          obtain rfl := List.mem_singleton.1 hnext
          obtain ⟨j, topic', hj, hdrawn', hlater⟩ := h.sent k' item' hitem'
          have hnames : topic' = topic := asBytes_injective (hdrawn'.name.symm.trans (htopics.trans hdrawn.name))
          subst hnames
          have hij : j = i := index_unique hnodup hj htopic
          subst hij
          exact hlater next k' hsending (Nat.le_refl _)
        · simp only [Function.update_of_ne hk]
          exact h.ordered k'

theorem Inv.link {b : Link.Act Item} (h : Inv bridge s) (hs : s.link q bridge k b = some s') : Inv bridge s' := by
  cases hfwd : bridge.forwarders[k]? with
  | none =>
    simp only [Traffic.link, hfwd] at hs
    cases hs
  | some fwd =>
    have hlink : b.sent = [] ∧ ∃ link, Link.step q fwd (s.links k) b = some link ∧
        s' = { s with links := Function.update s.links k link } := by
      cases b with
      | send frame =>
        simp only [Traffic.link, hfwd] at hs
        cases hs
      | requestShutdown | main ok | drain =>
        simp only [Traffic.link, hfwd] at hs
        obtain ⟨link, hlink, rfl⟩ := Option.map_eq_some_iff.1 hs
        exact ⟨rfl, link, hlink, rfl⟩
    obtain ⟨hnone, link, hlink, rfl⟩ := hlink
    obtain ⟨hflow, hplain⟩ := Link.flow_step (h.plain k fwd hfwd) hlink
    rw [hnone, List.append_nil] at hflow
    obtain ⟨hflows, hplains⟩ := h.setLink hfwd (hflow.trans (h.flow k)) (fun _ _ => rfl) hplain
    exact ⟨h.sent, h.sending, h.ordered, hflows, hplains⟩

theorem Inv.step (h : Inv bridge s) (hnodup : bridge.subscribers.Nodup) (hwrap : s.NoWrap a)
    (hs : step q bridge s a = some s') : Inv bridge s' := by
  cases a with
  | publish topic payload =>
    cases hs
    exact h.publish (topic, payload)
  | subscribe i => exact h.subscribe hs
  | receive i p => exact h.receive hwrap hs
  | send i => exact h.send hnodup hs
  | link k b => exact h.link hs

/-- What was sent to a peer carries different messages: one message has one topic, and its thread passes it once. -/
theorem Inv.nodup (h : Inv bridge s) (k : Nat) : ((s.sent k).map Item.message).Nodup := by
  refine List.pairwise_map.2 ((h.ordered k).imp_of_mem fun {a b} ha hb hbefore heq => ?_)
  obtain ⟨i, topic, -, hdrawn, -⟩ := h.sent k a ha
  obtain ⟨j, topic', -, hdrawn', -⟩ := h.sent k b hb
  obtain ⟨payload, hpayload⟩ := hdrawn.message
  obtain ⟨payload', hpayload'⟩ := hdrawn'.message
  rw [heq, hpayload'] at hpayload
  cases hpayload
  exact absurd heq (Nat.ne_of_lt (hbefore (hdrawn.name.trans hdrawn'.name.symm)).2)

theorem Inv.increasing (h : Inv bridge s) : s.Increasing bridge := by
  intro k _
  refine ⟨?_, h.nodup k⟩
  have hsub : (s.links k).frames <+ s.sent k := (Link.frames_sublist_flow _).trans (h.flow k)
  exact ((h.ordered k).sublist hsub).imp fun hbefore _ htopic => (hbefore htopic).1

/-! ### Two threads of one topic -/

section Twice

variable {fwd : Forwarder} {j : Nat}

/-- The first frame of each thread of the topic -/
def firstItem (bridge : StartedBridge) (topic : String) : Item := ⟨messageFrame bridge.originId 0 topic [], 0⟩

theorem receive_eq {cursor seq : Nat} {payload : Bytes} (hi : bridge.subscribers[i]? = some topic)
    (hsub : s.subscribers i = ⟨some cursor, seq, none⟩) (hp : s.published[p]? = some (topic, payload)) (hle : cursor ≤ p) :
    s.receive bridge i p = some (s.setSubscriber i
      ⟨some (p + 1), seq + 1, some (⟨messageFrame bridge.originId (UInt64.ofNat seq) topic payload, p⟩, 0)⟩) := by
  simp only [receive, hi, hsub, hp]
  rw [if_pos ⟨hle, trivial⟩]

theorem send_eq (q : Quic) (hsub : (s.subscribers i).sending = some (item, k)) (hfwd : bridge.forwarders[k]? = some fwd) :
    s.send q bridge i = some { s.setSubscriber i { s.subscribers i with sending := some (item, k + 1) } with
      links := Function.update s.links k { s.links k with queue := Bridge.send fwd.capacity (s.links k).queue item }
      sent := Function.update s.sent k (s.sent k ++ [item]) } := by
  simp only [send, hsub, hfwd, Link.step, Option.map_some]

/-- Both threads subscribe, a message is published, and both send it to the first peer. -/
def bothSend (topic : String) (i j : Nat) : List Act :=
  [.subscribe i, .subscribe j, .publish topic [], .receive i 0, .send i, .receive j 0, .send j]

theorem run_bothSend (q : Quic) (hi : bridge.subscribers[i]? = some topic) (hj : bridge.subscribers[j]? = some topic)
    (hij : j ≠ i) (hfwd : bridge.forwarders[0]? = some fwd) : ∃ s, run (step q bridge) {} (bothSend topic i j) = some s ∧
      Meets (step q bridge) NoWrap {} (bothSend topic i j) ∧
      s.sent 0 = [firstItem bridge topic, firstItem bridge topic] := by
  have hlti : i < bridge.subscribers.length := (List.getElem?_eq_some_iff.1 hi).1
  have hltj : j < bridge.subscribers.length := (List.getElem?_eq_some_iff.1 hj).1
  have hpos : (0 : Nat) < 2 ^ 64 := by decide
  let s₁ : Traffic := setSubscriber {} i ⟨some 0, 0, none⟩
  have h₁ : step q bridge {} (.subscribe i) = some s₁ := by
    rw [step, subscribe, if_pos ⟨hlti, rfl⟩]
    rfl
  let s₂ : Traffic := s₁.setSubscriber j ⟨some 0, 0, none⟩
  have h₂ : step q bridge s₁ (.subscribe j) = some s₂ := by
    have hsub : s₁.subscribers j = {} := subscribers_set_of_ne _ hij _
    rw [step, subscribe, hsub, if_pos ⟨hltj, rfl⟩]
    rfl
  let s₃ : Traffic := { s₂ with published := [(topic, [])] }
  have h₃ : step q bridge s₂ (.publish topic []) = some s₃ := rfl
  -- the thread `i` draws its number and sends
  have hsub₃ : s₃.subscribers i = ⟨some 0, 0, none⟩ := by
    change s₂.subscribers i = _
    rw [subscribers_set_of_ne _ (Ne.symm hij), subscribers_set_self]
  obtain ⟨s₄, hs₄⟩ : ∃ s₄, s₄ = s₃.setSubscriber i ⟨some 1, 1, some (firstItem bridge topic, 0)⟩ := ⟨_, rfl⟩
  have h₄ : step q bridge s₃ (.receive i 0) = some s₄ := by
    rw [step, receive_eq hi hsub₃ rfl (Nat.le_refl 0), hs₄]
    rfl
  have hsub₄ : (s₄.subscribers i).sending = some (firstItem bridge topic, 0) := by
    rw [hs₄, subscribers_set_self]
  have h₅ : step q bridge s₄ (.send i) = some _ := send_eq q hsub₄ hfwd
  generalize hs₅ : ({ s₄.setSubscriber i _ with links := _, sent := _ } : Traffic) = s₅ at h₅
  have hsent₅ : s₅.sent 0 = [firstItem bridge topic] := by
    rw [← hs₅, hs₄]
    rfl
  -- and so does the thread `j`, whose counter is still zero
  have hsub₅ : s₅.subscribers j = ⟨some 0, 0, none⟩ := by
    rw [← hs₅]
    change (s₄.setSubscriber i _).subscribers j = _
    rw [subscribers_set_of_ne _ hij, hs₄, subscribers_set_of_ne _ hij]
    change s₂.subscribers j = _
    rw [subscribers_set_self]
  have hpublished₅ : s₅.published[0]? = some (topic, []) := by
    rw [← hs₅, hs₄]
    rfl
  obtain ⟨s₆, hs₆⟩ : ∃ s₆, s₆ = s₅.setSubscriber j ⟨some 1, 1, some (firstItem bridge topic, 0)⟩ := ⟨_, rfl⟩
  have h₆ : step q bridge s₅ (.receive j 0) = some s₆ := by
    rw [step, receive_eq hj hsub₅ hpublished₅ (Nat.le_refl 0), hs₆]
    rfl
  have hsub₆ : (s₆.subscribers j).sending = some (firstItem bridge topic, 0) := by
    rw [hs₆, subscribers_set_self]
  have h₇ : step q bridge s₆ (.send j) = some _ := send_eq q hsub₆ hfwd
  refine run_meets_cons trivial h₁ (run_meets_cons trivial h₂ (run_meets_cons trivial h₃ (run_meets_cons ?_ h₄
    (run_meets_cons trivial h₅ (run_meets_cons ?_ h₆ (run_meets_cons trivial h₇ ⟨_, rfl, trivial, ?_⟩))))))
  · rw [NoWrap, hsub₃]
    exact hpos
  · rw [NoWrap, hsub₅]
    exact hpos
  · change Function.update s₆.sent 0 (s₆.sent 0 ++ [firstItem bridge topic]) 0 = _
    rw [Function.update_self, hs₆]
    change s₅.sent 0 ++ [firstItem bridge topic] = _
    rw [hsent₅, List.singleton_append]

end Twice

/-! ### The configurations -/

/-- In every run of a bridge in which no counter passes its 64 bits, the numbers on each link increase for every origin and
topic, and each message is sent to each peer once at most, if and only if the topics that are forwarded have different
names, or there is no peer. -/
theorem sequences_increase_iff (q : Quic) (env : Env) (cfg : StartConfig) (bridge : StartedBridge)
    (hstart : cfg.start q env = .ok bridge) :
    (∀ acts s, Meets (step q bridge) NoWrap {} acts → run (step q bridge) {} acts = some s → s.Increasing bridge) ↔
      cfg.subscribers.Nodup ∨ cfg.peers = [] := by
  obtain ⟨hsubscribers, hlength⟩ := StartConfig.threads_of_start hstart
  rw [← hsubscribers]
  constructor
  · intro hall
    by_contra hno
    obtain ⟨htwice, hpeers⟩ := not_or.1 hno
    rw [List.nodup_iff_getElem?_ne_getElem?] at htwice
    push Not at htwice
    obtain ⟨i, j, hij, hlt, heq⟩ := htwice
    have hj := List.getElem?_eq_getElem hlt
    have hpos : 0 < bridge.forwarders.length := by
      rw [hlength]
      exact List.length_pos_of_ne_nil hpeers
    obtain ⟨s, hrun, hmeets, hsent⟩ :=
      run_bothSend q (heq.trans hj) hj (Nat.ne_of_gt hij) (List.getElem?_eq_getElem hpos)
    have hnodup := (hall _ s hmeets hrun 0 hpos).2
    rw [hsent, List.map_cons, List.nodup_cons] at hnodup
    exact hnodup.1 (List.mem_cons_self ..)
  · rintro (hnodup | hpeers) acts s hmeets hrun
    · have hinv : Inv bridge s :=
        run_invariant_when (Inv bridge) NoWrap (fun s a s' hI hC hs => hI.step hnodup hC hs) hmeets (inv_init bridge) hrun
      exact hinv.increasing
    · intro k hk
      rw [hlength, hpeers] at hk
      exact absurd hk (Nat.not_lt_zero k)

/-- Two topics that are forwarded to a peer -/
def forwarding (first second : String) : StartConfig :=
  { dialing "10.0.0.2:4443" 4096 with topics := [{ name := first }, { name := second }] }

theorem sequences_increase_iff_forwarding : ∃ bridge, (forwarding "a" "b").start sampleQuic {} = .ok bridge ∧
    ∀ acts s, Meets (step sampleQuic bridge) NoWrap {} acts → run (step sampleQuic bridge) {} acts = some s →
      s.Increasing bridge :=
  ⟨_, rfl, (sequences_increase_iff sampleQuic {} (forwarding "a" "b") _ rfl).2 (.inl (by decide))⟩

/-- The forwarder connects, both threads of the topic send a message to it, and it writes both frames. -/
def bothWritten : List Act :=
  [.link 0 (.main true), .link 0 (.main true), .link 0 (.main true)] ++ bothSend "a" 0 1 ++
    [.link 0 (.main true), .link 0 (.main true), .link 0 (.main true),
      .link 0 (.main true), .link 0 (.main true), .link 0 (.main true)]

/-- The validation accepts a topic that is listed twice.  Its message is on the link twice, both times with the number
zero. -/
theorem sequences_not_increasing : (forwarding "a" "a").validate = .ok () ∧
    ∃ bridge, (forwarding "a" "a").start sampleQuic {} = .ok bridge ∧
      ∃ s, run (step sampleQuic bridge) {} bothWritten = some s ∧ Meets (step sampleQuic bridge) NoWrap {} bothWritten ∧
        (s.links 0).frames = [firstItem bridge "a", firstItem bridge "a"] ∧ ¬s.Increasing bridge := by
  obtain ⟨bridge, hstart, hlen, s, hrun, hmeets, hframes⟩ :
      ∃ bridge, (forwarding "a" "a").start sampleQuic {} = .ok bridge ∧ 0 < bridge.forwarders.length ∧
        ∃ s, run (step sampleQuic bridge) {} bothWritten = some s ∧
        Meets (step sampleQuic bridge) NoWrap {} bothWritten ∧
        (s.links 0).frames = [firstItem bridge "a", firstItem bridge "a"] :=
    ⟨_, rfl, by decide, _, rfl, by decide +kernel, rfl⟩
  refine ⟨by decide +kernel, bridge, hstart, s, hrun, hmeets, hframes, fun hincreasing => ?_⟩
  have hpair := (hincreasing 0 hlen).1
  rw [hframes, List.pairwise_cons] at hpair
  exact absurd (hpair.1 _ (List.mem_cons_self ..) rfl rfl) (UInt64.lt_irrefl _)

end Traffic

end Mmbus.Bridge
