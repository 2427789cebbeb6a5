import Mathlib.Algebra.BigOperators.Group.Finset.Basic
import Mathlib.Algebra.Order.BigOperators.Group.Finset
import Mathlib.Data.List.Perm.Basic
import Mmbus.BridgeMesh

/-!
# Messages that go round in a mesh

A bridge drops the frames of its own origin, but it sends what it has published for a peer as its own again.  Where no
thread takes up such a message, and every topic and every peer is listed once, a message of a local producer is
published once on every other machine at most, and never again on its own (`loop_free`).

A copy of a message for a peer is in a queue, in a connection, in a channel or published, and every step but the receipt
of the message on its own machine only moves or drops copies (`load_step`).
-/

namespace Mmbus.Bridge

open Transition

variable {H : Type} [DecidableEq H]

/-- No bridge forwards a topic twice or has two peers that are the same machine. -/
structure Net.ListsOnce (net : Net H) : Prop where
  topics : ∀ (h : H) (i i' : Nat) (topic topic' : TopicConfig), (net.config h).topics[i]? = some topic →
    (net.config h).topics[i']? = some topic' → topic.forward = true → topic'.forward = true →
      topic.name = topic'.name → i = i'
  peers : ∀ (h : H) (k k' : Nat) (h' : H), net.peerHost h k = some h' → net.peerHost h k' = some h' → k = k'

/-! ### Counting copies -/

/-- The copies of a message on the way to the peer `k` -/
def Host.outgoing (host : Host H) (k : Nat) (m : MessageId H) : Nat :=
  (host.queues k).countP (fun f => f.2 = m) + (host.wires k).countP (fun f => f.2 = m)

/-- The copies of a message that have come from the peers -/
def Host.incoming (host : Host H) (m : MessageId H) : Nat :=
  host.channel.countP (fun c => c.2 = m) + host.published.countP (fun e => e.source = some m)

theorem countP_send {α : Type} (P : α → Bool) (capacity : Nat) (queue : List α) (item : α) :
    (send capacity queue item).countP P ≤ queue.countP P + if P item then 1 else 0 := by
  have htail : queue.tail.countP P ≤ queue.countP P := queue.tail_sublist.countP_le
  rw [send, List.countP_append, List.countP_singleton]
  split <;> omega

theorem mem_send {α : Type} {capacity : Nat} {queue : List α} {item f : α} (h : f ∈ send capacity queue item) :
    f ∈ queue ∨ f = item := by
  rw [send, List.mem_append, List.mem_singleton] at h
  refine h.imp_left fun h => ?_
  split at h
  · exact List.mem_of_mem_tail h
  · exact h

theorem countP_eraseIdx {α : Type} {P : α → Bool} {l : List α} {j : Nat} {item : α} (h : l[j]? = some item) :
    (l.eraseIdx j).countP P + (if P item then 1 else 0) = l.countP P := by
  obtain ⟨hj, rfl⟩ := List.getElem?_eq_some_iff.1 h
  rw [← (List.getElem_cons_eraseIdx_perm hj).countP_eq P, List.countP_cons]

/-! ### What a reader passes on -/

theorem handleFrame_sent (cfg : ReaderConfig) (frame : Frame) :
    (Tcp.handleFrame cfg frame .start).sent.length ≤ 1 ∧
      (frame.originId = cfg.ourOriginId → (Tcp.handleFrame cfg frame .start).sent = []) := by
  unfold Tcp.handleFrame
  constructor
  · repeat' split
    all_goals simp [Reader.start]
  · intro horigin
    rw [if_pos horigin]
    rfl

namespace Mesh

theorem passesOn_sent (cfg : ReaderConfig) (peer : PeerConfig) (frame : Frame) :
    (passesOn cfg peer frame).length ≤ 1 ∧ (frame.originId = cfg.ourOriginId → passesOn cfg peer frame = []) := by
  unfold passesOn
  split
  · split
    · exact handleFrame_sent cfg frame
    · rw [Quic.handleInboundFrame_eq]
      exact handleFrame_sent cfg frame
  · exact ⟨Nat.zero_le 1, fun _ => rfl⟩

/-! ### What the steps do to the copies -/

variable {net : Net H} {s s' : Mesh H} {b h x : H} {i j k p : Nat} {m : MessageId H}

/-- No thread takes up what a bridge has published. -/
def ForwardsLocal (s : Mesh H) : Act H → Prop
  | .receive h _ p => ∀ message, (s h).published[p]? = some message → message.source = none
  | _ => True

instance (s : Mesh H) : ∀ a, Decidable (ForwardsLocal s a)
  | .receive h _ p =>
    decidable_of_iff (((s h).published[p]?.all fun message => message.source.isNone) = true)
      (by simp [ForwardsLocal, Option.all_eq_true])
  | .acquire .. | .produce .. | .release .. | .create .. | .subscribe .. | .forward .. | .lose .. | .deliver ..
  | .publish .. => .isTrue trivial

/-- The copies of a message of `b` for the machine `h`, its peer `k` -/
def load (s : Mesh H) (b : H) (k : Nat) (h : H) (m : MessageId H) : Nat := (s b).outgoing k m + (s h).incoming m

/-- The copies that a step makes -/
def fresh (m : MessageId H) : Act H → Nat
  | .receive h _ p => if m = (h, p) then 1 else 0
  | _ => 0

/-- The frames of a machine carry its own messages and its own origin. -/
def Own (net : Net H) (s : Mesh H) : Prop :=
  ∀ h k f, f ∈ (s h).queues k ∨ f ∈ (s h).wires k → f.2.1 = h ∧ f.1.originId = (net.config h).originId

theorem set_self {host : Host H} : s.set x host x = host := Function.update_self ..

theorem set_of_ne {host : Host H} (hx : b ≠ x) : s.set x host b = s b := Function.update_of_ne hx ..

/-- A step on one machine -/
theorem load_set {host : Host H} {extra : Nat} (hout : host.outgoing k m ≤ (s x).outgoing k m + extra)
    (hin : host.incoming m ≤ (s x).incoming m) : (s.set x host).load b k h m ≤ s.load b k h m + extra := by
  have hb : (s.set x host b).outgoing k m ≤ (s b).outgoing k m + extra := by
    by_cases hbx : b = x
    · subst hbx
      rw [set_self]
      exact hout
    · rw [set_of_ne hbx]
      exact Nat.le_add_right ..
  have hh : (s.set x host h).incoming m ≤ (s h).incoming m := by
    by_cases hhx : h = x
    · subst hhx
      rw [set_self]
      exact hin
    · rw [set_of_ne hhx]
  unfold load
  omega

theorem receive_eq_some (hs : s.receive net h i p = some s') : ∃ topic cursor message frame,
    (net.config h).topics[i]? = some topic ∧ (s h).cursors i = some cursor ∧ (s h).published[p]? = some message ∧
      topic.forward = true ∧ cursor ≤ p ∧ message.topic = topic.name ∧ frame.originId = (net.config h).originId ∧
      s' = s.set h { s h with
        cursors := Function.update (s h).cursors i (some (p + 1))
        seqs := Function.update (s h).seqs i ((s h).seqs i + 1)
        queues := fun k =>
          send (net.config h).peerBufferMax ((s h).queues k) (frame, message.source.getD (h, p)) } := by
  simp only [receive] at hs
  split at hs
  · rename_i topic cursor message htopic hcursor hmessage
    split at hs
    · rename_i hgo
      cases hs
      exact ⟨topic, cursor, message, _, htopic, hcursor, hmessage, hgo.1, hgo.2.1, hgo.2.2, rfl, rfl⟩
    · cases hs
  · cases hs

theorem forward_eq_some (hs : s.forward net h k = some s') : ∃ frame queue, (s h).queues k = frame :: queue ∧
    s' = s.set h { s h with
      queues := Function.update (s h).queues k queue
      wires := Function.update (s h).wires k ((s h).wires k ++ [frame]) } := by
  simp only [forward] at hs
  split at hs
  · cases hs
    exact ⟨_, _, ‹_›, rfl⟩
  · cases hs

theorem deliver_eq_some (hs : s.deliver net h k j = some s') : ∃ peer frame message h',
    (net.config h).peers[k]? = some peer ∧ ((s h).wires k)[j]? = some (frame, message) ∧ net.peerHost h k = some h' ∧
      ∃ t, t = s.set h { s h with wires := Function.update (s h).wires k (((s h).wires k).eraseIdx j) } ∧
        s' = t.set h' { t h' with
          channel := (t h').channel ++ (passesOn (net.config h').reader peer frame).map fun m => (m, message) } := by
  simp only [deliver] at hs
  split at hs
  · rename_i peer frame message hpeer hframe
    split at hs
    · rename_i h' hlistener
      cases hs
      refine ⟨peer, frame, message, h', hpeer, hframe, ?_, _, rfl, rfl⟩
      rw [Net.peerHost, hpeer]
      exact hlistener
    · cases hs
  · cases hs

/-- What a step other than a delivery does to the machine that takes it -/
structure Local (net : Net H) (s : Mesh H) (a : Act H) (x : H) (host : Host H) : Prop where
  outgoing : ∀ k m, host.outgoing k m ≤ (s x).outgoing k m + fresh m a
  incoming : ∀ m, host.incoming m ≤ (s x).incoming m
  own : ∀ k f, f ∈ host.queues k ∨ f ∈ host.wires k →
    (f ∈ (s x).queues k ∨ f ∈ (s x).wires k) ∨ f.2.1 = x ∧ f.1.originId = (net.config x).originId
  published : ∃ l, host.published = (s x).published ++ l
  cursors : ∀ i c, (s x).cursors i = some c → c ≤ (s x).published.length → ∃ c', host.cursors i = some c' ∧ c ≤ c'
  bounded : ∀ i c, host.cursors i = some c → (s x).cursors i = some c ∨ c ≤ (s x).published.length

/-- The machine's frames, channel, log and cursors stay. -/
theorem Local.of_eq {a : Act H} {host : Host H} (hqueues : host.queues = (s x).queues)
    (hwires : host.wires = (s x).wires) (hchannel : host.channel = (s x).channel)
    (hpublished : host.published = (s x).published)
    (hcursors : host.cursors = (s x).cursors) : Local net s a x host where
  outgoing k m := by
    rw [Host.outgoing, Host.outgoing, hqueues, hwires]
    exact Nat.le_add_right ..
  incoming m := by rw [Host.incoming, Host.incoming, hchannel, hpublished]
  own k f hf := .inl (by rwa [hqueues, hwires] at hf)
  published := ⟨[], by rw [hpublished, List.append_nil]⟩
  cursors i c hc _ := ⟨c, by rw [hcursors, hc], le_rfl⟩
  bounded i c hc := .inl (by rwa [hcursors] at hc)

theorem local_produce {topic : String} {payload : Bytes} (hs : s.produce h topic payload = some s') :
    ∃ host, s' = s.set h host ∧ Local net s (.produce h topic payload) h host := by
  unfold produce at hs
  split at hs
  · cases hs
    refine ⟨_, rfl, fun k m => Nat.le_add_right .., fun m => ?_, fun k f hf => .inl hf, ⟨_, rfl⟩,
      fun i c hc _ => ⟨c, hc, le_rfl⟩, fun i c hc => .inl hc⟩
    simp [Host.incoming, List.countP_append]
  · cases hs

theorem local_subscribe (hs : s.subscribe net h i = some s') :
    ∃ host, s' = s.set h host ∧ Local net s (.subscribe h i) h host := by
  unfold subscribe at hs
  split at hs
  · split at hs
    · cases hs
      refine ⟨_, rfl, fun k m => Nat.le_add_right .., fun m => le_rfl, fun k f hf => .inl hf, ⟨[], by simp⟩,
        fun j c hc hle => ?_, fun j c hc => ?_⟩
      · by_cases hj : j = i
        · exact ⟨(s h).published.length, by simp [hj], hle⟩
        · exact ⟨c, by simpa [hj] using hc, le_rfl⟩
      · by_cases hj : j = i
        · subst hj
          simp only [Function.update_self, Option.some.injEq] at hc
          exact .inr hc.ge
        · exact .inl (by simpa [hj] using hc)
    · cases hs
  · cases hs

theorem local_receive (hlocal : s.ForwardsLocal (.receive h i p)) (hs : s.receive net h i p = some s') :
    ∃ host, s' = s.set h host ∧ Local net s (.receive h i p) h host := by
  obtain ⟨topic, cursor, message, frame, -, hcursor, hmessage, -, hle, -, horigin, rfl⟩ := receive_eq_some hs
  have hsource : message.source.getD (h, p) = (h, p) := by rw [hlocal message hmessage, Option.getD_none]
  rw [hsource]
  refine ⟨_, rfl, fun k m => ?_, fun m => le_rfl, fun k f hf => ?_, ⟨[], by simp⟩, fun j c hc _ => ?_, fun j c hc => ?_⟩
  · have hsend := countP_send (fun f : Frame × MessageId H => decide (f.2 = m)) (net.config h).peerBufferMax
      ((s h).queues k) (frame, (h, p))
    have hflag : (if decide ((frame, (h, p)).2 = m) = true then 1 else 0) = fresh m (Act.receive h i p) := by
      by_cases hm : (h, p) = m
      · simp [fresh, hm]
      · simp [fresh, hm, Ne.symm hm]
    simp only [Host.outgoing]
    omega
  · rcases hf with hf | hf
    · rcases mem_send hf with hf | rfl
      · exact .inl (.inl hf)
      · exact .inr ⟨rfl, horigin⟩
    · exact .inl (.inr hf)
  · by_cases hj : j = i
    · subst hj
      obtain rfl : cursor = c := Option.some.inj (hcursor.symm.trans hc)
      exact ⟨p + 1, by simp, by omega⟩
    · exact ⟨c, by simpa [hj] using hc, le_rfl⟩
  · by_cases hj : j = i
    · subst hj
      simp only [Function.update_self, Option.some.injEq] at hc
      have hp := (List.getElem?_eq_some_iff.1 hmessage).1
      exact .inr (by omega)
    · exact .inl (by simpa [hj] using hc)

theorem local_forward (hs : s.forward net h k = some s') :
    ∃ host, s' = s.set h host ∧ Local net s (.forward h k) h host := by
  obtain ⟨frame, queue, hqueue, rfl⟩ := forward_eq_some hs
  refine ⟨_, rfl, fun j m => ?_, fun m => le_rfl, fun j f hf => ?_, ⟨[], by simp⟩, fun i c hc _ => ⟨c, hc, le_rfl⟩,
    fun i c hc => .inl hc⟩
  · by_cases hj : j = k
    · subst hj
      simp only [Host.outgoing, Function.update_self, List.countP_append, hqueue, List.countP_cons,
        List.countP_nil]
      omega
    · simp only [Host.outgoing, Function.update_of_ne hj]
      exact Nat.le_add_right ..
  · by_cases hj : j = k
    · subst hj
      simp only [Function.update_self, List.mem_append, List.mem_singleton] at hf
      rw [hqueue, List.mem_cons]
      tauto
    · simp only [Function.update_of_ne hj] at hf
      exact .inl hf

theorem local_lose (hs : s.lose h k j = some s') : ∃ host, s' = s.set h host ∧ Local net s (.lose h k j) h host := by
  unfold lose at hs
  split at hs
  · cases hs
    refine ⟨_, rfl, fun k' m => ?_, fun m => le_rfl, fun k' f hf => ?_, ⟨[], by simp⟩, fun i c hc _ => ⟨c, hc, le_rfl⟩,
      fun i c hc => .inl hc⟩
    · by_cases hk : k' = k
      · subst hk
        simp only [Host.outgoing, Function.update_self]
        have hsub := ((s h).wires k').eraseIdx_sublist j |>.countP_le (p := fun f => decide (f.2 = m))
        omega
      · simp only [Host.outgoing, Function.update_of_ne hk]
        exact Nat.le_add_right ..
    · by_cases hk : k' = k
      · subst hk
        simp only [Function.update_self] at hf
        exact .inl (hf.imp_right fun hf => List.mem_of_mem_eraseIdx hf)
      · simp only [Function.update_of_ne hk] at hf
        exact .inl hf
  · cases hs

theorem local_publish {ok : Bool} (hs : s.publish h ok = some s') :
    ∃ host, s' = s.set h host ∧ Local net s (.publish h ok) h host := by
  simp only [publish] at hs
  split at hs
  · rename_i topic payload message channel hchannel
    have hcount (m : MessageId H) : (s h).channel.countP (fun c => c.2 = m) =
        channel.countP (fun c => c.2 = m) + if message = m then 1 else 0 := by
      rw [hchannel, List.countP_cons]
      simp only [decide_eq_true_eq]
    split at hs
    · cases hs
      refine ⟨_, rfl, fun k m => Nat.le_add_right .., fun m => ?_, fun k f hf => .inl hf, ⟨[], by simp⟩,
        fun i c hc _ => ⟨c, hc, le_rfl⟩, fun i c hc => .inl hc⟩
      have := hcount m
      simp only [Host.incoming]
      omega
    · cases hs
      refine ⟨_, rfl, fun k m => Nat.le_add_right .., fun m => ?_, fun k f hf => .inl hf, ⟨_, rfl⟩,
        fun i c hc _ => ⟨c, hc, le_rfl⟩, fun i c hc => .inl hc⟩
      have := hcount m
      simp only [Host.incoming, List.countP_append, List.countP_singleton, decide_eq_true_eq, Option.some.injEq]
      omega
  · cases hs

/-! ### A delivery -/

/-- A delivery takes one frame off the connection and adds what the reader passes on to the channel at the other end. -/
structure Delivered (net : Net H) (s : Mesh H) (h : H) (k : Nat) (h' : H) (message : MessageId H) (n : Nat)
    (s' : Mesh H) : Prop where
  own : ∀ x j f, f ∈ (s' x).queues j ∨ f ∈ (s' x).wires j → f ∈ (s x).queues j ∨ f ∈ (s x).wires j
  outgoing : ∀ x j m, (s' x).outgoing j m + (if x = h ∧ j = k ∧ message = m then 1 else 0) = (s x).outgoing j m
  incoming : ∀ x m, (s' x).incoming m = (s x).incoming m + if x = h' ∧ message = m then n else 0
  published : ∀ x, (s' x).published = (s x).published
  cursors : ∀ x, (s' x).cursors = (s x).cursors

theorem countP_tag {α : Type} (l : List α) (message m : MessageId H) :
    (l.map fun a => (a, message)).countP (fun c => c.2 = m) = if message = m then l.length else 0 := by
  by_cases hm : message = m
  · simp [hm, List.countP_map, Function.comp_def]
  · simp [hm, List.countP_map, Function.comp_def]

theorem deliver_delivered (hs : s.deliver net h k j = some s') : ∃ peer frame message h',
    (net.config h).peers[k]? = some peer ∧ (frame, message) ∈ (s h).wires k ∧ net.peerHost h k = some h' ∧
      Delivered net s h k h' message (passesOn (net.config h').reader peer frame).length s' := by
  obtain ⟨peer, frame, message, h', hpeer, hframe, hhost, t, ht, rfl⟩ := deliver_eq_some hs
  refine ⟨peer, frame, message, h', hpeer, List.mem_of_getElem? hframe, hhost, ?_⟩
  generalize hsent : passesOn (net.config h').reader peer frame = sent
  have ht_self : t h = { s h with wires := Function.update (s h).wires k (((s h).wires k).eraseIdx j) } := by
    rw [ht, set_self]
  have ht_ne {x : H} (hx : x ≠ h) : t x = s x := by rw [ht, set_of_ne hx]
  have hpushed (x : H) : t.set h' { t h' with channel := (t h').channel ++ sent.map fun m => (m, message) } x =
      { t x with channel := (t x).channel ++ if x = h' then sent.map fun m => (m, message) else [] } := by
    by_cases hx : x = h'
    · subst hx
      rw [set_self, if_pos rfl]
    · rw [set_of_ne hx, if_neg hx, List.append_nil]
  constructor
  · intro x i f hf
    rw [hpushed] at hf
    by_cases hx : x = h
    · subst hx
      rw [ht_self] at hf
      refine hf.imp_right fun hf => ?_
      by_cases hi : i = k
      · subst hi
        simp only [Function.update_self] at hf
        exact List.mem_of_mem_eraseIdx hf
      · simpa only [Function.update_of_ne hi] using hf
    · rwa [ht_ne hx] at hf
  · intro x i m
    rw [hpushed]
    by_cases hx : x = h
    · subst hx
      rw [ht_self]
      by_cases hi : i = k
      · subst hi
        have herase := countP_eraseIdx (P := fun f : Frame × MessageId H => f.2 = m) hframe
        simp only [decide_eq_true_eq] at herase
        simp only [Host.outgoing, Function.update_self, true_and]
        omega
      · simp only [Host.outgoing, Function.update_of_ne hi, hi, false_and, and_false, if_false, Nat.add_zero]
    · simp only [ht_ne hx, hx, false_and, if_false, Nat.add_zero]
      rfl
  · intro x m
    have hchannel : (t x).channel = (s x).channel := by
      by_cases hx : x = h
      · rw [hx, ht_self]
      · rw [ht_ne hx]
    have hpublished : (t x).published = (s x).published := by
      by_cases hx : x = h
      · rw [hx, ht_self]
      · rw [ht_ne hx]
    rw [hpushed]
    simp only [Host.incoming, hchannel, hpublished, List.countP_append]
    by_cases hx : x = h'
    · simp only [hx, if_true, countP_tag, true_and]
      omega
    · simp only [hx, if_false, List.countP_nil, false_and, Nat.add_zero]
  · intro x
    rw [hpushed]
    by_cases hx : x = h
    · rw [hx, ht_self]
    · rw [ht_ne hx]
  · intro x
    rw [hpushed]
    by_cases hx : x = h
    · rw [hx, ht_self]
    · rw [ht_ne hx]

/-- A step is one on one machine, or a delivery. -/
theorem step_cases {a : Act H} (hlocal : s.ForwardsLocal a) (hs : s.step net a = some s') :
    (∃ x host, s' = s.set x host ∧ Local net s a x host) ∨
      ∃ h k peer frame message h', (frame, message) ∈ (s h).wires k ∧ net.peerHost h k = some h' ∧
        Delivered net s h k h' message (passesOn (net.config h').reader peer frame).length s' := by
  cases a with
  | acquire h topic | release h topic =>
    simp only [step, acquire, release] at hs
    split at hs
    · cases hs
      exact .inl ⟨h, _, rfl, .of_eq rfl rfl rfl rfl rfl⟩
    · cases hs
  | create h topic =>
    simp only [step, create] at hs
    split at hs
    · cases hs
      exact .inl ⟨h, _, rfl, .of_eq rfl rfl rfl rfl rfl⟩
    · cases hs
  | produce h topic payload => exact .inl ⟨h, local_produce hs⟩
  | subscribe h i => exact .inl ⟨h, local_subscribe hs⟩
  | receive h i p => exact .inl ⟨h, local_receive hlocal hs⟩
  | forward h k => exact .inl ⟨h, local_forward hs⟩
  | lose h k j => exact .inl ⟨h, local_lose hs⟩
  | deliver h k j =>
    obtain ⟨peer, frame, message, h', -, hdelivered⟩ := deliver_delivered hs
    exact .inr ⟨h, k, peer, frame, message, h', hdelivered⟩
  | publish h ok => exact .inl ⟨h, local_publish hs⟩

/-! ### What every step preserves -/

/-- What is published stays, and no thread goes back. -/
def Grows (s s' : Mesh H) : Prop := ∀ x, (∃ l, (s' x).published = (s x).published ++ l) ∧
  ∀ i c, (s x).cursors i = some c → c ≤ (s x).published.length → ∃ c', (s' x).cursors i = some c' ∧ c ≤ c'

/-- The cursors of the threads are not past what has been published. -/
def Bounded (s : Mesh H) : Prop := ∀ x i c, (s x).cursors i = some c → c ≤ (s x).published.length

/-- The thread `i` is one for the topic of the message. -/
def Taker (net : Net H) (s : Mesh H) (m : MessageId H) (i : Nat) : Prop := ∃ topic message,
  (net.config m.1).topics[i]? = some topic ∧ topic.forward = true ∧ (s m.1).published[m.2]? = some message ∧
    message.topic = topic.name

/-- A thread for the topic of the message is past it. -/
def Passed (net : Net H) (s : Mesh H) (m : MessageId H) : Prop :=
  ∃ i c, Taker net s m i ∧ (s m.1).cursors i = some c ∧ m.2 < c

/-- A message that is on the way to a machine, or there, is so once, and its thread is past it; it is nowhere else. -/
structure Inv (net : Net H) (s : Mesh H) : Prop where
  own : s.Own net
  bounded : s.Bounded
  once : ∀ m k h, net.peerHost m.1 k = some h → s.load m.1 k h m ≤ 1 ∧ (0 < s.load m.1 k h m → s.Passed net m)
  home : ∀ m h, (h = m.1 ∨ ∀ k, net.peerHost m.1 k ≠ some h) → (s h).incoming m = 0

theorem Local.own_set {a : Act H} {host : Host H} (h : Local net s a x host) (hown : s.Own net) :
    (s.set x host).Own net := by
  intro y k f hf
  by_cases hy : y = x
  · subst hy
    rw [set_self] at hf
    rcases h.own k f hf with hf | hf
    · exact hown y k f hf
    · exact hf
  · rw [set_of_ne hy] at hf
    exact hown y k f hf

theorem Local.grows {a : Act H} {host : Host H} (h : Local net s a x host) : s.Grows (s.set x host) := by
  intro y
  by_cases hy : y = x
  · subst hy
    rw [set_self]
    exact ⟨h.published, h.cursors⟩
  · rw [set_of_ne hy]
    exact ⟨⟨[], by rw [List.append_nil]⟩, fun i c hc _ => ⟨c, hc, le_rfl⟩⟩

theorem Local.bounded_set {a : Act H} {host : Host H} (h : Local net s a x host) (hbounded : s.Bounded) :
    (s.set x host).Bounded := by
  intro y i c hc
  by_cases hy : y = x
  · subst hy
    rw [set_self] at hc ⊢
    obtain ⟨l, hl⟩ := h.published
    rw [hl, List.length_append]
    rcases h.bounded i c hc with hc | hle
    · exact (hbounded y i c hc).trans (Nat.le_add_right ..)
    · exact hle.trans (Nat.le_add_right ..)
  · rw [set_of_ne hy] at hc ⊢
    exact hbounded y i c hc

theorem Local.incoming_set {a : Act H} {host : Host H} (hl : Local net s a x host) :
    ((s.set x host) h).incoming m ≤ (s h).incoming m := by
  by_cases hh : h = x
  · subst hh
    rw [set_self]
    exact hl.incoming m
  · rw [set_of_ne hh]

/-- Only the thread that takes up a message makes a copy of it. -/
theorem load_step {a : Act H} (hnet : net.ListsOnce) (hown : s.Own net) (hlocal : s.ForwardsLocal a)
    (hpeer : net.peerHost m.1 k = some h) (hs : s.step net a = some s') :
    s'.load m.1 k h m ≤ s.load m.1 k h m + fresh m a := by
  rcases step_cases hlocal hs with ⟨x, host, rfl, hl⟩ | ⟨y, i, peer, frame, message, h', hmem, hhost, hd⟩
  · exact load_set (hl.outgoing k m) (hl.incoming m)
  · have hsent := (passesOn_sent (net.config h').reader peer frame).1
    have hy : message.1 = y := (hown y i _ (.inr hmem)).1
    have hout := hd.outgoing m.1 k m
    have hin := hd.incoming h m
    unfold load
    by_cases hcopy : h = h' ∧ message = m
    · -- the copy goes from the connection to the channel
      obtain ⟨rfl, rfl⟩ := hcopy
      rw [hy] at hpeer
      obtain rfl : k = i := hnet.peers y k i h hpeer hhost
      rw [if_pos ⟨hy, rfl, rfl⟩] at hout
      rw [if_pos ⟨rfl, rfl⟩] at hin
      omega
    · rw [if_neg hcopy] at hin
      omega

theorem own_step {a : Act H} (hown : s.Own net) (hlocal : s.ForwardsLocal a) (hs : s.step net a = some s') :
    s'.Own net := by
  rcases step_cases hlocal hs with ⟨x, host, rfl, hl⟩ | ⟨y, i, peer, frame, message, h', -, -, hd⟩
  · exact hl.own_set hown
  · exact fun x k f hf => hown x k f (hd.own x k f hf)

theorem grows_step {a : Act H} (hlocal : s.ForwardsLocal a) (hs : s.step net a = some s') : s.Grows s' := by
  rcases step_cases hlocal hs with ⟨x, host, rfl, hl⟩ | ⟨y, i, peer, frame, message, h', -, -, hd⟩
  · exact hl.grows
  · exact fun x => ⟨⟨[], by rw [hd.published, List.append_nil]⟩, fun i c hc _ => ⟨c, by rw [hd.cursors, hc], le_rfl⟩⟩

theorem bounded_step {a : Act H} (hbounded : s.Bounded) (hlocal : s.ForwardsLocal a) (hs : s.step net a = some s') :
    s'.Bounded := by
  rcases step_cases hlocal hs with ⟨x, host, rfl, hl⟩ | ⟨y, i, peer, frame, message, h', -, -, hd⟩
  · exact hl.bounded_set hbounded
  · intro x i c hc
    rw [hd.cursors] at hc
    rw [hd.published]
    exact hbounded x i c hc

/-- Nothing comes back to the machine of the local producer, and nothing to a machine that is not its peer. -/
theorem incoming_step {a : Act H} (hown : s.Own net) (hlocal : s.ForwardsLocal a)
    (hh : h = m.1 ∨ ∀ k, net.peerHost m.1 k ≠ some h) (hs : s.step net a = some s') :
    (s' h).incoming m ≤ (s h).incoming m := by
  rcases step_cases hlocal hs with ⟨x, host, rfl, hl⟩ | ⟨y, i, peer, frame, message, h', hmem, hhost, hd⟩
  · exact hl.incoming_set
  · obtain ⟨hy, horigin⟩ := hown y i _ (.inr hmem)
    have hin := hd.incoming h m
    by_cases hcopy : h = h' ∧ message = m
    · obtain ⟨rfl, rfl⟩ := hcopy
      have hy : message.1 = y := hy
      rcases hh with rfl | hh
      · -- the bridge knows its own frames
        have hsent := (passesOn_sent (net.config message.1).reader peer frame).2 (by rw [hy]; exact horigin)
        rw [hsent, List.length_nil, ite_self, Nat.add_zero] at hin
        exact hin.le
      · exact absurd hhost (hy ▸ hh i)
    · rw [if_neg hcopy] at hin
      exact hin.le

omit [DecidableEq H] in
theorem Taker.grows {m : MessageId H} (h : Taker net s m i) (hgrows : s.Grows s') : Taker net s' m i := by
  obtain ⟨topic, message, htopic, hforward, hmessage, hname⟩ := h
  obtain ⟨l, hl⟩ := (hgrows m.1).1
  refine ⟨topic, message, htopic, hforward, ?_, hname⟩
  rw [hl, List.getElem?_append_left (List.getElem?_eq_some_iff.1 hmessage).1]
  exact hmessage

omit [DecidableEq H] in
theorem Passed.grows (h : s.Passed net m) (hbounded : s.Bounded) (hgrows : s.Grows s') : s'.Passed net m := by
  obtain ⟨i, c, htaker, hc, hlt⟩ := h
  obtain ⟨c', hc', hle⟩ := (hgrows m.1).2 i c hc (hbounded m.1 i c hc)
  exact ⟨i, c', htaker.grows hgrows, hc', hlt.trans_le hle⟩

/-- A thread takes up a message once, and no other thread takes it up. -/
theorem passed_receive (hnet : net.ListsOnce) (hs : s.receive net h i p = some s') :
    ¬s.Passed net (h, p) ∧ s'.Passed net (h, p) := by
  obtain ⟨topic, cursor, message, frame, htopic, hcursor, hmessage, hforward, hle, hname, -, rfl⟩ := receive_eq_some hs
  constructor
  · rintro ⟨i', c, ⟨topic', message', htopic', hforward', hmessage', hname'⟩, hc, hlt⟩
    obtain rfl : message = message' := Option.some.inj (hmessage.symm.trans hmessage')
    obtain rfl : i = i' := hnet.topics h i i' topic topic' htopic htopic' hforward hforward' (hname.symm.trans hname')
    obtain rfl : cursor = c := Option.some.inj (hcursor.symm.trans hc)
    exact absurd hlt (Nat.not_lt.2 hle)
  · refine ⟨i, p + 1, ⟨topic, message, htopic, hforward, ?_, hname⟩, ?_, Nat.lt_succ_self p⟩
    · rw [set_self]
      exact hmessage
    · rw [set_self]
      exact Function.update_self ..

theorem Inv.step {a : Act H} (hnet : net.ListsOnce) (h : s.Inv net) (hlocal : s.ForwardsLocal a)
    (hs : s.step net a = some s') : s'.Inv net := by
  have hgrows := grows_step hlocal hs
  refine ⟨own_step h.own hlocal hs, bounded_step h.bounded hlocal hs, fun m k x hpeer => ?_, fun m x hx => ?_⟩
  · obtain ⟨hone, hpassed⟩ := h.once m k x hpeer
    have hload := load_step hnet h.own hlocal hpeer hs
    by_cases hfresh : fresh m a = 0
    · refine ⟨by omega, fun hpos => (hpassed (by omega)).grows h.bounded hgrows⟩
    · -- the thread takes the message up
      obtain ⟨y, i, p, rfl, rfl⟩ : ∃ y i p, a = .receive y i p ∧ m = (y, p) := by
        cases a with
        | receive y i p =>
          refine ⟨y, i, p, rfl, ?_⟩
          by_contra hm
          exact hfresh (if_neg hm)
        | _ => exact absurd rfl hfresh
      obtain ⟨hbefore, hafter⟩ := passed_receive hnet hs
      have hzero : s.load y k x (y, p) = 0 := by
        by_contra hne
        exact hbefore (hpassed (Nat.pos_of_ne_zero hne))
      have hfresh' : fresh (y, p) (Act.receive y i p) = 1 := if_pos rfl
      refine ⟨?_, fun _ => hafter⟩
      change s'.load y k x (y, p) ≤ s.load y k x (y, p) + _ at hload
      change s'.load y k x (y, p) ≤ 1
      omega
  · have hin := incoming_step h.own hlocal hx hs
    have hzero := h.home m x hx
    omega

theorem inv_init : (init : Mesh H).Inv net where
  own _ _ _ hf := by simp [init, Host.init] at hf
  bounded _ _ _ hc := by cases hc
  once _ _ _ _ := ⟨Nat.zero_le _, fun hpos => absurd hpos (Nat.lt_irrefl 0)⟩
  home _ _ _ := rfl

/-- In every run of a mesh in which no thread takes up what a bridge has published, and whose bridges list every topic
and every peer once, a message is never published again on its own machine, at most once on every other one, and so at
most as often as there are other machines. -/
theorem loop_free {acts : List (Act H)} (hnet : net.ListsOnce) (hc : Meets (step net) ForwardsLocal init acts)
    (hr : run (step net) init acts = some s) (m : MessageId H) :
    s.republications m.1 m = 0 ∧ (∀ h, s.republications h m ≤ 1) ∧
      ∀ machines : Finset H, ∑ h ∈ machines, s.republications h m ≤ (machines.erase m.1).card := by
  have hinv : s.Inv net :=
    run_invariant_when (Inv net) ForwardsLocal (fun _ _ _ h hc hs => h.step hnet hc hs) hc inv_init hr
  have hle (h : H) : s.republications h m ≤ (s h).incoming m := Nat.le_add_left ..
  have hhome : s.republications m.1 m = 0 := Nat.le_zero.1 ((hle m.1).trans (hinv.home m m.1 (.inl rfl)).le)
  have hone (h : H) : s.republications h m ≤ 1 := by
    by_cases hpeer : ∃ k, net.peerHost m.1 k = some h
    · obtain ⟨k, hk⟩ := hpeer
      exact ((hle h).trans (Nat.le_add_left ..)).trans (hinv.once m k h hk).1
    · have hzero := hinv.home m h (.inr fun k hk => hpeer ⟨k, hk⟩)
      exact (hle h).trans (hzero.le.trans (Nat.zero_le 1))
  refine ⟨hhome, hone, fun machines => ?_⟩
  calc ∑ h ∈ machines, s.republications h m
      = ∑ h ∈ machines.erase m.1, s.republications h m := (Finset.sum_erase machines hhome).symm
    _ ≤ ∑ _h ∈ machines.erase m.1, 1 := Finset.sum_le_sum fun h _ => hone h
    _ = (machines.erase m.1).card := (Finset.card_eq_sum_ones _).symm

/-- A bridge with one topic in its default settings, and two peers -/
def bridgeOf (originId : UInt64) (next last : String) : BridgeConfig where
  bus := "bus"
  originId := originId
  topics := [{ name := "t" }]
  peers := [⟨⟨"next", "key"⟩, next, .tcp, none⟩, ⟨⟨"last", "key"⟩, last, .tcp, none⟩]

/-- Three machines that are each other's peers -/
def threeMachines : Net (Fin 3) where
  config h := if h = 0 then bridgeOf 10 "b:1" "c:1" else if h = 1 then bridgeOf 11 "c:1" "a:1" else bridgeOf 12 "a:1" "b:1"
  listener endpoint := if endpoint = "a:1" then some 0 else if endpoint = "b:1" then some 1 else
    if endpoint = "c:1" then some 2 else none

theorem threeMachines_listsOnce : threeMachines.ListsOnce where
  topics h i i' topic topic' hi hi' _ _ _ := by
    have hlength : ∀ h, (threeMachines.config h).topics.length = 1 := by decide
    have hone (i : Nat) (topic : TopicConfig) (hi : (threeMachines.config h).topics[i]? = some topic) : i = 0 := by
      have hlt := (List.getElem?_eq_some_iff.1 hi).1
      exact Nat.lt_one_iff.1 (hlength h ▸ hlt)
    rw [hone i topic hi, hone i' topic' hi']
  peers h k k' h' hk hk' := by
    have hlength : ∀ h, (threeMachines.config h).peers.length = 2 := by decide
    have htwo (k : Nat) (hk : threeMachines.peerHost h k = some h') : k < 2 := by
      obtain ⟨peer, hpeer, -⟩ := Option.bind_eq_some_iff.1 hk
      exact hlength h ▸ (List.getElem?_eq_some_iff.1 hpeer).1
    have hall : ∀ h h' : Fin 3, ∀ k < 2, ∀ k' < 2, threeMachines.peerHost h k = some h' →
        threeMachines.peerHost h k' = some h' → k = k' := by decide +kernel
    exact hall h h' k (htwo k hk) k' (htwo k' hk') hk hk'

/-- A local producer publishes a message, which is published on the other machines. -/
def oneMessage : List (Act (Fin 3)) :=
  [.acquire 0 "t", .create 1 "t", .create 2 "t", .subscribe 0 0, .subscribe 1 0, .subscribe 2 0, .produce 0 "t" [7],
    .receive 0 0 0, .forward 0 0, .forward 0 1, .deliver 0 0 0, .deliver 0 1 0, .publish 1 true, .publish 2 true]

theorem loop_free_oneMessage : ∃ s, run (step threeMachines) init oneMessage = some s ∧
    s.republications 1 (0, 0) = 1 ∧ s.republications 2 (0, 0) = 1 ∧
      ∑ h ∈ {0, 1, 2}, s.republications h (0, 0) ≤ (({0, 1, 2} : Finset (Fin 3)).erase 0).card := by
  obtain ⟨s, hr, hs⟩ := Option.map_eq_some_iff.1 (show (run (step threeMachines) init oneMessage).map
    (fun s => (s.republications 1 (0, 0), s.republications 2 (0, 0))) = some (1, 1) by decide +kernel)
  rw [Prod.mk.injEq] at hs
  have hc : Meets (step threeMachines) ForwardsLocal init oneMessage := by decide +kernel
  exact ⟨s, hr, hs.1, hs.2, (loop_free threeMachines_listsOnce hc hr (0, 0)).2.2 {0, 1, 2}⟩

/-- The bridge of the second machine takes up what it has published, and sends it to the third one as its own. -/
theorem loop_free_fails : (∀ h, (threeMachines.config h).validate = .ok ()) ∧ threeMachines.ListsOnce ∧
    ∃ s, run (step threeMachines) init
        (oneMessage ++ [.receive 1 0 0, .forward 1 0, .deliver 1 0 0, .publish 2 true]) = some s ∧
      s.republications 2 (0, 0) = 2 := by
  refine ⟨by decide +kernel, threeMachines_listsOnce, ?_⟩
  exact Option.map_eq_some_iff.1 (show (run (step threeMachines) init
    (oneMessage ++ [.receive 1 0 0, .forward 1 0, .deliver 1 0 0, .publish 2 true])).map
      (fun s => s.republications 2 (0, 0)) = some 2 by decide +kernel)

end Mesh

end Mmbus.Bridge
