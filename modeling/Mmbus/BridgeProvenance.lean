import Mathlib.Logic.Relation
import Mmbus.BridgeDelivery
import Mmbus.BridgeLoops

/-!
# Where the messages of a mesh come from

Any mesh of bridges, with any configurations and also with loops, in which frames are lost and overtake one another.

Whatever a bridge publishes is a message that a local producer of some machine has published, unchanged, and it has come
over connections on which its topic is forwarded and received, the key that is told is accepted, and the origins differ
(`message_provenance`).
-/

namespace Mmbus.Bridge

open Transition

variable {H : Type}

/-- A peer of `a` is the machine `b`, and the messages of the topic pass from one to the other. -/
def Net.Hop (net : Net H) (topic : String) (a b : H) : Prop :=
  ∃ peer ∈ (net.config a).peers, net.listener peer.endpoint = some b ∧
    (∃ t ∈ (net.config a).topics, t.forward = true ∧ t.name = topic) ∧ topic ∈ (net.config b).receiveTopics ∧
    Accepts (net.config b).reader (asBytes peer.presharedKey) ∧ (net.config a).originId ≠ (net.config b).originId

namespace Mesh

/-- What has been published on a machine stays. -/
def Extends (s s' : Mesh H) : Prop := ∀ h, (s h).published <+: (s' h).published

/-- A local producer of the machine `m.1` has published the message, at the place `m.2`. -/
def Original (s : Mesh H) (m : MessageId H) (topic : String) (payload : Bytes) : Prop :=
  (s m.1).published[m.2]? = some ⟨topic, payload, none⟩

/-- The frame of the machine `h` is made of a message that has come there. -/
def Genuine (net : Net H) (s : Mesh H) (h : H) (f : Frame × MessageId H) : Prop :=
  ∃ t ∈ (net.config h).topics, t.forward = true ∧ ∃ originSeq payload,
    f.1 = messageFrame (net.config h).originId originSeq t.name payload ∧ s.Original f.2 t.name payload ∧
    Relation.ReflTransGen (net.Hop t.name) f.2.1 h

/-- The message has come to the machine `h` from another one. -/
def Came (net : Net H) (s : Mesh H) (h : H) (topic : String) (payload : Bytes) (m : MessageId H) : Prop :=
  s.Original m topic payload ∧ Relation.TransGen (net.Hop topic) m.1 h

structure Traced (net : Net H) (s : Mesh H) : Prop where
  published : ∀ h, ∀ e ∈ (s h).published, ∀ m, e.source = some m → Came net s h e.topic e.payload m
  queues : ∀ h k, ∀ f ∈ (s h).queues k, Genuine net s h f
  wires : ∀ h k, ∀ f ∈ (s h).wires k, Genuine net s h f
  channel : ∀ h, ∀ c ∈ (s h).channel, Came net s h c.1.1 c.1.2 c.2

variable {net : Net H} {s s' : Mesh H} {h x : H} {i j k p : Nat} {m : MessageId H} {topic : String} {payload : Bytes}

theorem Original.mono (hm : s.Original m topic payload) (hext : s.Extends s') : s'.Original m topic payload := by
  obtain ⟨rest, hrest⟩ := hext m.1
  rw [Original, ← hrest, List.getElem?_append_left (List.getElem?_eq_some_iff.1 hm).1]
  exact hm

theorem Genuine.mono {f : Frame × MessageId H} (hf : Genuine net s h f) (hext : s.Extends s') : Genuine net s' h f := by
  obtain ⟨t, ht, hforward, originSeq, payload, hframe, horiginal, hroute⟩ := hf
  exact ⟨t, ht, hforward, originSeq, payload, hframe, horiginal.mono hext, hroute⟩

theorem Came.mono (hm : Came net s h topic payload m) (hext : s.Extends s') : Came net s' h topic payload m :=
  ⟨hm.1.mono hext, hm.2⟩

theorem traced_init : Traced net (init : Mesh H) where
  published := by
    intro h e he
    cases he
  queues := by
    intro h k f hf
    cases hf
  wires := by
    intro h k f hf
    cases hf
  channel := by
    intro h c hc
    cases hc

/-- What a topic thread takes up is a local producer's message, or one that has come with its source. -/
theorem Traced.genuine (ht : Traced net s) {message : Published H} (hmessage : (s h).published[p]? = some message)
    {t : TopicConfig} (hmem : t ∈ (net.config h).topics) (hforward : t.forward = true) (hname : message.topic = t.name)
    (originSeq : UInt64) : Genuine net s h
      (messageFrame (net.config h).originId originSeq t.name message.payload, message.source.getD (h, p)) := by
  refine ⟨t, hmem, hforward, originSeq, message.payload, rfl, ?_⟩
  cases hsource : message.source with
  | none =>
    refine ⟨?_, .refl⟩
    rw [Original, Option.getD_none, hmessage, ← hname, ← hsource]
  | some m =>
    obtain ⟨horiginal, hroute⟩ := ht.published h message (List.mem_of_getElem? hmessage) m hsource
    rw [hname] at horiginal hroute
    exact ⟨horiginal, hroute.to_reflTransGen⟩

variable [DecidableEq H]

theorem extends_set {host : Host H} (hhost : (s h).published <+: host.published) : s.Extends (s.set h host) := by
  intro x
  by_cases hx : x = h
  · subst hx
    rw [set_self]
    exact hhost
  · rw [set_of_ne hx]

/-- One machine goes on; what it has now is traced if it was before, or is new and can be traced. -/
theorem Traced.set (ht : Traced net s) {host : Host H} (hhost : (s h).published <+: host.published)
    (hpublished : ∀ e ∈ host.published, e ∈ (s h).published ∨ ∀ m, e.source = some m → Came net s h e.topic e.payload m)
    (hqueues : ∀ k, ∀ f ∈ host.queues k, Genuine net s h f) (hwires : ∀ k, ∀ f ∈ host.wires k, Genuine net s h f)
    (hchannel : ∀ c ∈ host.channel, Came net s h c.1.1 c.1.2 c.2) : Traced net (s.set h host) := by
  have hext : s.Extends (s.set h host) := extends_set hhost
  refine ⟨fun x e he m hm => ?_, fun x k f hf => ?_, fun x k f hf => ?_, fun x c hc => ?_⟩
  · by_cases hx : x = h
    · subst hx
      rw [set_self] at he
      rcases hpublished e he with hold | hnew
      · exact (ht.published x e hold m hm).mono hext
      · exact (hnew m hm).mono hext
    · rw [set_of_ne hx] at he
      exact (ht.published x e he m hm).mono hext
  · by_cases hx : x = h
    · subst hx
      rw [set_self] at hf
      exact (hqueues k f hf).mono hext
    · rw [set_of_ne hx] at hf
      exact (ht.queues x k f hf).mono hext
  · by_cases hx : x = h
    · subst hx
      rw [set_self] at hf
      exact (hwires k f hf).mono hext
    · rw [set_of_ne hx] at hf
      exact (ht.wires x k f hf).mono hext
  · by_cases hx : x = h
    · subst hx
      rw [set_self] at hc
      exact (hchannel c hc).mono hext
    · rw [set_of_ne hx] at hc
      exact (ht.channel x c hc).mono hext

/-- A machine keeps what is on its way. -/
theorem Traced.set_of_eq (ht : Traced net s) {host : Host H} {more : List (Published H)}
    (hpublished : host.published = (s h).published ++ more) (hlocal : ∀ e ∈ more, e.source = none)
    (hqueues : host.queues = (s h).queues) (hwires : host.wires = (s h).wires) (hchannel : host.channel = (s h).channel) :
    Traced net (s.set h host) := by
  refine ht.set (hpublished ▸ List.prefix_append ..) (fun e he => ?_) (fun k f hf => ?_) (fun k f hf => ?_) (fun c hc => ?_)
  · rw [hpublished] at he
    refine (List.mem_append.1 he).imp_right fun hnew m hm => ?_
    rw [hlocal e hnew] at hm
    cases hm
  · rw [hqueues] at hf
    exact ht.queues h k f hf
  · rw [hwires] at hf
    exact ht.wires h k f hf
  · rw [hchannel] at hc
    exact ht.channel h c hc

/-! ### The steps -/

theorem Traced.produce (ht : Traced net s) (hs : s.produce h topic payload = some s') : Traced net s' := by
  rw [Mesh.produce] at hs
  split at hs
  · cases hs
    refine ht.set_of_eq rfl (fun e he => ?_) rfl rfl rfl
    obtain rfl := List.mem_singleton.1 he
    rfl
  · cases hs

theorem Traced.subscribe (ht : Traced net s) (hs : s.subscribe net h i = some s') : Traced net s' := by
  rw [Mesh.subscribe] at hs
  split at hs
  · split at hs
    · cases hs
      exact ht.set_of_eq (List.append_nil _).symm (fun e he => by cases he) rfl rfl rfl
    · cases hs
  · cases hs

/-- Only the producers of the topics change. -/
theorem Traced.setProducer (ht : Traced net s) (h : H) (producer : String → Option Producer) :
    Traced net (s.set h { s h with producer := producer }) :=
  ht.set_of_eq (List.append_nil _).symm (fun e he => by cases he) rfl rfl rfl

theorem Traced.producers (ht : Traced net s) (h : H) {a : Act H} (ha : a = .acquire h topic ∨ a = .release h topic ∨
    a = .create h topic) (hs : s.step net a = some s') : Traced net s' := by
  have hset : ∃ producer, s' = s.set h { s h with producer := producer } := by
    rcases ha with rfl | rfl | rfl
    · rw [step, acquire] at hs
      split at hs
      · exact ⟨_, (Option.some.inj hs).symm⟩
      · cases hs
    · rw [step, release] at hs
      split at hs
      · exact ⟨_, (Option.some.inj hs).symm⟩
      · cases hs
    · rw [step, create] at hs
      split at hs
      · exact ⟨_, (Option.some.inj hs).symm⟩
      · cases hs
  obtain ⟨producer, rfl⟩ := hset
  exact ht.setProducer h producer

theorem Traced.receive (ht : Traced net s) (hs : s.receive net h i p = some s') : Traced net s' := by
  simp only [Mesh.receive] at hs
  split at hs
  · rename_i t cursor message htopic hcursor hmessage
    split at hs
    · rename_i hgo
      obtain ⟨hforward, -, hname⟩ := hgo
      cases hs
      refine ht.set List.prefix_rfl (fun e he => .inl he) (fun k f hf => ?_) (ht.wires h) (ht.channel h)
      rcases mem_send hf with hold | rfl
      · exact ht.queues h k f hold
      · exact ht.genuine hmessage (List.mem_of_getElem? htopic) hforward hname ((s h).seqs i)
    · cases hs
  · cases hs

theorem Traced.forward (ht : Traced net s) (hs : s.forward net h k = some s') : Traced net s' := by
  obtain ⟨frame, queue, hqueue, rfl⟩ := forward_eq_some hs
  refine ht.set List.prefix_rfl (fun e he => .inl he) (fun k' f hf => ?_) (fun k' f hf => ?_) (ht.channel h)
  · by_cases hk : k' = k
    · subst hk
      simp only [Function.update_self] at hf
      exact ht.queues h k' f (hqueue ▸ List.mem_cons_of_mem _ hf)
    · simp only [Function.update_of_ne hk] at hf
      exact ht.queues h k' f hf
  · by_cases hk : k' = k
    · subst hk
      simp only [Function.update_self] at hf
      rcases List.mem_append.1 hf with hold | hnew
      · exact ht.wires h k' f hold
      · obtain rfl := List.mem_singleton.1 hnew
        exact ht.queues h k' f (hqueue ▸ List.mem_cons_self ..)
    · simp only [Function.update_of_ne hk] at hf
      exact ht.wires h k' f hf

/-- A frame leaves a connection. -/
theorem Traced.eraseWire (ht : Traced net s) (h : H) (k j : Nat) : Traced net
    (s.set h { s h with wires := Function.update (s h).wires k (((s h).wires k).eraseIdx j) }) := by
  refine ht.set List.prefix_rfl (fun e he => .inl he) (ht.queues h) (fun k' f hf => ?_) (ht.channel h)
  by_cases hk : k' = k
  · subst hk
    simp only [Function.update_self] at hf
    exact ht.wires h k' f (List.mem_of_mem_eraseIdx hf)
  · simp only [Function.update_of_ne hk] at hf
    exact ht.wires h k' f hf

theorem Traced.lose (ht : Traced net s) (hs : s.lose h k j = some s') : Traced net s' := by
  rw [Mesh.lose] at hs
  split at hs
  · cases hs
    exact ht.eraseWire h k j
  · cases hs

/-- A reader passes on the message of a frame, from an accepted peer and not its own. -/
theorem mem_passesOn {cfg : ReaderConfig} {peer : PeerConfig} {originId originSeq : UInt64} {c : String × Bytes}
    (hc : c ∈ passesOn cfg peer (messageFrame originId originSeq topic payload)) :
    c = (topic, payload) ∧ Accepts cfg (asBytes peer.presharedKey) ∧ originId ≠ cfg.ourOriginId ∧
      topic ∈ cfg.receiveTopics := by
  have hpassed : Accepts cfg (asBytes peer.presharedKey) ∧
      c ∈ passed cfg (messageFrame originId originSeq topic payload) := by
    rw [passesOn] at hc
    split at hc
    · rename_i hpsk
      refine ⟨hpsk, ?_⟩
      split at hc
      · exact hc
      · rw [Quic.handleInboundFrame_eq] at hc
        exact hc
    · cases hc
  obtain ⟨hpsk, hpassed⟩ := hpassed
  rw [passed_messageFrame] at hpassed
  split at hpassed
  · rename_i hreceives
    exact ⟨List.mem_singleton.1 hpassed, hpsk, hreceives⟩
  · cases hpassed

theorem Traced.deliver (ht : Traced net s) (hs : s.deliver net h k j = some s') : Traced net s' := by
  obtain ⟨peer, frame, m, h', hpeer, hframe, hhost, t, rfl, rfl⟩ := deliver_eq_some hs
  have ht' := ht.eraseWire h k j
  have hgenuine : Genuine net (s.set h { s h with wires := Function.update (s h).wires k (((s h).wires k).eraseIdx j) }) h
      (frame, m) := (ht.wires h k _ (List.mem_of_getElem? hframe)).mono (extends_set List.prefix_rfl)
  refine ht'.set List.prefix_rfl (fun e he => .inl he) (ht'.queues h') (ht'.wires h') (fun c hc => ?_)
  rcases List.mem_append.1 hc with hold | hnew
  · exact ht'.channel h' c hold
  · obtain ⟨sent, hsent, rfl⟩ := List.mem_map.1 hnew
    obtain ⟨topic, htopic, hforward, originSeq, payload, rfl, horiginal, hroute⟩ := hgenuine
    obtain ⟨rfl, hpsk, hother, hreceive⟩ := mem_passesOn hsent
    have hlistener : net.listener peer.endpoint = some h' := by
      rw [Net.peerHost, hpeer] at hhost
      exact hhost
    exact ⟨horiginal, .tail' hroute
      ⟨peer, List.mem_of_getElem? hpeer, hlistener, ⟨topic, htopic, hforward, rfl⟩, hreceive, hpsk, hother⟩⟩

theorem Traced.publish (ht : Traced net s) {ok : Bool} (hs : s.publish h ok = some s') : Traced net s' := by
  rw [Mesh.publish] at hs
  split at hs
  · rename_i topic payload m channel hchannel
    have hrest : ∀ c ∈ channel, Came net s h c.1.1 c.1.2 c.2 := fun c hc =>
      ht.channel h c (hchannel ▸ List.mem_cons_of_mem _ hc)
    split at hs
    · cases hs
      exact ht.set List.prefix_rfl (fun e he => .inl he) (ht.queues h) (ht.wires h) hrest
    · cases hs
      refine ht.set (List.prefix_append ..) (fun e he => ?_) (ht.queues h) (ht.wires h) hrest
      refine (List.mem_append.1 he).imp_right fun hnew m' hm => ?_
      obtain rfl := List.mem_singleton.1 hnew
      obtain rfl : m = m' := Option.some.inj hm
      exact ht.channel h ((topic, payload), m) (hchannel ▸ List.mem_cons_self ..)
  · cases hs

theorem Traced.step {a : Act H} (ht : Traced net s) (hs : s.step net a = some s') : Traced net s' := by
  cases a with
  | acquire h topic => exact ht.producers h (.inl rfl) hs
  | release h topic => exact ht.producers h (.inr (.inl rfl)) hs
  | create h topic => exact ht.producers h (.inr (.inr rfl)) hs
  | produce h topic payload => exact ht.produce hs
  | subscribe h i => exact ht.subscribe hs
  | receive h i p => exact ht.receive hs
  | forward h k => exact ht.forward hs
  | lose h k j => exact ht.lose hs
  | deliver h k j => exact ht.deliver hs
  | publish h ok => exact ht.publish hs

/-- In every run of a mesh, what a bridge publishes for a message of a machine was published there by a local producer,
with the same topic and payload, and has come over connections between bridges that forward and receive the topic,
accept the key that the hello tells, and have different origins. -/
theorem message_provenance (net : Net H) (acts : List (Act H)) (s : Mesh H) (hrun : run (step net) init acts = some s) (h : H)
    (e : Published H) (he : e ∈ (s h).published) (m : MessageId H) (hm : e.source = some m) :
    (s m.1).published[m.2]? = some ⟨e.topic, e.payload, none⟩ ∧ Relation.TransGen (net.Hop e.topic) m.1 h := by
  have htraced : Traced net s := run_invariant (Traced net) (fun s a s' ht hs => ht.step hs) traced_init hrun
  exact htraced.published h e he m hm

/-- The second of three machines publishes what it has from the first. -/
theorem message_provenance_oneMessage : ∃ s, run (step threeMachines) init oneMessage = some s ∧
    (s 0).published[0]? = some ⟨"t", [7], none⟩ ∧ Relation.TransGen (threeMachines.Hop "t") 0 1 := by
  obtain ⟨s, hrun, hs⟩ := Option.map_eq_some_iff.1 (show (run (step threeMachines) init oneMessage).map
    (fun s => (s 1).published.map fun e => (e.topic, e.payload, e.source)) = some [("t", [7], some (0, 0))] by
      decide +kernel)
  obtain ⟨e, hpublished, he⟩ := List.map_eq_singleton_iff.1 hs
  obtain ⟨htopic, hpayload, hsource⟩ : e.topic = "t" ∧ e.payload = [7] ∧ e.source = some (0, 0) := by
    simpa only [Prod.mk.injEq] using he
  have hmem : e ∈ (s 1).published := hpublished ▸ List.mem_singleton_self e
  have hcame := message_provenance threeMachines oneMessage s hrun 1 e hmem (0, 0) hsource
  rw [htopic, hpayload] at hcame
  exact ⟨s, hrun, hcame⟩

end Mesh

end Mmbus.Bridge
