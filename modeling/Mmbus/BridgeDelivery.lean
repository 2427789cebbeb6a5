import Mmbus.BridgeSequences

/-!
# From a bridge to the bus of its peer

What a forwarder has written to a connection, as bytes, at the reader on the other side.  A connection begins with a
hello and carries the frames of local messages; it may break anywhere, also inside a frame, and the bytes come in any
chunks.

Of a connection the reader passes on exactly the messages whose frames have arrived (`connection_delivers`): nothing
of a frame that is cut off or too long, and nothing after it.  Over all connections of a run, the peer gets nothing
that was not published, no message twice, and on each connection the messages of a topic in their order
(`delivered_once`).
-/

namespace Mmbus.Bridge

open ByteMemory Framing Transition
open scoped List

/-! ### Frames and their encodings -/

namespace Frame

/-- The decoder accepts the frame. -/
def Fits (f : Frame) : Prop := f.encodedLen ≤ MAX_FRAME_LEN

instance (f : Frame) : Decidable f.Fits := inferInstanceAs (Decidable (_ ≤ _))

/-- Both lengths are written whole in their four bytes. -/
def Measured (f : Frame) : Prop := f.topic.length < 2 ^ 32 ∧ f.payload.length < 2 ^ 32

instance (f : Frame) : Decidable f.Measured := inferInstanceAs (Decidable (_ ∧ _))

/-- The decoder refuses what is too long. -/
theorem encodes : Encodes decoded encode Fits fun f => f.Measured ∧ ¬f.Fits where
  frame {f} hfits rest := by
    rw [length_encode]
    exact decoded_frame.2 (decode_encode_append hfits rest)
  part {f buf} hfits hbuf hne := by
    obtain ⟨needed, hdecode, -⟩ := decode_part hfits hbuf hne
    exact decoded_incomplete.2 ⟨_, _, hdecode⟩
  error {f} h := by
    obtain ⟨⟨htopic, hpayload⟩, hlong⟩ := h
    obtain ⟨n, hdecode⟩ := decode_too_large htopic hpayload (Nat.lt_of_not_le hlong)
    exact ⟨.tooLarge n, by rw [decoded, hdecode]⟩

/-- A part of a frame is no frame. -/
theorem not_frame_of_part {f : Frame} {cut buf : Bytes} (hf : f.Measured) (hcut : cut <+: f.encode) (hne : cut ≠ f.encode)
    (hbuf : buf <+: cut) (g : Frame) (len : Nat) : decoded buf ≠ .frame g len := by
  by_cases hfits : f.Fits
  · have hbuf' : buf ≠ f.encode := by
      rintro rfl
      exact hne (hcut.eq_of_length (Nat.le_antisymm hcut.length_le hbuf.length_le))
    rw [encodes.part hfits (hbuf.trans hcut) hbuf']
    intro h
    cases h
  · have hwhole : buf <+: f.encode ++ [] := by
      rw [List.append_nil]
      exact hbuf.trans hcut
    exact encodes.not_frame stable_decoded ⟨hf, hfits⟩ hwhole g len

end Frame

/-! ### What a reader passes on -/

variable {cfg : ReaderConfig} {rd : Reader} {frame : Frame} {frames : List Frame} {originId s : UInt64} {psk : Bytes}
  {topic : String} {payload : Bytes} {chunks : List Bytes}

/-- What is passed on of a frame -/
def passed (cfg : ReaderConfig) (frame : Frame) : List (String × Bytes) := (Tcp.handleFrame cfg frame .start).sent

theorem handleFrame_eq (cfg : ReaderConfig) (frame : Frame) (rd : Reader) :
    Tcp.handleFrame cfg frame rd = { rd with sent := rd.sent ++ passed cfg frame } := by
  unfold passed Tcp.handleFrame
  by_cases horigin : frame.originId = cfg.ourOriginId
  · rw [if_pos horigin, if_pos horigin]
    simp [Reader.start]
  · rw [if_neg horigin, if_neg horigin]
    cases frame.frameType with
    | msg =>
      simp only
      cases fromUtf8 frame.topic with
      | none => simp [Reader.start]
      | some topic =>
        by_cases htopic : topic ∈ cfg.receiveTopics
        · simp [htopic, Reader.start]
        · simp [htopic, Reader.start]
    | ping | topicSubscribe | peerHello => simp [Reader.start]

/-- A local message is passed on if its topic is received and it is not the reader's own. -/
theorem passed_messageFrame : passed cfg (messageFrame originId s topic payload) =
    if originId ≠ cfg.ourOriginId ∧ topic ∈ cfg.receiveTopics then [(topic, payload)] else [] := by
  by_cases horigin : originId = cfg.ourOriginId
  · simp [passed, Tcp.handleFrame, messageFrame, Frame.ofMessage, horigin, Reader.start]
  · by_cases htopic : topic ∈ cfg.receiveTopics
    · simp [passed, Tcp.handleFrame, messageFrame, Frame.ofMessage, horigin, htopic, fromUtf8_asBytes, Reader.start]
    · simp [passed, Tcp.handleFrame, messageFrame, Frame.ofMessage, horigin, htopic, fromUtf8_asBytes, Reader.start]

/-- A reader that gets the beginning of encoded frames handles those that have arrived. -/
theorem readAll_encodeAll (cfg : ReaderConfig) (rd : Reader) {bytes cut : Bytes} (hframes : ∀ f ∈ frames, f.Measured)
    (hcut : ∀ buf, buf <+: cut → ∀ f len, decoded buf ≠ .frame f len)
    (hbytes : bytes <+: encodeAll Frame.encode frames ++ cut) :
    ∃ n, Arrived Frame.encode Frame.Fits frames bytes n ∧ (readAll cfg rd bytes).state.sent =
      (handleAll (fun rd frame _ => handle cfg rd frame) Frame.encode rd (frames.take n)).1.sent := by
  obtain ⟨n, harrived, hstate⟩ : ∃ n, Arrived Frame.encode Frame.Fits frames bytes n ∧
      ((readAll cfg rd bytes).state =
          (handleAll (fun rd frame _ => handle cfg rd frame) Frame.encode rd (frames.take n)).1 ∨
        ∃ e, (readAll cfg rd bytes).state =
          { (handleAll (fun rd frame _ => handle cfg rd frame) Frame.encode rd (frames.take n)).1 with
            closed := some (.protocol e) }) :=
    Frame.encodes.drain_encodeAll stable_decoded (fun f hf hfits => ⟨hframes f hf, hfits⟩) hcut hbytes rd
  refine ⟨n, harrived, ?_⟩
  rcases hstate with hstate | ⟨e, hstate⟩
  · rw [hstate]
  · rw [hstate]

/-- An authenticated reader goes on after every frame. -/
theorem handleAll_authenticated (hauth : rd.authenticated = true) :
    (handleAll (fun rd frame _ => handle cfg rd frame) Frame.encode rd frames).1.sent =
      rd.sent ++ frames.flatMap (passed cfg) := by
  induction frames generalizing rd with
  | nil => rw [handleAll, List.flatMap_nil, List.append_nil]
  | cons frame frames ih =>
    have hhandle : handle cfg rd frame =
        ({ rd with sent := rd.sent ++ passed cfg frame, frames := rd.frames + 1 }, true) := by
      rw [handle, if_pos hauth, handleFrame_eq]
    rw [handleAll, hhandle]
    refine (ih ?_).trans ?_
    · exact hauth
    · rw [List.flatMap_cons, List.append_assoc]

/-- The first frame that is handled -/
theorem handle_hello (cfg : ReaderConfig) (originId : UInt64) (psk : Bytes) :
    handle cfg .start (Frame.peerHelloWithPsk originId psk) =
      if Accepts cfg psk then ({ Reader.start with authenticated := true, frames := 1 }, true)
      else
        let told := psk.take (psk.length % 2 ^ 16)
        ({ Reader.start with closed := some (.pskMismatch originId.toNat told.length) }, false) := by
  have htype : (Frame.peerHelloWithPsk originId psk).frameType = .peerHello := rfl
  have hnot : Reader.start.authenticated ≠ true := Bool.false_ne_true
  rw [handle, if_neg hnot, if_neg (not_not.2 htype), parsePeerHello_hello]
  rfl

/-- A reader that gets a hello and then messages passes on those that follow a hello with an accepted key. -/
theorem handleAll_hello (cfg : ReaderConfig) (originId : UInt64) (psk : Bytes) (frames : List Frame) (n : Nat) :
    (handleAll (fun rd frame _ => handle cfg rd frame) Frame.encode .start
        ((Frame.peerHelloWithPsk originId psk :: frames).take n)).1.sent =
      if Accepts cfg psk then (frames.take (n - 1)).flatMap (passed cfg) else [] := by
  cases n with
  | zero =>
    rw [List.take_zero, Nat.zero_sub, List.take_zero, List.flatMap_nil, ite_self]
    rfl
  | succ n =>
    rw [List.take_succ_cons, handleAll, handle_hello]
    by_cases haccepts : Accepts cfg psk
    · rw [if_pos haccepts, if_pos haccepts]
      exact handleAll_authenticated rfl
    · rw [if_neg haccepts, if_neg haccepts]
      rfl

/-! ### One connection -/

/-- A message as its frame carries it -/
structure Outgoing where
  originSeq : UInt64
  topic : String
  payload : Bytes
  deriving DecidableEq

def Outgoing.toFrame (originId : UInt64) (m : Outgoing) : Frame := messageFrame originId m.originSeq m.topic m.payload

/-- The message is another bridge's and its topic is received. -/
def receives (cfg : ReaderConfig) (originId : UInt64) (m : Outgoing) : Bool :=
  originId ≠ cfg.ourOriginId ∧ m.topic ∈ cfg.receiveTopics

theorem flatMap_passed (cfg : ReaderConfig) (originId : UInt64) (messages : List Outgoing) :
    (messages.map (Outgoing.toFrame originId)).flatMap (passed cfg) =
      (messages.filter (receives cfg originId)).map fun m => (m.topic, m.payload) := by
  induction messages with
  | nil => rfl
  | cons m messages ih =>
    rw [List.map_cons, List.flatMap_cons, ih, Outgoing.toFrame, passed_messageFrame]
    by_cases hpass : originId ≠ cfg.ourOriginId ∧ m.topic ∈ cfg.receiveTopics
    · have hreceives : receives cfg originId m = true := decide_eq_true hpass
      rw [if_pos hpass, List.filter_cons_of_pos hreceives, List.map_cons, List.singleton_append]
    · have hreceives : receives cfg originId m ≠ true := by rwa [receives, ne_eq, decide_eq_true_iff]
      rw [if_neg hpass, List.filter_cons_of_neg hreceives, List.nil_append]

/-- What has arrived of a connection that carried the hello with the key `psk`, the messages, and perhaps a part of one
more frame -/
structure Carried (originId : UInt64) (psk : Bytes) (messages : List Outgoing) (bytes : Bytes) : Prop where
  keyLength : psk.length + 10 < 2 ^ 32
  lengths : ∀ m ∈ messages, (m.toFrame originId).Measured
  bytes : ∃ (last : Frame) (cut : Bytes), last.Measured ∧ cut <+: last.encode ∧ cut ≠ last.encode ∧
    bytes <+: (Frame.peerHelloWithPsk originId psk).encode ++
      (encodeAll Frame.encode (messages.map (Outgoing.toFrame originId)) ++ cut)

/-- A reader passes on what belongs to the frames that have arrived. -/
theorem Carried.sent {originId : UInt64} {psk : Bytes} {messages : List Outgoing} {bytes : Bytes}
    (h : Carried originId psk messages bytes) (cfg : ReaderConfig) :
    ∃ n, Arrived Frame.encode Frame.Fits (Frame.peerHelloWithPsk originId psk :: messages.map (Outgoing.toFrame originId))
        bytes n ∧
      (readAll cfg .start bytes).state.sent = if Accepts cfg psk then
        ((messages.take (n - 1)).map (Outgoing.toFrame originId)).flatMap (passed cfg) else [] := by
  obtain ⟨last, cut, hlast, hcut, hne, hbytes⟩ := h.bytes
  have hmeasured : ∀ f ∈ Frame.peerHelloWithPsk originId psk :: messages.map (Outgoing.toFrame originId), f.Measured := by
    intro f hf
    rcases List.mem_cons.1 hf with rfl | hf
    · refine ⟨(by decide : 0 < 2 ^ 32), ?_⟩
      have hlen := h.keyLength
      simp only [Frame.peerHelloWithPsk, List.length_append, length_leBytes]
      omega
    · obtain ⟨m, hm, rfl⟩ := List.mem_map.1 hf
      exact h.lengths m hm
  have hbytes' : bytes <+: encodeAll Frame.encode
      (Frame.peerHelloWithPsk originId psk :: messages.map (Outgoing.toFrame originId)) ++ cut := by
    rw [encodeAll_cons, List.append_assoc]
    exact hbytes
  obtain ⟨n, harrived, hsent⟩ := readAll_encodeAll cfg .start hmeasured
    (fun buf hbuf => Frame.not_frame_of_part hlast hcut hne hbuf) hbytes'
  refine ⟨n, harrived, ?_⟩
  rw [hsent, handleAll_hello, ← List.map_take]

/-- Of a connection both readers pass on the messages whose frames have arrived, and no others; `n` counts the frames,
the hello among them. -/
theorem connection_delivers (cfg : ReaderConfig) (originId : UInt64) (psk : Bytes) (messages : List Outgoing)
    (chunks : List Bytes) (hchunks : ∀ chunk ∈ chunks, chunk ≠ [])
    (hcarried : Carried originId psk messages chunks.flatten) :
    ∃ n, Arrived Frame.encode Frame.Fits (Frame.peerHelloWithPsk originId psk :: messages.map (Outgoing.toFrame originId))
        chunks.flatten n ∧
      Quic.handleConnection cfg .start [] chunks = Tcp.readerMain cfg .start [] chunks ∧
      (Tcp.readerMain cfg .start [] chunks).sent =
        if Accepts cfg psk then ((messages.take (n - 1)).filter (receives cfg originId)).map fun m => (m.topic, m.payload)
        else [] := by
  obtain ⟨n, harrived, hsent⟩ := hcarried.sent cfg
  refine ⟨n, harrived, Quic.handleConnection_eq, ?_⟩
  rw [Tcp.readerMain_eq hchunks readAll_start, List.nil_append, hsent, flatMap_passed]

/-- A message of one topic, and one of another -/
def twoMessages : List Outgoing := [⟨0, "a", [1, 2]⟩, ⟨0, "b", [3]⟩]

/-- The hello with the key `k`, the two messages, and a part of the first one again, cut inside of the second message -/
def cutChunks : List Bytes :=
  let hello := (Frame.peerHelloWithPsk 7 [0x6B]).encode
  let frames := (twoMessages.map fun m => (m.toFrame 7).encode).flatten
  let cut := ((⟨1, "a", [1, 2]⟩ : Outgoing).toFrame 7).encode.take 30
  [hello ++ frames.take 40, frames.drop 40 ++ cut]

theorem carried_cutChunks : Carried 7 [0x6B] twoMessages cutChunks.flatten where
  keyLength := by decide
  lengths := by decide +kernel
  bytes := ⟨(⟨1, "a", [1, 2]⟩ : Outgoing).toFrame 7, ((⟨1, "a", [1, 2]⟩ : Outgoing).toFrame 7).encode.take 30,
    by decide +kernel, List.take_prefix .., by decide +kernel, by decide +kernel⟩

/-- The message of the other topic is not received, and the part at the end is no message. -/
theorem connection_delivers_cut :
    (Tcp.readerMain (readerConfig 1 ["a"] [⟨"peer", "k"⟩]) .start [] cutChunks).sent = [("a", [1, 2])] := by
  obtain ⟨n, harrived, -, hsent⟩ := connection_delivers (readerConfig 1 ["a"] [⟨"peer", "k"⟩]) 7 [0x6B] twoMessages
    cutChunks (by decide +kernel) carried_cutChunks
  have hle : n ≤ 3 := harrived.le
  have hn : n = 3 := by
    by_contra hne
    have hlt : n = 0 ∨ n = 1 ∨ n = 2 := by omega
    rcases hlt with rfl | rfl | rfl
    · exact absurd (harrived.next _ rfl) (by decide +kernel)
    · exact absurd (harrived.next _ rfl) (by decide +kernel)
    · exact absurd (harrived.next _ rfl) (by decide +kernel)
  rw [hsent, hn]
  decide +kernel

/-! ### All connections of a run -/

/-- The frames before the first hello, and each hello with the frames after it -/
def connections {α : Type} : List (Bytes ⊕ α) → List α × List (Bytes × List α)
  | [] => ([], [])
  | .inl hello :: rest => ([], (hello, (connections rest).1) :: (connections rest).2)
  | .inr frame :: rest => (frame :: (connections rest).1, (connections rest).2)

theorem flatten_connections {α : Type} (stream : List (Bytes ⊕ α)) :
    (connections stream).1 ++ ((connections stream).2.map Prod.snd).flatten = stream.filterMap Sum.getRight? := by
  induction stream with
  | nil => rfl
  | cons x rest ih =>
    cases x with
    | inl hello =>
      rw [connections, List.map_cons, List.flatten_cons, List.nil_append, ih]
      rfl
    | inr frame =>
      rw [connections, List.cons_append, ih]
      rfl

theorem hello_of_connection {α : Type} {stream : List (Bytes ⊕ α)} {c : Bytes × List α}
    (hc : c ∈ (connections stream).2) : .inl c.1 ∈ stream := by
  induction stream with
  | nil => cases hc
  | cons x rest ih =>
    cases x with
    | inl hello =>
      rw [connections] at hc
      rcases List.mem_cons.1 hc with rfl | hc
      · exact List.mem_cons_self ..
      · exact List.mem_cons_of_mem _ (ih hc)
    | inr frame => exact List.mem_cons_of_mem _ (ih hc)

namespace Link

variable {α : Type} {q : Quic} {fwd : Forwarder} {s s' : Link α} {a : Act α}

/-- Every hello on the connections is the peer's. -/
def Greets (fwd : Forwarder) (s : Link α) : Prop := ∀ hello, .inl hello ∈ s.stream → hello = fwd.hello

theorem Greets.of_eq (h : Greets fwd s) (hstream : s'.stream = s.stream) : Greets fwd s' := by
  intro hello hmem
  rw [hstream] at hmem
  exact h hello hmem

theorem Greets.greet (h : Greets fwd s) (ok : Bool) : Greets fwd (s.greet fwd ok) := by
  cases ok with
  | false => exact h.of_eq rfl
  | true =>
    intro hello hmem
    rcases List.mem_append.1 hmem with hold | hnew
    · exact h hello hold
    · exact Sum.inl.inj (List.mem_singleton.1 hnew)

theorem Greets.write (h : Greets fwd s) (frame : α) (ok : Bool) : Greets fwd (s.write frame ok) := by
  cases ok with
  | false => exact h.of_eq rfl
  | true =>
    intro hello hmem
    rcases List.mem_append.1 hmem with hold | hnew
    · exact h hello hold
    · cases List.mem_singleton.1 hnew

theorem stream_connected (ok : Bool) : (s.connected ok).stream = s.stream := by
  cases ok with
  | false => rfl
  | true => rfl

theorem stream_sleep (left : Nat) : (s.sleep left).stream = s.stream := by
  rw [sleep]
  split <;> rfl

theorem Greets.tcpMain (h : Greets fwd s) (ok : Bool) : Greets fwd (s.tcpMain fwd ok) := by
  rw [Link.tcpMain]
  cases s.main with
  | greeting => exact h.greet ok
  | writing frame => exact h.write frame ok
  | dialing addr => exact h.of_eq (stream_connected ok)
  | sleeping left => exact h.of_eq (stream_sleep left)
  | top =>
    simp only
    split
    · exact h.of_eq rfl
    · split <;> exact h.of_eq rfl
  | receiving =>
    simp only
    split <;> exact h.of_eq rfl
  | binding addr | serving | polled | returned | panicked => exact h.of_eq rfl

theorem Greets.quicMain (h : Greets fwd s) (ok : Bool) : Greets fwd (s.quicMain q fwd ok) := by
  rw [Link.quicMain]
  cases s.main with
  | greeting => exact h.greet ok
  | writing frame => exact h.write frame ok
  | dialing addr => exact h.of_eq (stream_connected ok)
  | sleeping left => exact h.of_eq (stream_sleep left)
  | top =>
    simp only
    split
    · exact h.of_eq rfl
    split
    · exact h.of_eq rfl
    · split <;> exact h.of_eq rfl
  | receiving =>
    simp only
    split <;> exact h.of_eq rfl
  | binding addr =>
    simp only
    split <;> exact h.of_eq rfl
  | serving | polled | returned | panicked => exact h.of_eq rfl

theorem stream_quicDrain (buffer : Nat) : (s.quicDrain buffer).stream = s.stream := by
  rw [quicDrain]
  cases s.drain with
  | receiving =>
    simp only
    split <;> rfl
  | sending frame =>
    simp only
    split
    · rfl
    · split <;> rfl
  | top | polled | returned => rfl

theorem Greets.step (h : Greets fwd s) (hs : step q fwd s a = some s') : Greets fwd s' := by
  cases a with
  | send frame =>
    cases hs
    exact h.of_eq rfl
  | requestShutdown =>
    cases hs
    exact h.of_eq rfl
  | main ok =>
    cases hs
    rw [main']
    cases fwd.transport with
    | tcp => exact h.tcpMain ok
    | quic fp buffer => exact h.quicMain ok
  | drain =>
    rw [Link.step] at hs
    cases htransport : fwd.transport with
    | tcp =>
      rw [htransport] at hs
      cases hs
    | quic fp buffer =>
      rw [htransport] at hs
      cases hs
      exact h.of_eq (stream_quicDrain buffer)

end Link

namespace Traffic

variable {q : Quic} {bridge : StartedBridge} {s s' : Traffic} {i k p : Nat} {a : Act} {item : Item}
  {published : List (String × Bytes)}

/-- The frame is made of what has been published at its place. -/
def Carries (bridge : StartedBridge) (published : List (String × Bytes)) (item : Item) : Prop :=
  ∃ topic payload, published[item.message]? = some (topic, payload) ∧ topic ∈ bridge.subscribers ∧
    item.frame = messageFrame bridge.originId item.frame.originSeq topic payload

theorem Carries.publish (h : Carries bridge published item) (message : String × Bytes) :
    Carries bridge (published ++ [message]) item := by
  obtain ⟨topic, payload, hpublished, hrest⟩ := h
  refine ⟨topic, payload, ?_, hrest⟩
  rw [List.getElem?_append_left (List.getElem?_eq_some_iff.1 hpublished).1]
  exact hpublished

/-- What goes to a peer is the bridge's hello and what has been published. -/
structure Faithful (bridge : StartedBridge) (s : Traffic) : Prop where
  sent : ∀ k, ∀ item ∈ s.sent k, Carries bridge s.published item
  sending : ∀ i item k, (s.subscribers i).sending = some (item, k) → Carries bridge s.published item
  greets : ∀ k fwd, bridge.forwarders[k]? = some fwd → (s.links k).Greets fwd

theorem faithful_init (bridge : StartedBridge) : Faithful bridge {} where
  sent := by
    intro k item hitem
    cases hitem
  sending := by
    intro i item k h
    cases h
  greets := by
    intro k fwd _ hello hmem
    cases hmem

/-- A thread goes on; what it sends, if it sends, carries a message. -/
theorem Faithful.setSubscriber (h : Faithful bridge s) {sub : Subscriber}
    (hsending : ∀ item k, sub.sending = some (item, k) → Carries bridge s.published item) :
    Faithful bridge (s.setSubscriber i sub) where
  sent := h.sent
  sending := by
    intro j item k hsend
    by_cases hij : j = i
    · subst hij
      rw [subscribers_set_self] at hsend
      exact hsending item k hsend
    · rw [subscribers_set_of_ne s hij] at hsend
      exact h.sending j item k hsend
  greets := h.greets

theorem Faithful.publish (h : Faithful bridge s) (message : String × Bytes) :
    Faithful bridge { s with published := s.published ++ [message] } where
  sent k item hitem := (h.sent k item hitem).publish message
  sending i item k hsend := (h.sending i item k hsend).publish message
  greets := h.greets

theorem Faithful.subscribe (h : Faithful bridge s) (hs : s.subscribe bridge i = some s') : Faithful bridge s' := by
  rw [Traffic.subscribe] at hs
  split at hs
  · cases hs
    exact h.setSubscriber fun item k hsend => h.sending i item k hsend
  · cases hs

theorem Faithful.receive (h : Faithful bridge s) (hs : s.receive bridge i p = some s') : Faithful bridge s' := by
  rw [Traffic.receive] at hs
  split at hs
  · rename_i topic cursor seq name payload htopic hsub hmessage
    split at hs
    · rename_i hcond
      obtain ⟨-, rfl⟩ := hcond
      cases hs
      refine h.setSubscriber fun item k hsend => ?_
      cases hsend
      exact ⟨name, payload, hmessage, List.mem_of_getElem? htopic, rfl⟩
    · cases hs
  · cases hs

/-- One link goes on. -/
theorem Faithful.update_greets (h : Faithful bridge s) {fwd : Forwarder} {link : Link Item}
    (hfwd : bridge.forwarders[k]? = some fwd) (hlink : link.Greets fwd) (k' : Nat) (fwd' : Forwarder)
    (hfwd' : bridge.forwarders[k']? = some fwd') : (Function.update s.links k link k').Greets fwd' := by
  by_cases hk : k' = k
  · subst hk
    rw [hfwd] at hfwd'
    cases hfwd'
    rw [Function.update_self]
    exact hlink
  · rw [Function.update_of_ne hk]
    exact h.greets k' fwd' hfwd'

theorem Faithful.send (h : Faithful bridge s) (hs : s.send q bridge i = some s') : Faithful bridge s' := by
  rw [Traffic.send] at hs
  cases hsending : (s.subscribers i).sending with
  | none =>
    rw [hsending] at hs
    cases hs
  | some pair =>
    obtain ⟨item, k⟩ := pair
    have hcarries : Carries bridge s.published item := h.sending i item k hsending
    rw [hsending] at hs
    cases hfwd : bridge.forwarders[k]? with
    | none =>
      simp only [hfwd, Option.some.injEq] at hs
      subst hs
      exact h.setSubscriber fun item k hsend => by cases hsend
    | some fwd =>
      simp only [hfwd, Option.map_eq_some_iff] at hs
      obtain ⟨link, hlink, rfl⟩ := hs
      have hset : Faithful bridge (s.setSubscriber i { s.subscribers i with sending := some (item, k + 1) }) := by
        refine h.setSubscriber fun item' k' hsend => ?_
        cases hsend
        exact hcarries
      refine ⟨fun k' item' hitem' => ?_, hset.sending, h.update_greets hfwd ((h.greets k fwd hfwd).step hlink)⟩
      by_cases hk : k' = k
      · subst hk
        simp only [Function.update_self, List.mem_append, List.mem_singleton] at hitem'
        rcases hitem' with hold | rfl
        · exact h.sent k' item' hold
        · exact hcarries
      · simp only [Function.update_of_ne hk] at hitem'
        exact h.sent k' item' hitem'

theorem Faithful.link {b : Link.Act Item} (h : Faithful bridge s) (hs : s.link q bridge k b = some s') :
    Faithful bridge s' := by
  cases hfwd : bridge.forwarders[k]? with
  | none =>
    simp only [Traffic.link, hfwd] at hs
    cases hs
  | some fwd =>
    cases b with
    | send frame =>
      simp only [Traffic.link, hfwd] at hs
      cases hs
    | requestShutdown | main ok | drain =>
      simp only [Traffic.link, hfwd] at hs
      obtain ⟨link, hlink, rfl⟩ := Option.map_eq_some_iff.1 hs
      exact ⟨h.sent, h.sending, h.update_greets hfwd ((h.greets k fwd hfwd).step hlink)⟩

theorem Faithful.step (h : Faithful bridge s) (hs : step q bridge s a = some s') : Faithful bridge s' := by
  cases a with
  | publish topic payload =>
    cases hs
    exact h.publish (topic, payload)
  | subscribe i => exact h.subscribe hs
  | receive i p => exact h.receive hs
  | send i => exact h.send hs
  | link k b => exact h.link hs

/-! ### What the peer gets -/

/-- The chunks that the reader of a connection has read, of its hello, its frames and perhaps a part of one more -/
def Reads (c : Bytes × List Item) (chunks : List Bytes) : Prop :=
  (∀ chunk ∈ chunks, chunk ≠ []) ∧ ∃ (last : Frame) (cut : Bytes), last.Measured ∧ cut <+: last.encode ∧
    cut ≠ last.encode ∧ chunks.flatten <+: c.1 ++ (encodeAll Frame.encode (c.2.map Item.frame) ++ cut)

/-- The message of a frame -/
def outgoing (item : Item) : Outgoing :=
  ⟨item.frame.originSeq, (fromUtf8 item.frame.topic).getD "", item.frame.payload⟩

theorem Carries.eq_outgoing (h : Carries bridge published item) :
    published[item.message]? = some ((outgoing item).topic, (outgoing item).payload) ∧
      (outgoing item).topic ∈ bridge.subscribers ∧ (outgoing item).toFrame bridge.originId = item.frame := by
  obtain ⟨topic, payload, hpublished, hmem, hframe⟩ := h
  have houtgoing : outgoing item = ⟨item.frame.originSeq, topic, payload⟩ := by
    rw [outgoing, hframe, messageFrame, Frame.ofMessage]
    simp only [fromUtf8_asBytes, Option.getD_some]
  rw [houtgoing]
  exact ⟨hpublished, hmem, hframe.symm⟩

/-- The messages at some places, in the order in which a reader has passed them on -/
structure Passes (bridge : StartedBridge) (psk : Bytes) (listener : ReaderConfig) (published : List (String × Bytes))
    (chunks : List Bytes) (items : List Item) : Prop where
  quic : Quic.handleConnection listener .start [] chunks = Tcp.readerMain listener .start [] chunks
  sent : (Tcp.readerMain listener .start [] chunks).sent.map some = items.map fun item => published[item.message]?
  accepted : ∀ item ∈ items, Accepts listener psk ∧ bridge.originId ≠ listener.ourOriginId
  topics : ∀ item ∈ items, (outgoing item).topic ∈ listener.receiveTopics

/-- Of one connection the reader passes on some of the frames. -/
theorem Reads.passes {c : Bytes × List Item} {chunks : List Bytes} (h : Reads c chunks) {psk : Bytes}
    (hpsk : psk.length + 10 < 2 ^ 32) (listener : ReaderConfig)
    (hhello : c.1 = (Frame.peerHelloWithPsk bridge.originId psk).encode)
    (hcarries : ∀ item ∈ c.2, Carries bridge published item ∧ item.frame.Measured) :
    ∃ items, items <+ c.2 ∧ Passes bridge psk listener published chunks items := by
  obtain ⟨hchunks, last, cut, hlast, hcut, hne, hbytes⟩ := h
  have hframes : (c.2.map outgoing).map (Outgoing.toFrame bridge.originId) = c.2.map Item.frame := by
    rw [List.map_map]
    refine List.map_congr_left fun item hitem => ?_
    exact (hcarries item hitem).1.eq_outgoing.2.2
  have hcarried : Carried bridge.originId psk (c.2.map outgoing) chunks.flatten := by
    refine ⟨hpsk, fun m hm => ?_, last, cut, hlast, hcut, hne, ?_⟩
    · obtain ⟨item, hitem, rfl⟩ := List.mem_map.1 hm
      rw [(hcarries item hitem).1.eq_outgoing.2.2]
      exact (hcarries item hitem).2
    · rw [hframes, ← hhello]
      exact hbytes
  obtain ⟨n, -, hread⟩ := hcarried.sent listener
  have hquic : Quic.handleConnection listener .start [] chunks = Tcp.readerMain listener .start [] chunks :=
    Quic.handleConnection_eq
  have hsent : (Tcp.readerMain listener .start [] chunks).sent = (readAll listener .start ([] ++ chunks.flatten)).state.sent :=
    congrArg Reader.sent (Tcp.readerMain_eq hchunks readAll_start)
  rw [List.nil_append, hread, flatMap_passed] at hsent
  by_cases haccepts : Accepts listener psk
  · rw [if_pos haccepts, ← List.map_take, List.filter_map, List.map_map] at hsent
    refine ⟨(c.2.take (n - 1)).filter (receives listener bridge.originId ∘ outgoing),
      List.filter_sublist.trans (List.take_sublist (n - 1) c.2), hquic, ?_, ?_, ?_⟩
    · rw [hsent, List.map_map]
      refine List.map_congr_left fun item hitem => ?_
      exact (hcarries item (List.mem_of_mem_take (List.mem_filter.1 hitem).1)).1.eq_outgoing.1.symm
    · intro item hitem
      have hkeep := (List.mem_filter.1 hitem).2
      exact ⟨haccepts, (of_decide_eq_true hkeep).1⟩
    · intro item hitem
      have hkeep := (List.mem_filter.1 hitem).2
      exact (of_decide_eq_true hkeep).2
  · rw [if_neg haccepts] at hsent
    refine ⟨[], List.nil_sublist _, hquic, ?_, ?_, ?_⟩
    · rw [hsent]
      rfl
    · intro item hitem
      cases hitem
    · intro item hitem
      cases hitem

/-- Of all connections together the readers pass on some of the frames that have been written. -/
theorem passes_all {cs : List (Bytes × List Item)} {reads : List (List Bytes)} (h : List.Forall₂ Reads cs reads) {psk : Bytes}
    (hpsk : psk.length + 10 < 2 ^ 32) (listener : ReaderConfig)
    (hhello : ∀ c ∈ cs, c.1 = (Frame.peerHelloWithPsk bridge.originId psk).encode)
    (hcarries : ∀ c ∈ cs, ∀ item ∈ c.2, Carries bridge published item ∧ item.frame.Measured) :
    ∃ delivered : List (List Item), List.Forall₂ (Passes bridge psk listener published) reads delivered ∧
      delivered.flatten <+ (cs.map Prod.snd).flatten := by
  induction h with
  | nil => exact ⟨[], .nil, List.Sublist.refl _⟩
  | @cons c chunks cs reads hreads _ ih =>
    obtain ⟨items, hitems, hpasses⟩ :=
      hreads.passes hpsk listener (hhello c (List.mem_cons_self ..)) (hcarries c (List.mem_cons_self ..))
    obtain ⟨delivered, hdelivered, hflatten⟩ := ih (fun c hc => hhello c (List.mem_cons_of_mem _ hc))
      (fun c hc => hcarries c (List.mem_cons_of_mem _ hc))
    exact ⟨items :: delivered, .cons hpasses hdelivered, hitems.append hflatten⟩

theorem hello_of_forwarder {cfg : StartConfig} {runtime : Bool} {peer : PeerConfig} {fwd : Forwarder}
    (h : cfg.forwarder q runtime peer = .ok fwd) :
    fwd.hello = (Frame.peerHelloWithPsk cfg.originId (asBytes peer.presharedKey)).encode := by
  rw [StartConfig.forwarder] at h
  obtain ⟨_, -, h⟩ := StartConfig.bind_eq_ok h
  cases htransport : peer.transport with
  | tcp =>
    simp only [htransport] at h
    cases h
    rfl
  | quic =>
    simp only [htransport] at h
    split at h
    · cases h
    split at h
    · cases h
    split at h
    · cases h
    cases hfp : peer.peerCertFingerprint with
    | none =>
      simp only [hfp] at h
      cases h
    | some fp =>
      simp only [hfp] at h
      cases h
      rfl

/-- The forwarders are in the order of the peers. -/
theorem forwarder_of_peer {cfg : StartConfig} {runtime : Bool} {peers : List PeerConfig} {fwds : List Forwarder}
    (h : cfg.forwarders q runtime peers = .ok fwds) {peer : PeerConfig} (hpeer : peers[k]? = some peer) :
    ∃ fwd, fwds[k]? = some fwd ∧ cfg.forwarder q runtime peer = .ok fwd := by
  induction peers generalizing fwds k with
  | nil => cases hpeer
  | cons first peers ih =>
    rw [StartConfig.forwarders] at h
    obtain ⟨fwd, hfwd, h⟩ := StartConfig.bind_eq_ok h
    obtain ⟨rest, hrest, h⟩ := StartConfig.bind_eq_ok h
    cases h
    cases k with
    | zero =>
      cases hpeer
      exact ⟨fwd, rfl, hfwd⟩
    | succ k =>
      rw [List.getElem?_cons_succ] at hpeer
      simp only [List.getElem?_cons_succ]
      exact ih hrest hpeer

/-- The hello that a forwarder writes is the one for its peer. -/
theorem hello_of_start {env : Env} {cfg : StartConfig} (hstart : cfg.start q env = .ok bridge) {peer : PeerConfig}
    (hpeer : cfg.peers[k]? = some peer) : bridge.originId = cfg.originId ∧ ∃ fwd, bridge.forwarders[k]? = some fwd ∧
      fwd.hello = (Frame.peerHelloWithPsk cfg.originId (asBytes peer.presharedKey)).encode := by
  obtain ⟨runtime, identity, fwds, -, -, hfwds, -, rfl⟩ := StartConfig.start_eq_ok hstart
  obtain ⟨fwd, hfwd, hforwarder⟩ := forwarder_of_peer hfwds hpeer
  exact ⟨rfl, fwd, hfwd, hello_of_forwarder hforwarder⟩

theorem Carries.measured (h : Carries bridge published item)
    (hpublished : ∀ message ∈ published, (asBytes message.1).length < 2 ^ 32 ∧ message.2.length < 2 ^ 32) :
    item.frame.Measured := by
  obtain ⟨topic, payload, hmessage, -, hframe⟩ := h
  rw [hframe]
  exact hpublished _ (List.mem_of_getElem? hmessage)

/-- The topic of what is published at a place -/
def topicAt (s : Traffic) (p : Nat) : Option String := s.published[p]?.map Prod.fst

theorem Faithful.topic_eq (h : Faithful bridge s) {a b : Item} (ha : a ∈ s.sent k) (hb : b ∈ s.sent k)
    (htopics : s.topicAt a.message = s.topicAt b.message) : a.frame.topic = b.frame.topic := by
  obtain ⟨topic, payload, hmessage, -, hframe⟩ := h.sent k a ha
  obtain ⟨topic', payload', hmessage', -, hframe'⟩ := h.sent k b hb
  rw [topicAt, topicAt, hmessage, hmessage'] at htopics
  obtain rfl : topic = topic' := Option.some.inj htopics
  rw [hframe, hframe']
  rfl

/-- What the peer gets over all connections of a run, whatever they lose: its readers pass on messages that were
published on topics that are forwarded and received, each once at most over all connections, and on each connection
those of one topic in the order of their publication. -/
theorem delivered_once (q : Quic) (env : Env) (cfg : StartConfig) (bridge : StartedBridge)
    (hstart : cfg.start q env = .ok bridge) (hnodup : cfg.subscribers.Nodup) (acts : List Act) (s : Traffic)
    (hmeets : Meets (step q bridge) NoWrap {} acts) (hrun : run (step q bridge) {} acts = some s)
    (hpublished : ∀ message ∈ s.published, (asBytes message.1).length < 2 ^ 32 ∧ message.2.length < 2 ^ 32)
    (k : Nat) (peer : PeerConfig) (hpeer : cfg.peers[k]? = some peer)
    (hkey : (asBytes peer.presharedKey).length + 10 < 2 ^ 32) (listener : ReaderConfig) (reads : List (List Bytes))
    (hreads : List.Forall₂ Reads (connections (s.links k).stream).2 reads) :
    ∃ places : List (List Nat), List.Forall₂ (fun chunks ps =>
        Quic.handleConnection listener .start [] chunks = Tcp.readerMain listener .start [] chunks ∧
        (Tcp.readerMain listener .start [] chunks).sent.map some = ps.map (s.published[·]?) ∧
        ps.Pairwise fun a b => s.topicAt a = s.topicAt b → a < b) reads places ∧
      places.flatten.Nodup ∧
      ∀ p ∈ places.flatten, Accepts listener (asBytes peer.presharedKey) ∧ cfg.originId ≠ listener.ourOriginId ∧
        ∃ topic, s.topicAt p = some topic ∧ topic ∈ cfg.subscribers ∧ topic ∈ listener.receiveTopics := by
  obtain ⟨hsubscribers, hlength⟩ := StartConfig.threads_of_start hstart
  obtain ⟨horigin, fwd, hfwd, hhello⟩ := hello_of_start hstart hpeer
  rw [← hsubscribers] at hnodup
  have hinv : Inv bridge s :=
    run_invariant_when (Inv bridge) NoWrap (fun s a s' hI hC hs => hI.step hnodup hC hs) hmeets (inv_init bridge) hrun
  have hfaithful : Faithful bridge s :=
    run_invariant (Faithful bridge) (fun s a s' hI hs => hI.step hs) (faithful_init bridge) hrun
  -- what is on the connections has been sent
  have hsent : ((connections (s.links k).stream).2.map Prod.snd).flatten <+ s.sent k := by
    have hframes : ((connections (s.links k).stream).2.map Prod.snd).flatten <+ (s.links k).frames := by
      rw [Link.frames, ← flatten_connections]
      exact List.sublist_append_right ..
    exact hframes.trans ((Link.frames_sublist_flow _).trans (hinv.flow k))
  have hcarries : ∀ c ∈ (connections (s.links k).stream).2, ∀ item ∈ c.2,
      Carries bridge s.published item ∧ item.frame.Measured := by
    intro c hc item hitem
    have hmem : item ∈ s.sent k := hsent.subset (List.mem_flatten.2 ⟨c.2, List.mem_map_of_mem hc, hitem⟩)
    exact ⟨hfaithful.sent k item hmem, (hfaithful.sent k item hmem).measured hpublished⟩
  have hhellos : ∀ c ∈ (connections (s.links k).stream).2,
      c.1 = (Frame.peerHelloWithPsk bridge.originId (asBytes peer.presharedKey)).encode := by
    intro c hc
    rw [horigin, ← hhello]
    exact hfaithful.greets k fwd hfwd c.1 (hello_of_connection hc)
  obtain ⟨delivered, hpasses, hdelivered⟩ := passes_all hreads hkey listener hhellos hcarries
  have hall : delivered.flatten <+ s.sent k := hdelivered.trans hsent
  refine ⟨delivered.map (List.map Item.message), ?_, ?_, ?_⟩
  · rw [List.forall₂_map_right_iff]
    have hboth : List.Forall₂ (fun items chunks => items <+ s.sent k ∧
        Passes bridge (asBytes peer.presharedKey) listener s.published chunks items) delivered reads :=
      (List.forall₂_and_left delivered reads).2
        ⟨fun items hitems => (List.sublist_flatten_of_mem hitems).trans hall, hpasses.flip⟩
    refine (hboth.imp fun items chunks hitems => ⟨hitems.2.quic, ?_, ?_⟩).flip
    · rw [hitems.2.sent, List.map_map]
      rfl
    · rw [List.pairwise_map]
      refine ((hinv.ordered k).sublist hitems.1).imp_of_mem fun {a b} ha hb hbefore htopics => ?_
      exact (hbefore (hfaithful.topic_eq (hitems.1.subset ha) (hitems.1.subset hb) htopics)).2
  · rw [← List.map_flatten]
    exact (hinv.nodup k).sublist (hall.map Item.message)
  · intro p hp
    rw [← List.map_flatten] at hp
    obtain ⟨item, hitem, rfl⟩ := List.mem_map.1 hp
    obtain ⟨items, hitems, hmem⟩ := List.mem_flatten.1 hitem
    obtain ⟨chunks, -, hpass⟩ := exists_of_mem_right hpasses hitems
    obtain ⟨hmessage, hsubscriber, -⟩ := (hfaithful.sent k item (hall.subset hitem)).eq_outgoing
    obtain ⟨haccepts, hother⟩ := hpass.accepted item hmem
    rw [horigin] at hother
    rw [hsubscribers] at hsubscriber
    refine ⟨haccepts, hother, _, ?_, hsubscriber, hpass.topics item hmem⟩
    rw [topicAt, hmessage]
    rfl

/-- The forwarder connects, a message is published and sent to it, and it writes it. -/
def oneWritten : List Act :=
  [.link 0 (.main true), .link 0 (.main true), .link 0 (.main true), .subscribe 0, .publish "a" [1, 2], .receive 0 0, .send 0,
    .link 0 (.main true), .link 0 (.main true), .link 0 (.main true)]

/-- The bytes that have been written by then, and the beginning of a further frame -/
def oneRead : List Bytes :=
  [(Frame.peerHelloWithPsk 1 (asBytes "secret")).encode ++ (messageFrame 1 0 "a" [1, 2]).encode.take 20,
    (messageFrame 1 0 "a" [1, 2]).encode.drop 20 ++ (messageFrame 1 1 "a" [3]).encode.take 30]

theorem delivered_once_oneWritten : ∃ bridge, (forwarding "a" "b").start sampleQuic {} = .ok bridge ∧
    ∃ s, run (step sampleQuic bridge) {} oneWritten = some s ∧ ∃ places : List (List Nat),
      List.Forall₂ (fun chunks ps => (Tcp.readerMain (readerConfig 2 ["a"] [⟨"machine-a", "secret"⟩]) .start [] chunks).sent.map
        some = ps.map (s.published[·]?)) [oneRead] places ∧ places.flatten.Nodup := by
  obtain ⟨bridge, hstart, s, hrun, hmeets, hpublished, hconnections⟩ :
      ∃ bridge, (forwarding "a" "b").start sampleQuic {} = .ok bridge ∧
        ∃ s, run (step sampleQuic bridge) {} oneWritten = some s ∧
          Meets (step sampleQuic bridge) NoWrap {} oneWritten ∧ s.published = [("a", [1, 2])] ∧
          (connections (s.links 0).stream).2 =
            [((Frame.peerHelloWithPsk 1 (asBytes "secret")).encode, [⟨messageFrame 1 0 "a" [1, 2], 0⟩])] :=
    ⟨_, rfl, _, rfl, by decide +kernel, rfl, rfl⟩
  have hreads : List.Forall₂ Reads (connections (s.links 0).stream).2 [oneRead] := by
    rw [hconnections]
    refine .cons ⟨by decide +kernel, messageFrame 1 1 "a" [3], (messageFrame 1 1 "a" [3]).encode.take 30,
      by decide +kernel, List.take_prefix .., by decide +kernel, by decide +kernel⟩ .nil
  obtain ⟨places, hplaces, hnodup, -⟩ := delivered_once sampleQuic {} (forwarding "a" "b") bridge hstart (by decide) oneWritten s
    hmeets hrun (by rw [hpublished]; decide +kernel) 0 _ rfl (by decide +kernel)
    (readerConfig 2 ["a"] [⟨"machine-a", "secret"⟩]) [oneRead] hreads
  exact ⟨bridge, hstart, s, hrun, places, hplaces.imp fun _ _ h => h.2.1, hnodup⟩

end Traffic

end Mmbus.Bridge
