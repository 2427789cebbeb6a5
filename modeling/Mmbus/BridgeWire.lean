import Mmbus.Ring
import Mmbus.BridgeMesh
import Mmbus.Lib.StringBytes

/-!
# What the bridge writes, read by the peer

The hello with the key of the peer, and the frames of the local messages, at the readers of the other side.  Neither is
limited where it is built: the length of the key travels in two bytes, and the decoder refuses what is longer than
`MAX_FRAME_LEN`.

A hello tells the key exactly when the key is shorter than `2 ^ 16` bytes (`hello_exact_iff`), and a message arrives
exactly when its frame is not longer than the decoder allows (`message_decodable_iff`).
-/

namespace Mmbus.Bridge

open ByteMemory Framing

namespace Frame

/-- `Frame::msg` -/
def ofMessage (originId originSeq : UInt64) (topic payload : Bytes) : Frame := ⟨.msg, originId, originSeq, topic, payload⟩

/-- `peer_hello_with_psk`.  Of the length the two low bytes are written, as `psk.len() as u16` does. -/
def peerHelloWithPsk (originId : UInt64) (psk : Bytes) : Frame where
  frameType := .peerHello
  originId := originId
  originSeq := 0
  topic := []
  payload := leBytes 8 originId.toNat ++ leBytes 2 psk.length ++ psk

end Frame

/-! ### The hello -/

variable {originId originId' : UInt64} {psk psk' : Bytes} {cfg : ReaderConfig} {rd : Reader} {chunks : List Bytes}
  {frame : Frame}

theorem asBytes_injective : Function.Injective asBytes := StringBytes.toUTF8_injective

/-- The parser takes as many bytes as the low bytes of the length say. -/
theorem parsePeerHello_hello (originId : UInt64) (psk : Bytes) :
    parsePeerHello (Frame.peerHelloWithPsk originId psk).payload =
      .ok ⟨originId.toNat, psk.take (psk.length % 2 ^ 16)⟩ := by
  have hlen : (Frame.peerHelloWithPsk originId psk).payload.length = 10 + psk.length := by
    simp only [Frame.peerHelloWithPsk, List.length_append, length_leBytes]
  have hid : slice (Frame.peerHelloWithPsk originId psk).payload 0 8 = leBytes 8 originId.toNat := by
    simp only [Frame.peerHelloWithPsk, List.append_assoc]
    exact slice_start (by simp)
  have hpskLen : slice (Frame.peerHelloWithPsk originId psk).payload 8 2 = leBytes 2 psk.length :=
    slice_mid (by simp) (by simp)
  have hpsk (n : Nat) : slice (Frame.peerHelloWithPsk originId psk).payload 10 n = psk.take n := by
    have hdrop : (Frame.peerHelloWithPsk originId psk).payload.drop 10 = psk := List.drop_left' (by simp)
    rw [slice, hdrop]
  have hle : psk.length % 256 ^ 2 ≤ psk.length := Nat.mod_le ..
  rw [parsePeerHello, hlen, hid, hpskLen, ofLe_leBytes originId.toNat_lt, ofLe_leBytes_mod, if_neg (by omega)]
  simp only [hpsk]
  rw [if_neg (by omega)]
  rfl

/-- Hellos tell the bridges and the keys apart, of any length. -/
theorem payload_injective (h : (Frame.peerHelloWithPsk originId psk).payload =
    (Frame.peerHelloWithPsk originId' psk').payload) : originId = originId' ∧ psk = psk' := by
  simp only [Frame.peerHelloWithPsk, List.append_assoc] at h
  obtain ⟨hid, hrest⟩ := List.append_inj h (by simp)
  obtain ⟨-, hpsk⟩ := List.append_inj hrest (by simp)
  have hofLe := congrArg ofLe hid
  rw [ofLe_leBytes originId.toNat_lt, ofLe_leBytes originId'.toNat_lt] at hofLe
  exact ⟨UInt64.toNat_inj.1 hofLe, hpsk⟩

private theorem take_mod_eq_iff : psk.take (psk.length % 2 ^ 16) = psk ↔ psk.length < 2 ^ 16 := by
  constructor
  · intro h
    have hlen := congrArg List.length h
    rw [List.length_take] at hlen
    have hlt := Nat.mod_lt psk.length (show 0 < 2 ^ 16 by decide)
    omega
  · intro h
    rw [Nat.mod_eq_of_lt h, List.take_length]

/-! ### A reader and one frame -/

theorem readAll_nil (cfg : ReaderConfig) (rd : Reader) : readAll cfg rd [] = .waiting rd [] := by
  rw [readAll, stable_decoded.drain_eq, decoded_nil]

/-- A frame that the decoder accepts is handled, and the reader goes on with what follows it unless it closes. -/
theorem readAll_encode (h : frame.encodedLen ≤ MAX_FRAME_LEN) (rest : Bytes) :
    readAll cfg rd (frame.encode ++ rest) =
      if (handle cfg rd frame).2 then readAll cfg (handle cfg rd frame).1 rest else .stopped (handle cfg rd frame).1 := by
  have hdrop : (frame.encode ++ rest).drop frame.encodedLen = rest := by rw [← frame.length_encode, List.drop_left]
  rw [readAll, stable_decoded.drain_eq, decoded_frame.2 (Frame.decode_encode_append h rest)]
  simp only [hdrop]
  cases hhandle : handle cfg rd frame with
  | mk rd' go =>
    cases go with
    | true => rfl
    | false => rfl

theorem readAll_encode_state (h : frame.encodedLen ≤ MAX_FRAME_LEN) :
    (readAll cfg rd frame.encode).state = (handle cfg rd frame).1 := by
  have hread : readAll cfg rd (frame.encode ++ []) = _ := readAll_encode h []
  rw [List.append_nil, readAll_nil] at hread
  rw [hread]
  split <;> rfl

/-- A peer is authenticated when the key that the parser finds is accepted. -/
theorem handle_hello_authenticated {hello : PeerHelloParts} (htype : frame.frameType = .peerHello)
    (hparse : parsePeerHello frame.payload = .ok hello) :
    (handle cfg .start frame).1.authenticated = true ↔ hello.psk ∈ cfg.acceptedPsks := by
  by_cases hpsk : hello.psk ∈ cfg.acceptedPsks
  · simp [handle, Reader.start, htype, hparse, hpsk]
  · simp [handle, Reader.start, htype, hparse, hpsk]

/-! ### Keys -/

/-- The hello of the bridge `originId` with a key does what it is for. -/
structure HelloExact (originId : UInt64) (psk : String) : Prop where
  roundTrip : parsePeerHello (Frame.peerHelloWithPsk originId (asBytes psk)).payload =
    .ok ⟨originId.toNat, asBytes psk⟩
  apart : ∀ (originId' : UInt64) (psk' : String), (Frame.peerHelloWithPsk originId (asBytes psk)).payload =
    (Frame.peerHelloWithPsk originId' (asBytes psk')).payload → originId = originId' ∧ psk = psk'
  /-- Both readers of a listening bridge authenticate it if and only if a peer is configured with the key. -/
  authenticates : ∀ listener : BridgeConfig, listener.validate = .ok () → ∀ chunks : List Bytes,
    (∀ chunk ∈ chunks, chunk ≠ []) → chunks.flatten = (Frame.peerHelloWithPsk originId (asBytes psk)).encode →
      Quic.handleConnection listener.reader .start [] chunks = Tcp.readerMain listener.reader .start [] chunks ∧
      ((Tcp.readerMain listener.reader .start [] chunks).authenticated = true ↔
        ∃ peer ∈ listener.peers, peer.presharedKey = psk)

theorem mem_acceptedPsks {listener : BridgeConfig} {psk : String} :
    asBytes psk ∈ listener.reader.acceptedPsks ↔ ∃ peer ∈ listener.peers, peer.presharedKey = psk := by
  simp only [BridgeConfig.reader, readerConfig, List.map_map, List.mem_map, Function.comp_apply]
  constructor
  · rintro ⟨peer, hpeer, hkey⟩
    exact ⟨peer, hpeer, asBytes_injective hkey⟩
  · rintro ⟨peer, hpeer, rfl⟩
    exact ⟨peer, hpeer, rfl⟩

/-- A key that fits is told. -/
theorem helloExact_of_lt {psk : String} (h : (asBytes psk).length < 2 ^ 16) (originId : UInt64) :
    HelloExact originId psk := by
  have hparse := parsePeerHello_hello originId (asBytes psk)
  rw [take_mod_eq_iff.2 h] at hparse
  refine ⟨hparse, fun originId' psk' heq => ?_, fun listener _ chunks hchunks hflatten => ⟨Quic.handleConnection_eq, ?_⟩⟩
  · obtain ⟨hid, hpsk⟩ := payload_injective heq
    exact ⟨hid, asBytes_injective hpsk⟩
  · have hlen : (Frame.peerHelloWithPsk originId (asBytes psk)).encodedLen ≤ MAX_FRAME_LEN := by
      simp only [Frame.encodedLen, Frame.peerHelloWithPsk, HEADER_LEN, MAX_FRAME_LEN, List.length_append, length_leBytes,
        List.length_nil]
      omega
    rw [Tcp.readerMain_eq hchunks readAll_start, List.nil_append, hflatten, readAll_encode_state hlen,
      handle_hello_authenticated rfl hparse]
    exact mem_acceptedPsks

/-- The hello with a key does what it is for if and only if the key is shorter than `2 ^ 16` bytes. -/
theorem hello_exact_iff (originId : UInt64) (psk : String) :
    HelloExact originId psk ↔ (asBytes psk).length < 2 ^ 16 := by
  constructor
  · intro h
    have hparse := parsePeerHello_hello originId (asBytes psk)
    rw [h.roundTrip] at hparse
    have htake : asBytes psk = (asBytes psk).take ((asBytes psk).length % 2 ^ 16) :=
      congrArg PeerHelloParts.psk (Except.ok.inj hparse)
    exact take_mod_eq_iff.1 htake.symm
  · intro h
    exact helloExact_of_lt h originId

/-- A configuration with one peer, and the key that is shared with it -/
def sharing (psk : String) : BridgeConfig where
  bus := "demo"
  originId := 7
  topics := []
  peers := [{ name := "peer", presharedKey := psk, endpoint := "10.0.0.2:4443" }]

/-- The validation looks at the endpoint, not at the key. -/
theorem validate_sharing (psk : String) : (sharing psk).validate = .ok () := by
  have hbus : isWhitespace 'd' = false := by decide
  simp [BridgeConfig.validate, sharing, PeerConfig.validate, duplicateName, hbus]

/-- A key of `2 ^ 16` letters, which the validation accepts: the parser finds none of them. -/
theorem hello_not_exact : ∃ psk : String, (sharing psk).validate = .ok () ∧ ¬HelloExact 7 psk ∧
    (parsePeerHello (Frame.peerHelloWithPsk 7 (asBytes psk)).payload).map PeerHelloParts.psk = .ok [] := by
  obtain ⟨psk, hlen⟩ : ∃ psk : String, (asBytes psk).length = 2 ^ 16 := by
    refine ⟨String.ofList (List.replicate (2 ^ 16) 'k'), ?_⟩
    rw [asBytes, StringBytes.length_toUTF8, StringBytes.utf8ByteSize_replicate (by decide)]
  have hparse := parsePeerHello_hello 7 (asBytes psk)
  rw [hlen, Nat.mod_self, List.take_zero] at hparse
  refine ⟨psk, validate_sharing psk, fun h => ?_, by rw [hparse]; rfl⟩
  have hpsk : asBytes psk = [] := congrArg PeerHelloParts.psk (Except.ok.inj (h.roundTrip.symm.trans hparse))
  rw [hpsk] at hlen
  exact absurd hlen (by decide)

/-! ### Messages -/

/-- The frame that `subscriber_main` builds of a local message; `run_connection` writes its bytes as they are. -/
def messageFrame (originId s : UInt64) (topic : String) (payload : Bytes) : Frame :=
  .ofMessage originId s (asBytes topic) payload

/-- A local message arrives at the readers of the peer. -/
structure Arrives (originId s : UInt64) (topic : String) (payload : Bytes) : Prop where
  decoded : decode (messageFrame originId s topic payload).encode =
    .ok (messageFrame originId s topic payload, (messageFrame originId s topic payload).encode.length)
  /-- A reader that waits for a frame handles it, and goes on with what follows it. -/
  handled : ∀ (cfg : ReaderConfig) (rd : Reader) (rest : Bytes) (chunks : List Bytes), rd.authenticated = true →
    (∀ chunk ∈ chunks, chunk ≠ []) → chunks.flatten = (messageFrame originId s topic payload).encode ++ rest →
      Quic.handleConnection cfg rd [] chunks = Tcp.readerMain cfg rd [] chunks ∧
      Tcp.readerMain cfg rd [] chunks = (readAll cfg { Tcp.handleFrame cfg (messageFrame originId s topic payload) rd with
        frames := rd.frames + 1 } rest).state
  /-- A topic that the peer receives is passed on. -/
  passed : ∀ (cfg : ReaderConfig) (rd : Reader), originId ≠ cfg.ourOriginId → topic ∈ cfg.receiveTopics →
    Tcp.handleFrame cfg (messageFrame originId s topic payload) rd = { rd with sent := rd.sent ++ [(topic, payload)] }

variable {s : UInt64} {topic : String} {payload : Bytes}

theorem fromUtf8_asBytes (topic : String) : fromUtf8 (asBytes topic) = some topic := by
  have hbytes : (⟨(asBytes topic).toArray⟩ : ByteArray) = topic.toByteArray := by
    rw [asBytes, StringBytes.toList_eq]
    rfl
  rw [fromUtf8, hbytes, String.fromUTF8?, dif_pos topic.isValidUTF8]
  rfl

theorem arrives_of_le (h : (messageFrame originId s topic payload).encodedLen ≤ MAX_FRAME_LEN) :
    Arrives originId s topic payload where
  decoded := by
    have hdecode := Frame.decode_encode_append h []
    rw [List.append_nil] at hdecode
    rw [hdecode, Frame.length_encode]
  handled cfg rd rest chunks hauth hchunks hflatten := by
    have hhandle : handle cfg rd (messageFrame originId s topic payload) =
        ({ Tcp.handleFrame cfg (messageFrame originId s topic payload) rd with frames := rd.frames + 1 }, true) := by
      rw [handle, if_pos hauth]
    refine ⟨Quic.handleConnection_eq, ?_⟩
    rw [Tcp.readerMain_eq hchunks (readAll_nil cfg rd), List.nil_append, hflatten, readAll_encode h, hhandle]
    rfl
  passed cfg rd horigin htopic := by
    simp [Tcp.handleFrame, messageFrame, Frame.ofMessage, horigin, fromUtf8_asBytes, htopic]

/-- A local message arrives if and only if its topic and payload leave room for the header in the longest frame. -/
theorem message_decodable_iff (originId s : UInt64) (topic : String) (payload : Bytes) :
    Arrives originId s topic payload ↔ 32 + (asBytes topic).length + payload.length ≤ 16 * 1024 * 1024 := by
  have hlen : (messageFrame originId s topic payload).encodedLen = 32 + (asBytes topic).length + payload.length := by
    simp only [Frame.encodedLen, messageFrame, Frame.ofMessage, HEADER_LEN]
    omega
  constructor
  · intro h
    obtain ⟨-, -, hmax⟩ := decode_ok h.decoded
    rwa [Frame.length_encode, hlen] at hmax
  · intro h
    exact arrives_of_le (hlen.trans_le h)

/-- The decoder refuses a longer frame, unless the lengths do not even fit in their fields. -/
theorem decode_too_large (htopic : frame.topic.length < 2 ^ 32) (hpayload : frame.payload.length < 2 ^ 32)
    (h : MAX_FRAME_LEN < frame.encodedLen) : ∃ n, decode frame.encode = .error (.tooLarge n) := by
  have hHeader : HEADER_LEN = 24 := rfl
  have hlen : frame.encode.length = HEADER_LEN + 4 + frame.topic.length + 4 + frame.payload.length := frame.length_encode
  obtain ⟨hversion, htype, hid, hseq, htopicLen⟩ := frame.slice_header
  have hhead {a n : Nat} (han : a + n ≤ HEADER_LEN + 4) : slice frame.encode a n = slice frame.header a n := by
    have hinitial : frame.header <+: frame.encode := by
      simp only [Frame.encode, List.append_assoc]
      exact List.prefix_append ..
    exact (slice_of_initial hinitial (by rw [Frame.length_header]; omega)).symm
  have hpayloadLen : slice frame.encode (HEADER_LEN + 4 + frame.topic.length) 4 = leBytes 4 frame.payload.length := by
    rw [Frame.encode]
    exact slice_mid (by simp) (by simp)
  have htypeLt : frame.frameType.toU32 < 256 ^ 4 := by cases frame.frameType <;> decide
  have htopicField : ofLe (leBytes 4 frame.topic.length) = frame.topic.length := ofLe_leBytes htopic
  have hpayloadField : ofLe (leBytes 4 frame.payload.length) = frame.payload.length := ofLe_leBytes hpayload
  unfold decode
  rw [if_neg (by omega), hhead (by omega), hhead (by omega), hhead (by omega), hhead (by omega), hhead (by omega), hversion,
    htype, hid, hseq, htopicLen]
  simp only [ofLe_leBytes (show FRAME_VERSION < 256 ^ 4 by decide), ofLe_leBytes htypeLt, htopicField,
    Frame.fromU32_toU32, ne_eq, not_true_eq_false, if_false]
  by_cases htopicMax : MAX_FRAME_LEN < frame.topic.length
  · exact ⟨_, if_pos htopicMax⟩
  · rw [if_neg htopicMax, if_neg (by omega), hpayloadLen, hpayloadField]
    by_cases hpayloadMax : MAX_FRAME_LEN < frame.payload.length
    · exact ⟨_, if_pos hpayloadMax⟩
    · exact ⟨_, by rw [if_neg hpayloadMax]; exact if_pos h⟩

/-- A message of 16 MiB, which the slot of a ring has room for: the reader closes the connection. -/
theorem message_refused : ∃ payload : Bytes, payload.length = (RingBuffer.create 64 0x1000000 16).slotSize ∧
    ¬Arrives 7 0 "t" payload ∧ ∃ n, ∀ cfg : ReaderConfig,
      (Tcp.readerMain cfg ⟨true, [], 1, none⟩ [] [(messageFrame 7 0 "t" payload).encode]).closed =
        some (.protocol (.tooLarge n)) := by
  obtain ⟨payload, hpayload⟩ : ∃ payload : Bytes, payload.length = 16 * 1024 * 1024 :=
    ⟨List.replicate (16 * 1024 * 1024) 0, List.length_replicate⟩
  have hmax : MAX_FRAME_LEN < (messageFrame 7 0 "t" payload).encodedLen := by
    simp only [Frame.encodedLen, messageFrame, Frame.ofMessage, hpayload, HEADER_LEN, MAX_FRAME_LEN]
    omega
  have htopic : (asBytes "t").length < 2 ^ 32 := by
    rw [asBytes, StringBytes.length_toUTF8]
    decide
  have hpayloadLen : (messageFrame 7 0 "t" payload).payload.length < 2 ^ 32 := by
    simp only [messageFrame, Frame.ofMessage, hpayload]
    decide
  obtain ⟨n, hdecode⟩ := decode_too_large htopic hpayloadLen hmax
  refine ⟨payload, hpayload, fun h => ?_, n, fun cfg => ?_⟩
  · have hdecoded := h.decoded
    rw [hdecode] at hdecoded
    cases hdecoded
  · have hne : (messageFrame 7 0 "t" payload).encode ≠ [] := by
      intro hnil
      have hlen := (messageFrame 7 0 "t" payload).length_encode
      rw [hnil, List.length_nil] at hlen
      omega
    rw [Tcp.readerMain_eq (by simpa using hne) (readAll_nil cfg _), List.nil_append, List.flatten_singleton, readAll,
      stable_decoded.drain_eq, decoded, hdecode]
    rfl

end Mmbus.Bridge
