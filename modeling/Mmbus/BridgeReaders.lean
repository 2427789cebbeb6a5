import Mmbus.BridgeFrame
import Mmbus.Lib.Transition

/-!
# The readers of the bridge

The TCP reader (`reader_main`) and the QUIC reader (`handle_connection`), each with its handler of frames.  Both wait
for a `PeerHello` with a key of one of the configured peers and then pass on the messages of the receive topics.

They are the same state machine (`readers_agree`): what they pass on depends on the bytes of the stream only, and both
stop at the same frame.  Whatever the peer sends, what is left in the buffer between two reads is less than the longest
frame and its lengths (`buffer_bounded`).
-/

namespace Mmbus.Bridge

open ByteMemory Framing

structure PeerHelloParts where
  originId : Nat
  psk : Bytes

def parsePeerHello (payload : Bytes) : Except DecodeError PeerHelloParts :=
  if payload.length < 10 then .error (.shortPeerHello payload.length)
  else
    let originId := ofLe (slice payload 0 8)
    let pskLen := ofLe (slice payload 8 2)
    if payload.length < 10 + pskLen then .error (.shortPeerHello payload.length)
    else .ok ⟨originId, slice payload 10 pskLen⟩

/-- A peer of the configuration -/
structure Peer where
  name : String
  presharedKey : String

/-- The bytes of a string -/
def asBytes (s : String) : Bytes := s.toUTF8.toList

/-- `std::str::from_utf8` -/
def fromUtf8 (bytes : Bytes) : Option String := String.fromUTF8? ⟨bytes.toArray⟩

/-- What a reader is started with -/
structure ReaderConfig where
  ourOriginId : UInt64
  receiveTopics : List String
  acceptedPsks : List Bytes

/-- The keys of all peers are accepted. -/
def readerConfig (ourOriginId : UInt64) (receiveTopics : List String) (peers : List Peer) : ReaderConfig :=
  ⟨ourOriginId, receiveTopics, peers.map fun p => asBytes p.presharedKey⟩

/-- Why a reader has closed the connection -/
inductive Close
  | notHello (frameType : FrameType)
  | malformedHello (e : DecodeError)
  | pskMismatch (originId pskLen : Nat)
  | protocol (e : DecodeError)
  deriving DecidableEq

/-- A reader: whether the peer is authenticated, what has been sent to the publisher, how many frames have been dropped
from the buffer, and why the connection is closed -/
structure Reader where
  authenticated : Bool
  sent : List (String × Bytes)
  frames : Nat
  closed : Option Close

def Reader.start : Reader := ⟨false, [], 0, none⟩

/-! ### TCP -/

namespace Tcp

/-- `handle_frame` -/
def handleFrame (cfg : ReaderConfig) (frame : Frame) (rd : Reader) : Reader :=
  if frame.originId = cfg.ourOriginId then rd
  else
    match frame.frameType with
    | .msg =>
      match fromUtf8 frame.topic with
      | none => rd
      | some topic => if topic ∈ cfg.receiveTopics then { rd with sent := rd.sent ++ [(topic, frame.payload)] } else rd
    | .peerHello => rd
    | .ping => rd
    | .topicSubscribe => rd

/-- The loop of `reader_main` over the complete frames of the buffer, at most `n` of them; it stops with what is left of
the buffer, or with nothing when it closes the connection. -/
def decodeLoop (cfg : ReaderConfig) : (n : Nat) → Reader → Bytes → Reader × Option Bytes
  | 0, rd, buf => (rd, some buf)
  | rounds + 1, rd, buf =>
    match decode buf with
    | .ok (frame, n) =>
      if rd.authenticated = false then
        if frame.frameType ≠ .peerHello then ({ rd with closed := some (.notHello frame.frameType) }, none)
        else
          match parsePeerHello frame.payload with
          | .error e => ({ rd with closed := some (.malformedHello e) }, none)
          | .ok hello =>
            if hello.psk ∉ cfg.acceptedPsks then
              ({ rd with closed := some (.pskMismatch hello.originId hello.psk.length) }, none)
            else decodeLoop cfg rounds { rd with authenticated := true, frames := rd.frames + 1 } (buf.drop n)
      else
        let rd := handleFrame cfg frame rd
        decodeLoop cfg rounds { rd with frames := rd.frames + 1 } (buf.drop n)
    | .error (.incomplete _ _) => (rd, some buf)
    | .error e => ({ rd with closed := some (.protocol e) }, none)

/-- `reader_main` on the chunks that its reads return.  A frame takes a byte at least, so as many rounds as there are
bytes are enough. -/
def readerMain (cfg : ReaderConfig) : Reader → Bytes → List Bytes → Reader
  | rd, _, [] => rd
  | rd, buf, chunk :: chunks =>
    if chunk.length = 0 then rd -- the peer has closed the stream
    else
      match decodeLoop cfg ((buf ++ chunk).length + 1) rd (buf ++ chunk) with
      | (rd, some buf) => readerMain cfg rd buf chunks
      | (rd, none) => rd

end Tcp

/-! ### QUIC -/

namespace Quic

/-- `handle_inbound_frame` -/
def handleInboundFrame (cfg : ReaderConfig) (frame : Frame) (rd : Reader) : Reader :=
  if frame.originId = cfg.ourOriginId then rd
  else if frame.frameType ≠ .msg then rd
  else
    match fromUtf8 frame.topic with
    | none => rd
    | some topic => if topic ∈ cfg.receiveTopics then { rd with sent := rd.sent ++ [(topic, frame.payload)] } else rd

/-- The loop of `handle_connection` over the complete frames of the buffer, likewise -/
def decodeLoop (cfg : ReaderConfig) : (n : Nat) → Reader → Bytes → Reader × Option Bytes
  | 0, rd, buf => (rd, some buf)
  | rounds + 1, rd, buf =>
    match decode buf with
    | .ok (frame, n) =>
      if rd.authenticated = false then
        if frame.frameType ≠ .peerHello then ({ rd with closed := some (.notHello frame.frameType) }, none)
        else
          match parsePeerHello frame.payload with
          | .error e => ({ rd with closed := some (.malformedHello e) }, none)
          | .ok parsed =>
            if parsed.psk ∉ cfg.acceptedPsks then
              ({ rd with closed := some (.pskMismatch parsed.originId parsed.psk.length) }, none)
            else decodeLoop cfg rounds { rd with authenticated := true, frames := rd.frames + 1 } (buf.drop n)
      else
        let rd := handleInboundFrame cfg frame rd
        decodeLoop cfg rounds { rd with frames := rd.frames + 1 } (buf.drop n)
    | .error (.incomplete _ _) => (rd, some buf)
    | .error e => ({ rd with closed := some (.protocol e) }, none)

/-- `handle_connection` on the chunks that its reads return -/
def handleConnection (cfg : ReaderConfig) : Reader → Bytes → List Bytes → Reader
  | rd, _, [] => rd
  | rd, buf, chunk :: chunks =>
    if 0 < chunk.length then
      match decodeLoop cfg ((buf ++ chunk).length + 1) rd (buf ++ chunk) with
      | (rd, some buf) => handleConnection cfg rd buf chunks
      | (rd, none) => rd
    else rd -- the peer has closed the stream

end Quic

/-! ### One machine -/

/-- What a reader does with a frame, and whether it goes on -/
def handle (cfg : ReaderConfig) (rd : Reader) (frame : Frame) : Reader × Bool :=
  if rd.authenticated then ({ Tcp.handleFrame cfg frame rd with frames := rd.frames + 1 }, true)
  else if frame.frameType ≠ .peerHello then ({ rd with closed := some (.notHello frame.frameType) }, false)
  else
    match parsePeerHello frame.payload with
    | .error e => ({ rd with closed := some (.malformedHello e) }, false)
    | .ok hello =>
      if hello.psk ∈ cfg.acceptedPsks then ({ rd with authenticated := true, frames := rd.frames + 1 }, true)
      else ({ rd with closed := some (.pskMismatch hello.originId hello.psk.length) }, false)

/-- The reader on all bytes at once -/
def readAll (cfg : ReaderConfig) (rd : Reader) (bytes : Bytes) : Status UInt8 Reader :=
  drain decoded (fun rd frame _ => handle cfg rd frame) (fun rd e => { rd with closed := some (.protocol e) }) rd bytes

variable {cfg : ReaderConfig} {rd : Reader} {buf : Bytes} {chunks : List Bytes} {frame : Frame} {n : Nat}

theorem Quic.handleInboundFrame_eq : Quic.handleInboundFrame cfg frame rd = Tcp.handleFrame cfg frame rd := by
  unfold Quic.handleInboundFrame Tcp.handleFrame
  cases frame.frameType <;> rfl

theorem Quic.decodeLoop_eq : Quic.decodeLoop cfg n rd buf = Tcp.decodeLoop cfg n rd buf := by
  induction n generalizing rd buf with
  | zero => rfl
  | succ n ih => simp only [Quic.decodeLoop, Tcp.decodeLoop, ih, Quic.handleInboundFrame_eq]

theorem Quic.handleConnection_eq : Quic.handleConnection cfg rd buf chunks = Tcp.readerMain cfg rd buf chunks := by
  induction chunks generalizing rd buf with
  | nil => rfl
  | cons chunk chunks ih =>
    simp only [Quic.handleConnection, Tcp.readerMain, Quic.decodeLoop_eq, ih]
    by_cases h : chunk.length = 0
    · simp [h]
    · simp [h, Nat.pos_of_ne_zero h]

theorem Tcp.handleFrame_frames : (Tcp.handleFrame cfg frame rd).frames = rd.frames := by
  unfold Tcp.handleFrame
  split
  · rfl
  · split
    · split
      · rfl
      · split <;> rfl
    · rfl
    · rfl
    · rfl

/-- What the loop leaves, as the machine sees it -/
def status : Reader × Option Bytes → Status UInt8 Reader
  | (rd, some buf) => .waiting rd buf
  | (rd, none) => .stopped rd

theorem Tcp.decodeLoop_eq : status (Tcp.decodeLoop cfg n rd buf) =
    drainWithin decoded (fun rd frame _ => handle cfg rd frame) (fun rd e => { rd with closed := some (.protocol e) }) n rd
      buf := by
  induction n generalizing rd buf with
  | zero => rfl
  | succ n ih =>
    unfold Tcp.decodeLoop drainWithin
    cases hdecode : decode buf with
    | error e => cases e <;> simp only [decoded, hdecode] <;> rfl
    | ok p =>
      obtain ⟨frame, len⟩ := p
      rw [decoded_frame.2 hdecode]
      cases hauth : rd.authenticated with
      | true =>
        have hhandle : handle cfg rd frame = ({ Tcp.handleFrame cfg frame rd with frames := rd.frames + 1 }, true) := by
          rw [handle, if_pos hauth]
        simp only [hhandle, Bool.true_eq_false, if_false, ih, Tcp.handleFrame_frames]
      | false =>
        by_cases hhello : frame.frameType = .peerHello
        · cases hparse : parsePeerHello frame.payload with
          | error e =>
            have hhandle : handle cfg rd frame = ({ rd with closed := some (.malformedHello e) }, false) := by
              simp [handle, hauth, hhello, hparse]
            simp only [hauth, hhello, hparse, hhandle, ne_eq, not_true_eq_false, if_true, if_false, status]
          | ok hello =>
            by_cases hpsk : hello.psk ∈ cfg.acceptedPsks
            · have hhandle : handle cfg rd frame = ({ rd with authenticated := true, frames := rd.frames + 1 }, true) := by
                simp [handle, hauth, hhello, hparse, hpsk]
              simp only [hhello, hparse, hpsk, hhandle, ne_eq, not_true_eq_false, if_true, if_false, ih]
            · have hhandle : handle cfg rd frame =
                  ({ rd with closed := some (.pskMismatch hello.originId hello.psk.length) }, false) := by
                simp [handle, hauth, hhello, hparse, hpsk]
              simp only [hauth, hhello, hparse, hpsk, hhandle, ne_eq, not_true_eq_false, not_false_eq_true, if_true,
                if_false, status]
        · have hhandle : handle cfg rd frame = ({ rd with closed := some (.notHello frame.frameType) }, false) := by
            simp [handle, hauth, hhello]
          simp only [hauth, hhello, hhandle, ne_eq, not_false_eq_true, if_true, status]

/-- A reader does with the chunks what it does with all bytes at once. -/
theorem Tcp.readerMain_eq (hchunks : ∀ chunk ∈ chunks, chunk ≠ []) (hwait : readAll cfg rd buf = .waiting rd buf) :
    Tcp.readerMain cfg rd buf chunks = (readAll cfg rd (buf ++ chunks.flatten)).state := by
  induction chunks generalizing rd buf with
  | nil =>
    rw [List.flatten_nil, List.append_nil, hwait]
    rfl
  | cons chunk chunks ih =>
    have hne : chunk.length ≠ 0 := by simpa using hchunks chunk (List.mem_cons_self ..)
    have hrest := fun c hc => hchunks c (List.mem_cons_of_mem _ hc)
    have hloop : status (Tcp.decodeLoop cfg ((buf ++ chunk).length + 1) rd (buf ++ chunk)) =
        readAll cfg rd (buf ++ chunk) := Tcp.decodeLoop_eq
    have happend : readAll cfg rd (buf ++ chunk ++ chunks.flatten) = feed decoded _ _ (readAll cfg rd (buf ++ chunk))
        chunks.flatten := stable_decoded.drain_append rd (buf ++ chunk) chunks.flatten
    rw [Tcp.readerMain, if_neg hne, List.flatten_cons, ← List.append_assoc, happend]
    cases hd : Tcp.decodeLoop cfg ((buf ++ chunk).length + 1) rd (buf ++ chunk) with
    | mk rd' left =>
      rw [hd] at hloop
      rw [← hloop]
      cases left with
      | none => rfl
      | some buf' =>
        -- the bytes that are left have no complete frame
        have hleft : readAll cfg rd' buf' = .waiting rd' buf' := stable_decoded.drain_waiting hloop.symm
        exact ih hrest hleft

theorem readAll_start : readAll cfg .start [] = .waiting .start [] := by
  rw [readAll, stable_decoded.drain_eq, decoded_nil]

/-- Before the hello nothing is passed on. -/
theorem handle_start (hgo : (handle cfg .start frame).2 = true) : frame.frameType = .peerHello ∧
    ∃ hello, parsePeerHello frame.payload = .ok hello ∧ hello.psk ∈ cfg.acceptedPsks := by
  simp only [handle, Reader.start, Bool.false_eq_true, if_false] at hgo
  by_cases htype : frame.frameType = .peerHello
  · refine ⟨htype, ?_⟩
    cases hparse : parsePeerHello frame.payload with
    | error e => simp [htype, hparse] at hgo
    | ok hello =>
      by_cases hpsk : hello.psk ∈ cfg.acceptedPsks
      · exact ⟨hello, rfl, hpsk⟩
      · simp [htype, hparse, hpsk] at hgo
  · simp [htype] at hgo

theorem handle_start_sent : (handle cfg .start frame).1.sent = [] := by
  simp only [handle, Reader.start, Bool.false_eq_true, if_false]
  split
  · rfl
  · split
    · rfl
    · split <;> rfl

/-- What is passed on comes after a hello with an accepted key. -/
theorem readAll_sent {bytes : Bytes} (hsent : (readAll cfg .start bytes).state.sent ≠ []) :
    ∃ frame n hello, decode bytes = .ok (frame, n) ∧ frame.frameType = .peerHello ∧
      parsePeerHello frame.payload = .ok hello ∧ hello.psk ∈ cfg.acceptedPsks := by
  rw [readAll, stable_decoded.drain_eq] at hsent
  cases hdecoded : decoded bytes with
  | incomplete =>
    rw [hdecoded] at hsent
    exact absurd rfl hsent
  | error e =>
    rw [hdecoded] at hsent
    exact absurd rfl hsent
  | frame frame n =>
    rw [hdecoded] at hsent
    cases hhandle : handle cfg .start frame with
    | mk rd go =>
      cases go with
      | true =>
        have hgo : (handle cfg .start frame).2 = true := by rw [hhandle]
        obtain ⟨htype, hello, hparse, hpsk⟩ := handle_start hgo
        exact ⟨frame, n, hello, decoded_frame.1 hdecoded, htype, hparse, hpsk⟩
      | false =>
        have hnothing : (handle cfg .start frame).1.sent = [] := handle_start_sent
        rw [hhandle] at hnothing
        simp only [hhandle] at hsent
        exact absurd hnothing hsent

/-- Both readers pass on the same and stop at the same frame for the same reason; the division into chunks does not
matter, and nothing is passed on unless the first frame is a hello with the key of a peer. -/
theorem readers_agree (ourOriginId : UInt64) (receiveTopics : List String) (peers : List Peer) (chunks : List Bytes)
    (hchunks : ∀ chunk ∈ chunks, chunk ≠ []) :
    let cfg := readerConfig ourOriginId receiveTopics peers
    let rd := Tcp.readerMain cfg .start [] chunks
    Quic.handleConnection cfg .start [] chunks = rd ∧
    (∀ chunks' : List Bytes, (∀ chunk ∈ chunks', chunk ≠ []) → chunks'.flatten = chunks.flatten →
      Tcp.readerMain cfg .start [] chunks' = rd ∧ Quic.handleConnection cfg .start [] chunks' = rd) ∧
    (rd.sent ≠ [] → ∃ frame n hello, decode chunks.flatten = .ok (frame, n) ∧ frame.frameType = .peerHello ∧
      parsePeerHello frame.payload = .ok hello ∧ ∃ peer ∈ peers, hello.psk = asBytes peer.presharedKey) := by
  intro cfg rd
  have hrd : rd = (readAll cfg .start chunks.flatten).state := Tcp.readerMain_eq hchunks readAll_start
  refine ⟨Quic.handleConnection_eq, fun chunks' hchunks' hflatten => ?_, fun hsent => ?_⟩
  · have hrd' : Tcp.readerMain cfg .start [] chunks' = rd := by
      rw [Tcp.readerMain_eq hchunks' readAll_start, List.nil_append, hflatten, hrd]
    exact ⟨hrd', Quic.handleConnection_eq.trans hrd'⟩
  · rw [hrd] at hsent
    obtain ⟨frame, n, hello, hdecode, htype, hparse, hpsk⟩ := readAll_sent hsent
    obtain ⟨peer, hpeer, hkey⟩ := List.mem_map.1 hpsk
    exact ⟨frame, n, hello, hdecode, htype, hparse, peer, hpeer, hkey.symm⟩

/-- A hello with the key `k`, and a message on the topic `a` -/
def helloThenMessage : List Bytes :=
  [(⟨.peerHello, 7, 0, [], leBytes 8 7 ++ leBytes 2 1 ++ [0x6B]⟩ : Frame).encode,
    (⟨.msg, 7, 1, [0x61], [1, 2]⟩ : Frame).encode]

theorem readers_agree_hello : (Quic.handleConnection (readerConfig 1 ["a"] [⟨"peer", "k"⟩]) .start []
      helloThenMessage).sent = [("a", [1, 2])] ∧
    Tcp.readerMain (readerConfig 1 ["a"] [⟨"peer", "k"⟩]) .start [] [helloThenMessage.flatten] =
      Tcp.readerMain (readerConfig 1 ["a"] [⟨"peer", "k"⟩]) .start [] helloThenMessage := by
  have hagree := readers_agree 1 ["a"] [⟨"peer", "k"⟩] helloThenMessage (by decide)
  refine ⟨?_, (hagree.2.1 [helloThenMessage.flatten] (by decide) (by simp)).1⟩
  rw [hagree.1]
  decide +kernel

/-! ### The buffer -/

open Transition

/-- One round of `reader_main`: a read and then the loop over the complete frames, up to `Incomplete`; `none` when the
reader returns. -/
def Tcp.readerStep (cfg : ReaderConfig) (s : Reader × Bytes) (chunk : Bytes) : Option (Reader × Bytes) :=
  if chunk.length = 0 then none
  else
    match Tcp.decodeLoop cfg ((s.2 ++ chunk).length + 1) s.1 (s.2 ++ chunk) with
    | (rd, some buf) => some (rd, buf)
    | (_, none) => none

/-- One round of `handle_connection`, likewise -/
def Quic.readerStep (cfg : ReaderConfig) (s : Reader × Bytes) (chunk : Bytes) : Option (Reader × Bytes) :=
  if 0 < chunk.length then
    match Quic.decodeLoop cfg ((s.2 ++ chunk).length + 1) s.1 (s.2 ++ chunk) with
    | (rd, some buf) => some (rd, buf)
    | (_, none) => none
  else none

/-- The complete frames at the beginning of a buffer -/
def completeFrames (buf : Bytes) : Nat := count decoded buf

theorem Quic.readerStep_eq : Quic.readerStep cfg = Tcp.readerStep cfg := by
  funext s chunk
  simp only [Quic.readerStep, Tcp.readerStep, Quic.decodeLoop_eq]
  by_cases h : chunk.length = 0
  · simp [h]
  · simp [h, Nat.pos_of_ne_zero h]

/-- `reader_main` goes on from the state after its rounds. -/
theorem Tcp.readerMain_run {rd' : Reader} {buf' : Bytes} {more : List Bytes}
    (hrun : run (Tcp.readerStep cfg) (rd, buf) chunks = some (rd', buf')) :
    Tcp.readerMain cfg rd buf (chunks ++ more) = Tcp.readerMain cfg rd' buf' more := by
  induction chunks generalizing rd buf with
  | nil =>
    cases hrun
    rfl
  | cons chunk chunks ih =>
    obtain ⟨s₁, hstep, hrest⟩ := run_cons.1 hrun
    rw [Tcp.readerStep] at hstep
    by_cases hlen : chunk.length = 0
    · rw [if_pos hlen] at hstep
      cases hstep
    · rw [if_neg hlen] at hstep
      rw [List.cons_append, Tcp.readerMain, if_neg hlen]
      cases hloop : Tcp.decodeLoop cfg ((buf ++ chunk).length + 1) rd (buf ++ chunk) with
      | mk rd₁ left =>
        rw [hloop] at hstep
        cases left with
        | none => cases hstep
        | some buf₁ =>
          cases hstep
          exact ih hrest

/-- A round ends with a part of a frame. -/
theorem Tcp.readerStep_incomplete {s s' : Reader × Bytes} {chunk : Bytes}
    (hstep : Tcp.readerStep cfg s chunk = some s') : ∃ have_ needed, decode s'.2 = .error (.incomplete have_ needed) := by
  rw [Tcp.readerStep] at hstep
  split at hstep
  · cases hstep
  · cases hloop : Tcp.decodeLoop cfg ((s.2 ++ chunk).length + 1) s.1 (s.2 ++ chunk) with
    | mk rd' left =>
      rw [hloop] at hstep
      cases left with
      | none => cases hstep
      | some buf' =>
        cases hstep
        have hstatus : readAll cfg s.1 (s.2 ++ chunk) = .waiting rd' buf' := by
          rw [readAll, drain, ← Tcp.decodeLoop_eq, hloop]
          rfl
        exact decoded_incomplete.1 (stable_decoded.drain_incomplete hstatus)

theorem status_injective : Function.Injective status := by
  rintro ⟨rd, left⟩ ⟨rd', left'⟩ heq
  cases left <;> cases left' <;> simp_all [status]

theorem handle_frames : (handle cfg rd frame).1.frames ≤ rd.frames + 1 := by
  unfold handle
  split
  · exact le_rfl
  · split
    · exact Nat.le_succ _
    · split
      · exact Nat.le_succ _
      · split
        · exact le_rfl
        · exact Nat.le_succ _

/-- As many rounds as there are complete frames, and the one that ends the loop, are as good as any more. -/
theorem Tcp.decodeLoop_rounds (hn : completeFrames buf < n) :
    Tcp.decodeLoop cfg n rd buf = Tcp.decodeLoop cfg (completeFrames buf + 1) rd buf := by
  apply status_injective
  have hlast : count decoded buf < completeFrames buf + 1 := Nat.lt_succ_self _
  rw [Tcp.decodeLoop_eq, Tcp.decodeLoop_eq, stable_decoded.drainWithin_of_count hn,
    stable_decoded.drainWithin_of_count hlast]

theorem status_state (p : Reader × Option Bytes) : (status p).state = p.1 := by
  obtain ⟨rd, left⟩ := p
  cases left <;> rfl

/-- Only complete frames are dropped from the buffer. -/
theorem Tcp.decodeLoop_frames : (Tcp.decodeLoop cfg n rd buf).1.frames ≤ rd.frames + completeFrames buf := by
  rw [← status_state, Tcp.decodeLoop_eq]
  exact stable_decoded.drainWithin_measure Reader.frames (fun _ _ _ => handle_frames) fun _ _ => rfl

/-- Whenever a reader waits for more, the bytes in its buffer are a part of a frame and fewer than the longest frame and
its lengths have; and the loop over the frames, however many rounds it could make, goes round once for each complete
frame of the buffer at most. -/
theorem buffer_bounded (cfg : ReaderConfig) :
    (∀ (chunks : List Bytes) (rd : Reader) (buf : Bytes), run (Tcp.readerStep cfg) (.start, []) chunks = some (rd, buf) ∨
        run (Quic.readerStep cfg) (.start, []) chunks = some (rd, buf) →
      (∃ have_ needed, decode buf = .error (.incomplete have_ needed)) ∧ buf.length < MAX_FRAME_LEN + MIN_FRAME_LEN) ∧
    ∀ (rd : Reader) (buf : Bytes) (n : Nat),
      (Tcp.decodeLoop cfg n rd buf).1.frames ≤ rd.frames + completeFrames buf ∧
      (Quic.decodeLoop cfg n rd buf).1.frames ≤ rd.frames + completeFrames buf ∧
      (completeFrames buf < n →
        Tcp.decodeLoop cfg n rd buf = Tcp.decodeLoop cfg (completeFrames buf + 1) rd buf ∧
        Quic.decodeLoop cfg n rd buf = Quic.decodeLoop cfg (completeFrames buf + 1) rd buf) := by
  refine ⟨fun chunks rd buf hrun => ?_, fun rd buf n => ?_⟩
  · have hrun : run (Tcp.readerStep cfg) (.start, []) chunks = some (rd, buf) := by
      rcases hrun with hrun | hrun
      · exact hrun
      · rwa [Quic.readerStep_eq] at hrun
    have hinc := run_invariant (fun s : Reader × Bytes => ∃ have_ needed, decode s.2 = .error (.incomplete have_ needed))
      (fun _ _ _ _ hstep => Tcp.readerStep_incomplete hstep) ⟨0, HEADER_LEN + 4, rfl⟩ hrun
    obtain ⟨have_, needed, hdecode⟩ := hinc
    obtain ⟨-, hlt, hle⟩ := decode_incomplete hdecode
    exact ⟨⟨have_, needed, hdecode⟩, lt_of_lt_of_le hlt hle⟩
  · simp only [Quic.decodeLoop_eq]
    exact ⟨Tcp.decodeLoop_frames, Tcp.decodeLoop_frames, fun hn => ⟨Tcp.decodeLoop_rounds hn, Tcp.decodeLoop_rounds hn⟩⟩

deriving instance DecidableEq for Reader

/-- After the hello and a part of a message, the part is left. -/
theorem buffer_bounded_hello : run (Tcp.readerStep (readerConfig 1 ["a"] [⟨"peer", "k"⟩])) (.start, [])
      [helloThenMessage.flatten.take 50] = some (⟨true, [], 1, none⟩, helloThenMessage.flatten.drop 43 |>.take 7) ∧
    (helloThenMessage.flatten.drop 43 |>.take 7).length < MAX_FRAME_LEN + MIN_FRAME_LEN := by
  have hrun : run (Tcp.readerStep (readerConfig 1 ["a"] [⟨"peer", "k"⟩])) (.start, [])
      [helloThenMessage.flatten.take 50] =
        some (⟨true, [], 1, none⟩, helloThenMessage.flatten.drop 43 |>.take 7) := by decide +kernel
  exact ⟨hrun, ((buffer_bounded (readerConfig 1 ["a"] [⟨"peer", "k"⟩])).1 _ _ _ (Or.inl hrun)).2⟩

end Mmbus.Bridge
