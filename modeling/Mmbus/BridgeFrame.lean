import Mmbus.Lib.ByteMemory
import Mmbus.Lib.Framing

/-!
# The frames of the bridge

`Frame::encode` and `decode`.  A frame is a header with version, type, origin and sequence number, then topic and payload,
each behind its length.

Encoded frames are decoded again however they are cut into chunks (`frames_decoded`); of a part of a frame the decoder
says how many bytes it waits for.
-/

namespace Mmbus.Bridge

open ByteMemory Framing

abbrev Bytes := List UInt8

def FRAME_VERSION : Nat := 1

def HEADER_LEN : Nat := 4 + 4 + 8 + 8

def MIN_FRAME_LEN : Nat := HEADER_LEN + 4 + 4

def MAX_FRAME_LEN : Nat := 16 * 1024 * 1024

inductive FrameType
  | msg
  | ping
  | topicSubscribe
  | peerHello
  deriving DecidableEq

/-- `self.frame_type as u32` -/
def FrameType.toU32 : FrameType → Nat
  | .msg => 0
  | .ping => 1
  | .topicSubscribe => 2
  | .peerHello => 3

structure Frame where
  frameType : FrameType
  originId : UInt64
  originSeq : UInt64
  topic : Bytes
  payload : Bytes
  deriving DecidableEq

inductive DecodeError
  | incomplete (have_ needed : Nat)
  | unsupportedVersion (version : Nat)
  | unknownFrameType (n : Nat)
  | tooLarge (len : Nat)
  | shortPeerHello (have_ : Nat)
  deriving DecidableEq

def FrameType.fromU32 : Nat → Except DecodeError FrameType
  | 0 => .ok .msg
  | 1 => .ok .ping
  | 2 => .ok .topicSubscribe
  | 3 => .ok .peerHello
  | other => .error (.unknownFrameType other)

namespace Frame

def encodedLen (f : Frame) : Nat := HEADER_LEN + 4 + f.topic.length + 4 + f.payload.length

/-- The header, with the length of the topic behind it -/
def header (f : Frame) : Bytes :=
  leBytes 4 FRAME_VERSION ++ leBytes 4 f.frameType.toU32 ++ leBytes 8 f.originId.toNat ++ leBytes 8 f.originSeq.toNat ++
    leBytes 4 f.topic.length

def encode (f : Frame) : Bytes := f.header ++ f.topic ++ leBytes 4 f.payload.length ++ f.payload

end Frame

/-- `decode`: the frame at the beginning of the bytes, and how many of them it takes -/
def decode (buf : Bytes) : Except DecodeError (Frame × Nat) :=
  if buf.length < HEADER_LEN + 4 then .error (.incomplete buf.length (HEADER_LEN + 4))
  else
    let version := ofLe (slice buf 0 4)
    if version ≠ FRAME_VERSION then .error (.unsupportedVersion version)
    else
      match FrameType.fromU32 (ofLe (slice buf 4 4)) with
      | .error e => .error e
      | .ok frameType =>
        let originId := ofLe (slice buf 8 8)
        let originSeq := ofLe (slice buf 16 8)
        let topicLen := ofLe (slice buf 24 4)
        let afterTopic := HEADER_LEN + 4 + topicLen
        if MAX_FRAME_LEN < topicLen then .error (.tooLarge topicLen)
        else if buf.length < afterTopic + 4 then .error (.incomplete buf.length (afterTopic + 4))
        else
          let payloadLen := ofLe (slice buf afterTopic 4)
          let totalLen := afterTopic + 4 + payloadLen
          if MAX_FRAME_LEN < payloadLen then .error (.tooLarge payloadLen)
          else if MAX_FRAME_LEN < totalLen then .error (.tooLarge totalLen)
          else if buf.length < totalLen then .error (.incomplete buf.length totalLen)
          else .ok (⟨frameType, UInt64.ofNat originId, UInt64.ofNat originSeq, slice buf (HEADER_LEN + 4) topicLen,
            slice buf (afterTopic + 4) payloadLen⟩, totalLen)

/-- What a reader of a stream does with it -/
def decoded (buf : Bytes) : Decoded Frame DecodeError :=
  match decode buf with
  | .ok (f, n) => .frame f n
  | .error (.incomplete _ _) => .incomplete
  | .error e => .error e

variable {f : Frame} {frames : List Frame} {buf rest more : Bytes}

namespace Frame

@[simp] theorem length_header (f : Frame) : f.header.length = HEADER_LEN + 4 := by
  simp [header, HEADER_LEN]

theorem length_encode (f : Frame) : f.encode.length = f.encodedLen := by
  simp only [encode, List.length_append, length_header, length_leBytes, encodedLen]

theorem fromU32_toU32 (t : FrameType) : FrameType.fromU32 t.toU32 = .ok t := by
  cases t <;> rfl

/-- The fields of the header -/
theorem slice_header (f : Frame) : slice f.header 0 4 = leBytes 4 FRAME_VERSION ∧
    slice f.header 4 4 = leBytes 4 f.frameType.toU32 ∧ slice f.header 8 8 = leBytes 8 f.originId.toNat ∧
    slice f.header 16 8 = leBytes 8 f.originSeq.toNat ∧ slice f.header 24 4 = leBytes 4 f.topic.length := by
  refine ⟨?_, ?_, ?_, ?_, ?_⟩
  · simp only [header, List.append_assoc]
    exact slice_start (by simp)
  · simp only [header, List.append_assoc]
    rw [← List.append_assoc]
    exact slice_mid (by simp) (by simp)
  · simp only [header]
    rw [List.append_assoc]
    exact slice_mid (by simp) (by simp)
  · exact slice_mid (by simp) (by simp)
  · exact slice_end (by simp) (by simp)

/-- What the decoder makes of a beginning of an encoded frame and what follows it -/
theorem decode_initial (h : f.encodedLen ≤ MAX_FRAME_LEN) (hbuf : buf <+: f.encode ++ rest) : decode buf =
    if buf.length < HEADER_LEN + 4 then .error (.incomplete buf.length (HEADER_LEN + 4))
    else if buf.length < HEADER_LEN + 4 + f.topic.length + 4 then
      .error (.incomplete buf.length (HEADER_LEN + 4 + f.topic.length + 4))
    else if buf.length < f.encodedLen then .error (.incomplete buf.length f.encodedLen)
    else .ok (f, f.encodedLen) := by
  unfold encodedLen at h
  have hmax : MAX_FRAME_LEN < 256 ^ 4 := by decide
  have hHeader : HEADER_LEN = 24 := rfl
  obtain ⟨hversion, htype, hid, hseq, htopic⟩ := f.slice_header
  -- the parts of the frame in the buffer
  have hhead {a n : Nat} (han : a + n ≤ HEADER_LEN + 4) (hlen : ¬buf.length < HEADER_LEN + 4) :
      slice buf a n = slice f.header a n := by
    have hinitial : f.header <+: f.encode ++ rest := by
      simp only [encode, List.append_assoc]
      exact List.prefix_append ..
    rw [slice_of_initial hbuf (by omega), ← slice_of_initial hinitial (by rw [length_header]; omega)]
  unfold decode
  by_cases h₁ : buf.length < HEADER_LEN + 4
  · rw [if_pos h₁, if_pos h₁]
  · rw [if_neg h₁, if_neg h₁, hhead (by omega) h₁, hhead (by omega) h₁, hhead (by omega) h₁, hhead (by omega) h₁,
      hhead (by omega) h₁, hversion, htype, hid, hseq, htopic]
    have htopicLen : ofLe (leBytes 4 f.topic.length) = f.topic.length := ofLe_leBytes (by omega)
    have htypeLt : f.frameType.toU32 < 256 ^ 4 := by cases f.frameType <;> decide
    simp only [ofLe_leBytes (show FRAME_VERSION < 256 ^ 4 by decide), ofLe_leBytes htypeLt, htopicLen, fromU32_toU32,
      ofLe_leBytes (show f.originId.toNat < 256 ^ 8 from f.originId.toNat_lt),
      ofLe_leBytes (show f.originSeq.toNat < 256 ^ 8 from f.originSeq.toNat_lt), ne_eq, not_true_eq_false, if_false]
    rw [if_neg (by omega)]
    by_cases h₂ : buf.length < HEADER_LEN + 4 + f.topic.length + 4
    · rw [if_pos h₂, if_pos h₂]
    · have hpayloadLen : slice buf (HEADER_LEN + 4 + f.topic.length) 4 = leBytes 4 f.payload.length := by
        rw [slice_of_initial hbuf (by omega), encode, List.append_assoc]
        exact slice_mid (by simp) (by simp)
      rw [if_neg h₂, if_neg h₂, hpayloadLen, ofLe_leBytes (by omega), if_neg (by omega), if_neg (by omega)]
      change (if buf.length < f.encodedLen then _ else _) = _
      by_cases h₃ : buf.length < f.encodedLen
      · rw [if_pos h₃, if_pos h₃]
        rfl
      · have htopicBytes : slice buf (HEADER_LEN + 4) f.topic.length = f.topic := by
          rw [slice_of_initial hbuf (by omega), encode, List.append_assoc, List.append_assoc]
          exact slice_mid (by simp) rfl
        have hpayload : slice buf (HEADER_LEN + 4 + f.topic.length + 4) f.payload.length = f.payload := by
          rw [slice_of_initial hbuf (by rw [encodedLen] at h₃; omega), encode]
          exact slice_mid (by simp [Nat.add_assoc]) rfl
        rw [if_neg h₃, if_neg h₃, htopicBytes, hpayload, UInt64.ofNat_toNat, UInt64.ofNat_toNat]
        rfl

theorem decode_encode_append (h : f.encodedLen ≤ MAX_FRAME_LEN) (rest : Bytes) :
    decode (f.encode ++ rest) = .ok (f, f.encodedLen) := by
  have hlen : (f.encode ++ rest).length = f.encodedLen + rest.length := by rw [List.length_append, length_encode]
  have hle : HEADER_LEN + 4 + f.topic.length + 4 ≤ f.encodedLen := Nat.le_add_right ..
  rw [decode_initial h List.prefix_rfl, if_neg (by omega), if_neg (by omega), if_neg (by omega)]

/-- Of a part of a frame the decoder says that it needs more, but not more than the frame has. -/
theorem decode_part (h : f.encodedLen ≤ MAX_FRAME_LEN) (hbuf : buf <+: f.encode) (hne : buf ≠ f.encode) :
    ∃ needed, decode buf = .error (.incomplete buf.length needed) ∧ buf.length < needed ∧ needed ≤ f.encodedLen := by
  have hlt : buf.length < f.encodedLen := by
    rw [← length_encode]
    refine lt_of_le_of_ne hbuf.length_le fun heq => hne (hbuf.eq_of_length heq)
  have hle : HEADER_LEN + 4 + f.topic.length + 4 ≤ f.encodedLen := Nat.le_add_right ..
  have hinitial : buf <+: f.encode ++ [] := by rwa [List.append_nil]
  rw [decode_initial h hinitial]
  by_cases h₁ : buf.length < HEADER_LEN + 4
  · exact ⟨_, if_pos h₁, h₁, by omega⟩
  · rw [if_neg h₁]
    by_cases h₂ : buf.length < HEADER_LEN + 4 + f.topic.length + 4
    · exact ⟨_, if_pos h₂, h₂, hle⟩
    · exact ⟨_, by rw [if_neg h₂, if_pos hlt], hlt, le_rfl⟩

end Frame

/-! ### Streams of frames -/

private theorem slice_append {a n : Nat} (h : a + n ≤ buf.length) : slice (buf ++ more) a n = slice buf a n :=
  (slice_of_initial (List.prefix_append buf more) h).symm

/-- More bytes change what the decoder has found only if it was waiting for them. -/
theorem decode_append (h : ∀ have_ needed, decode buf ≠ .error (.incomplete have_ needed)) (more : Bytes) :
    decode (buf ++ more) = decode buf := by
  have hlen : (buf ++ more).length = buf.length + more.length := List.length_append
  have hHeader : HEADER_LEN = 24 := rfl
  unfold decode at h ⊢
  by_cases h₁ : buf.length < HEADER_LEN + 4
  · simp [h₁] at h
  · rw [if_neg h₁] at h ⊢
    rw [if_neg (by omega), slice_append (by omega), slice_append (by omega), slice_append (by omega),
      slice_append (by omega), slice_append (by omega)]
    simp only at h ⊢
    by_cases hversion : ofLe (slice buf 0 4) = FRAME_VERSION
    · simp only [hversion, ne_eq, not_true_eq_false, if_false] at h ⊢
      cases htype : FrameType.fromU32 (ofLe (slice buf 4 4)) with
      | error e => rfl
      | ok frameType =>
        simp only [htype] at h ⊢
        by_cases htopic : MAX_FRAME_LEN < ofLe (slice buf 24 4)
        · rw [if_pos htopic, if_pos htopic]
        · rw [if_neg htopic] at h
          rw [if_neg htopic, if_neg htopic]
          by_cases h₂ : buf.length < HEADER_LEN + 4 + ofLe (slice buf 24 4) + 4
          · simp [h₂] at h
          · rw [if_neg h₂] at h
            rw [if_neg (by omega), if_neg h₂, slice_append (by omega)]
            by_cases hpayload : MAX_FRAME_LEN < ofLe (slice buf (HEADER_LEN + 4 + ofLe (slice buf 24 4)) 4)
            · rw [if_pos hpayload, if_pos hpayload]
            · rw [if_neg hpayload] at h
              rw [if_neg hpayload, if_neg hpayload]
              split
              · rfl
              · rename_i htotal
                rw [if_neg htotal] at h
                split at h
                · simp at h
                · rename_i h₃
                  rw [if_neg (by omega), if_neg h₃, slice_append (by omega), slice_append (by omega)]
    · simp only [ne_eq, hversion, not_false_eq_true, if_true]

theorem decode_ok {f : Frame} {n : Nat} (h : decode buf = .ok (f, n)) :
    0 < n ∧ n ≤ buf.length ∧ n ≤ MAX_FRAME_LEN := by
  unfold decode at h
  split at h
  · cases h
  · simp only at h
    split at h
    · cases h
    · split at h
      · cases h
      · split at h
        · cases h
        · split at h
          · cases h
          · split at h
            · cases h
            · split at h
              · cases h
              · split at h
                · cases h
                · rename_i hlen
                  simp only [Except.ok.injEq, Prod.mk.injEq] at h
                  omega

/-- The decoder waits for as many bytes as the longest frame has at most, and its two lengths. -/
theorem decode_incomplete {have_ needed : Nat} (h : decode buf = .error (.incomplete have_ needed)) :
    have_ = buf.length ∧ buf.length < needed ∧ needed ≤ MAX_FRAME_LEN + MIN_FRAME_LEN := by
  have hMin : MIN_FRAME_LEN = HEADER_LEN + 4 + 4 := rfl
  unfold decode at h
  by_cases h₁ : buf.length < HEADER_LEN + 4
  · rw [if_pos h₁] at h
    cases h
    exact ⟨rfl, h₁, by omega⟩
  · rw [if_neg h₁] at h
    simp only at h
    by_cases hversion : ofLe (slice buf 0 4) = FRAME_VERSION
    · simp only [hversion, ne_eq, not_true_eq_false, if_false] at h
      cases htype : FrameType.fromU32 (ofLe (slice buf 4 4)) with
      | error e =>
        simp only [htype, Except.error.injEq] at h
        unfold FrameType.fromU32 at htype
        split at htype <;> cases htype
        cases h
      | ok frameType =>
        simp only [htype] at h
        by_cases htopic : MAX_FRAME_LEN < ofLe (slice buf 24 4)
        · rw [if_pos htopic] at h
          cases h
        · rw [if_neg htopic] at h
          split at h
          · rename_i h₂
            cases h
            exact ⟨rfl, h₂, by omega⟩
          · split at h
            · cases h
            · split at h
              · cases h
              · rename_i htotal
                split at h
                · rename_i h₃
                  cases h
                  exact ⟨rfl, h₃, by omega⟩
                · cases h
    · simp only [ne_eq, hversion, not_false_eq_true, if_true] at h
      cases h

theorem decoded_incomplete : decoded buf = .incomplete ↔
    ∃ have_ needed, decode buf = .error (.incomplete have_ needed) := by
  unfold decoded
  split <;> rename_i heq <;> simp [heq]
  rename_i hne
  intro have_ needed heq'
  exact hne have_ needed heq'

theorem decoded_frame {n : Nat} : decoded buf = .frame f n ↔ decode buf = .ok (f, n) := by
  unfold decoded
  split <;> rename_i heq <;> simp [heq]

theorem stable_decoded : Stable decoded where
  frame {buf f n} h := by
    have hdecode := decoded_frame.1 h
    obtain ⟨hpos, hle, -⟩ := decode_ok hdecode
    refine ⟨hpos, hle, fun more => decoded_frame.2 ?_⟩
    rw [decode_append (by simp [hdecode]), hdecode]
  error {buf e} h more := by
    have hne : ∀ have_ needed, decode buf ≠ .error (.incomplete have_ needed) := by
      intro have_ needed heq
      simp [decoded, heq] at h
    rw [decoded, decode_append hne, ← decoded, h]

theorem decoded_nil : decoded [] = .incomplete := rfl

/-- A reader that decodes every complete frame of its buffer, drops the bytes it takes, and keeps the frame with their
number -/
def readFrames (chunks : List Bytes) : Status UInt8 (List (Frame × Nat)) :=
  feedAll decoded (fun got f n => (got ++ [(f, n)], true)) (fun got _ => got) (.waiting [] []) chunks

theorem drain_frames (h : ∀ f ∈ frames, f.encodedLen ≤ MAX_FRAME_LEN) (got : List (Frame × Nat)) :
    drain decoded (fun got f n => (got ++ [(f, n)], true)) (fun got _ => got) got (frames.flatMap Frame.encode) =
      .waiting (got ++ frames.map fun f => (f, f.encodedLen)) [] := by
  induction frames generalizing got with
  | nil => rw [stable_decoded.drain_eq, List.flatMap_nil, decoded_nil, List.map_nil, List.append_nil]
  | cons f frames ih =>
    have hf := Frame.decode_encode_append (h f (List.mem_cons_self ..)) (frames.flatMap Frame.encode)
    have hrest := ih (fun g hg => h g (List.mem_cons_of_mem _ hg)) (got ++ [(f, f.encodedLen)])
    rw [stable_decoded.drain_eq, List.flatMap_cons, decoded_frame.2 hf]
    simp only
    rw [← f.length_encode, List.drop_left, f.length_encode, hrest, List.map_cons, List.append_assoc]
    rfl

/-- Encoded frames are decoded however they are cut into chunks, each with its length; a part of a frame is incomplete,
and the decoder says how much it needs. -/
theorem frames_decoded (frames : List Frame) (h : ∀ f ∈ frames, f.encodedLen ≤ MAX_FRAME_LEN) :
    (∀ chunks : List Bytes, chunks.flatten = frames.flatMap Frame.encode →
      readFrames chunks = .waiting (frames.map fun f => (f, f.encode.length)) []) ∧
    ∀ f ∈ frames, ∀ part : Bytes, part <+: f.encode → part ≠ f.encode → ∃ needed,
      decode part = .error (.incomplete part.length needed) ∧ part.length < needed ∧ needed ≤ f.encodedLen := by
  refine ⟨fun chunks hchunks => ?_, fun f hf part hpart hne => Frame.decode_part (h f hf) hpart hne⟩
  rw [readFrames, stable_decoded.feedAll_eq_drain decoded_nil, hchunks, drain_frames h, List.nil_append]
  simp only [Frame.length_encode]

/-- A message, byte by byte -/
theorem frames_decoded_byByte : readFrames ((⟨.msg, 7, 1, [0x61], [1, 2]⟩ : Frame).encode.map fun b => [b]) =
    .waiting [(⟨.msg, 7, 1, [0x61], [1, 2]⟩, 35)] [] := by
  have hread := (frames_decoded [⟨.msg, 7, 1, [0x61], [1, 2]⟩] (by decide)).1
    ((⟨.msg, 7, 1, [0x61], [1, 2]⟩ : Frame).encode.map fun b => [b]) (by decide)
  simpa [Frame.length_encode, Frame.encodedLen, HEADER_LEN] using hread

end Mmbus.Bridge
