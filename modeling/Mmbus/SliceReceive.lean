import Mmbus.Seqlock

/-!
# A receive call into the caller's slice

`try_receive_into_slice` as a program that performs one load or store per step.  It is `try_receive` with the
caller's buffer as the target, and with one more way to end: when the length it loads exceeds the buffer, it stores
the new cursor and returns `usize::MAX`, with no second load of `seq`.

Up to that exit the call takes the steps of a `try_receive` (`simulates`), from which it has what `ReceiveInv` says
of the bytes.  The exit is decided by a length that may be the one of a newer message.  So the call
tells the truth in every state of a run in which the exit is taken only where no newer message has been begun in the slot
since the first load of `seq` (`slice_faithful`).
-/

namespace Mmbus

open FlagBit RingBuffer Transition

/-- `usize::MAX` -/
def USIZE_MAX : Nat := 2 ^ 64 - 1

/-- What the next access of a slice receive is.  `buf` is the caller's buffer, and the other fields are those of
`ReceivePc`, with the count of the bytes that have been copied. -/
inductive SlicePc
  | loadTail (cursor : Nat) (buf : Bytes)
  | loadSeq (cursor tail eff fuel : Nat) (buf : Bytes)
  | loadLen (cursor tail eff fuel : Nat) (buf : Bytes)
  | loadByte (cursor tail eff fuel len k : Nat) (buf : Bytes)
  | loadSeqAfter (cursor tail eff fuel len : Nat) (buf : Bytes)
  | storeCursor (cursor tail eff n : Nat) (buf : Bytes)
  | returned (cursor tail : Nat) (result : Option (Nat × Nat)) (buf : Bytes)
  deriving DecidableEq

namespace SlicePc

/-- The next round, if one is left -/
def retry (cursor tail eff : Nat) (buf : Bytes) : Nat → SlicePc
  | 0 => returned cursor tail none buf
  | fuel + 1 => loadSeq cursor tail eff fuel buf

/-- The copy of the payload after `k` bytes -/
def copyAfter (cursor tail eff fuel len k : Nat) (buf : Bytes) : SlicePc :=
  if k < len then loadByte cursor tail eff fuel len k buf else loadSeqAfter cursor tail eff fuel len buf

/-- The slot of `eff` shows a length that a payload can have and that exceeds the buffer. -/
def Exceeds (r : RingBuffer) (eff : Nat) (buf : Bytes) : Prop :=
  (r.slot eff).len ≤ r.slotSize ∧ buf.length < (r.slot eff).len

instance (r : RingBuffer) (eff : Nat) (buf : Bytes) : Decidable (Exceeds r eff buf) :=
  inferInstanceAs (Decidable (_ ∧ _))

/-- One atomic access of the subscriber with the cursor entry `idx` -/
def step (idx : Nat) (r : RingBuffer) : SlicePc → Option (RingBuffer × SlicePc)
  | loadTail cursor buf =>
    some (r, if r.tail ≤ cursor then returned cursor r.tail none buf
      else loadSeq cursor r.tail cursor (MAX_RETRIES - 1) buf)
  | loadSeq cursor tail eff fuel buf =>
    let seq := (r.slot eff).seq
    some (r,
      if hasFlag SEQ_WRITING seq then retry cursor tail eff buf fuel
      else if eff < seq then retry cursor tail seq buf fuel
      else if seq < eff then returned cursor tail none buf
      else loadLen cursor tail eff fuel buf)
  | loadLen cursor tail eff fuel buf =>
    let len := (r.slot eff).len
    some (r,
      if r.slotSize < len then retry cursor tail eff buf fuel
      else if buf.length < len then storeCursor cursor tail eff USIZE_MAX buf
      else copyAfter cursor tail eff fuel len 0 buf)
  | loadByte cursor tail eff fuel len k buf =>
    some (r, copyAfter cursor tail eff fuel len (k + 1) (buf.set k ((r.slot eff).payload k)))
  | loadSeqAfter cursor tail eff fuel len buf =>
    let seq := (r.slot eff).seq
    some (r,
      if seq = eff then storeCursor cursor tail eff len buf
      else if eff < dropFlag SEQ_WRITING seq then retry cursor tail (dropFlag SEQ_WRITING seq) buf fuel
      else retry cursor tail eff buf fuel)
  | storeCursor cursor tail eff n buf =>
    some (r.setCursor idx (eff + 1), returned cursor tail (some (eff + 1, n)) buf)
  | returned .. => none

/-- The result of a call, from the moment on at which only the store of the cursor is left, and the buffer -/
def outcome : SlicePc → Option ((Nat × Nat) × Bytes)
  | storeCursor _ _ eff n buf => some ((eff + 1, n), buf)
  | returned _ _ (some result) buf => some (result, buf)
  | _ => none

/-- The lengths that a call works with fit the slot and the buffer. -/
def Fits (slotSize : Nat) : SlicePc → Prop
  | loadByte _ _ _ _ len k buf => k < len ∧ len ≤ slotSize ∧ len ≤ buf.length
  | loadSeqAfter _ _ _ _ len buf => len ≤ slotSize ∧ len ≤ buf.length
  | storeCursor _ _ _ n buf | returned _ _ (some (_, n)) buf => n ≠ USIZE_MAX → n ≤ buf.length
  | _ => True

/-- The `try_receive` whose steps the call takes.  One that leaves by the exit has given up. -/
def vec : SlicePc → ReceivePc
  | loadTail cursor _ => .loadTail cursor
  | loadSeq cursor tail eff fuel _ => .loadSeq cursor tail eff fuel
  | loadLen cursor tail eff fuel _ => .loadLen cursor tail eff fuel
  | loadByte cursor tail eff fuel len k buf => .loadByte cursor tail eff fuel len (buf.take k)
  | loadSeqAfter cursor tail eff fuel len buf => .loadSeqAfter cursor tail eff fuel (buf.take len)
  | storeCursor cursor tail eff n buf =>
    if n = USIZE_MAX then .returned cursor tail none else .storeCursor cursor tail eff (buf.take n)
  | returned cursor tail none _ => .returned cursor tail none
  | returned cursor tail (some (p, n)) buf =>
    if n = USIZE_MAX then .returned cursor tail none else .returned cursor tail (some (p, buf.take n))

variable {idx : Nat} {r r' : RingBuffer} {pc pc' : SlicePc}

@[simp] theorem vec_retry (cursor tail eff fuel : Nat) (buf : Bytes) :
    (retry cursor tail eff buf fuel).vec = ReceivePc.retry cursor tail eff fuel := by
  cases fuel <;> rfl

@[simp] theorem outcome_retry (cursor tail eff fuel : Nat) (buf : Bytes) :
    (retry cursor tail eff buf fuel).outcome = none := by
  cases fuel <;> rfl

theorem fits_retry (n cursor tail eff fuel : Nat) (buf : Bytes) : (retry cursor tail eff buf fuel).Fits n := by
  cases fuel <;> trivial

@[simp] theorem outcome_copyAfter (cursor tail eff fuel len k : Nat) (buf : Bytes) :
    (copyAfter cursor tail eff fuel len k buf).outcome = none := by
  unfold copyAfter
  split <;> rfl

theorem fits_copyAfter {n cursor tail eff fuel len k : Nat} {buf : Bytes} (hn : len ≤ n) (hbuf : len ≤ buf.length) :
    (copyAfter cursor tail eff fuel len k buf).Fits n := by
  unfold copyAfter
  split
  · rename_i hlt
    exact ⟨hlt, hn, hbuf⟩
  · exact ⟨hn, hbuf⟩

theorem vec_copyAfter {cursor tail eff fuel len k : Nat} {buf : Bytes} (hk : k ≤ len) (hbuf : len ≤ buf.length) :
    (copyAfter cursor tail eff fuel len k buf).vec = ReceivePc.copyAfter cursor tail eff fuel len (buf.take k) := by
  have hlen : (buf.take k).length = k := by
    rw [List.length_take]
    omega
  unfold copyAfter ReceivePc.copyAfter
  rw [hlen]
  split
  · rfl
  · rw [show k = len by omega]
    rfl

/-- A byte stored behind those that have been copied -/
theorem take_set {buf : Bytes} {k : Nat} (h : k < buf.length) (b : UInt8) :
    (buf.set k b).take (k + 1) = buf.take k ++ [b] := by
  rw [List.take_add_one, List.take_set_of_le le_rfl, List.getElem?_set_self h]
  rfl

/-! ### The steps of a `try_receive` -/

/-- The next access takes the exit, or is the store of its cursor. -/
def Exits (r : RingBuffer) : SlicePc → Prop
  | loadLen _ _ eff _ buf => Exceeds r eff buf
  | storeCursor _ _ _ n _ => n = USIZE_MAX
  | _ => False

theorem fits_step (h : pc.Fits r.slotSize) (hs : pc.step idx r = some (r', pc')) : pc'.Fits r'.slotSize := by
  cases pc with
  | returned => simp [step] at hs
  | loadTail cursor buf =>
    simp only [step, Option.some.injEq, Prod.mk.injEq] at hs
    obtain ⟨rfl, rfl⟩ := hs
    split <;> trivial
  | loadSeq cursor tail eff fuel buf =>
    simp only [step, Option.some.injEq, Prod.mk.injEq] at hs
    obtain ⟨rfl, rfl⟩ := hs
    split
    · exact fits_retry ..
    · split
      · exact fits_retry ..
      · split <;> trivial
  | loadLen cursor tail eff fuel buf =>
    simp only [step, Option.some.injEq, Prod.mk.injEq] at hs
    obtain ⟨rfl, rfl⟩ := hs
    split
    · exact fits_retry ..
    · rename_i hle
      split
      · exact fun hne => absurd rfl hne
      · rename_i hbuf
        exact fits_copyAfter (Nat.le_of_not_lt hle) (Nat.le_of_not_lt hbuf)
  | loadByte cursor tail eff fuel len k buf =>
    simp only [step, Option.some.injEq, Prod.mk.injEq] at hs
    obtain ⟨rfl, rfl⟩ := hs
    refine fits_copyAfter h.2.1 ?_
    rw [List.length_set]
    exact h.2.2
  | loadSeqAfter cursor tail eff fuel len buf =>
    simp only [step, Option.some.injEq, Prod.mk.injEq] at hs
    obtain ⟨rfl, rfl⟩ := hs
    split
    · exact fun _ => h.2
    · split
      · exact fits_retry ..
      · exact fits_retry ..
  | storeCursor cursor tail eff n buf =>
    simp only [step, Option.some.injEq, Prod.mk.injEq] at hs
    obtain ⟨rfl, rfl⟩ := hs
    exact h

/-- A count of copied bytes is not the sentinel. -/
theorem ne_USIZE_MAX {n : Nat} (h : n ≤ r.slotSize) : n ≠ USIZE_MAX := by
  have hlt := r.slotSize_lt
  unfold USIZE_MAX
  omega

/-- Away from the exit, every access is one of a `try_receive`. -/
theorem simulates (h : pc.Fits r.slotSize) (hs : pc.step idx r = some (r', pc')) (hexit : ¬pc.Exits r) :
    pc.vec.step idx r = some (r', pc'.vec) := by
  cases pc with
  | returned => simp [step] at hs
  | loadTail cursor buf =>
    simp only [step, Option.some.injEq, Prod.mk.injEq] at hs
    obtain ⟨rfl, rfl⟩ := hs
    simp only [apply_ite SlicePc.vec]
    rfl
  | loadSeq cursor tail eff fuel buf =>
    simp only [step, Option.some.injEq, Prod.mk.injEq] at hs
    obtain ⟨rfl, rfl⟩ := hs
    simp only [apply_ite SlicePc.vec, vec_retry]
    simp only [vec, ReceivePc.step]
  | loadLen cursor tail eff fuel buf =>
    simp only [step, Option.some.injEq, Prod.mk.injEq] at hs
    obtain ⟨rfl, rfl⟩ := hs
    by_cases hle : r.slotSize < (r.slot eff).len
    · rw [if_pos hle, vec_retry]
      simp only [vec, ReceivePc.step, if_pos hle]
    · have hbuf : ¬buf.length < (r.slot eff).len := fun hlt => hexit ⟨Nat.le_of_not_lt hle, hlt⟩
      rw [if_neg hle, if_neg hbuf, vec_copyAfter (Nat.zero_le _) (Nat.le_of_not_lt hbuf), List.take_zero]
      simp only [vec, ReceivePc.step, if_neg hle]
  | loadByte cursor tail eff fuel len k buf =>
    simp only [step, Option.some.injEq, Prod.mk.injEq] at hs
    obtain ⟨rfl, rfl⟩ := hs
    obtain ⟨hk, -, hbuf⟩ := h
    have hlen : (buf.take k).length = k := by
      rw [List.length_take]
      omega
    rw [vec_copyAfter hk (by rwa [List.length_set]), take_set (by omega)]
    simp only [vec, ReceivePc.step, hlen]
  | loadSeqAfter cursor tail eff fuel len buf =>
    simp only [step, Option.some.injEq, Prod.mk.injEq] at hs
    obtain ⟨rfl, rfl⟩ := hs
    simp only [apply_ite SlicePc.vec, vec_retry]
    simp only [vec, ReceivePc.step, if_neg (ne_USIZE_MAX h.1)]
  | storeCursor cursor tail eff n buf =>
    simp only [step, Option.some.injEq, Prod.mk.injEq] at hs
    obtain ⟨rfl, rfl⟩ := hs
    simp only [vec, if_neg (show n ≠ USIZE_MAX from hexit), ReceivePc.step]

/-- At the exit the `try_receive` gives up, and at most the cursor entry is written. -/
theorem step_of_exits (hs : pc.step idx r = some (r', pc')) (hexit : pc.Exits r) :
    ∃ cursors cursor tail, r' = { r with cursors := cursors } ∧ pc'.vec = .returned cursor tail none := by
  cases pc with
  | loadLen cursor tail eff fuel buf =>
    obtain ⟨hle, hlt⟩ := hexit
    simp only [step, if_neg (Nat.not_lt.2 hle), if_pos hlt, Option.some.injEq, Prod.mk.injEq] at hs
    obtain ⟨rfl, rfl⟩ := hs
    refine ⟨_, cursor, tail, rfl, ?_⟩
    rw [vec, if_pos rfl]
  | storeCursor cursor tail eff n buf =>
    simp only [step, Option.some.injEq, Prod.mk.injEq] at hs
    obtain ⟨rfl, rfl⟩ := hs
    refine ⟨_, cursor, tail, rfl, ?_⟩
    rw [vec, if_pos (show n = USIZE_MAX from hexit)]
  | _ => exact hexit.elim

/-- A slice receive writes nothing but its own cursor entry. -/
theorem frame_step (h : pc.Fits r.slotSize) (hs : pc.step idx r = some (r', pc')) :
    ∃ cursors, r' = { r with cursors := cursors } := by
  by_cases hexit : pc.Exits r
  · obtain ⟨cursors, -, -, hr, -⟩ := step_of_exits hs hexit
    exact ⟨cursors, hr⟩
  · obtain ⟨cursors, hr, -⟩ := ReceivePc.frame_step (simulates h hs hexit)
    exact ⟨cursors, hr⟩

/-- The sentinel is decided by the exit alone. -/
theorem outcome_step {n : Nat} {buf : Bytes} (h : pc.Fits r.slotSize) (hs : pc.step idx r = some (r', pc'))
    (hout : pc'.outcome = some ((n, USIZE_MAX), buf)) :
    pc.outcome = some ((n, USIZE_MAX), buf) ∨
      ∃ cursor tail eff fuel, pc = loadLen cursor tail eff fuel buf ∧ Exceeds r eff buf ∧ n = eff + 1 := by
  cases pc with
  | returned => simp [step] at hs
  | loadTail cursor buf₁ =>
    simp only [step, Option.some.injEq, Prod.mk.injEq] at hs
    obtain ⟨rfl, rfl⟩ := hs
    split at hout <;> cases hout
  | loadSeq cursor tail eff fuel buf₁ =>
    simp only [step, Option.some.injEq, Prod.mk.injEq] at hs
    obtain ⟨rfl, rfl⟩ := hs
    simp only [apply_ite outcome, outcome_retry] at hout
    simp [outcome] at hout
  | loadLen cursor tail eff fuel buf₁ =>
    simp only [step, Option.some.injEq, Prod.mk.injEq] at hs
    obtain ⟨rfl, rfl⟩ := hs
    split at hout
    · simp at hout
    · rename_i hle
      split at hout
      · rename_i hlt
        simp only [outcome, Option.some.injEq, Prod.mk.injEq, and_true] at hout
        obtain ⟨rfl, rfl⟩ := hout
        exact .inr ⟨cursor, tail, eff, fuel, rfl, ⟨Nat.le_of_not_lt hle, hlt⟩, rfl⟩
      · simp at hout
  | loadByte cursor tail eff fuel len k buf₁ =>
    simp only [step, Option.some.injEq, Prod.mk.injEq] at hs
    obtain ⟨rfl, rfl⟩ := hs
    simp at hout
  | loadSeqAfter cursor tail eff fuel len buf₁ =>
    simp only [step, Option.some.injEq, Prod.mk.injEq] at hs
    obtain ⟨rfl, rfl⟩ := hs
    split at hout
    · simp only [outcome, Option.some.injEq, Prod.mk.injEq] at hout
      exact absurd hout.1.2 (ne_USIZE_MAX h.1)
    · split at hout <;> simp at hout
  | storeCursor cursor tail eff m buf₁ =>
    simp only [step, Option.some.injEq, Prod.mk.injEq] at hs
    obtain ⟨rfl, rfl⟩ := hs
    exact .inl hout

end SlicePc

open SlicePc

/-! ### What a call in progress knows -/

structure SliceInv (c : Channel) (pc : SlicePc) : Prop where
  fits : pc.Fits c.ring.slotSize
  receive : ReceiveInv c pc.vec

/-- The result of the call is what it says of the message before the new cursor: the first `k` bytes of the buffer
are the payload, or the payload is longer than the buffer. -/
def SlicePc.Faithful (c : Channel) (pc : SlicePc) : Prop :=
  ∀ n k buf, pc.outcome = some ((n, k), buf) → ∃ data, c.log (n - 1) = some data ∧
    (k ≠ USIZE_MAX → k = data.length ∧ buf.take k = data) ∧ (k = USIZE_MAX → buf.length < data.length)

/-- When the next access takes the exit, the slot shows the position that the call reads: no newer message has been begun
in it. -/
def SlicePc.Unlapped (c : Channel) : SlicePc → Prop
  | loadLen _ _ eff _ buf => Exceeds c.ring eff buf → (c.ring.slot eff).seq = eff
  | _ => True

instance (c : Channel) : (pc : SlicePc) → Decidable (pc.Unlapped c)
  | .loadLen _ _ eff _ buf => inferInstanceAs (Decidable (Exceeds c.ring eff buf → (c.ring.slot eff).seq = eff))
  | .loadTail .. | .loadSeq .. | .loadByte .. | .loadSeqAfter .. | .storeCursor .. | .returned .. => .isTrue trivial

namespace SliceInv

variable {c c' : Channel} {idx : Nat} {pc pc' : SlicePc}

theorem step {r' : RingBuffer} (h : SliceInv c pc)
    (hslots : ∀ cursor, cursor < c.ring.tail → SlotsCommitted c cursor) (hs : pc.step idx c.ring = some (r', pc')) :
    SliceInv { c with ring := r' } pc' := by
  refine ⟨fits_step h.fits hs, ?_⟩
  by_cases hexit : pc.Exits c.ring
  · obtain ⟨cursors, cursor, tail, rfl, hvec⟩ := step_of_exits hs hexit
    rw [hvec]
    trivial
  · exact h.receive.step hslots (simulates h.fits hs hexit)

theorem publish {base : Nat} {q q' : PublishPc} (h : SliceInv c pc) (hp : PublishInv base c q)
    (hs : q.step c = some (c', q')) : SliceInv c' pc := by
  refine ⟨?_, h.receive.publish hp hs⟩
  rw [(PublishPc.frame_step hs).2.1]
  exact h.fits

theorem cursors (h : SliceInv c pc) (f : Nat → Nat) : SliceInv { c with ring := { c.ring with cursors := f } } pc :=
  ⟨h.fits, h.receive.cursors f⟩

/-- The bytes that a call returns are those of the payload. -/
theorem copied {n k : Nat} {buf : Bytes} (h : SliceInv c pc) (hout : pc.outcome = some ((n, k), buf))
    (hk : k ≠ USIZE_MAX) : ∃ data, c.log (n - 1) = some data ∧ k = data.length ∧ buf.take k = data := by
  obtain ⟨hfits, hreceive⟩ := h
  -- what is left is the length of the copy
  suffices hcopy : c.log (n - 1) = some (buf.take k) ∧ k ≤ buf.length by
    refine ⟨buf.take k, hcopy.1, ?_, rfl⟩
    rw [List.length_take]
    omega
  cases pc with
  | storeCursor cursor tail eff m buf₁ =>
    simp only [outcome, Option.some.injEq, Prod.mk.injEq] at hout
    obtain ⟨⟨rfl, rfl⟩, rfl⟩ := hout
    rw [vec, if_neg hk] at hreceive
    exact ⟨hreceive.2, hfits hk⟩
  | returned cursor tail result buf₁ =>
    cases result with
    | none => cases hout
    | some result =>
      obtain ⟨p, m⟩ := result
      simp only [outcome, Option.some.injEq, Prod.mk.injEq] at hout
      obtain ⟨⟨rfl, rfl⟩, rfl⟩ := hout
      rw [vec, if_neg hk] at hreceive
      exact ⟨hreceive.2, hfits hk⟩
  | _ => cases hout

/-- Of the results only the sentinel is in question. -/
theorem faithful_iff (h : SliceInv c pc) : pc.Faithful c ↔
    ∀ n buf, pc.outcome = some ((n, USIZE_MAX), buf) → ∃ data, c.log (n - 1) = some data ∧ buf.length < data.length := by
  constructor
  · intro hf n buf hout
    obtain ⟨data, hl, -, hlong⟩ := hf n USIZE_MAX buf hout
    exact ⟨data, hl, hlong rfl⟩
  · intro hf n k buf hout
    by_cases hk : k = USIZE_MAX
    · subst hk
      obtain ⟨data, hl, hlong⟩ := hf n buf hout
      exact ⟨data, hl, fun hne => absurd rfl hne, fun _ => hlong⟩
    · obtain ⟨data, hl, hcopy⟩ := h.copied hout hk
      exact ⟨data, hl, fun _ => hcopy, fun heq => absurd heq hk⟩

/-- A slot that shows the position of the round holds its message. -/
theorem len_of_seq {cursor tail eff fuel : Nat} {buf : Bytes} (h : SliceInv c (.loadLen cursor tail eff fuel buf))
    (hseq : (c.ring.slot eff).seq = eff) : ∃ data, c.log eff = some data ∧ (c.ring.slot eff).len = data.length := by
  obtain ⟨-, data, hl, ⟨hh, -⟩ | hover⟩ := h.receive
  · exact ⟨data, hl, hh.2.1⟩
  · exact absurd (hover.trans_le (dropFlag_le ..)) (by omega)

/-- A step keeps the call faithful unless it takes the exit by the length of a newer message. -/
theorem faithful_step {r' : RingBuffer} (h : SliceInv c pc) (hf : pc.Faithful c)
    (hslots : ∀ cursor, cursor < c.ring.tail → SlotsCommitted c cursor) (hun : pc.Unlapped c)
    (hs : pc.step idx c.ring = some (r', pc')) : pc'.Faithful { c with ring := r' } := by
  rw [(h.step hslots hs).faithful_iff]
  intro n buf hout
  rcases outcome_step h.fits hs hout with hpast | ⟨cursor, tail, eff, fuel, rfl, hex, rfl⟩
  · exact h.faithful_iff.1 hf n buf hpast
  · obtain ⟨data, hl, hlen⟩ := h.len_of_seq (hun hex)
    exact ⟨data, hl, hlen ▸ hex.2⟩

/-- A step of the publisher keeps the messages that were published. -/
theorem faithful_publish {base : Nat} {q q' : PublishPc} (hf : pc.Faithful c) (hp : PublishInv base c q)
    (hs : q.step c = some (c', q')) : pc.Faithful c' := by
  intro n k buf hout
  obtain ⟨data, hl, hres⟩ := hf n k buf hout
  exact ⟨data, hp.log_step hs hl, hres⟩

end SliceInv

/-! ### One publisher and any number of slice readers of a fresh ring -/

namespace SliceReceive

structure State where
  chan : Channel
  publisher : PublishPc
  /-- The cursor entry and the call of each reader that has made one -/
  readers : Nat → Option (Nat × SlicePc)

inductive Act
  | beginPublish (policy : BackpressurePolicy) (data : Bytes)
  | publisher
  | beginReceive (i idx cursor : Nat) (buf : Bytes)
  | reader (i : Nat)

/-- No receive call of the reader is in progress. -/
def ReaderFree : Option (Nat × SlicePc) → Bool
  | none | some (_, .returned ..) => true
  | _ => false

/-- One atomic access of one party, or the beginning of a call.  A payload fits a slot, a position stays below the
marker bit, and the buffer is any slice. -/
def step (s : State) : Act → Option State
  | .beginPublish policy data =>
    if s.publisher.Free ∧ data.length ≤ s.chan.ring.slotSize ∧ s.chan.ring.tail < 2 ^ SEQ_WRITING then
      some { s with publisher := .loadTail policy data }
    else none
  | .publisher =>
    match s.publisher.step s.chan with
    | some (chan, pc) => some { s with chan := chan, publisher := pc }
    | none => none
  | .beginReceive i idx cursor buf =>
    if ReaderFree (s.readers i) then
      some { s with readers := Function.update s.readers i (some (idx, .loadTail cursor buf)) }
    else none
  | .reader i =>
    match s.readers i with
    | none => none
    | some (idx, pc) =>
      match pc.step idx s.chan.ring with
      | some (ring, pc) =>
        some { s with
          chan := { s.chan with ring := ring }
          readers := Function.update s.readers i (some (idx, pc)) }
      | none => none

/-- A ring made by `create`, before any call -/
def init (capacity slotPayloadSize maxSubscribers : UInt32) : State where
  chan := ⟨create capacity slotPayloadSize maxSubscribers, fun _ => none⟩
  publisher := .idle
  readers := fun _ => none

structure Inv (s : State) : Prop where
  publish : PublishInv 0 s.chan s.publisher
  fresh : Seqlock.Fresh s.chan s.publisher
  slice : ∀ i idx pc, s.readers i = some (idx, pc) → SliceInv s.chan pc

/-- Every call that has a result has a faithful one. -/
def Faithful (s : State) : Prop :=
  ∀ i idx pc, s.readers i = some (idx, pc) → pc.Faithful s.chan

/-- A reader whose call is about to take the exit reads a slot that has not been lapped. -/
def Unlapped (s : State) : Act → Prop
  | .reader i => ∀ p ∈ s.readers i, p.2.Unlapped s.chan
  | _ => True

instance (s : State) : (a : Act) → Decidable (Unlapped s a)
  | .reader i => inferInstanceAs (Decidable (∀ p ∈ s.readers i, p.2.Unlapped s.chan))
  | .beginPublish .. | .publisher | .beginReceive .. => .isTrue trivial

variable {s s' : State} {capacity slotPayloadSize maxSubscribers : UInt32}

theorem Inv.init (hcap : 0 < capacity) : Inv (init capacity slotPayloadSize maxSubscribers) where
  publish := PublishInv.fresh (UInt32.lt_iff_toNat_lt.1 hcap) rfl rfl
  fresh := fun _ _ _ _ => rfl
  slice := fun i idx pc h => by cases h

/-- What is said of the call of each reader, when the call of the reader `i` is at `pc` -/
private theorem forall_update {readers : Nat → Option (Nat × SlicePc)} {i idx : Nat} {pc : SlicePc}
    {P : SlicePc → Prop} :
    (∀ j idx' pc', Function.update readers i (some (idx, pc)) j = some (idx', pc') → P pc') ↔
      P pc ∧ ∀ j idx' pc', j ≠ i → readers j = some (idx', pc') → P pc' := by
  constructor
  · intro h
    refine ⟨h i idx pc (Function.update_self ..), fun j idx' pc' hj hpc => h j idx' pc' ?_⟩
    rw [Function.update_of_ne hj]
    exact hpc
  · rintro ⟨hown, hothers⟩ j idx' pc' hpc
    by_cases hj : j = i
    · subst hj
      rw [Function.update_self, Option.some.injEq, Prod.mk.injEq] at hpc
      exact hpc.2 ▸ hown
    · rw [Function.update_of_ne hj] at hpc
      exact hothers j idx' pc' hj hpc

/-- One step keeps the invariant, and keeps the results faithful if it takes no exit in a lapped slot. -/
theorem Inv.step {a : Act} (h : Inv s) (hs : step s a = some s') :
    Inv s' ∧ (Faithful s → Unlapped s a → Faithful s') := by
  cases a with
  | beginPublish policy data =>
    simp only [SliceReceive.step] at hs
    split at hs
    · rename_i hg
      obtain ⟨hfree, hfit, hlim⟩ := hg
      obtain rfl := Option.some.inj hs
      refine ⟨⟨h.publish.begin hfree hfit hlim, fun j hj hle _ => ?_, h.slice⟩,
        fun hf _ => hf⟩
      exact h.fresh j hj hle fun hw => (PublishPc.not_writing_of_free hfree hw).elim
    · cases hs
  | publisher =>
    simp only [SliceReceive.step] at hs
    split at hs
    · rename_i chan q hstep
      obtain rfl := Option.some.inj hs
      refine ⟨⟨h.publish.step hstep, h.fresh.step h.publish hstep, ?_⟩, fun hf _ => ?_⟩
      · intro i idx pc hpc
        exact (h.slice i idx pc hpc).publish h.publish hstep
      · intro i idx pc hpc
        exact SliceInv.faithful_publish (hf i idx pc hpc) h.publish hstep
    · cases hs
  | beginReceive i idx cursor buf =>
    simp only [SliceReceive.step] at hs
    split at hs
    · obtain rfl := Option.some.inj hs
      refine ⟨⟨h.publish, h.fresh, forall_update.2 ⟨⟨trivial, trivial⟩, fun j idx' pc _ => h.slice j idx' pc⟩⟩,
        fun hf _ => forall_update.2 ⟨?_, fun j idx' pc _ => hf j idx' pc⟩⟩
      intro n k buf' hout
      cases hout
    · cases hs
  | reader i =>
    simp only [SliceReceive.step] at hs
    split at hs
    · cases hs
    · rename_i idx pc hpc
      split at hs
      · rename_i ring pc' hstep
        obtain rfl := Option.some.inj hs
        have hslots : ∀ cursor, cursor < s.chan.ring.tail → SlotsCommitted s.chan cursor :=
          fun _ => h.fresh.slotsCommitted h.publish
        have hinv := h.slice i idx pc hpc
        have hown := hinv.step hslots hstep
        -- the step writes at most a cursor entry, of which nothing else depends
        obtain ⟨cursors, rfl⟩ := SlicePc.frame_step hinv.fits hstep
        refine ⟨⟨h.publish.tables _ _, h.fresh, forall_update.2 ⟨hown, ?_⟩⟩, fun hf hun => ?_⟩
        · intro j idx' rpc _ hrpc
          exact (h.slice j idx' rpc hrpc).cursors _
        · have hkept := hinv.faithful_step (hf i idx pc hpc) hslots (hun (idx, pc) hpc) hstep
          exact forall_update.2 ⟨hkept, fun j idx' rpc _ hrpc => hf j idx' rpc hrpc⟩
      · cases hs

/-- In every run, the bytes that a call returns are those of the message before its new cursor. -/
theorem received_bytes (hcap : 0 < capacity) {acts : List Act}
    (hr : run step (init capacity slotPayloadSize maxSubscribers) acts = some s) {i idx cursor tail n k : Nat}
    {buf : Bytes} (hret : s.readers i = some (idx, .returned cursor tail (some (n, k)) buf)) (hk : k ≠ USIZE_MAX) :
    ∃ data, s.chan.log (n - 1) = some data ∧ k = data.length ∧ buf.take k = data :=
  ((run_invariant Inv (fun _ _ _ h hs => (h.step hs).1) (Inv.init hcap) hr).slice i idx _ hret).copied rfl hk

/-- In every run of a publisher and slice readers of a fresh ring in which no call takes the exit by the length of a newer
message, every result is what it says of its message. -/
theorem slice_faithful (hcap : 0 < capacity) {acts : List Act}
    (hr : run step (init capacity slotPayloadSize maxSubscribers) acts = some s)
    (hun : Meets step Unlapped (init capacity slotPayloadSize maxSubscribers) acts) : Faithful s := by
  have hinit : Inv (init capacity slotPayloadSize maxSubscribers) ∧
      Faithful (init capacity slotPayloadSize maxSubscribers) := by
    refine ⟨Inv.init hcap, fun i idx pc hpc => ?_⟩
    cases hpc
  exact (run_invariant_when (fun s => Inv s ∧ Faithful s) Unlapped
    (fun _ _ _ h hun hs => ⟨(h.1.step hs).1, (h.1.step hs).2 h.2 hun⟩) hun hinit hr).2

/-- A message of two bytes and a reader with a buffer of one, which is told so -/
def tooLong : List Act :=
  .beginPublish .error [7, 8] :: List.replicate 8 .publisher ++ .beginReceive 0 0 0 [0] :: List.replicate 4 (.reader 0)

theorem slice_faithful_tooLong : ∃ s, run step (init 1 2 1) tooLong = some s ∧
    s.readers 0 = some (0, .returned 0 1 (some (1, USIZE_MAX)) [0]) ∧ Faithful s := by
  obtain ⟨s, hr, hret⟩ := Option.map_eq_some_iff.1
    (show (run step (init 1 2 1) tooLong).map (fun s => s.readers 0) =
      some (some (0, .returned 0 1 (some (1, USIZE_MAX)) [0])) by decide)
  exact ⟨s, hr, hret, slice_faithful (by decide) hr (by decide)⟩

/-- A reader with a buffer of one byte has loaded `seq` of a message of one byte when the publisher overwrites the
slot: it loads the length of the next message. -/
def lappedExit : List Act :=
  .beginPublish .error [7] :: List.replicate 7 .publisher ++
    .beginReceive 0 0 0 [0] :: List.replicate 2 (.reader 0) ++
    .beginPublish .dropOldest [8, 9] :: List.replicate 3 .publisher ++ List.replicate 2 (.reader 0)

/-- The message of one byte is reported as longer than the buffer of one byte. -/
theorem slice_not_faithful : ∃ s, run step (init 1 2 1) lappedExit = some s ∧
    s.readers 0 = some (0, .returned 0 1 (some (1, USIZE_MAX)) [0]) ∧ s.chan.log 0 = some [7] ∧ ¬Faithful s := by
  obtain ⟨s, hr, hret⟩ := Option.map_eq_some_iff.1
    (show (run step (init 1 2 1) lappedExit).map (fun s => (s.readers 0, s.chan.log 0)) =
      some (some (0, .returned 0 1 (some (1, USIZE_MAX)) [0]), some [7]) by decide)
  obtain ⟨hret, hlog⟩ := Prod.mk.inj hret
  refine ⟨s, hr, hret, hlog, fun hf => ?_⟩
  obtain ⟨data, hl, -, hlong⟩ := hf 0 0 _ hret 1 USIZE_MAX [0] rfl
  obtain rfl : [7] = data := Option.some.inj (hlog.symm.trans hl)
  exact absurd (hlong rfl) (by decide)

end SliceReceive

end Mmbus
