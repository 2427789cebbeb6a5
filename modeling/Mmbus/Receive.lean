import Mmbus.Publish

/-!
# A receive call, one atomic access at a time

`try_receive` as a program that performs one load or store per step: load `tail`, then up to sixteen rounds that
load `seq`, the length, every byte, and `seq` again, and at last the store of the new cursor.

Two descriptions of a call in progress are kept by its own steps and by those of a publisher.  `ReceiveInv` is
for a call that may be overtaken: whatever it has copied is the payload of the position it is about to return, or
the slot has been overwritten since and the second load of `seq` will tell.  `Delivering` is for a call whose
position stays in the ring: its first round succeeds.
-/

namespace Mmbus

open FlagBit RingBuffer

/-- What the next access of a receive call is.  `cursor` is the caller's cursor, `tail` the tail it loaded, `eff`
the position the round reads, and `fuel` the number of rounds left after this one. -/
inductive ReceivePc
  | loadTail (cursor : Nat)
  | loadSeq (cursor tail eff fuel : Nat)
  | loadLen (cursor tail eff fuel : Nat)
  | loadByte (cursor tail eff fuel len : Nat) (out : Bytes)
  | loadSeqAfter (cursor tail eff fuel : Nat) (out : Bytes)
  | storeCursor (cursor tail eff : Nat) (out : Bytes)
  | returned (cursor tail : Nat) (result : Option (Nat × Bytes))
  deriving DecidableEq

/-- `MAX_RETRIES` -/
def MAX_RETRIES : Nat := 16

namespace ReceivePc

/-- The cursor a call was given -/
def cursor : ReceivePc → Nat
  | loadTail cursor | loadSeq cursor .. | loadLen cursor .. | loadByte cursor .. | loadSeqAfter cursor ..
  | storeCursor cursor .. | returned cursor .. => cursor

/-- The position read by the round in progress is below the marker bit. -/
def InRange : ReceivePc → Prop
  | loadSeq _ _ eff _ | loadLen _ _ eff _ | loadByte _ _ eff .. | loadSeqAfter _ _ eff .. | storeCursor _ _ eff _ =>
    eff < 2 ^ SEQ_WRITING
  | loadTail _ | returned .. => True

/-- The next round, if one is left -/
def retry (cursor tail eff : Nat) : Nat → ReceivePc
  | 0 => returned cursor tail none
  | fuel + 1 => loadSeq cursor tail eff fuel

/-- The copy of the payload after the bytes `out` -/
def copyAfter (cursor tail eff fuel len : Nat) (out : Bytes) : ReceivePc :=
  if out.length < len then loadByte cursor tail eff fuel len out else loadSeqAfter cursor tail eff fuel out

/-- One atomic access of the subscriber with the cursor entry `idx` -/
def step (idx : Nat) (r : RingBuffer) : ReceivePc → Option (RingBuffer × ReceivePc)
  | loadTail cursor =>
    some (r, if r.tail ≤ cursor then returned cursor r.tail none
      else loadSeq cursor r.tail cursor (MAX_RETRIES - 1))
  | loadSeq cursor tail eff fuel =>
    let seq := (r.slot eff).seq
    some (r,
      if hasFlag SEQ_WRITING seq then retry cursor tail eff fuel
      else if eff < seq then retry cursor tail seq fuel
      else if seq < eff then returned cursor tail none
      else loadLen cursor tail eff fuel)
  | loadLen cursor tail eff fuel =>
    let len := (r.slot eff).len
    some (r, if r.slotSize < len then retry cursor tail eff fuel else copyAfter cursor tail eff fuel len [])
  | loadByte cursor tail eff fuel len out =>
    some (r, copyAfter cursor tail eff fuel len (out ++ [(r.slot eff).payload out.length]))
  | loadSeqAfter cursor tail eff fuel out =>
    let seq := (r.slot eff).seq
    some (r,
      if seq = eff then storeCursor cursor tail eff out
      else if eff < dropFlag SEQ_WRITING seq then retry cursor tail (dropFlag SEQ_WRITING seq) fuel
      else retry cursor tail eff fuel)
  | storeCursor cursor tail eff out =>
    some (r.setCursor idx (eff + 1), returned cursor tail (some (eff + 1, out)))
  | returned .. => none

/-- The result of a call that returned a message -/
def result : ReceivePc → Option (Nat × Bytes)
  | returned _ _ result => result
  | _ => none

/-- Before its last store a call leaves the ring alone and has no message to return. -/
theorem step_quiet {idx : Nat} {r r' : RingBuffer} {pc pc' : ReceivePc} (hs : pc.step idx r = some (r', pc'))
    (hpc : ∀ cursor tail eff out, pc ≠ storeCursor cursor tail eff out) : r' = r ∧ pc'.result = none := by
  have hretry : ∀ cursor tail eff fuel, (retry cursor tail eff fuel).result = none := by
    rintro cursor tail eff (_ | fuel) <;> rfl
  have hcopy : ∀ cursor tail eff fuel len out, (copyAfter cursor tail eff fuel len out).result = none := by
    intro cursor tail eff fuel len out
    unfold copyAfter
    split <;> rfl
  cases pc with
  | storeCursor cursor tail eff out => exact absurd rfl (hpc cursor tail eff out)
  | returned => simp [step] at hs
  | _ =>
    simp only [step, Option.some.injEq, Prod.mk.injEq] at hs
    obtain ⟨rfl, rfl⟩ := hs
    refine ⟨rfl, ?_⟩
    first
      | exact hcopy ..
      | split <;> first | rfl | exact hretry .. | exact hcopy .. | skip
    all_goals (split <;> first | rfl | exact hretry .. | skip)
    all_goals (split <;> rfl)

/-- A receive call writes nothing but its own cursor entry. -/
theorem frame_step {idx : Nat} {r r' : RingBuffer} {pc pc' : ReceivePc}
    (hs : pc.step idx r = some (r', pc')) : ∃ cursors, r' = { r with cursors := cursors } ∧
      ∀ j, j ≠ idx → cursors j = r.cursors j := by
  cases pc with
  | storeCursor cursor tail eff out =>
    simp only [step, Option.some.injEq, Prod.mk.injEq] at hs
    obtain ⟨rfl, -⟩ := hs
    exact ⟨_, rfl, fun j hj => by simp [Function.update_of_ne hj]⟩
  | returned => simp [step] at hs
  | _ =>
    simp only [step, Option.some.injEq, Prod.mk.injEq] at hs
    obtain ⟨rfl, -⟩ := hs
    exact ⟨_, rfl, fun _ _ => rfl⟩

@[simp] theorem cursor_retry (cursor tail eff fuel : Nat) : (retry cursor tail eff fuel).cursor = cursor := by
  cases fuel <;> rfl

@[simp] theorem cursor_copyAfter (cursor tail eff fuel len : Nat) (out : Bytes) :
    (copyAfter cursor tail eff fuel len out).cursor = cursor := by
  unfold copyAfter
  split <;> rfl

theorem inRange_retry {cursor tail eff fuel : Nat} (h : eff < 2 ^ SEQ_WRITING) :
    (retry cursor tail eff fuel).InRange := by
  cases fuel with
  | zero => trivial
  | succ => exact h

theorem inRange_copyAfter {cursor tail eff fuel len : Nat} {out : Bytes} (h : eff < 2 ^ SEQ_WRITING) :
    (copyAfter cursor tail eff fuel len out).InRange := by
  unfold copyAfter
  split <;> exact h

theorem cursor_step {idx : Nat} {r r' : RingBuffer} {pc pc' : ReceivePc}
    (hs : pc.step idx r = some (r', pc')) : pc'.cursor = pc.cursor := by
  cases pc with
  | returned => simp [step] at hs
  | _ =>
    simp only [step, Option.some.injEq, Prod.mk.injEq] at hs
    obtain ⟨-, rfl⟩ := hs
    first
      | rfl
      | exact cursor_copyAfter ..
      | simp only [apply_ite ReceivePc.cursor, cursor_retry, cursor_copyAfter]
        simp [cursor]

/-- In a ring whose `seq` words are words, a round never reads a position beyond the marker bit. -/
theorem inRange_step {idx : Nat} {r r' : RingBuffer} {pc pc' : ReceivePc} (h : pc.InRange)
    (htail : r.tail ≤ 2 ^ SEQ_WRITING) (hseq : ∀ j, (r.slots j).seq < 2 ^ 64)
    (hs : pc.step idx r = some (r', pc')) : pc'.InRange := by
  cases pc with
  | returned => simp [step] at hs
  | loadTail cursor =>
    simp only [step, Option.some.injEq, Prod.mk.injEq] at hs
    obtain ⟨-, rfl⟩ := hs
    split
    · trivial
    · simp only [InRange]
      omega
  | loadSeq cursor tail eff fuel =>
    simp only [step, Option.some.injEq, Prod.mk.injEq] at hs
    obtain ⟨-, rfl⟩ := hs
    split
    · exact inRange_retry h
    · rename_i hmark
      split
      · exact inRange_retry (lt_of_hasFlag_eq_false (hseq _) (by simpa using hmark))
      · split
        · trivial
        · exact h
  | loadLen cursor tail eff fuel =>
    simp only [step, Option.some.injEq, Prod.mk.injEq] at hs
    obtain ⟨-, rfl⟩ := hs
    split
    · exact inRange_retry h
    · exact inRange_copyAfter h
  | loadByte cursor tail eff fuel len out =>
    simp only [step, Option.some.injEq, Prod.mk.injEq] at hs
    obtain ⟨-, rfl⟩ := hs
    exact inRange_copyAfter h
  | loadSeqAfter cursor tail eff fuel out =>
    simp only [step, Option.some.injEq, Prod.mk.injEq] at hs
    obtain ⟨-, rfl⟩ := hs
    split
    · exact h
    · split
      · exact inRange_retry (dropFlag_lt ..)
      · exact inRange_retry h
  | storeCursor cursor tail eff out =>
    simp only [step, Option.some.injEq, Prod.mk.injEq] at hs
    obtain ⟨-, rfl⟩ := hs
    trivial

end ReceivePc

open ReceivePc

/-! ### A call that may be overtaken -/

/-- The position `eff` was committed with a payload such that `P` holds, unless its slot is overwritten. -/
def Copied (c : Channel) (eff : Nat) (P : Bytes → Prop) : Prop :=
  ∃ data, c.log eff = some data ∧
    ((c.ring.slot eff).Holds eff data ∧ P data ∨ eff < dropFlag SEQ_WRITING (c.ring.slot eff).seq)

/-- What a call in progress knows -/
def ReceiveInv (c : Channel) : ReceivePc → Prop
  | loadTail _ => True
  | loadSeq cursor tail eff _ => cursor < tail ∧ tail ≤ c.ring.tail ∧ cursor ≤ eff
  | loadLen cursor tail eff _ =>
    (cursor < tail ∧ tail ≤ c.ring.tail ∧ cursor ≤ eff) ∧ Copied c eff fun _ => True
  | loadByte cursor tail eff _ len out =>
    (cursor < tail ∧ tail ≤ c.ring.tail ∧ cursor ≤ eff) ∧ out.length < len ∧
      Copied c eff fun data => len = data.length ∧ out = data.take out.length
  | loadSeqAfter cursor tail eff _ out =>
    (cursor < tail ∧ tail ≤ c.ring.tail ∧ cursor ≤ eff) ∧ Copied c eff fun data => out = data
  | storeCursor cursor _ eff out => cursor ≤ eff ∧ c.log eff = some out
  | returned cursor _ (some (n, out)) => cursor < n ∧ c.log (n - 1) = some out
  | returned _ _ none => True

/-- An unmarked slot whose `seq` has reached a position from `cursor` on is committed for that `seq`. -/
def SlotsCommitted (c : Channel) (cursor : Nat) : Prop :=
  ∀ e, cursor ≤ e → hasFlag SEQ_WRITING (c.ring.slot e).seq = false → e ≤ (c.ring.slot e).seq →
    ∃ data, c.log (c.ring.slot e).seq = some data ∧ (c.ring.slot e).Holds (c.ring.slot e).seq data

/-- One more byte of the copy -/
theorem take_concat {data out : Bytes} {b : UInt8} (h : out = data.take out.length)
    (hb : data[out.length]? = some b) : out ++ [b] = data.take (out ++ [b]).length := by
  rw [List.length_append, List.length_singleton, List.take_add_one, ← h, hb]
  rfl

namespace ReceiveInv

variable {c c' : Channel} {pc pc' : ReceivePc}

private theorem retry {cursor tail eff fuel : Nat}
    (h : cursor < tail ∧ tail ≤ c.ring.tail ∧ cursor ≤ eff) :
    ReceiveInv c (ReceivePc.retry cursor tail eff fuel) := by
  cases fuel with
  | zero => trivial
  | succ fuel => exact h

private theorem copyAfter {cursor tail eff fuel len : Nat} {out : Bytes}
    (h : cursor < tail ∧ tail ≤ c.ring.tail ∧ cursor ≤ eff) (hle : out.length ≤ len)
    (hc : Copied c eff fun data => len = data.length ∧ out = data.take out.length) :
    ReceiveInv c (ReceivePc.copyAfter cursor tail eff fuel len out) := by
  unfold ReceivePc.copyAfter
  split
  · rename_i hlt
    exact ⟨h, hlt, hc⟩
  · rename_i hlt
    obtain ⟨data, hl, ⟨hh, hlen, htake⟩ | hover⟩ := hc
    · refine ⟨h, data, hl, .inl ⟨hh, ?_⟩⟩
      rw [htake, show out.length = data.length by omega, List.take_length]
    · exact ⟨h, data, hl, .inr hover⟩

/-- The call's own step.  Of the slots it needs only that the one of the round is committed when it shows the position. -/
theorem step_at {idx : Nat} {r' : RingBuffer} (h : ReceiveInv c pc)
    (hslot : ∀ cursor tail eff fuel, pc = .loadSeq cursor tail eff fuel →
      hasFlag SEQ_WRITING (c.ring.slot eff).seq = false → (c.ring.slot eff).seq = eff →
        ∃ data, c.log eff = some data ∧ (c.ring.slot eff).Holds eff data)
    (hs : pc.step idx c.ring = some (r', pc')) : ReceiveInv { c with ring := r' } pc' := by
  cases pc with
  | loadTail cursor =>
    simp only [ReceivePc.step, Option.some.injEq, Prod.mk.injEq] at hs
    obtain ⟨rfl, rfl⟩ := hs
    split
    · trivial
    · rename_i hlt
      exact ⟨by omega, le_rfl, le_rfl⟩
  | loadSeq cursor tail eff fuel =>
    simp only [ReceivePc.step, Option.some.injEq, Prod.mk.injEq] at hs
    obtain ⟨rfl, rfl⟩ := hs
    obtain ⟨hlt, htail, hle⟩ := h
    split
    · exact retry ⟨hlt, htail, hle⟩
    · rename_i hmark
      split
      · exact retry ⟨hlt, htail, by omega⟩
      · split
        · trivial
        · -- the round found `seq = eff`
          have hseq : (c.ring.slot eff).seq = eff := by omega
          obtain ⟨data, hl, hh⟩ := hslot cursor tail eff fuel rfl (by simpa using hmark) hseq
          exact ⟨⟨hlt, htail, hle⟩, data, hl, .inl ⟨hh, trivial⟩⟩
  | loadLen cursor tail eff fuel =>
    simp only [ReceivePc.step, Option.some.injEq, Prod.mk.injEq] at hs
    obtain ⟨rfl, rfl⟩ := hs
    obtain ⟨hpos, data, hl, hd⟩ := h
    split
    · exact retry hpos
    · refine copyAfter hpos (Nat.zero_le _) ⟨data, hl, hd.imp_left ?_⟩
      rintro ⟨hh, -⟩
      exact ⟨hh, hh.2.1, by simp⟩
  | loadByte cursor tail eff fuel len out =>
    simp only [ReceivePc.step, Option.some.injEq, Prod.mk.injEq] at hs
    obtain ⟨rfl, rfl⟩ := hs
    obtain ⟨hpos, hlt, data, hl, hd⟩ := h
    refine copyAfter hpos (by simpa using Nat.succ_le_of_lt hlt) ⟨data, hl, hd.imp_left ?_⟩
    rintro ⟨hh, hlen, htake⟩
    exact ⟨hh, hlen, take_concat htake (hh.2.2 _ (hlen ▸ hlt))⟩
  | loadSeqAfter cursor tail eff fuel out =>
    simp only [ReceivePc.step, Option.some.injEq, Prod.mk.injEq] at hs
    obtain ⟨rfl, rfl⟩ := hs
    obtain ⟨hpos, data, hl, hd⟩ := h
    split
    · rename_i hseq
      rcases hd with ⟨-, rfl⟩ | hover
      · exact ⟨hpos.2.2, hl⟩
      · -- an overwritten slot does not show `eff` again
        exact absurd (hover.trans_le (dropFlag_le ..)) (by omega)
    · split
      · exact retry ⟨hpos.1, hpos.2.1, by omega⟩
      · exact retry hpos
  | storeCursor cursor tail eff out =>
    simp only [ReceivePc.step, Option.some.injEq, Prod.mk.injEq] at hs
    obtain ⟨rfl, rfl⟩ := hs
    exact ⟨by have := h.1; omega, h.2⟩
  | returned => simp [ReceivePc.step] at hs

/-- The call's own step, where every slot that it can read is committed -/
theorem step {idx : Nat} {r' : RingBuffer} (h : ReceiveInv c pc)
    (hslots : ∀ cursor, cursor < c.ring.tail → SlotsCommitted c cursor)
    (hs : pc.step idx c.ring = some (r', pc')) : ReceiveInv { c with ring := r' } pc' := by
  refine h.step_at (fun cursor tail eff fuel hpc hmark hseq => ?_) hs
  subst hpc
  obtain ⟨hlt, htail, hle⟩ := h
  obtain ⟨data, hl, hh⟩ := hslots cursor (by omega) eff hle hmark hseq.ge
  rw [hseq] at hl hh
  exact ⟨data, hl, hh⟩

private theorem copied_publish {base eff : Nat} {P : Bytes → Prop} {q q' : PublishPc}
    (hp : PublishInv base c q) (hs : q.step c = some (c', q')) (h : Copied c eff P) : Copied c' eff P := by
  obtain ⟨data, hl, hd⟩ := h
  refine ⟨data, hp.log_step hs hl, ?_⟩
  rcases hp.slot_step hs (show c.log eff ≠ none by simp [hl]) with hsame | hover
  · rwa [hsame]
  · exact .inr hover

/-- A step of the publisher -/
theorem publish {base : Nat} {q q' : PublishPc} (h : ReceiveInv c pc) (hp : PublishInv base c q)
    (hs : q.step c = some (c', q')) : ReceiveInv c' pc := by
  have htail := hp.tail_le_step hs
  have later : ∀ {cursor tail eff : Nat}, (cursor < tail ∧ tail ≤ c.ring.tail ∧ cursor ≤ eff) →
      cursor < tail ∧ tail ≤ c'.ring.tail ∧ cursor ≤ eff :=
    fun h => ⟨h.1, h.2.1.trans htail, h.2.2⟩
  cases pc with
  | loadTail _ => trivial
  | loadSeq => exact later h
  | loadLen => exact ⟨later h.1, copied_publish hp hs h.2⟩
  | loadByte => exact ⟨later h.1, h.2.1, copied_publish hp hs h.2.2⟩
  | loadSeqAfter => exact ⟨later h.1, copied_publish hp hs h.2⟩
  | storeCursor => exact ⟨h.1, hp.log_step hs h.2⟩
  | returned cursor tail result =>
    cases result with
    | none => trivial
    | some result => exact ⟨h.1, hp.log_step hs h.2⟩

/-- The cursor table plays no role. -/
theorem cursors (h : ReceiveInv c pc) (f : Nat → Nat) :
    ReceiveInv { c with ring := { c.ring with cursors := f } } pc := by
  cases pc with
  | returned cursor tail result => cases result <;> exact h
  | _ => exact h

end ReceiveInv

/-! ### A call whose position stays in the ring -/

/-- A call in the first round for the position `cursor`, whose payload is `data` -/
def Delivering (data : Bytes) : ReceivePc → Prop
  | loadSeq cursor tail eff fuel | loadLen cursor tail eff fuel =>
    cursor < tail ∧ eff = cursor ∧ fuel = MAX_RETRIES - 1
  | loadByte cursor tail eff fuel len out =>
    cursor < tail ∧ eff = cursor ∧ fuel = MAX_RETRIES - 1 ∧ len = data.length ∧ out.length < len ∧
      out = data.take out.length
  | loadSeqAfter cursor tail eff fuel out =>
    cursor < tail ∧ eff = cursor ∧ fuel = MAX_RETRIES - 1 ∧ out = data
  | storeCursor cursor tail eff out => cursor < tail ∧ eff = cursor ∧ out = data
  | returned cursor tail result => cursor < tail ∧ result = some (cursor + 1, data)
  | loadTail _ => False

/-- The accesses that a call which delivers `data` in its first round has still to make -/
def ReceivePc.left (data : Bytes) : ReceivePc → Nat
  | loadTail _ => data.length + 5
  | loadSeq .. => data.length + 4
  | loadLen .. => data.length + 3
  | loadByte _ _ _ _ _ out => data.length - out.length + 2
  | loadSeqAfter .. => 2
  | storeCursor .. => 1
  | returned .. => 0

theorem ReceivePc.left_pos {data : Bytes} {pc : ReceivePc} (h : ∀ cursor tail result, pc ≠ returned cursor tail result) :
    0 < pc.left data := by
  cases pc with
  | returned cursor tail result => exact absurd rfl (h cursor tail result)
  | _ =>
    simp only [left]
    omega

namespace Delivering

variable {data : Bytes} {pc pc' : ReceivePc} {idx : Nat} {r r' : RingBuffer}

private theorem copyAfter {cursor tail len : Nat} (out : Bytes) (ht : cursor < tail) (hlen : len = data.length)
    (hle : out.length ≤ len) (hout : out = data.take out.length) :
    Delivering data (ReceivePc.copyAfter cursor tail cursor (MAX_RETRIES - 1) len out) ∧
      (ReceivePc.copyAfter cursor tail cursor (MAX_RETRIES - 1) len out).left data = data.length - out.length + 2 := by
  unfold ReceivePc.copyAfter
  split
  · rename_i hlt
    exact ⟨⟨ht, rfl, rfl, hlen, hlt, hout⟩, rfl⟩
  · rename_i hlt
    refine ⟨⟨ht, rfl, rfl, ?_⟩, ?_⟩
    · rw [hout, show out.length = data.length by omega, List.take_length]
    · simp only [left]
      omega

/-- While the slot of its cursor is intact, the call proceeds to the delivery, with one access less to make. -/
theorem step_left (h : Delivering data pc) (hh : (r.slot pc.cursor).Holds pc.cursor data)
    (hfit : data.length ≤ r.slotSize) (hlim : pc.cursor < 2 ^ SEQ_WRITING)
    (hs : pc.step idx r = some (r', pc')) : Delivering data pc' ∧ pc'.left data + 1 = pc.left data := by
  obtain ⟨hseq, hlen, hbytes⟩ := hh
  cases pc with
  | loadTail _ => exact h.elim
  | loadSeq cursor tail eff fuel =>
    obtain ⟨ht, rfl, rfl⟩ := h
    simp only [cursor] at hseq hlim
    simp only [ReceivePc.step, hseq, hasFlag_of_lt hlim, lt_irrefl, if_false, Bool.false_eq_true,
      Option.some.injEq, Prod.mk.injEq] at hs
    exact hs.2 ▸ ⟨⟨ht, rfl, rfl⟩, rfl⟩
  | loadLen cursor tail eff fuel =>
    obtain ⟨ht, rfl, rfl⟩ := h
    simp only [cursor] at hlen
    simp only [ReceivePc.step, hlen, if_neg hfit.not_gt, Option.some.injEq, Prod.mk.injEq] at hs
    obtain ⟨hd, hleft⟩ := copyAfter [] ht rfl (Nat.zero_le data.length) (by simp)
    rw [← hs.2]
    exact ⟨hd, by rw [hleft]; rfl⟩
  | loadByte cursor tail eff fuel len out =>
    obtain ⟨ht, rfl, rfl, rfl, hlt, hout⟩ := h
    simp only [ReceivePc.step, Option.some.injEq, Prod.mk.injEq] at hs
    obtain ⟨hd, hleft⟩ := copyAfter (out ++ [(r.slot eff).payload out.length]) ht rfl
      (by simpa using Nat.succ_le_of_lt hlt) (take_concat hout (hbytes _ hlt))
    rw [← hs.2]
    refine ⟨hd, ?_⟩
    rw [hleft, List.length_append, List.length_singleton]
    simp only [left]
    omega
  | loadSeqAfter cursor tail eff fuel out =>
    obtain ⟨ht, rfl, rfl, rfl⟩ := h
    simp only [cursor] at hseq
    simp only [ReceivePc.step, hseq, if_true, Option.some.injEq, Prod.mk.injEq] at hs
    exact hs.2 ▸ ⟨⟨ht, rfl, rfl⟩, rfl⟩
  | storeCursor cursor tail eff out =>
    obtain ⟨ht, rfl, rfl⟩ := h
    simp only [ReceivePc.step, Option.some.injEq, Prod.mk.injEq] at hs
    exact hs.2 ▸ ⟨⟨ht, rfl⟩, rfl⟩
  | returned => simp [ReceivePc.step] at hs

theorem step (h : Delivering data pc) (hh : (r.slot pc.cursor).Holds pc.cursor data)
    (hfit : data.length ≤ r.slotSize) (hlim : pc.cursor < 2 ^ SEQ_WRITING)
    (hs : pc.step idx r = some (r', pc')) : Delivering data pc' :=
  (h.step_left hh hfit hlim hs).1

end Delivering

end Mmbus
