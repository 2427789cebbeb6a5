import Mmbus.Lib.Transition
import Mmbus.Receive

/-!
# One publisher and any number of readers of a fresh ring

The interleavings of publish calls and receive calls, one atomic access at a time, from a ring made by
`RingBuffer::create`.  The readers may use any cursor and any cursor entry, and the publisher may lap them.
The main result is `received_payload`: a call that returns `Some(n)` has copied the payload of the position
`n - 1`.
-/

namespace Mmbus

open FlagBit RingBuffer Transition

namespace Seqlock

structure State where
  chan : Channel
  publisher : PublishPc
  /-- The cursor entry and the call of each reader that has made one -/
  readers : Nat → Option (Nat × ReceivePc)

inductive Act
  | beginPublish (policy : BackpressurePolicy) (data : Bytes)
  | publisher
  | beginReceive (i idx cursor : Nat)
  | reader (i : Nat)

/-- No receive call of the reader is in progress. -/
def ReaderFree : Option (Nat × ReceivePc) → Bool
  | none | some (_, .returned ..) => true
  | _ => false

/-- One atomic access of one party, or the beginning of a call.  A payload fits a slot, and a position stays below
the marker bit. -/
def step (s : State) : Act → Option State
  | .beginPublish policy data =>
    if s.publisher.Free ∧ data.length ≤ s.chan.ring.slotSize ∧ s.chan.ring.tail < 2 ^ SEQ_WRITING then
      some { s with publisher := .loadTail policy data }
    else none
  | .publisher =>
    match s.publisher.step s.chan with
    | some (chan, pc) => some { s with chan := chan, publisher := pc }
    | none => none
  | .beginReceive i idx cursor =>
    if ReaderFree (s.readers i) then
      some { s with readers := Function.update s.readers i (some (idx, .loadTail cursor)) }
    else none
  | .reader i =>
    match s.readers i with
    | none => none
    | some (idx, pc) =>
      match pc.step idx s.chan.ring with
      | some (ring, pc) =>
        some { s with
          chan := { s.chan with ring := ring }
          readers := Function.update s.readers i (some (idx, pc)) }
      | none => none

/-- A ring made by `create`, before any call -/
def init (capacity slotPayloadSize maxSubscribers : UInt32) : State where
  chan := ⟨create capacity slotPayloadSize maxSubscribers, fun _ => none⟩
  publisher := .idle
  readers := fun _ => none

/-! ### The slots of a fresh ring -/

/-- The slots not used so far -/
def Fresh (c : Channel) (pc : PublishPc) : Prop :=
  ∀ j, j < c.ring.cap → c.ring.tail ≤ j → (pc.Writing → j ≠ c.ring.tail) → (c.ring.slots j).seq = 0

theorem Fresh.step {base : Nat} {c c' : Channel} {pc pc' : PublishPc} (hf : Fresh c pc) (h : PublishInv base c pc)
    (hs : pc.step c = some (c', pc')) : Fresh c' pc' := by
  -- a store into the slot of the call leaves the unused slots alone
  have stored : ∀ data tail s, pc.target = some (data, tail) → ∀ j, j < c.ring.cap → c.ring.tail ≤ j →
      j ≠ c.ring.tail → ((c.ring.setSlot tail s).slots j).seq = 0 := by
    intro data tail s ht j hj hle hne
    obtain rfl := h.target_tail data tail ht
    rw [setSlot_slots, Nat.mod_eq_of_lt (by omega), if_neg hne]
    exact hf j hj hle fun _ => hne
  cases pc with
  | idle | returned => simp [PublishPc.step] at hs
  | loadTail policy data =>
    cases policy <;>
    · simp only [PublishPc.step, Option.some.injEq, Prod.mk.injEq] at hs
      obtain ⟨rfl, -⟩ := hs
      exact fun j hj hle _ => hf j hj hle False.elim
  | loadCursor data tail i min =>
    simp only [PublishPc.step, Option.some.injEq, Prod.mk.injEq] at hs
    obtain ⟨rfl, -⟩ := hs
    exact fun j hj hle _ => hf j hj hle False.elim
  | storeMark data tail | storeSeq data tail =>
    simp only [PublishPc.step, Option.some.injEq, Prod.mk.injEq] at hs
    obtain ⟨rfl, rfl⟩ := hs
    exact fun j hj hle hw => stored data tail _ rfl j hj hle (hw trivial)
  | storeLen data tail =>
    simp only [PublishPc.step, Option.some.injEq, Prod.mk.injEq] at hs
    obtain ⟨rfl, rfl⟩ := hs
    refine fun j hj hle hw => stored data tail _ rfl j hj hle (hw ?_)
    unfold PublishPc.copyAt
    split <;> trivial
  | storeByte data tail k =>
    simp only [PublishPc.step, Option.some.injEq, Prod.mk.injEq] at hs
    obtain ⟨rfl, rfl⟩ := hs
    refine fun j hj hle hw => stored data tail _ rfl j hj hle (hw ?_)
    unfold PublishPc.copyAt
    split <;> trivial
  | storeTail data tail =>
    obtain rfl := h.target_tail data tail rfl
    simp only [PublishPc.step, Option.some.injEq, Prod.mk.injEq] at hs
    obtain ⟨rfl, -⟩ := hs
    refine fun j hj hle _ => hf j hj ?_ fun _ => ?_ <;>
    · simp only [setTail_tail] at hle
      omega

/-- In a fresh ring an unmarked slot that a reader at `cursor` can take for current is committed. -/
theorem Fresh.slotsCommitted {c : Channel} {pc : PublishPc} (hf : Fresh c pc) (h : PublishInv 0 c pc) {cursor : Nat}
    (hcur : cursor < c.ring.tail) : SlotsCommitted c cursor := by
  intro e hce hmark hseq
  have hj : e % c.ring.cap < c.ring.cap := Nat.mod_lt _ h.cap_pos
  by_cases hused : e % c.ring.cap < c.ring.tail ∨ pc.Writing ∧ c.ring.tail % c.ring.cap = e % c.ring.cap
  · exact ((h.shows hused).committed hmark).2
  · -- an unused slot shows 0, which no reader waits for once the tail is positive
    rw [not_or, not_lt] at hused
    have hzero : (c.ring.slot e).seq = 0 := by
      refine hf _ hj hused.1 fun hwr heq => hused.2 ⟨hwr, ?_⟩
      rw [← heq, Nat.mod_mod]
    have he : e = 0 := by omega
    subst he
    simp at hused
    omega

/-! ### The invariant of the system -/

structure Inv (s : State) : Prop where
  publish : PublishInv 0 s.chan s.publisher
  fresh : Fresh s.chan s.publisher
  receive : ∀ i idx pc, s.readers i = some (idx, pc) → ReceiveInv s.chan pc

theorem Inv.init {capacity slotPayloadSize maxSubscribers : UInt32} (hcap : 0 < capacity) :
    Inv (init capacity slotPayloadSize maxSubscribers) where
  publish := {
    cap_pos := UInt32.lt_iff_toNat_lt.1 hcap
    base_le := le_rfl
    tail_le := Nat.zero_le _
    payload_fits := fun data hd => by cases hd
    target_tail := fun data tail hd => by cases hd
    log_some := fun p _ hp => absurd hp (Nat.not_lt_zero p)
    log_none := fun p _ hl => absurd rfl hl
    held := fun p data _ hp => absurd hp (Nat.not_lt_zero p)
    slot_so_far := trivial }
  fresh := fun _ _ _ _ => rfl
  receive := fun i idx pc h => by cases h

theorem Inv.step {s s' : State} {a : Act} (h : Inv s) (hs : step s a = some s') : Inv s' := by
  cases a with
  | beginPublish policy data =>
    simp only [Seqlock.step] at hs
    split at hs
    · rename_i hg
      obtain ⟨hfree, hfit, hlim⟩ := hg
      obtain rfl := Option.some.inj hs
      refine ⟨h.publish.begin hfree hfit hlim, fun j hj hle _ => ?_, h.receive⟩
      refine h.fresh j hj hle fun hw => ?_
      exact PublishPc.not_writing_of_free hfree hw |>.elim
    · cases hs
  | publisher =>
    simp only [Seqlock.step] at hs
    split at hs
    · rename_i chan pc hstep
      obtain rfl := Option.some.inj hs
      exact ⟨h.publish.step hstep, h.fresh.step h.publish hstep,
        fun i idx rpc hi => (h.receive i idx rpc hi).publish h.publish hstep⟩
    · cases hs
  | beginReceive i idx cursor =>
    simp only [Seqlock.step] at hs
    split at hs
    · obtain rfl := Option.some.inj hs
      refine ⟨h.publish, h.fresh, fun j idx' pc hj => ?_⟩
      by_cases hji : j = i
      · subst hji
        obtain ⟨rfl, rfl⟩ : idx = idx' ∧ ReceivePc.loadTail cursor = pc := by simpa using hj
        trivial
      · exact h.receive j idx' pc (by simpa [Function.update_of_ne hji] using hj)
    · cases hs
  | reader i =>
    simp only [Seqlock.step] at hs
    split at hs
    · cases hs
    · rename_i idx pc hi
      split at hs
      · rename_i ring pc₁ hstep
        obtain rfl := Option.some.inj hs
        have hown := (h.receive i idx pc hi).step (fun _ => h.fresh.slotsCommitted h.publish) hstep
        -- the step writes at most the reader's own cursor entry, of which nothing else depends
        obtain ⟨cursors, rfl, -⟩ := ReceivePc.frame_step hstep
        refine ⟨h.publish.tables _ _, h.fresh, ?_⟩
        · intro j idx' rpc hj
          by_cases hji : j = i
          · subst hji
            obtain ⟨rfl, rfl⟩ : idx = idx' ∧ pc₁ = rpc := by simpa using hj
            exact hown
          · exact (h.receive j idx' rpc (by simpa [Function.update_of_ne hji] using hj)).cursors _
      · cases hs

/-- Seqlock fidelity: in every interleaving a call that returns `Some(n)` has `n` above its cursor, and `out` is the
payload committed at the position `n - 1`. -/
theorem received_payload (capacity slotPayloadSize maxSubscribers : UInt32) (hcap : 0 < capacity) {acts : List Act}
    {s : State} (hr : run step (init capacity slotPayloadSize maxSubscribers) acts = some s)
    {i idx cursor tail n : Nat} {out : Bytes}
    (hret : s.readers i = some (idx, .returned cursor tail (some (n, out)))) :
    cursor < n ∧ s.chan.log (n - 1) = some out :=
  (run_invariant Inv (fun _ _ _ h hs => h.step hs) (Inv.init hcap) hr).receive i idx _ hret

/-- One message through a ring with one slot -/
def singleMessage : List Act :=
  .beginPublish .error [7] :: List.replicate 7 .publisher ++ .beginReceive 0 0 0 :: List.replicate 6 (.reader 0)

theorem received_payload_singleMessage :
    ∃ s, run step (init 1 1 1) singleMessage = some s ∧ 0 < 1 ∧ s.chan.log 0 = some [7] := by
  obtain ⟨s, hr, hret⟩ := Option.map_eq_some_iff.1
    (show (run step (init 1 1 1) singleMessage).map (fun s => s.readers 0) =
      some (some (0, .returned 0 1 (some (1, [7])))) by decide)
  exact ⟨s, hr, received_payload 1 1 1 (by decide) hr hret⟩

end Seqlock

end Mmbus
