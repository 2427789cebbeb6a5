import Mmbus.Wakeup

/-!
# Whom a publish call wakes

`publish` and `publish_many` promote the waiting connections to clients at their beginning, and go through the clients
when everything has been published.  In between a subscriber may connect and go to sleep.  A `CallRecord` is the bus
with a record of the publisher's last call: who was connected and who was asleep when it last stored the tail, and
whom it has woken.

`wokenByCall`: a call has woken every subscriber that slept behind its last store of the tail, in any run in which
every sleeper is a client by the time a tail is stored over its cursor, and no broadcast takes its flag for another
client.
-/

namespace Mmbus

open RingBuffer Transition

/-- `connect_with` has returned. -/
def SubscriberPc.Connected : SubscriberPc → Bool
  | absent | readTail | claimAt _ | clearClaimed | connectSock | sendFd | resync | setCursor | readGeneration
  | abort | failed => false
  | _ => true

/-- The next access stores the tail of the ring. -/
def Phase.StoresTail : Phase → Bool
  | .publishing (.storeTail ..) | .publishingMany _ _ (.storeTail ..) => true
  | _ => false

/-- Only the store of the tail ends a ring call with a publication. -/
theorem PublishPc.storeTail_of_returned {c c' : Channel} {pc : PublishPc} (hs : pc.step c = some (c', .returned true)) :
    ∃ data tail, pc = .storeTail data tail := by
  have hscan : ∀ d t i m, scanAt c.ring d t i m ≠ .returned true := by
    intro d t i m
    unfold scanAt
    split
    · simp
    · split <;> simp
  have hcopy : ∀ d t k, copyAt d t k ≠ .returned true := by
    intro d t k
    unfold copyAt
    split <;> simp
  cases pc with
  | idle | returned => simp [step] at hs
  | storeTail data tail => exact ⟨data, tail, rfl⟩
  | loadTail policy data =>
    cases policy with
    | error => exact absurd (Prod.mk.inj (Option.some.inj hs)).2 (hscan _ _ _ _)
    | dropOldest => simp [step] at hs
  | loadCursor => exact absurd (Prod.mk.inj (Option.some.inj hs)).2 (hscan _ _ _ _)
  | storeLen | storeByte => exact absurd (Prod.mk.inj (Option.some.inj hs)).2 (hcopy _ _ _)
  | storeMark | storeSeq => simp [step] at hs

namespace Bus

variable {s s' : Bus}

/-- The next access of the publisher fires the eventfd of the subscriber `i`. -/
def Wakes (s : Bus) (i : Nat) : Bool :=
  match s.phase with
  | .fire _ k => s.clients[k]?.any (·.sub == i)
  | _ => false

/-- The subscriber `i` sleeps with its flag set. -/
def SleepsFlagged (s : Bus) (i : Nat) : Bool :=
  (s.subs i).pc.Asleep && s.chan.ring.wakeflags (s.subs i).cursorIdx == WAKEFLAG_WAITING

/-- A tail is not stored over the cursor of the subscriber `i` while it sleeps with its flag set and is not a client,
and its flag is not taken for another client while it sleeps with messages unread. -/
def Attends (s : Bus) (i : Nat) : Act → Prop
  | .publisher =>
    (s.phase.StoresTail = true → (s.subs i).alive = true → s.SleepsFlagged i = true →
      (s.subs i).cursor ≤ s.chan.ring.tail → ∃ c ∈ s.clients, c.sub = i) ∧
    match s.phase with
    | .take _ k => ∀ c ∈ s.clients[k]?, c.cursorIdx = (s.subs i).cursorIdx → (s.subs i).alive = true →
        s.SleepsFlagged i = true → (s.subs i).cursor < s.chan.ring.tail → c.sub = i
    | _ => True
  | _ => True

/-- The client whose flag the publisher takes next -/
def taken (s : Bus) : Option Client :=
  match s.phase with
  | .take _ k => s.clients[k]?
  | _ => none

instance (s : Bus) (i : Nat) : DecidablePred (s.Attends i)
  | .publisher =>
    decidable_of_iff ((s.phase.StoresTail = true → (s.subs i).alive = true → s.SleepsFlagged i = true →
      (s.subs i).cursor ≤ s.chan.ring.tail → ∃ c ∈ s.clients, c.sub = i) ∧
      ∀ c ∈ s.taken, c.cursorIdx = (s.subs i).cursorIdx → (s.subs i).alive = true → s.SleepsFlagged i = true →
        (s.subs i).cursor < s.chan.ring.tail → c.sub = i)
      (by
        unfold Attends taken
        refine and_congr_right fun _ => ?_
        cases s.phase <;> simp)
  | .sub _ _ | .begin _ | .timeout | .drop | .closeSock _ => .isTrue trivial

theorem sleepsFlagged_iff {i : Nat} : s.SleepsFlagged i = true ↔ (s.subs i).pc.Asleep = true ∧ s.Flagged i := by
  rw [SleepsFlagged, Bool.and_eq_true, beq_iff_eq, Flagged]

/-- Who is awake is attended to. -/
theorem attends_of_awake {i : Nat} (h : (s.subs i).pc.Asleep = false) (a : Act) : s.Attends i a := by
  have hno : s.SleepsFlagged i = false := by rw [SleepsFlagged, h, Bool.false_and]
  unfold Attends
  split
  · refine ⟨fun _ _ hsleep => ?_, ?_⟩
    · rw [hno] at hsleep
      cases hsleep
    · split
      · intro c _ _ _ hsleep
        rw [hno] at hsleep
        cases hsleep
      · trivial
  · trivial

/-! ### What a step of the publisher does -/

theorem wakes_of_firing {i : Nat} (h : s.Firing i) : s.Wakes i = true := by
  cases hphase : s.phase with
  | fire result k =>
    simp only [Firing, hphase] at h
    obtain ⟨c, hk, hc⟩ := h
    simp only [Wakes, hphase, hk, Option.any_some, beq_iff_eq]
    exact hc
  | _ =>
    simp only [Firing, hphase] at h

/-- The tail moves where a call stores it, by one. -/
theorem storesTail_of_lt (hinv : s.Inv) (he : PublisherEffect s s') (hlt : s.chan.ring.tail < s'.chan.ring.tail) :
    s.phase.StoresTail = true ∧ s'.chan.ring.tail = s.chan.ring.tail + 1 := by
  obtain ⟨chan, pc, flags, hstep, hchan, -⟩ := he.chan
  rw [hchan] at hlt ⊢
  rcases hstep with ⟨rfl, -⟩ | hstep
  · exact absurd hlt (lt_irrefl _)
  · have hpc : pc = .returned true := by
      by_contra hne
      rw [PublishPc.tail_step hstep hne] at hlt
      exact lt_irrefl _ hlt
    rw [hpc] at hstep
    obtain ⟨data, tail, hring⟩ := PublishPc.storeTail_of_returned hstep
    refine ⟨?_, ?_⟩
    swap
    · rw [hring] at hstep
      simp only [PublishPc.step, Option.some.injEq, Prod.mk.injEq, and_true] at hstep
      rw [← hstep, hinv.publish.target_tail data tail (by rw [hring]; rfl)]
      rfl
    cases hphase : s.phase with
    | publishing | publishingMany =>
      rw [hphase] at hring
      cases hring
      rfl
    | _ =>
      rw [hphase] at hring
      cases hring

/-- The publisher sets no flag. -/
theorem flag_of_publisherStep (hs : s.publisherStep = some s') {j : Nat}
    (h : s'.chan.ring.wakeflags j = WAKEFLAG_WAITING) : s.chan.ring.wakeflags j = WAKEFLAG_WAITING := by
  -- inside a ring call
  have ring : ∀ {chan : Channel} {pc pc' : PublishPc}, pc.step s.chan = some (chan, pc') → s'.chan = chan →
      s.chan.ring.wakeflags j = WAKEFLAG_WAITING := by
    intro chan pc pc' hstep hchan
    rw [hchan, (PublishPc.frame_step hstep).2.2.2.2.1] at h
    exact h
  unfold publisherStep at hs
  cases hphase : s.phase with
  | idle | dropped => simp [hphase] at hs
  | accept call =>
    simp only [hphase] at hs
    split at hs
    · cases hs
      exact h
    · cases call with
      | publish data =>
        simp only [afterAccept] at hs
        split at hs
        · cases hs
          exact h
        · cases hs
      | publishMany items =>
        rw [(nextItem_frame hs).1] at h
        exact h
      | waitForSubscribers minCount =>
        simp only [afterAccept, Option.some.injEq] at hs
        subst hs
        split at h <;> exact h
  | recvFd call i =>
    simp only [hphase] at hs
    split at hs
    · cases hs
      exact h
    · split at hs
      · cases hs
        exact h
      · cases hs
  | publishing pc =>
    simp only [hphase] at hs
    split at hs
    · rename_i chan hstep
      cases hs
      exact ring hstep rfl
    · rename_i chan hstep
      cases hs
      exact ring hstep rfl
    · rename_i chan pc' _ _ hstep
      cases hs
      exact ring hstep rfl
    · cases hs
  | publishingMany rest count pc =>
    simp only [hphase] at hs
    split at hs
    · rename_i chan hstep
      exact ring hstep (nextItem_frame hs).1
    · rename_i chan hstep
      cases hs
      exact ring hstep (finishMany_frame ..).1
    · rename_i chan pc' _ _ hstep
      cases hs
      exact ring hstep rfl
    · cases hs
  | probe result k =>
    simp only [hphase] at hs
    split at hs
    · split at hs
      · cases hs
        exact h
      · cases hs
        exact h
    · cases hs
  | take result k =>
    simp only [hphase] at hs
    split at hs
    · rename_i c hk
      have hring : s'.chan.ring = s.chan.ring.setFlagWord c.cursorIdx 0 := by
        simp only [Option.some.injEq] at hs
        subst hs
        split <;> rfl
      rw [hring, setFlagWord_wakeflags] at h
      split at h
      · exact absurd h (by decide)
      · exact h
    · cases hs
  | fire result k =>
    simp only [hphase] at hs
    split at hs
    · cases hs
      exact h
    · cases hs

theorem mem_swapRemove_of_ne {α : Type*} {l : List α} {k : Nat} {x y : α} (hx : x ∈ l) (hk : l[k]? = some y)
    (hne : x ≠ y) : x ∈ swapRemove l k := by
  obtain ⟨m, hm⟩ := List.getElem?_of_mem hx
  have hmk : m ≠ k := by
    rintro rfl
    exact hne (Option.some.inj (hm.symm.trans hk))
  have hlt : m < l.length := (List.getElem?_eq_some_iff.1 hm).1
  have hklt : k < l.length := (List.getElem?_eq_some_iff.1 hk).1
  by_cases hlast : m + 1 < l.length
  · exact List.mem_of_getElem? (by rw [getElem?_swapRemove, if_pos hlast, if_neg hmk, hm])
  · -- the last element has moved to `k`
    have hmoved : (swapRemove l k)[k]? = some x := by
      rw [getElem?_swapRemove, if_pos (by omega), if_pos rfl, List.getLast?_eq_getElem?,
        show l.length - 1 = m by omega, hm]
    exact List.mem_of_getElem? hmoved

/-- Only a client whose subscriber has released its entry is removed. -/
theorem accepted_kept (hconn : s.Connections) (hinv : s.Inv) (hc : ConnEffect s s') {i : Nat} (hacc : s.Accepted i)
    (hholds : (s.subs i).pc.stage.Holds = true) : s'.Accepted i := by
  obtain ⟨c, hmem, rfl⟩ := hacc
  cases hc with
  | keep clients | accept _ _ _ _ _ clients | refuse _ _ _ _ clients | close _ _ _ _ clients =>
    exact ⟨c, clients ▸ hmem, rfl⟩
  | join _ _ _ _ _ clients => exact ⟨c, clients ▸ List.mem_append_left _ hmem, rfl⟩
  | reap at_k free _ _ _ clients =>
    refine ⟨c, clients ▸ mem_swapRemove_of_ne hmem at_k ?_, rfl⟩
    rintro rfl
    rw [hconn.out_of_free hinv hmem free] at hholds
    cases hholds

/-- Outside the accesses of the publisher and the subscribers the ring is left alone. -/
theorem chan_of_step {a : Act} (ha : ∀ i choice, a ≠ .sub i choice) (hpub : a ≠ .publisher)
    (hs : s.step a = some s') : s'.chan = s.chan := by
  cases a with
  | sub i choice => exact absurd rfl (ha i choice)
  | publisher => exact absurd rfl hpub
  | begin call =>
    simp only [step] at hs
    split at hs
    · cases hs
      unfold beginCall
      split
      · split <;> rfl
      · rfl
    · cases hs
  | timeout | closeSock =>
    simp only [step] at hs
    split at hs
    · split at hs
      · cases hs
        rfl
      · cases hs
    · cases hs
  | drop =>
    simp only [step] at hs
    split at hs
    · cases hs
      rfl
    · cases hs

/-- No step but a subscriber's sets a flag. -/
theorem flagged_of_step {a : Act} (ha : ∀ i choice, a ≠ .sub i choice) (hs : s.step a = some s')
    (he : PublisherEffect s s') {i : Nat} (h : s'.Flagged i) : s.Flagged i := by
  rw [Flagged, (he.fields i).2.2.2.1] at h
  by_cases hpub : a = .publisher
  · subst hpub
    exact flag_of_publisherStep hs h
  · rwa [chan_of_step ha hpub hs] at h

/-! ### The wakeup that a call owes -/

/-- The publisher fires the subscriber's eventfd next, or the broadcast has still to come to its client and finds the
flag set. -/
def Owes (s : Bus) (i : Nat) : Prop := s.Firing i ∨ s.Flagged i ∧ s.Accepted i ∧ s.Ahead i

theorem holds_of_asleep {pc : SubscriberPc} (h : pc.Asleep = true) : pc.stage.Holds = true := by
  cases pc <;> first | rfl | cases h

/-- What is owed to a sleeper is owed after the step, or the step is the wakeup. -/
theorem owes_step {a : Act} (hconn : s.Connections) (hinv : s.Inv) (hw : WakeEffect s s' a) (hc : ConnEffect s s')
    (he : PublisherEffect s s') {i : Nat} (ha : s.Attends i a) (halive : (s.subs i).alive = true)
    (hsleep : (s.subs i).pc.Asleep = true) (hlt : (s.subs i).cursor < s.chan.ring.tail) (h : s.Owes i) :
    s'.Owes i ∨ a = .publisher ∧ s.Wakes i = true := by
  have hholds := holds_of_asleep hsleep
  have hidx : (s'.subs i).cursorIdx = (s.subs i).cursorIdx := (he.fields i).2.2.2.1
  cases hw with
  | quiet fire efd flags clients ahead =>
    obtain ⟨hset, hacc, hahead⟩ := h.resolve_left (fire i)
    have hacc' := accepted_kept hconn hinv hc hacc hholds
    refine .inl (.inr ⟨?_, hacc', ahead i hacc' hholds hset (.inl hahead)⟩)
    rw [Flagged, hidx]
    exact flags _ hset
  | join phase =>
    rcases h with hfire | ⟨-, -, hahead⟩
    · simp [Firing, phase] at hfire
    · simp [Ahead, phase] at hahead
  | @take result k c phase phase' at_k set ring subs clients =>
    have hnofire : ¬s.Firing i := by simp [Firing, phase]
    obtain ⟨hset, hacc, hahead⟩ := h.resolve_left hnofire
    by_cases hown : c.sub = i
    · refine .inl (.inl ?_)
      simp only [Firing, phase', clients]
      exact ⟨c, at_k, hown⟩
    · have hother : (s.subs i).cursorIdx ≠ c.cursorIdx := by
        intro heq
        have hattends := ha.2
        simp only [phase] at hattends
        exact hown (hattends c at_k heq.symm halive (sleepsFlagged_iff.2 ⟨hsleep, hset⟩) hlt)
      simp only [Ahead, phase] at hahead
      obtain ⟨m, d, hkm, hm, hd⟩ := hahead
      have hmk : m ≠ k := by
        rintro rfl
        rw [at_k] at hm
        cases hm
        exact hown hd
      refine .inl (.inr ⟨?_, accepted_kept hconn hinv hc hacc hholds, ?_⟩)
      · rw [Flagged, ring, subs, setFlagWord_wakeflags, if_neg hother]
        exact hset
      · simp only [Ahead, phase']
        exact ⟨m, d, by omega, by rw [clients, hm], hd⟩
  | @fire result k c phase at_k chan efd others clients ahead =>
    rcases h with hfire | ⟨hset, hacc, hahead⟩
    · exact .inr ⟨rfl, wakes_of_firing hfire⟩
    · refine .inl (.inr ⟨?_, accepted_kept hconn hinv hc hacc hholds, ahead i hahead⟩)
      rw [Flagged, hidx, chan]
      exact hset

/-- A call that stores the tail over the cursor of a sleeper owes it a wakeup. -/
theorem owes_of_storesTail {a : Act} (hconn : s.Connections) (hinv : s.Inv) (hw : WakeEffect s s' a)
    (hc : ConnEffect s s') (he : PublisherEffect s s') {i : Nat} (hacc : s.Accepted i)
    (hsleep : s.SleepsFlagged i = true) (hlt : s.chan.ring.tail < s'.chan.ring.tail) : s'.Owes i := by
  obtain ⟨hasleep, hset⟩ := sleepsFlagged_iff.1 hsleep
  have hholds := holds_of_asleep hasleep
  cases hw with
  | quiet fire efd flags clients ahead =>
    have hacc' := accepted_kept hconn hinv hc hacc hholds
    refine .inr ⟨?_, hacc', ahead i hacc' hholds hset (.inr hlt)⟩
    rw [Flagged, (he.fields i).2.2.2.1]
    exact flags _ hset
  | join _ chan =>
    rw [chan] at hlt
    exact absurd hlt (lt_irrefl _)
  | take _ _ _ _ ring =>
    rw [ring, setFlagWord_tail] at hlt
    exact absurd hlt (lt_irrefl _)
  | fire _ _ chan =>
    rw [chan] at hlt
    exact absurd hlt (lt_irrefl _)

/-- Nobody falls asleep with messages unread. -/
theorem not_asleep_of_step {i : Nat} (hclear : ∀ call, (s.subs i).pc ≠ .clearFlag call .armed) {choice : Choice}
    {ring : RingBuffer} {sub : Subscriber} (hs : (s.subs i).step s.chan.ring s.listening choice = some (ring, sub))
    (halive : sub.alive = true) (hsleep : sub.pc.Asleep = true) : ring.tail ≤ sub.cursor := by
  rcases Subscriber.waiting_step hclear hs ⟨halive, .inl hsleep⟩ with
    ⟨call, hpc, hle, rfl, heq⟩ | ⟨call, hpc, rfl, rfl⟩
  · rw [heq]
    exact hle
  · cases hsleep

end Bus

/-! ### The record of a call -/

/-- The bus, who was connected and who slept with its flag set when the call in progress or the last one last stored
the tail, and whom the call has woken -/
structure CallRecord where
  bus : Bus
  connected : Nat → Bool
  asleep : Nat → Bool
  woken : Nat → Bool

namespace CallRecord

def init (r : RingBuffer) (backpressure : BackpressurePolicy) : CallRecord :=
  ⟨.init r backpressure, fun _ => false, fun _ => false, fun _ => false⟩

/-- What is recorded of a step after which the bus is `bus` -/
def record (o : CallRecord) (bus : Bus) : Act → CallRecord
  | .begin _ => ⟨bus, fun _ => false, fun _ => false, fun _ => false⟩
  | .publisher =>
    if o.bus.chan.ring.tail < bus.chan.ring.tail then
      ⟨bus, fun i => (o.bus.subs i).pc.Connected, o.bus.SleepsFlagged, o.woken⟩
    else { o with bus := bus, woken := fun i => o.woken i || o.bus.Wakes i }
  | _ => { o with bus := bus }

def step (o : CallRecord) (a : Act) : Option CallRecord :=
  (o.bus.step a).map fun bus => o.record bus a

/-- When a call has returned, it has woken every subscriber that was connected before the call last stored the tail
and is asleep with messages unread, with its flag set now or at that store. -/
def WokenByCall (o : CallRecord) : Prop :=
  match o.bus.phase with
  | .idle _ => ∀ i, o.connected i = true → (o.bus.subs i).alive = true → (o.bus.subs i).pc.Asleep = true →
      o.asleep i = true ∨ o.bus.Flagged i → (o.bus.subs i).cursor < o.bus.chan.ring.tail → o.woken i = true
  | _ => True

/-- Every subscriber is attended to. -/
def Attentive (o : CallRecord) (a : Act) : Prop := ∀ i, o.bus.Attends i a

variable {o o' : CallRecord}

theorem step_eq_some {a : Act} : o.step a = some o' ↔ ∃ bus, o.bus.step a = some bus ∧ o' = o.record bus a := by
  rw [step, Option.map_eq_some_iff]
  exact exists_congr fun bus => and_congr_right fun _ => eq_comm

@[simp] theorem record_bus (bus : Bus) (a : Act) : (o.record bus a).bus = bus := by
  cases a with
  | publisher =>
    simp only [record]
    split <;> rfl
  | _ => rfl

structure Inv (o : CallRecord) : Prop where
  inv : o.bus.Inv
  connections : o.bus.Connections
  clear : ∀ i call, (o.bus.subs i).pc ≠ .clearFlag call .armed
  /-- Who sleeps with messages unread slept when they were published. -/
  slept : ∀ i, o.connected i = true → (o.bus.subs i).alive = true → (o.bus.subs i).pc.Asleep = true →
    o.bus.Flagged i → (o.bus.subs i).cursor < o.bus.chan.ring.tail → o.asleep i = true
  owed : ∀ i, o.asleep i = true → (o.bus.subs i).alive = true → (o.bus.subs i).pc.Asleep = true →
    (o.bus.subs i).cursor < o.bus.chan.ring.tail → o.woken i = true ∨ o.bus.Owes i

theorem Inv.init {r : RingBuffer} {backpressure : BackpressurePolicy} (hr : r.Started) :
    (init r backpressure).Inv where
  inv := Bus.Inv.init hr
  connections := Bus.Connections.init
  clear _ _ h := by cases h
  slept _ h := by cases h
  owed _ h := by cases h

/-- A step of a subscriber -/
private theorem Inv.subscriber (h : o.Inv) {i : Nat} {choice : Choice} {ring : RingBuffer} {sub : Subscriber}
    (hs : (o.bus.subs i).step o.bus.chan.ring o.bus.listening choice = some (ring, sub)) :
    Inv { o with bus := { o.bus with
      chan := { o.bus.chan with ring := ring }
      subs := Function.update o.bus.subs i sub
      backlog := if (o.bus.subs i).pc = .connectSock ∧ sub.pc = .sendFd then o.bus.backlog ++ [i]
        else o.bus.backlog } } := by
  obtain ⟨cursors, flags, hring, -, hflags⟩ := (Subscriber.step_effect hs).frame
  have htail : ring.tail = o.bus.chan.ring.tail := by rw [hring]
  -- the flags of the other subscribers that sleep stay
  have others : ∀ k, k ≠ i → (o.bus.subs k).pc.Asleep = true →
      ring.wakeflags (o.bus.subs k).cursorIdx = o.bus.chan.ring.wakeflags (o.bus.subs k).cursorIdx := by
    intro k hki hk
    by_contra hne
    rw [hring] at hne
    obtain ⟨hi, hidx⟩ := hflags _ hne
    exact h.inv.distinct k i hki (Bus.holds_of_asleep hk) hi hidx
  have awake : ∀ {P : Prop}, sub.alive = true → sub.pc.Asleep = true → sub.cursor < ring.tail → P :=
    fun halive hsleep hlt => absurd (Bus.not_asleep_of_step (h.clear i) hs halive hsleep) (Nat.not_le.2 hlt)
  refine ⟨h.inv.subscriber hs, h.connections.subscriber hs, fun k call => ?_, fun k hcon halive hsleep hset hlt => ?_,
    fun k hasleep halive hsleep hlt => ?_⟩
  · by_cases hki : k = i
    · subst hki
      intro hpc
      simp only [Function.update_self] at hpc
      exact h.clear k call (Subscriber.clear_step hs hpc)
    · simpa [Function.update_of_ne hki] using h.clear k call
  · by_cases hki : k = i
    · subst hki
      simp only [Function.update_self] at halive hsleep hlt
      exact awake halive hsleep hlt
    · simp only [Bus.Flagged, Function.update_of_ne hki] at halive hsleep hlt hset
      rw [others k hki hsleep] at hset
      exact h.slept k hcon halive hsleep hset (htail ▸ hlt)
  · by_cases hki : k = i
    · subst hki
      simp only [Function.update_self] at halive hsleep hlt
      exact awake halive hsleep hlt
    · simp only [Function.update_of_ne hki] at halive hsleep hlt
      refine (h.owed k hasleep halive hsleep (htail ▸ hlt)).imp_right fun howes => howes.imp_right ?_
      rintro ⟨hset, hrest⟩
      refine ⟨?_, hrest⟩
      simp only [Bus.Flagged, Function.update_of_ne hki]
      rwa [others k hki hsleep]

/-- A step that is not a subscriber's and leaves the tail -/
private theorem Inv.kept {a : Act} {bus : Bus} {woken : Nat → Bool} (h : o.Inv) (ha : o.Attentive a)
    (hne : ∀ i choice, a ≠ .sub i choice) (hs : o.bus.step a = some bus) (he : PublisherEffect o.bus bus)
    (htail : bus.chan.ring.tail = o.bus.chan.ring.tail)
    (hwoken : ∀ i, o.woken i = true ∨ a = .publisher ∧ o.bus.Wakes i = true → woken i = true) :
    Inv { o with bus := bus, woken := woken } := by
  have hw := Bus.step_wake h.connections h.inv hne hs
  have hc := Bus.step_conn hne hs
  refine ⟨h.inv.publisher he, h.connections.publisher h.inv he hc, fun i call => (he.fields i).1 ▸ h.clear i call,
    fun i hcon halive hsleep hset hlt => ?_, fun i hasleep halive hsleep hlt => ?_⟩
  all_goals
    rw [(he.fields i).2.1] at halive
    rw [(he.fields i).1] at hsleep
    rw [(he.fields i).2.2.1, htail] at hlt
  · exact h.slept i hcon halive hsleep (Bus.flagged_of_step hne hs he hset) hlt
  · rcases h.owed i hasleep halive hsleep hlt with hdone | howes
    · exact .inl (hwoken i (.inl hdone))
    · rcases Bus.owes_step h.connections h.inv hw hc he (ha i) halive hsleep hlt howes with hstill | hwakes
      · exact .inr hstill
      · exact .inl (hwoken i (.inr hwakes))

/-- The store of a tail -/
private theorem Inv.stored {bus : Bus} (h : o.Inv) (ha : o.Attentive .publisher)
    (hs : o.bus.step .publisher = some bus) (he : PublisherEffect o.bus bus)
    (hlt : o.bus.chan.ring.tail < bus.chan.ring.tail) :
    Inv ⟨bus, fun i => (o.bus.subs i).pc.Connected, o.bus.SleepsFlagged, o.woken⟩ := by
  have hne : ∀ i choice, Act.publisher ≠ .sub i choice := fun i choice => Act.noConfusion
  have hw := Bus.step_wake h.connections h.inv hne hs
  have hc := Bus.step_conn hne hs
  obtain ⟨hstores, htail⟩ := Bus.storesTail_of_lt h.inv he hlt
  refine ⟨h.inv.publisher he, h.connections.publisher h.inv he hc, fun i call => (he.fields i).1 ▸ h.clear i call,
    fun i hcon halive hsleep hset _ => ?_, fun i hasleep halive hsleep hcursor => ?_⟩
  · rw [(he.fields i).1] at hsleep
    exact Bus.sleepsFlagged_iff.2 ⟨hsleep, Bus.flagged_of_step hne hs he hset⟩
  · rw [(he.fields i).2.1] at halive
    rw [(he.fields i).2.2.1, htail] at hcursor
    have hacc : o.bus.Accepted i := (ha i).1 hstores halive hasleep (by omega)
    exact .inr (Bus.owes_of_storesTail h.connections h.inv hw hc he hacc hasleep hlt)

theorem Inv.step {a : Act} (h : o.Inv) (ha : o.Attentive a) (hs : o.step a = some o') : o'.Inv := by
  obtain ⟨bus, hbus, rfl⟩ := step_eq_some.1 hs
  rcases Bus.step_cases h.inv.fits hbus with ⟨i, choice, ring, sub, rfl, hsub, rfl⟩ | ⟨hne, he⟩
  · exact h.subscriber hsub
  · have kept : a ≠ .publisher → Inv { o with bus := bus } := fun hpub =>
      h.kept ha hne hbus he (by rw [Bus.chan_of_step hne hpub hbus])
        fun i hi => hi.resolve_right fun hwakes => hpub hwakes.1
    cases a with
    | sub i choice => exact absurd rfl (hne i choice)
    | begin call =>
      have hkept := kept Act.noConfusion
      exact ⟨hkept.inv, hkept.connections, hkept.clear, fun i hcon => Bool.noConfusion hcon,
        fun i hasleep => Bool.noConfusion hasleep⟩
    | publisher =>
      by_cases hlt : o.bus.chan.ring.tail < bus.chan.ring.tail
      · rw [record, if_pos hlt]
        exact h.stored ha hbus he hlt
      · rw [record, if_neg hlt]
        have hle := (h.inv.publisher_ring he).2.2.2.2.2
        refine h.kept ha hne hbus he (by omega) fun i hi => ?_
        rw [Bool.or_eq_true]
        exact hi.imp_right And.right
    | timeout | drop | closeSock => exact kept Act.noConfusion

/-- Between two calls nothing is owed. -/
theorem Inv.wakesAll (h : o.Inv) : o.WokenByCall := by
  unfold WokenByCall
  split
  · rename_i last hphase
    intro i hcon halive hsleep hflag hlt
    have hasleep : o.asleep i = true := hflag.elim id fun hset => h.slept i hcon halive hsleep hset hlt
    refine (h.owed i hasleep halive hsleep hlt).resolve_right fun howes => ?_
    rcases howes with hfire | ⟨-, -, hahead⟩
    · simp [Bus.Firing, hphase] at hfire
    · simp [Bus.Ahead, hphase] at hahead
  · trivial

/-- In every run in which every subscriber is attended to, each call has woken the subscribers that were asleep when
it last stored the tail. -/
theorem wokenByCall {r : RingBuffer} {backpressure : BackpressurePolicy} (hr : r.Started) {acts : List Act}
    (hmeets : Meets step Attentive (init r backpressure) acts) (hrun : run step (init r backpressure) acts = some o) :
    o.WokenByCall :=
  (run_invariant_when Inv Attentive (fun _ _ _ h ha hs => h.step ha hs) hmeets (Inv.init hr) hrun).wakesAll

/-! ### Runs of one subscriber -/

theorem run_bus {as : List Act} (h : run step o as = some o') : run Bus.step o.bus as = some o'.bus := by
  induction as generalizing o with
  | nil =>
    cases h
    rfl
  | cons a as ih =>
    obtain ⟨o₁, h₁, h₂⟩ := run_cons.1 h
    obtain ⟨bus, hbus, rfl⟩ := step_eq_some.1 h₁
    have hrest := ih h₂
    rw [record_bus] at hrest
    exact run_cons.2 ⟨bus, hbus, hrest⟩

/-- A single subscriber is all there is to attend to. -/
theorem meets_attentive_of_alone {r : RingBuffer} {backpressure : BackpressurePolicy} (hr : r.Started)
    {acts : List Act} (halone : ∀ a ∈ acts, Bus.Alone a = true)
    (hzero : Meets step (fun o a => o.bus.Attends 0 a) (init r backpressure) acts) :
    Meets step Attentive (init r backpressure) acts := by
  have hothers : Meets step (fun o _ => ∀ i, i ≠ 0 → (o.bus.subs i).pc = .absent) (init r backpressure) acts := by
    refine Meets.of_split fun before a after o₁ hacts hrun => ?_
    refine (Bus.absent_of_alone hr (fun b hb => halone b ?_) (run_bus hrun)).2.2
    rw [hacts]
    exact List.mem_append_left _ hb
  refine (hzero.and hothers).mono fun o a h i => ?_
  obtain ⟨hattends, habsent⟩ := h
  by_cases hi : i = 0
  · exact hi ▸ hattends
  · refine Bus.attends_of_awake ?_ a
    rw [habsent i hi]
    rfl

/-- The subscriber of `wokenByPublish` is woken by the call that publishes. -/
theorem wokenByCall_wokenByPublish : ∃ o, run step (init (create 2 4 1) .error) Bus.wokenByPublish = some o ∧
    o.connected 0 = true ∧ o.asleep 0 = true ∧ (o.bus.subs 0).pc = .poll (.receive false) ∧
    (o.bus.subs 0).cursor < o.bus.chan.ring.tail ∧ o.woken 0 = true ∧ o.WokenByCall := by
  obtain ⟨o, hrun, ho⟩ := Option.map_eq_some_iff.1
    (show (run step (init (create 2 4 1) .error) Bus.wokenByPublish).map (fun o =>
        (o.connected 0, o.asleep 0, (o.bus.subs 0).pc, (o.bus.subs 0).cursor, o.bus.chan.ring.tail, o.woken 0)) =
      some (true, true, .poll (.receive false), 0, 1, true) by decide)
  simp only [Prod.mk.injEq] at ho
  obtain ⟨hconnected, hasleep, hpc, hcursor, htail, hwoken⟩ := ho
  exact ⟨o, hrun, hconnected, hasleep, hpc, by omega, hwoken, wokenByCall (Bus.started_create (by decide))
    (meets_attentive_of_alone (Bus.started_create (by decide)) (by decide) (by decide)) hrun⟩

/-- The subscriber connects and goes to sleep while `publish([7])` is behind its loop that accepts connections. -/
def lateSleeper : List Act :=
  .begin (.publish [7]) :: .publisher :: Bus.connectActs 0 ++ List.replicate 3 (.sub 0 .go) ++
    .sub 0 (.call (.receive false)) :: List.replicate 3 (.sub 0 .go) ++ List.replicate 7 .publisher

/-- A call has returned without waking the subscriber `i`, which slept with its flag set before the last store of the
tail and sleeps on so, with messages unread. -/
def Overslept (o : CallRecord) (i : Nat) : Bool :=
  o.connected i && (o.bus.subs i).alive && o.bus.SleepsFlagged i &&
    decide ((o.bus.subs i).cursor < o.bus.chan.ring.tail) && !o.woken i &&
    match o.bus.phase with
    | .idle _ => true
    | _ => false

theorem not_wokenByCall {i : Nat} (h : o.Overslept i = true) : ¬o.WokenByCall := by
  simp only [Overslept, Bool.and_eq_true, decide_eq_true_eq, Bool.not_eq_true'] at h
  obtain ⟨⟨⟨⟨⟨hcon, halive⟩, hsleeps⟩, hlt⟩, hwoken⟩, hphase⟩ := h
  obtain ⟨hsleep, hset⟩ := Bus.sleepsFlagged_iff.1 hsleeps
  intro hall
  unfold WokenByCall at hall
  split at hall
  · have hwakes := hall i hcon halive hsleep (.inr hset) hlt
    rw [hwoken] at hwakes
    cases hwakes
  · rename_i hidle
    split at hphase
    · rename_i last heq
      exact hidle last heq
    · cases hphase

/-- The call returns, and the subscriber sleeps on with its flag set and the message unread. -/
theorem wokenByCall_fails :
    ∃ o, run step (init (create 2 4 1) .error) lateSleeper = some o ∧ o.Overslept 0 = true ∧ ¬o.WokenByCall := by
  obtain ⟨o, hrun, ho⟩ := Option.map_eq_some_iff.1
    (show (run step (init (create 2 4 1) .error) lateSleeper).map (Overslept · 0) = some true by decide)
  exact ⟨o, hrun, ho, not_wokenByCall ho⟩

end CallRecord

end Mmbus
