import Mmbus.Acceptance

/-!
# Drain before end of stream

`poll_wakeup` looks at the hang-up before the eventfd, so a subscriber that is inside `poll` with unread messages when
the publisher's end of its socket closes can end with messages undelivered.  `endsDrained_iff`: that is the only way,
once no subscriber is overtaken before it shows its position.
-/

namespace Mmbus

open RingBuffer Transition

/-- The subscriber has recorded the generation it is connected to. -/
def SubscriberPc.Knows (pc : SubscriberPc) : Bool :=
  pc.stage = .live && pc ≠ .readGeneration

/-- The call is about to return `UnexpectedEof`, or has returned it. -/
def SubscriberPc.Ending : SubscriberPc → Bool
  | clearFlag _ .eof | ready .eof => true
  | _ => false

/-- The subscriber has found nothing in the ring after it set its flag, and waits for a descriptor. -/
def SubscriberPc.InPoll : SubscriberPc → Bool
  | poll _ => true
  | _ => false

namespace Subscriber

variable {s s' : Subscriber} {r r' : RingBuffer} {listening : Bool} {choice : Choice}

theorem live_of_inPoll {pc : SubscriberPc} (h : pc.InPoll = true) : pc.stage = .live := by
  cases pc <;> first | rfl | cases h

@[simp] theorem inPoll_afterReceive (call : Call) (pc : ReceivePc) : (s.afterReceive call pc).pc.InPoll = false := by
  unfold afterReceive
  split
  · rfl
  · split <;> rfl
  · rfl

@[simp] theorem inPoll_afterWait (call : Call) (outcome : Outcome) : (s.afterWait call outcome).InPoll = false := by
  unfold afterWait
  split <;> rfl

/-- A subscriber goes into `poll` from a look at the ring that found nothing. -/
theorem inPoll_step (hs : s.step r listening choice = some (r', s')) (h : s'.pc.InPoll = true)
    (halive : s'.alive = true) : r.tail ≤ s'.cursor := by
  obtain ⟨-, ⟨-, hgo⟩ | ⟨rfl, hd⟩⟩ := step_cases hs
  · cases hpc : s.pc with
    | receiving call pc =>
      simp only [go, hpc] at hgo
      split at hgo
      · cases hgo
        simp at h
      · cases hgo
    | unflag | clearFlag =>
      simp only [go, hpc] at hgo
      cases hgo
      simp at h
    | recheck call =>
      simp only [go, hpc] at hgo
      split at hgo
      · cases hgo
        cases h
      · rename_i hle
        split at hgo
        · cases hgo
          cases h
        · cases hgo
          exact not_lt.1 hle
    | _ =>
      simp only [go, hpc] at hgo
      first
        | (cases hgo <;> cases h)
        | (split at hgo <;> first | (cases hgo <;> cases h) | (split at hgo <;> cases hgo <;> cases h))
  · cases hd with
    | kill => cases halive
    | call =>
      rename_i call last hpc
      cases call <;> cases h
    | _ => cases h

/-- The hang-up is reported by `poll`. -/
theorem inPoll_of_pollHup (hs : s.step r listening .pollHup = some (r', s')) :
    s.alive = true ∧ s.pc.InPoll = true := by
  obtain ⟨halive, ⟨hgo, -⟩ | ⟨-, hd⟩⟩ := step_cases hs
  · cases hgo
  · cases hd with
    | pollHup hpc => exact ⟨halive, by rw [hpc]; rfl⟩

theorem live_of_ending {pc : SubscriberPc} (h : pc.Ending = true) : pc.stage = .live := by
  cases pc <;> first | rfl | cases h

@[simp] theorem ending_afterReceive (call : Call) (pc : ReceivePc) : (s.afterReceive call pc).pc.Ending = false := by
  unfold afterReceive
  split
  · rfl
  · split <;> rfl
  · rfl

theorem ending_afterWait {call : Call} {outcome : Outcome} (h : (s.afterWait call outcome).Ending = true) :
    outcome = .eof := by
  unfold afterWait at h
  split at h
  · cases h
  · cases h
  · cases outcome <;> first | rfl | cases h

/-- How a call comes to its `UnexpectedEof`: by the hang-up, or by a change of the generation. -/
theorem ending_step (hs : s.step r listening choice = some (r', s')) (h : s'.pc.Ending = true) :
    s'.cursor = s.cursor ∧
      (s.pc.Ending = true ∨ choice = .pollHup ∧ s.hup = true ∨
        s.pc.Knows = true ∧ r.generation ≠ s.generation) := by
  obtain ⟨-, ⟨-, hgo⟩ | ⟨rfl, hd⟩⟩ := step_cases hs
  · cases hpc : s.pc with
    | receiving call pc =>
      simp only [go, hpc] at hgo
      split at hgo
      · cases hgo
        simp at h
      · cases hgo
    | unflag call =>
      simp only [go, hpc] at hgo
      cases hgo
      cases ending_afterWait h
    | clearFlag call outcome =>
      simp only [go, hpc] at hgo
      cases hgo
      obtain rfl := ending_afterWait h
      exact ⟨rfl, .inl rfl⟩
    | checkGeneration call =>
      simp only [go, hpc] at hgo
      split at hgo <;> split at hgo <;> cases hgo
      · cases h
      · rename_i hne
        exact ⟨rfl, .inr (.inr ⟨rfl, hne⟩)⟩
      · cases h
      · rename_i hne
        exact ⟨rfl, .inr (.inr ⟨rfl, hne⟩)⟩
    | _ =>
      simp only [go, hpc] at hgo
      first
        | (cases hgo <;> cases h)
        | (split at hgo <;> first | (cases hgo <;> cases h) | (split at hgo <;> cases hgo <;> cases h))
  · cases hd with
    | pollHup hpc hhup => exact ⟨rfl, .inr (.inl ⟨rfl, hhup⟩)⟩
    | kill => exact ⟨rfl, .inl h⟩
    | call =>
      rename_i call last hpc
      cases call <;> cases h
    | _ => cases h

@[simp] theorem generation_afterReceive (call : Call) (pc : ReceivePc) :
    (s.afterReceive call pc).generation = s.generation := by
  unfold afterReceive
  split
  · rfl
  · split <;> rfl
  · rfl

theorem knows_step (hs : s.step r listening choice = some (r', s')) (h : s'.pc.Knows = true) :
    s.pc.Knows = true ∧ s'.generation = s.generation ∨ s'.generation = r.generation := by
  obtain ⟨-, ⟨-, hgo⟩ | ⟨rfl, hd⟩⟩ := step_cases hs
  · cases hpc : s.pc with
    | readGeneration =>
      simp only [go, hpc] at hgo
      cases hgo
      exact .inr rfl
    | receiving call pc =>
      simp only [go, hpc] at hgo
      split at hgo
      · cases hgo
        exact .inl ⟨rfl, generation_afterReceive ..⟩
      · cases hgo
    | _ =>
      simp only [go, hpc] at hgo
      first
        | (cases hgo <;> first | exact .inl ⟨rfl, rfl⟩ | cases h)
        | (split at hgo <;> first
            | (cases hgo <;> first | exact .inl ⟨rfl, rfl⟩ | cases h)
            | (split at hgo <;> cases hgo <;> first | exact .inl ⟨rfl, rfl⟩ | cases h))
  · cases hd with
    | kill => exact .inl ⟨h, rfl⟩
    | connect | noRing | noSocket => cases h
    | call hpc | deadline hpc | timeout hpc | pollWake hpc | pollHup hpc | drop hpc => exact .inl ⟨by rw [hpc]; rfl, rfl⟩

end Subscriber

/-! ### The invariant -/

namespace Bus

/-- The socket of a subscriber is closed only while the subscriber is not inside `poll` with a message published since it
looked. -/
def ClosesWhenRead (s : Bus) : Act → Prop
  | .closeSock i => (s.subs i).alive = true → (s.subs i).pc.InPoll = true → s.chan.ring.tail ≤ (s.subs i).cursor
  | _ => True

instance (s : Bus) : (a : Act) → Decidable (s.ClosesWhenRead a)
  | .closeSock i => inferInstanceAs (Decidable
    ((s.subs i).alive = true → (s.subs i).pc.InPoll = true → s.chan.ring.tail ≤ (s.subs i).cursor))
  | .sub _ _ | .begin _ | .publisher | .timeout | .drop => .isTrue trivial

/-- A subscriber that ends, or that the hang-up can end, has read everything, and its publisher is gone. -/
structure Drained (s : Bus) : Prop where
  inv : s.Inv
  connections : s.Connections
  generation : ∀ i, (s.subs i).pc.Knows = true → (s.subs i).generation = s.chan.ring.generation
  inPoll : ∀ i, (s.subs i).hup = true → (s.subs i).alive = true → (s.subs i).pc.InPoll = true →
    s.chan.ring.tail ≤ (s.subs i).cursor
  ending : ∀ i, (s.subs i).pc.Ending = true → (s.subs i).hup = true ∧ s.chan.ring.tail ≤ (s.subs i).cursor

namespace Drained

variable {s s' : Bus}

theorem init {r : RingBuffer} {backpressure : BackpressurePolicy} (hr : r.Started) :
    (Bus.init r backpressure).Drained where
  inv := Inv.init hr
  connections := Connections.init
  generation _ h := (Bool.false_ne_true h).elim
  inPoll _ h := (Bool.false_ne_true h).elim
  ending _ h := (Bool.false_ne_true h).elim

/-- A publisher that has been dropped leaves the ring alone. -/
theorem tail_of_dropped (he : PublisherEffect s s') (hd : s.phase.IsDropped = true) :
    s'.chan.ring.tail = s.chan.ring.tail := by
  obtain ⟨chan, pc, flags, hstep, hchan, -⟩ := he.chan
  rw [hchan]
  have hidle : s.phase.ring = .idle := by
    cases hphase : s.phase with
    | dropped => rfl
    | _ =>
      rw [hphase] at hd
      cases hd
  rcases hstep with ⟨rfl, -⟩ | hstep
  · rfl
  · rw [hidle] at hstep
    cases hstep

/-- The socket of a subscriber that reads is closed by a dropped publisher only. -/
theorem hup_closed {a : Act} (hconn : s.Connections) (hinv : s.Inv) (hne : ∀ i choice, a ≠ .sub i choice)
    (hs : s.step a = some s') {i : Nat} (hlive : (s.subs i).pc.stage = .live) (hup : (s'.subs i).hup = true) :
    (s.subs i).hup = true ∨ a = .closeSock i ∧ s.phase.IsDropped = true := by
  rcases Connections.hup_step (step_conn hne hs) i with hsame | ⟨-, hdropped | ⟨c, hc, rfl, hfree⟩⟩
  · exact .inl (hsame ▸ hup)
  · have hphase : s.phase = .dropped := by
      cases hphase : s.phase with
      | dropped => rfl
      | _ =>
        rw [hphase] at hdropped
        cases hdropped
    cases a with
    | sub i choice => exact absurd rfl (hne i choice)
    | closeSock k =>
      by_cases hik : i = k
      · subst hik
        exact .inr ⟨rfl, hdropped⟩
      · simp only [Bus.step, hphase] at hs
        split at hs
        · cases hs
          exact .inl (by simpa [setSub, Function.update_of_ne hik] using hup)
        · cases hs
    | _ => simp [Bus.step, publisherStep, hphase] at hs
  · rw [hconn.out_of_free hinv hc hfree] at hlive
    cases hlive

/-- A step that is not a subscriber's -/
theorem publisher {a : Act} (h : s.Drained) (hne : ∀ i choice, a ≠ .sub i choice) (hcloses : s.ClosesWhenRead a)
    (hs : s.step a = some s') (he : PublisherEffect s s') : s'.Drained := by
  have hc := step_conn hne hs
  have hgen := (h.inv.publisher_ring he).2.2.2.2.1
  -- no message is published once a socket of a subscriber that reads is closed
  have htail : ∀ i, (s.subs i).hup = true → (s.subs i).pc.stage = .live → s'.chan.ring.tail = s.chan.ring.tail := by
    intro i hup hlive
    exact tail_of_dropped he ((h.connections.closed i hup).resolve_right (by simp [hlive]))
  refine ⟨h.inv.publisher he, h.connections.publisher h.inv he hc, fun i hi => ?_, fun i hup halive hpoll => ?_,
    fun i hi => ?_⟩
  · obtain ⟨hpc, -, -, -, hsame⟩ := he.fields i
    rw [hpc] at hi
    rw [hsame, hgen]
    exact h.generation i hi
  · obtain ⟨hpc, hlives, hcursor, -, -⟩ := he.fields i
    rw [hpc] at hpoll
    rw [hlives] at halive
    rw [hcursor]
    have hlive := Subscriber.live_of_inPoll hpoll
    rcases hup_closed h.connections h.inv hne hs hlive hup with hup₀ | ⟨rfl, hdropped⟩
    · rw [htail i hup₀ hlive]
      exact h.inPoll i hup₀ halive hpoll
    · rw [tail_of_dropped he hdropped]
      exact hcloses halive hpoll
  · obtain ⟨hpc, -, hcursor, -, -⟩ := he.fields i
    rw [hpc] at hi
    obtain ⟨hup, hle⟩ := h.ending i hi
    rw [hcursor, htail i hup (Subscriber.live_of_ending hi)]
    refine ⟨?_, hle⟩
    rcases Connections.hup_step hc i with hsame | ⟨hup', -⟩
    · exact hsame.trans hup
    · exact hup'

theorem subscriber (h : s.Drained) {i : Nat} {choice : Choice} {ring : RingBuffer} {sub : Subscriber}
    (hs : (s.subs i).step s.chan.ring s.listening choice = some (ring, sub)) :
    Drained { s with
      chan := { s.chan with ring := ring }
      subs := Function.update s.subs i sub
      backlog := if (s.subs i).pc = .connectSock ∧ sub.pc = .sendFd then s.backlog ++ [i] else s.backlog } := by
  obtain ⟨htail, hgen⟩ : ring.tail = s.chan.ring.tail ∧ ring.generation = s.chan.ring.generation := by
    obtain ⟨cursors, flags, rfl, -, -⟩ := (Subscriber.step_effect hs).frame
    exact ⟨rfl, rfl⟩
  have hhup := (Subscriber.publisher_fields hs).1
  refine ⟨h.inv.subscriber hs, h.connections.subscriber hs, fun k hk => ?_, fun k hup halive hpoll => ?_, fun k hk => ?_⟩
  all_goals
    simp only at *
    by_cases hki : k = i
  · subst hki
    rw [Function.update_self] at hk ⊢
    rw [hgen]
    rcases Subscriber.knows_step hs hk with ⟨hk₀, hsame⟩ | hnow
    · exact hsame.trans (h.generation k hk₀)
    · exact hnow
  · rw [Function.update_of_ne hki] at hk ⊢
    rw [hgen]
    exact h.generation k hk
  · subst hki
    rw [Function.update_self] at hpoll halive ⊢
    rw [htail]
    exact Subscriber.inPoll_step hs hpoll halive
  · rw [Function.update_of_ne hki] at hup halive hpoll ⊢
    rw [htail]
    exact h.inPoll k hup halive hpoll
  · subst hki
    rw [Function.update_self] at hk ⊢
    obtain ⟨hcursor, hend | ⟨rfl, hup⟩ | ⟨hknows, hne⟩⟩ := Subscriber.ending_step hs hk
    · rw [hcursor, htail, hhup]
      exact h.ending k hend
    · rw [hcursor, htail, hhup]
      obtain ⟨halive, hpoll⟩ := Subscriber.inPoll_of_pollHup hs
      exact ⟨hup, h.inPoll k hup halive hpoll⟩
    · exact absurd (h.generation k hknows).symm hne
  · rw [Function.update_of_ne hki] at hk ⊢
    rw [htail]
    exact h.ending k hk

theorem step {a : Act} (h : s.Drained) (ha : s.ClosesWhenRead a) (hs : s.step a = some s') : s'.Drained := by
  rcases step_cases h.inv.fits hs with ⟨i, choice, ring, sub, rfl, hsub, rfl⟩ | ⟨hne, he⟩
  · exact h.subscriber hsub
  · exact h.publisher hne ha hs he

end Drained

/-- A call that is bound to return `UnexpectedEof` has delivered every message from the start position on. -/
def EndsDrained (s : Bus) : Prop :=
  ∀ i f, (s.subs i).pc.Ending = true → (s.subs i).first = some f → ∀ p, f ≤ p → p < s.chan.ring.tail →
    ∃ data, s.chan.log p = some data ∧ (s.subs i).delivered[p - f]? = some data

variable {s s' : Bus}

theorem Drained.endsDrained (h : s.Drained) (hd : s.Delivery) : s.EndsDrained := by
  intro i f hpc hfirst p hfp hp
  obtain ⟨f', data, hf', -, hlog, hget, -⟩ := hd.receives hfirst hfp hp
  rw [hfirst] at hf'
  cases hf'
  exact ⟨data, hlog, hget (hp.trans_le (h.ending i hpc).2)⟩

/-- A subscriber that leaves `poll` by the hang-up has nothing to read, if it is to end with everything delivered. -/
theorem read_of_endsDrained {i : Nat} (hd : s.Delivery) (hs : s.step (.sub i .pollHup) = some s') (h : s'.EndsDrained) :
    s.chan.ring.tail ≤ (s.subs i).cursor := by
  by_contra hunread
  simp only [Bus.step] at hs
  split at hs
  · rename_i ring sub hsub
    cases hs
    obtain ⟨-, ⟨hne, -⟩ | ⟨rfl, hdec⟩⟩ := Subscriber.step_cases hsub
    · cases hne
    · cases hdec with
      | pollHup hpc hhup =>
        have hplaced := (hd.tracked i).placed (by rw [hpc]; rfl)
        obtain ⟨f, hf⟩ := Option.ne_none_iff_exists'.1 hplaced
        have hstream := (hd.tracked i).stream
        simp only [Subscriber.Stream, hf] at hstream
        obtain ⟨data, -, hget⟩ := h i f (by simp [SubscriberPc.Ending]) (by simpa using hf) (s.subs i).cursor
          hstream.1 (Nat.lt_of_not_le hunread)
        -- the stream ends before the cursor
        simp [hstream.2.1] at hget
  · cases hs

/-- Where a socket is closed on an unread message, `poll` can report the hang-up. -/
theorem closesWhenRead_of_endsDrained {a : Act} (hd : s'.Delivery) (hs : s.step a = some s')
    (h : ∀ i s₂, s'.step (.sub i .pollHup) = some s₂ → s₂.EndsDrained) : s.ClosesWhenRead a := by
  unfold ClosesWhenRead
  split
  · rename_i i
    intro halive hpoll
    simp only [Bus.step] at hs
    split at hs
    · split at hs
      · cases hs
        obtain ⟨call, hpc⟩ : ∃ call, (s.subs i).pc = .poll call := by
          cases hpc : (s.subs i).pc <;> rw [hpc] at hpoll <;> first | exact ⟨_, rfl⟩ | cases hpoll
        obtain ⟨s₂, hs₂⟩ : ∃ s₂, (s.setSub i { s.subs i with hup := true }).step (.sub i .pollHup) = some s₂ := by
          simp [Bus.step, Subscriber.step, setSub, halive, hpc]
        simpa [setSub] using read_of_endsDrained hd hs₂ (h i s₂ hs₂)
      · cases hs
    · cases hs
  · trivial

/-- In every run in which each subscriber shows its position before it is overtaken, all subscriptions end with nothing
undelivered, also those that a hang-up reported by `poll` ends next, if and only if no socket is closed while its
subscriber is inside `poll` with a message unread. -/
theorem endsDrained_iff {r : RingBuffer} (hr : r.Started) {acts : List Act}
    (hrun : run Bus.step (.init r .error) acts = some s) (hsets : Meets Bus.step SetsInTime (.init r .error) acts) :
    (∀ before after s₁, acts = before ++ after → run Bus.step (.init r .error) before = some s₁ →
      s₁.EndsDrained ∧ ∀ i s₂, s₁.step (.sub i .pollHup) = some s₂ → s₂.EndsDrained) ↔
      Meets Bus.step ClosesWhenRead (.init r .error) acts := by
  have hdelivery : ∀ before after s₁, acts = before ++ after → run Bus.step (.init r .error) before = some s₁ →
      s₁.Delivery := by
    rintro before after s₁ rfl h₁
    exact run_invariant_when Delivery SetsInTime (fun _ _ _ h ha hs => h.step ha hs) hsets.append_left
      (Delivery.init hr) h₁
  constructor
  · intro hall
    refine Meets.of_split fun before a after s₁ hacts h₁ => ?_
    subst hacts
    obtain ⟨s₁', h₁', hrest⟩ := run_append.1 hrun
    rw [h₁] at h₁'
    cases h₁'
    obtain ⟨s₂, hstep, -⟩ := run_cons.1 hrest
    have h₂ : run Bus.step (.init r .error) (before ++ [a]) = some s₂ :=
      run_append.2 ⟨s₁, h₁, run_cons.2 ⟨s₂, hstep, rfl⟩⟩
    exact closesWhenRead_of_endsDrained (hdelivery (before ++ [a]) after s₂ (by simp) h₂) hstep
      (hall (before ++ [a]) after s₂ (by simp) h₂).2
  · rintro hcloses before after s₁ rfl h₁
    have hdrained := run_invariant_when Drained ClosesWhenRead (fun _ _ _ h ha hs => h.step ha hs)
      hcloses.append_left (Drained.init hr) h₁
    have hdeliver := hdelivery before after s₁ rfl h₁
    refine ⟨hdrained.endsDrained hdeliver, fun i s₂ hs₂ => ?_⟩
    have hdrained₂ : s₂.Drained := hdrained.step (a := .sub i .pollHup) trivial hs₂
    exact hdrained₂.endsDrained (hdeliver.step (a := .sub i .pollHup) trivial hs₂)

/-- The subscriber receives the only message and goes to sleep; the publisher is dropped; `poll` reports the hang-up. -/
def droppedWhenRead : List Act :=
  connectActs 0 ++ List.replicate 3 (.sub 0 .go) ++ .begin (.publish [7]) :: List.replicate 12 .publisher ++
    .sub 0 (.call (.receive false)) :: List.replicate 6 (.sub 0 .go) ++
    .sub 0 (.call (.receive false)) :: List.replicate 3 (.sub 0 .go) ++
    [.drop, .closeSock 0, .sub 0 .pollHup, .sub 0 .go]

theorem endsDrained_iff_droppedWhenRead : ∃ s,
    run Bus.step (.init (create 2 4 1) .error) droppedWhenRead = some s ∧ (s.subs 0).pc = .ready .eof ∧
      (s.subs 0).delivered = [[7]] ∧ s.EndsDrained := by
  obtain ⟨s, hrun, hs⟩ := Option.map_eq_some_iff.1
    (show (run Bus.step (.init (create 2 4 1) .error) droppedWhenRead).map
        (fun s => ((s.subs 0).pc, (s.subs 0).delivered)) = some (.ready .eof, [[7]]) by decide)
  simp only [Prod.mk.injEq] at hs
  have hsets : Meets Bus.step SetsInTime (.init (create 2 4 1) .error) droppedWhenRead :=
    meets_setsInTime (started_create (by decide)) (by decide)
  have hall := (endsDrained_iff (started_create (by decide)) hrun hsets).2 (by decide)
  exact ⟨s, hrun, hs.1, hs.2, (hall droppedWhenRead [] s (by simp) hrun).1⟩

/-- The subscriber goes to sleep; the publisher publishes, wakes it and is dropped; `poll` reports the hang-up. -/
def droppedBeforePoll : List Act :=
  connectActs 0 ++ List.replicate 3 (.sub 0 .go) ++ .sub 0 (.call (.receive false)) :: List.replicate 3 (.sub 0 .go) ++
    .begin (.publish [7]) :: List.replicate 13 .publisher ++ [.drop, .closeSock 0, .sub 0 .pollHup, .sub 0 .go]

theorem endsDrained_fails : (∀ a ∈ droppedBeforePoll, NowOnly a = true) ∧
    ∃ s, run Bus.step (.init (create 2 4 1) .error) droppedBeforePoll = some s ∧ (s.subs 0).pc = .ready .eof ∧
      0 < (s.subs 0).efd ∧ ¬s.EndsDrained := by
  obtain ⟨s, hrun, hs⟩ := Option.map_eq_some_iff.1
    (show (run Bus.step (.init (create 2 4 1) .error) droppedBeforePoll).map
        (fun s => ((s.subs 0).pc, (s.subs 0).first, (s.subs 0).delivered, (s.subs 0).efd, s.chan.ring.tail)) =
      some (.ready .eof, some 0, [], 1, 1) by decide)
  simp only [Prod.mk.injEq] at hs
  obtain ⟨hpc, hfirst, hdelivered, hefd, htail⟩ := hs
  refine ⟨by decide, s, hrun, hpc, by omega, fun hall => ?_⟩
  obtain ⟨data, -, hget⟩ := hall 0 0 (by rw [hpc]; rfl) hfirst 0 le_rfl (by omega)
  simp [hdelivered] at hget

end Bus

end Mmbus
