import Mmbus.Delivery
import Mmbus.Connections

/-!
# What an accepted subscriber can miss

A subscriber claims its entry before the handshake and takes its start position from the tail it reads after it, while
the publisher that has accepted the connection is free to publish in between.  `nothingMissed_iff`: in a run nothing
published after acceptance is missed if and only if no subscriber accepted by then finds, when it reads the tail again,
that something has been published since.
-/

namespace Mmbus

open RingBuffer Transition

namespace Bus

/-- The position `p` is not before the start of the subscriber `i`; its message has been delivered if the subscriber
is past it, and is intact in the ring if the subscriber has still to read it. -/
def Receives (s : Bus) (i p : Nat) : Prop :=
  ∃ f data, (s.subs i).first = some f ∧ f ≤ p ∧ s.chan.log p = some data ∧
    (p < (s.subs i).cursor → (s.subs i).delivered[p - f]? = some data) ∧
    ((s.subs i).cursor ≤ p → (s.subs i).Guarded → (s.chan.ring.slot p).Holds p data)

/-- Every subscriber whose start position is settled receives what is published from its acceptance on. -/
def NothingMissed (s : Bus) : Prop :=
  ∀ i tail, (s.subs i).acceptedAt = some tail → (s.subs i).first ≠ none →
    ∀ p, tail ≤ p → p < s.chan.ring.tail → s.Receives i p

/-- If the subscriber that reads the tail again has been accepted, nothing has been published since. -/
def ResyncsInTime (s : Bus) : Act → Prop
  | .sub i .go => (s.subs i).pc = .resync → ∀ tail, (s.subs i).acceptedAt = some tail → s.chan.ring.tail = tail
  | _ => True

variable {s s' : Bus}

/-- A subscriber that has connected has the positions from its start on. -/
theorem Delivery.receives (h : s.Delivery) {i f p : Nat} (hfirst : (s.subs i).first = some f) (hfp : f ≤ p)
    (hp : p < s.chan.ring.tail) : s.Receives i p := by
  obtain ⟨data, hlog, -⟩ := h.inv.publish.log_some p (Nat.zero_le _) hp
  refine ⟨f, data, hfirst, hfp, hlog, fun hlt => ?_, fun hle hguarded => ?_⟩
  · have hstream := (h.tracked i).stream
    simp only [Subscriber.Stream, hfirst] at hstream
    obtain ⟨-, hlen, hall⟩ := hstream
    have hget := @List.getElem?_eq_getElem _ (s.subs i).delivered (p - f) (by omega)
    have hat := hall _ _ hget
    rw [show f + (p - f) = p by omega, hlog] at hat
    rw [hget, ← hat]
  · obtain ⟨data', hlog', -, hh⟩ := ((h.tracked i).guard hguarded).held h.inv.publish (Nat.zero_le _) hle hp
    rw [hlog] at hlog'
    cases hlog'
    exact hh

/-! ### Start positions and acceptance -/

structure Timely (s : Bus) : Prop where
  delivery : s.Delivery
  now : s.AllNow
  connections : s.Connections
  first_le : ∀ i f, (s.subs i).first = some f → f ≤ s.chan.ring.tail

/-- A settled start position stays, and it is settled at the tail. -/
theorem first_step {a : Act} (h : s.Delivery) (hall : s.AllNow) (hs : s.step a = some s') (i : Nat) :
    (s'.subs i).first = (s.subs i).first ∨
      a = .sub i .go ∧ (s.subs i).pc = .resync ∧ (s.subs i).first = none ∧
        (s'.subs i).first = some s.chan.ring.tail ∧ (s'.subs i).acceptedAt = (s.subs i).acceptedAt := by
  rcases step_cases h.inv.fits hs with ⟨k, choice, ring, sub, rfl, hsub, rfl⟩ | ⟨-, he⟩
  · by_cases hik : i = k
    · subst hik
      simp only [Function.update_self]
      rcases Subscriber.first_step hsub with hsame | ⟨rfl, hpc, -, hfirst⟩
      · exact .inl hsame
      · rw [hall i] at hfirst
        have hnone := (h.tracked i).unplaced (.inr (.inr (by rw [hpc]; rfl)))
        exact .inr ⟨rfl, hpc, hnone, hfirst, (Subscriber.publisher_fields hsub).2⟩
    · exact .inl (by simp [Function.update_of_ne hik])
  · obtain ⟨efd, hup, acceptedAt, heq⟩ := he.subs i
    exact .inl (by rw [heq])

/-- The second look at the tail settles the start position. -/
theorem resync_first (h : s.Delivery) (hall : s.AllNow) {i : Nat} (hpc : (s.subs i).pc = .resync)
    (hs : s.step (.sub i .go) = some s') :
    (s'.subs i).first = some s.chan.ring.tail ∧ (s'.subs i).acceptedAt = (s.subs i).acceptedAt := by
  rcases step_cases h.inv.fits hs with ⟨k, choice, ring, sub, heq, hsub, rfl⟩ | ⟨hne, -⟩
  · cases heq
    obtain ⟨-, ⟨-, hgo⟩ | ⟨-, hd⟩⟩ := Subscriber.step_cases hsub
    · simp only [Subscriber.go, hpc, hall i, Subscriber.startCursor] at hgo
      cases hgo
      simp
    · cases hd
  · exact absurd rfl (hne i .go)

/-- A subscriber is accepted at most once, at the tail of that moment. -/
theorem accepted_step {a : Act} (h : s.Timely) (hs : s.step a = some s') (i : Nat) :
    (s'.subs i).acceptedAt = (s.subs i).acceptedAt ∨
      (s.subs i).acceptedAt = none ∧ (s'.subs i).acceptedAt = some s.chan.ring.tail ∧
        (s'.subs i).first = (s.subs i).first := by
  rcases step_cases h.delivery.inv.fits hs with ⟨k, choice, ring, sub, rfl, hsub, rfl⟩ | ⟨hne, he⟩
  · left
    by_cases hik : i = k
    · subst hik
      simpa using (Subscriber.publisher_fields hsub).2
    · simp [Function.update_of_ne hik]
  · cases step_conn hne hs with
    | keep clients backlog conn dropped subs =>
      obtain ⟨efd, heq⟩ := subs i
      exact .inl (by rw [heq])
    | accept _ _ _ _ _ _ subs => exact .inl (by rw [subs])
    | refuse _ _ _ _ _ subs => exact .inl (by rw [subs])
    | @reap k client _ _ _ _ _ _ subs =>
      rw [subs]
      by_cases hik : i = client.sub
      · subst hik
        exact .inl (by rw [Function.update_self])
      · exact .inl (by rw [Function.update_of_ne hik])
    | @close k _ _ _ _ _ subs =>
      rw [subs]
      by_cases hik : i = k
      · subst hik
        exact .inl (by rw [Function.update_self])
      · exact .inl (by rw [Function.update_of_ne hik])
    | @join k conn _ _ _ _ _ subs _ =>
      rw [subs]
      by_cases hik : i = k
      · subst hik
        rw [Function.update_self]
        exact .inr ⟨h.connections.waiting i (by rw [conn]; simp), rfl, rfl⟩
      · exact .inl (by rw [Function.update_of_ne hik])

theorem tail_le_step {a : Act} (h : s.Inv) (hs : s.step a = some s') : s.chan.ring.tail ≤ s'.chan.ring.tail := by
  rcases step_cases h.fits hs with ⟨k, choice, ring, sub, rfl, hsub, rfl⟩ | ⟨-, he⟩
  · obtain ⟨cursors, flags, rfl, -, -⟩ := (Subscriber.step_effect hsub).frame
    exact le_rfl
  · exact (h.publisher_ring he).2.2.2.2.2

theorem Timely.init {r : RingBuffer} (hr : r.Started) : (Bus.init r .error).Timely :=
  ⟨Delivery.init hr, fun _ => rfl, Connections.init, fun _ _ h => by cases h⟩

theorem Timely.step {a : Act} (h : s.Timely) (ha : NowOnly a = true) (hs : s.step a = some s') : s'.Timely := by
  refine ⟨h.delivery.step (h.now.setsInTime a) hs, h.now.step h.delivery.inv ha hs, h.connections.step h.delivery.inv hs, fun i f hf => ?_⟩
  refine le_trans ?_ (tail_le_step h.delivery.inv hs)
  rcases first_step h.delivery h.now hs i with hsame | ⟨-, -, -, hfirst, -⟩
  · exact h.first_le i f (hsame ▸ hf)
  · rw [hfirst] at hf
    cases hf
    exact le_rfl

/-- The start position of every accepted subscriber is at most the tail of its acceptance. -/
def Early (s : Bus) : Prop :=
  ∀ i f tail, (s.subs i).first = some f → (s.subs i).acceptedAt = some tail → f ≤ tail

theorem Early.step {a : Act} (h : s.Early) (ht : s.Timely) (hin : s.ResyncsInTime a) (hs : s.step a = some s') :
    s'.Early := by
  intro i f tail hf hacc
  rcases accepted_step ht hs i with hsame | ⟨-, hnow, hfirst⟩
  · rw [hsame] at hacc
    rcases first_step ht.delivery ht.now hs i with hsame' | ⟨rfl, hpc, -, hfirst, -⟩
    · exact h i f tail (hsame' ▸ hf) hacc
    · rw [hfirst] at hf
      cases hf
      exact (hin hpc tail hacc).le
  · rw [hnow] at hacc
    cases hacc
    exact ht.first_le i f (hfirst ▸ hf)

/-- The subscriber `i` was accepted below its start position. -/
def Late (s : Bus) (i : Nat) : Prop :=
  ∃ f tail, (s.subs i).first = some f ∧ (s.subs i).acceptedAt = some tail ∧ tail < f

theorem Late.step {a : Act} {i : Nat} (h : s.Late i) (ht : s.Timely) (hs : s.step a = some s') : s'.Late i := by
  obtain ⟨f, tail, hf, hacc, hlt⟩ := h
  refine ⟨f, tail, ?_, ?_, hlt⟩
  · rcases first_step ht.delivery ht.now hs i with hsame | ⟨-, -, hnone, -⟩
    · exact hsame.trans hf
    · rw [hf] at hnone
      cases hnone
  · rcases accepted_step ht hs i with hsame | ⟨hnone, -⟩
    · exact hsame.trans hacc
    · rw [hacc] at hnone
      cases hnone

theorem Late.run {i : Nat} {acts : List Act} (h : s.Late i) (ht : s.Timely) (hnow : ∀ a ∈ acts, NowOnly a = true)
    (hrun : run Bus.step s acts = some s') : s'.Late i ∧ s'.Timely :=
  run_invariant_of (fun s => s.Late i ∧ s.Timely) (NowOnly · = true)
    (fun _ _ _ h ha hs => ⟨h.1.step h.2 hs, h.2.step ha hs⟩) hnow ⟨h, ht⟩ hrun

theorem Late.missed {i : Nat} (h : s.Late i) (ht : s.Timely) : ¬s.NothingMissed := by
  obtain ⟨f, tail, hf, hacc, hlt⟩ := h
  intro hall
  obtain ⟨f', data, hf', hle, -⟩ := hall i tail hacc (by rw [hf]; simp) tail le_rfl
    (hlt.trans_le (ht.first_le i f hf))
  rw [hf] at hf'
  cases hf'
  omega

theorem meets_of_nothingMissed {acts : List Act} (ht : s.Timely) (hnow : ∀ a ∈ acts, NowOnly a = true)
    (hrun : run Bus.step s acts = some s') (hall : s'.NothingMissed) : Meets Bus.step ResyncsInTime s acts := by
  induction acts generalizing s with
  | nil => trivial
  | cons a as ih =>
    obtain ⟨s₁, h₁, h₂⟩ := run_cons.1 hrun
    have hrest : ∀ b ∈ as, NowOnly b = true := fun b hb => hnow b (List.mem_cons_of_mem _ hb)
    have ht₁ := ht.step (hnow a (List.mem_cons_self ..)) h₁
    refine ⟨?_, fun s₂ hs₂ => ?_⟩
    · -- otherwise the subscriber is late from here on
      by_contra hin
      obtain ⟨i, rfl, hpc, tail, hacc, hne⟩ : ∃ i, a = .sub i .go ∧ (s.subs i).pc = .resync ∧
          ∃ tail, (s.subs i).acceptedAt = some tail ∧ s.chan.ring.tail ≠ tail := by
        unfold ResyncsInTime at hin
        split at hin
        · rename_i i
          exact ⟨i, rfl, by simpa using hin⟩
        · exact absurd trivial hin
      obtain ⟨hfirst, hsame⟩ := resync_first ht.delivery ht.now hpc h₁
      have hlate : s₁.Late i := ⟨_, tail, hfirst, hsame.trans hacc,
        lt_of_le_of_ne (ht.connections.accepted_le i tail hacc) (Ne.symm hne)⟩
      exact (hlate.run ht₁ hrest h₂).1.missed (hlate.run ht₁ hrest h₂).2 hall
    · rw [h₁] at hs₂
      cases hs₂
      exact ih ht₁ hrest h₂

/-- Nothing published after acceptance is missed if and only if no accepted subscriber reads the tail again after
something has been published. -/
theorem nothingMissed_iff {r : RingBuffer} (hr : r.Started) {acts : List Act}
    (hnow : ∀ a ∈ acts, NowOnly a = true) (hrun : run Bus.step (.init r .error) acts = some s) :
    s.NothingMissed ↔ Meets Bus.step ResyncsInTime (.init r .error) acts := by
  refine ⟨meets_of_nothingMissed (Timely.init hr) hnow hrun, fun hmeets => ?_⟩
  have hreach : s.Timely ∧ s.Early :=
    run_invariant_when (fun s => s.Timely ∧ s.Early) (fun s a => s.ResyncsInTime a ∧ NowOnly a = true)
      (fun _ _ _ h ha hs => ⟨h.1.step ha.2 hs, h.2.step h.1 ha.1 hs⟩) (hmeets.and_of_forall hnow)
      ⟨Timely.init hr, fun _ _ _ h => by cases h⟩ hrun
  intro i tail hacc hfirst p htail hp
  obtain ⟨f, hf⟩ := Option.ne_none_iff_exists'.1 hfirst
  exact hreach.1.delivery.receives hf ((hreach.2 i f tail hf hacc).trans htail) hp

theorem nothingMissed_iff_oneMessage : ∃ s, run Bus.step (.init (create 2 4 1) .error) oneMessage = some s ∧
    (s.NothingMissed ↔ Meets Bus.step ResyncsInTime (.init (create 2 4 1) .error) oneMessage) := by
  obtain ⟨s, hrun⟩ := Option.isSome_iff_exists.1
    (show (run Bus.step (.init (create 2 4 1) .error) oneMessage).isSome = true by decide)
  exact ⟨s, hrun, nothingMissed_iff (started_create (by decide)) (by decide) hrun⟩

/-- The publisher accepts the subscriber, publishes, and only then the subscriber reads the tail again. -/
def publishedBeforeResync : List Act :=
  connectActs 0 ++ .begin (.publish [7]) :: List.replicate 12 .publisher ++ [.sub 0 .go]

theorem nothingMissed_fails : (∀ a ∈ publishedBeforeResync, NowOnly a = true) ∧
    ∃ s, run Bus.step (.init (create 2 4 1) .error) publishedBeforeResync = some s ∧ ¬s.NothingMissed := by
  obtain ⟨s, hrun, hs⟩ := Option.map_eq_some_iff.1
    (show (run Bus.step (.init (create 2 4 1) .error) publishedBeforeResync).map
        (fun s => ((s.subs 0).acceptedAt, (s.subs 0).first, s.chan.ring.tail)) = some (some 0, some 1, 1) by decide)
  simp only [Prod.mk.injEq] at hs
  obtain ⟨hacc, hfirst, htail⟩ := hs
  refine ⟨by decide, s, hrun, fun hall => ?_⟩
  -- the subscriber starts behind the position 0, which was published after it had been accepted
  obtain ⟨f, -, hf, hle, -⟩ := hall 0 0 hacc (by simp [hfirst]) 0 le_rfl (by omega)
  rw [hfirst] at hf
  cases hf
  omega

end Bus

end Mmbus
