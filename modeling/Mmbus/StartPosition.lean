import Mmbus.Connections
import Mmbus.Delivery

/-!
# The start position a subscriber is granted

`connect_with` decides from the tail it reads after the handshake where a subscriber starts, and stores that position
in the subscriber's entry in a later step.  `start_honoured`: a subscriber that stores it before the publisher has
come a full lap further receives the messages from that position on, one by one.
-/

namespace Mmbus

open RingBuffer Transition

namespace Bus

/-- The subscriber has received the messages of the positions from `f` up to its cursor, one each, and those it has
still to read are intact in the ring. -/
structure DeliversFrom (s : Bus) (i f : Nat) : Prop where
  le_cursor : f ≤ (s.subs i).cursor
  count : (s.subs i).delivered.length = (s.subs i).cursor - f
  payload : ∀ k data, (s.subs i).delivered[k]? = some data → s.chan.log (f + k) = some data
  intact : (s.subs i).pc.stage = .live → ∀ p, (s.subs i).cursor ≤ p → p < s.chan.ring.tail →
    ∃ data, s.chan.log p = some data ∧ (s.chan.ring.slot p).Holds p data

/-- What the subscriber `i` is promised when it has read the tail in the state `s₁` -/
structure Honours (s₁ s : Bus) (i : Nat) : Prop where
  now : (s₁.subs i).startPos = .now → s.DeliversFrom i s₁.chan.ring.tail
  historyBack : ∀ n, (s₁.subs i).startPos = .historyBack n → s.DeliversFrom i (s₁.chan.ring.tail - n)
  explicit : ∀ c, (s₁.subs i).startPos = .explicit c → s₁.chan.ring.tail ≤ c + s₁.chan.ring.cap → s.DeliversFrom i c
  tooOld : ∀ c, (s₁.subs i).startPos = .explicit c → c + s₁.chan.ring.cap < s₁.chan.ring.tail →
    (s.subs i).delivered = [] ∧ ((s.subs i).pc = .abort ∨ (s.subs i).pc.stage = .out)

variable {s s' : Bus} {i : Nat}

/-- A subscriber with a start position keeps it. -/
theorem first_of_step {a : Act} {f : Nat} (h : s.Delivery) (hs : s.step a = some s')
    (hf : (s.subs i).first = some f) : (s'.subs i).first = some f := by
  rcases step_cases h.inv.fits hs with ⟨k, choice, ring, sub, rfl, hsub, rfl⟩ | ⟨-, he⟩
  · by_cases hik : i = k
    · subst hik
      simp only [Function.update_self]
      rcases Subscriber.first_step hsub with hsame | ⟨-, hpc, -, -⟩
      · exact hsame.trans hf
      · -- before its second look at the tail it has none
        have hnone := (h.tracked i).unplaced (.inr (.inr (by rw [hpc]; rfl)))
        rw [hnone] at hf
        cases hf
    · simpa [Function.update_of_ne hik] using hf
  · obtain ⟨efd, hup, acceptedAt, heq⟩ := he.subs i
    rw [heq]
    exact hf

/-- The subscriber has been refused. -/
def Refused (s : Bus) (i : Nat) : Prop :=
  (s.subs i).first = none ∧ ((s.subs i).pc = .abort ∨ (s.subs i).pc.stage = .out)

theorem refused_of_step {a : Act} (h : s.Delivery) (hs : s.step a = some s') (hr : s.Refused i) : s'.Refused i := by
  rcases step_cases h.inv.fits hs with ⟨k, choice, ring, sub, rfl, hsub, rfl⟩ | ⟨-, he⟩
  · unfold Refused
    by_cases hik : i = k
    · subst hik
      simp only [Function.update_self]
      obtain ⟨hnone, hpc⟩ := hr
      refine ⟨?_, ?_⟩
      · rcases Subscriber.first_step hsub with hsame | ⟨-, hresync, -, -⟩
        · exact hsame.trans hnone
        · rcases hpc with hpc | hpc <;> rw [hresync] at hpc <;> cases hpc
      · rcases hpc with hpc | hout
        · obtain ⟨-, ⟨-, hgo⟩ | ⟨-, hd⟩⟩ := Subscriber.step_cases hsub
          · simp only [Subscriber.go, hpc] at hgo
            cases hgo
            exact .inr rfl
          · cases hd with
            | kill => exact .inl hpc
            | noSocket h => rcases h with h | h <;> rw [hpc] at h <;> cases h
            | connect h | call h | deadline h | timeout h | noRing h | pollWake h | pollHup h | drop h =>
              rw [hpc] at h
              cases h
        · exact .inr (Subscriber.stage_out_step hout hsub)
    · simp only [Function.update_of_ne hik]
      exact hr
  · obtain ⟨efd, hup, acceptedAt, heq⟩ := he.subs i
    unfold Refused
    rw [heq]
    exact hr

/-- A subscriber that has a start position has been delivered the messages from there on. -/
theorem Delivery.deliversFrom {f : Nat} (h : s.Delivery) (hf : (s.subs i).first = some f) : s.DeliversFrom i f := by
  have hstream := (h.tracked i).stream
  simp only [Subscriber.Stream, hf] at hstream
  obtain ⟨hle, hlen, hall⟩ := hstream
  refine ⟨hle, hlen, hall, fun hlive p hp hlt => ?_⟩
  obtain ⟨data, hlog, -, hh⟩ := ((h.tracked i).guard (.inl hlive)).held h.inv.publish (Nat.zero_le _) hp hlt
  exact ⟨data, hlog, hh⟩

theorem Delivery.delivered_of_refused (h : s.Delivery) (hr : s.Refused i) : (s.subs i).delivered = [] := by
  have hstream := (h.tracked i).stream
  simpa only [Subscriber.Stream, hr.1] using hstream

/-- The second look at the tail settles the start position. -/
theorem granted_of_resync {f : Nat} (hpc : (s.subs i).pc = .resync) (hs : s.step (.sub i .go) = some s')
    (hf : Subscriber.startCursor s.chan.ring.cap s.chan.ring.tail (s.subs i).startPos = some f) :
    (s'.subs i).first = some f := by
  simp only [Bus.step] at hs
  split at hs
  · rename_i ring sub hsub
    cases hs
    obtain ⟨-, ⟨-, hgo⟩ | ⟨-, hd⟩⟩ := Subscriber.step_cases hsub
    · simp only [Subscriber.go, hpc, hf] at hgo
      cases hgo
      simp
    · cases hd
  · cases hs

/-- A subscriber whose position has left the ring is refused. -/
theorem refused_of_resync (h : s.Delivery) (hpc : (s.subs i).pc = .resync) (hs : s.step (.sub i .go) = some s')
    (hf : Subscriber.startCursor s.chan.ring.cap s.chan.ring.tail (s.subs i).startPos = none) : s'.Refused i := by
  have hnone : (s.subs i).first = none := (h.tracked i).unplaced (.inr (.inr (by rw [hpc]; rfl)))
  simp only [Bus.step] at hs
  split at hs
  · rename_i ring sub hsub
    cases hs
    obtain ⟨-, ⟨-, hgo⟩ | ⟨-, hd⟩⟩ := Subscriber.step_cases hsub
    · simp only [Subscriber.go, hpc, hf] at hgo
      cases hgo
      exact ⟨by simpa using hnone, .inl (by simp)⟩
    · cases hd
  · cases hs

/-- In a run in which every subscriber shows its position before the publisher has come a lap further, each start
position is honoured. -/
theorem start_honoured {r : RingBuffer} (hr : r.Started) {before after : List Act} {s₁ : Bus}
    (hsets : Meets Bus.step SetsInTime (.init r .error) (before ++ .sub i .go :: after))
    (hbefore : run Bus.step (.init r .error) before = some s₁) (hpc : (s₁.subs i).pc = .resync)
    (hafter : run Bus.step s₁ (.sub i .go :: after) = some s) : Honours s₁ s i := by
  have h₁ : s₁.Delivery := run_invariant_when Delivery SetsInTime (fun _ _ _ h ha hs => h.step ha hs)
    hsets.append_left (Delivery.init hr) hbefore
  have hrest : Meets Bus.step SetsInTime s₁ (.sub i .go :: after) := hsets.append_right hbefore
  obtain ⟨s₂, hs₂, hrun⟩ := run_cons.1 hafter
  have h₂ : s₂.Delivery := h₁.step hrest.1 hs₂
  -- what the second look has settled stays
  have hgranted : ∀ f, Subscriber.startCursor s₁.chan.ring.cap s₁.chan.ring.tail (s₁.subs i).startPos = some f →
      s.DeliversFrom i f := by
    intro f hf
    obtain ⟨hd, hfirst⟩ := run_invariant_when (fun t => t.Delivery ∧ (t.subs i).first = some f) SetsInTime
      (fun _ _ _ h ha hs => ⟨h.1.step ha hs, first_of_step h.1 hs h.2⟩) (hrest.2 s₂ hs₂)
      ⟨h₂, granted_of_resync hpc hs₂ hf⟩ hrun
    exact hd.deliversFrom hfirst
  refine ⟨fun hnow => hgranted _ (by rw [hnow]; rfl), fun n hback => hgranted _ (by rw [hback]; rfl),
    fun c hc hle => hgranted _ ?_, fun c hc hlt => ?_⟩
  · rw [hc, Subscriber.startCursor, if_pos (by omega)]
  · have hnone : Subscriber.startCursor s₁.chan.ring.cap s₁.chan.ring.tail (s₁.subs i).startPos = none := by
      rw [hc, Subscriber.startCursor, if_neg (by omega)]
    obtain ⟨hd, hrefused⟩ := run_invariant_when (fun t => t.Delivery ∧ t.Refused i) SetsInTime
      (fun _ _ _ h ha hs => ⟨h.1.step ha hs, refused_of_step h.1 hs h.2⟩) (hrest.2 s₂ hs₂)
      ⟨h₂, refused_of_resync h₁ hpc hs₂ hnone⟩ hrun
    exact ⟨hd.delivered_of_refused hrefused, hrefused.2⟩

/-- One message is published; then a subscriber begins to connect, up to the hand-over of its eventfd. -/
def publishThenConnect (start : StartPos) : List Act :=
  .begin (.publish [7]) :: List.replicate 8 .publisher ++ .sub 0 (.connect start) :: List.replicate 5 (.sub 0 .go)

/-- It stores its start position and receives. -/
def startAndReceive : List Act :=
  List.replicate 2 (.sub 0 .go) ++ .sub 0 (.call .tryReceive) :: List.replicate 6 (.sub 0 .go)

/-- Between the second look at the tail and the store of the position another message is published. -/
def overtakenStart : List Act :=
  .sub 0 .go :: .begin (.publish [8]) :: List.replicate 12 .publisher ++ List.replicate 2 (.sub 0 .go) ++
    .sub 0 (.call .tryReceive) :: List.replicate 7 (.sub 0 .go)

theorem start_overtaken : ∃ s₁ s, run Bus.step (.init (create 1 4 1) .error) (publishThenConnect (.explicit 0)) = some s₁ ∧
    (s₁.subs 0).pc = .resync ∧ run Bus.step s₁ overtakenStart = some s ∧ (s.subs 0).delivered = [[8]] ∧
    s.chan.log 0 = some [7] ∧ ¬Honours s₁ s 0 := by
  obtain ⟨s₁, h₁, hs₁⟩ := Option.map_eq_some_iff.1
    (show (run Bus.step (.init (create 1 4 1) .error) (publishThenConnect (.explicit 0))).map
        (fun s => ((s.subs 0).pc, (s.subs 0).startPos, s.chan.ring.tail, s.chan.ring.cap)) =
      some (.resync, .explicit 0, 1, 1) by decide)
  simp only [Prod.mk.injEq] at hs₁
  obtain ⟨hpc, hstart, htail, hcap⟩ := hs₁
  obtain ⟨s, h, hs⟩ := Option.map_eq_some_iff.1
    (show (run Bus.step (.init (create 1 4 1) .error) (publishThenConnect (.explicit 0) ++ overtakenStart)).map
        (fun s => ((s.subs 0).delivered, s.chan.log 0)) = some ([[8]], some [7]) by decide)
  obtain ⟨s₁', h₁', h⟩ := run_append.1 h
  rw [h₁] at h₁'
  cases h₁'
  simp only [Prod.mk.injEq] at hs
  obtain ⟨hdelivered, hlog⟩ := hs
  refine ⟨s₁, s, h₁, hpc, h, hdelivered, hlog, fun hall => ?_⟩
  have hfrom := hall.explicit 0 hstart (by omega)
  have hpayload := hfrom.payload 0 [8] (by rw [hdelivered]; rfl)
  rw [hlog] at hpayload
  exact absurd hpayload (by decide)

/-- Each position is shown while the publisher is less than a lap ahead of it. -/
def SetsWithinLap (s : Bus) : Act → Bool
  | .sub i .go => (s.subs i).pc != .setCursor || decide (s.chan.ring.tail < (s.subs i).cursor + s.chan.ring.cap)
  | _ => true

theorem setsInTime_of_withinLap {a : Act} (h : s.SetsWithinLap a = true) : s.SetsInTime a := by
  unfold SetsInTime
  split
  · rename_i i
    intro hpc
    have hlt : s.chan.ring.tail < (s.subs i).cursor + s.chan.ring.cap := by simpa [SetsWithinLap, hpc] using h
    exact .inr ⟨hlt.le, fun heq => absurd heq hlt.ne⟩
  · trivial

theorem start_honoured_history : ∃ s₁ s,
    run Bus.step (.init (create 2 4 1) .error) (publishThenConnect (.historyBack 1)) = some s₁ ∧
    run Bus.step s₁ (.sub 0 .go :: startAndReceive) = some s ∧ (s.subs 0).delivered = [[7]] ∧ Honours s₁ s 0 := by
  obtain ⟨s₁, h₁, hpc⟩ := Option.map_eq_some_iff.1
    (show (run Bus.step (.init (create 2 4 1) .error) (publishThenConnect (.historyBack 1))).map
        (fun s => (s.subs 0).pc) = some .resync by decide)
  obtain ⟨s, h, hs⟩ := Option.map_eq_some_iff.1
    (show (run Bus.step (.init (create 2 4 1) .error)
          (publishThenConnect (.historyBack 1) ++ .sub 0 .go :: startAndReceive)).map
        (fun s => (s.subs 0).delivered) = some [[7]] by decide)
  obtain ⟨s₁', h₁', h⟩ := run_append.1 h
  rw [h₁] at h₁'
  cases h₁'
  have hsets : Meets Bus.step (fun s a => s.SetsWithinLap a = true) (.init (create 2 4 1) .error)
      (publishThenConnect (.historyBack 1) ++ .sub 0 .go :: startAndReceive) := by
    decide
  exact ⟨s₁, s, h₁, h, hs, start_honoured (started_create (by decide))
    (hsets.mono fun _ _ hw => setsInTime_of_withinLap hw) h₁ hpc h⟩

end Bus

end Mmbus
