import Mmbus.Delivery
import Mmbus.Connections

/-!
# Lost wakeups

The eventcount handshake is keyed by entries of the cursor table, while `broadcast_wakeup` goes through the clients:
it takes the flag of the client's entry and fires that client's eventfd.  `noLostWakeup`: no subscriber sleeps through
a message in any run in which the publisher takes no flag that another subscriber has set, and accepts nobody who is
asleep with messages unread.
-/

namespace Mmbus

open RingBuffer Transition

/-- The subscriber has looked at the ring again and waits for its eventfd. -/
def SubscriberPc.Asleep : SubscriberPc → Bool
  | poll _ | ready .armed => true
  | _ => false

/-- The subscriber has set its flag and not yet found a reason to clear it. -/
def SubscriberPc.Watches : SubscriberPc → Bool
  | recheck _ => true
  | pc => pc.Asleep

namespace Subscriber

/-- The subscriber sleeps, or will sleep after its second look at the ring unless the tail moves. -/
def Waiting (tail : Nat) (s : Subscriber) : Prop :=
  s.alive = true ∧ (s.pc.Asleep = true ∨ tail ≤ s.cursor ∧ ∃ call, s.pc = .recheck call)

variable {s s' : Subscriber} {r r' : RingBuffer} {listening : Bool} {choice : Choice}

theorem Waiting.watches {tail : Nat} (h : s.Waiting tail) : s.pc.Watches = true := by
  obtain ⟨-, h | ⟨-, call, h⟩⟩ := h
  · cases hpc : s.pc <;> rw [hpc] at h <;> first | exact h | cases h
  · rw [h]
    rfl

theorem live_of_watches {pc : SubscriberPc} (h : pc.Watches = true) : pc.stage = .live := by
  cases pc <;> first | rfl | cases h

@[simp] theorem watches_afterReceive (call : Call) (pc : ReceivePc) :
    (s.afterReceive call pc).pc.Watches = false := by
  unfold afterReceive
  split
  · rfl
  · split <;> rfl
  · rfl

theorem watches_afterWait {call : Call} {outcome : Outcome} (h : outcome ≠ .armed) :
    (s.afterWait call outcome).Watches = false := by
  unfold afterWait
  split
  · rfl
  · rfl
  · cases outcome <;> first | rfl | exact absurd rfl h

theorem Waiting.live {tail : Nat} (h : s.Waiting tail) : s.pc.stage = .live := live_of_watches h.watches

/-- A subscriber begins to wait when its second look at the ring finds nothing, after it has set its flag. -/
theorem waiting_step (hclear : ∀ call, s.pc ≠ .clearFlag call .armed)
    (hs : s.step r listening choice = some (r', s')) (h : s'.Waiting r'.tail) :
    (∃ call, s.pc = .recheck call ∧ r.tail ≤ s.cursor ∧ r' = r ∧ s' = { s with pc := s'.pc }) ∨
      ∃ call, s.pc = .setFlag call ∧ r' = r.setWakeflag s.cursorIdx ∧ s' = { s with pc := .recheck call } := by
  have hw := h.watches
  obtain ⟨-, ⟨-, hgo⟩ | ⟨rfl, hd⟩⟩ := step_cases hs
  · cases hpc : s.pc with
    | setFlag call =>
      simp only [go, hpc] at hgo
      cases hgo
      exact .inr ⟨call, rfl, rfl, rfl⟩
    | recheck call =>
      simp only [go, hpc] at hgo
      split at hgo
      · cases hgo
        cases hw
      · rename_i hle
        split at hgo <;> cases hgo
        all_goals exact .inl ⟨call, rfl, Nat.not_lt.1 hle, rfl, rfl⟩
    | receiving call pc =>
      simp only [go, hpc] at hgo
      split at hgo
      · cases hgo
        simp at hw
      · cases hgo
    | unflag call =>
      simp only [go, hpc] at hgo
      cases hgo
      rw [watches_afterWait (by decide)] at hw
      cases hw
    | clearFlag call outcome =>
      simp only [go, hpc] at hgo
      cases hgo
      rw [watches_afterWait fun harmed => hclear call (harmed ▸ hpc)] at hw
      cases hw
    | _ =>
      simp only [go, hpc] at hgo
      first
        | (cases hgo <;> cases hw)
        | (split at hgo <;> first | (cases hgo <;> cases hw) | (split at hgo <;> cases hgo <;> cases hw))
  · cases hd with
    | kill => cases h.1
    | call =>
      rename_i call last hpc
      cases call <;> cases hw
    | _ => cases hw

/-- No wait ends as `arm_wakeup` does. -/
theorem clear_step (hs : s.step r listening choice = some (r', s')) {call : Call} (h : s'.pc = .clearFlag call .armed) :
    s.pc = .clearFlag call .armed := by
  obtain ⟨-, ⟨-, hgo⟩ | ⟨rfl, hd⟩⟩ := step_cases hs
  · cases hpc : s.pc with
    | receiving call₁ pc =>
      simp only [go, hpc] at hgo
      split at hgo
      · cases hgo
        unfold afterReceive at h
        split at h
        · cases h
        · split at h <;> cases h
        · cases h
      · cases hgo
    | unflag call₁ | clearFlag call₁ outcome =>
      simp only [go, hpc] at hgo
      cases hgo
      simp only [afterWait] at h
      split at h <;> cases h
    | _ =>
      simp only [go, hpc] at hgo
      first
        | (cases hgo <;> cases h)
        | (split at hgo <;> first | (cases hgo <;> cases h) | (split at hgo <;> cases hgo <;> cases h))
  · cases hd with
    | kill => exact h
    | call =>
      rename_i call₁ last hpc
      cases call₁ <;> cases h
    | _ => cases h

end Subscriber

/-! ### The broadcast in progress -/

namespace Bus

/-- The subscriber `i` has been accepted into the clients of the publisher. -/
def Accepted (s : Bus) (i : Nat) : Prop := ∃ c ∈ s.clients, c.sub = i

/-- The flag of the subscriber's entry is set. -/
def Flagged (s : Bus) (i : Nat) : Prop := s.chan.ring.wakeflags (s.subs i).cursorIdx = WAKEFLAG_WAITING

/-- The client of the subscriber `i` is at the index `k` or after it. -/
def ClientFrom (s : Bus) (k i : Nat) : Prop := ∃ m c, k ≤ m ∧ s.clients[m]? = some c ∧ c.sub = i

/-- The next access of the publisher fires the subscriber's eventfd. -/
def Firing (s : Bus) (i : Nat) : Prop :=
  match s.phase with
  | .fire _ k => ∃ c, s.clients[k]? = some c ∧ c.sub = i
  | _ => False

/-- The broadcast of the publisher's call in progress has still to look at the flag for the subscriber's client. -/
def Ahead (s : Bus) (i : Nat) : Prop :=
  match s.phase with
  | .probe _ k | .take _ k => s.ClientFrom k i
  | .fire _ k => s.ClientFrom (k + 1) i
  | .publishingMany _ count _ => 0 < count
  | _ => False

/-- No accepted subscriber sleeps with messages unread, unless its eventfd is ready or is about to be made so. -/
def NoLostWakeup (s : Bus) : Prop :=
  ∀ i, (s.subs i).alive = true → s.Accepted i → (s.subs i).pc.Asleep = true →
    (s.subs i).cursor < s.chan.ring.tail → 0 < (s.subs i).efd ∨ s.Firing i ∨ s.Flagged i ∧ s.Ahead i

/-- The publisher takes a flag that is set only on behalf of the subscriber that waits for it, and nobody who is asleep
with messages unread becomes a client. -/
def WakesOwner (s : Bus) : Act → Prop
  | .publisher =>
    match s.phase with
    | .recvFd _ i => (s.subs i).alive = true → (s.subs i).pc.Asleep = true → s.chan.ring.tail ≤ (s.subs i).cursor
    | .take _ k => ∀ c, s.clients[k]? = some c → s.chan.ring.wakeflags c.cursorIdx = WAKEFLAG_WAITING →
        ∀ i, (s.subs i).Waiting s.chan.ring.tail → (s.subs i).cursorIdx = c.cursorIdx → c.sub = i
    | _ => True
  | _ => True

/-- The effect of a step that is not a subscriber's on wakeups -/
inductive WakeEffect (s s' : Bus) : Act → Prop
  | quiet {a} (fire : ∀ i, ¬s.Firing i) (efd : ∀ i, (s'.subs i).efd = (s.subs i).efd)
      (flags : ∀ j, s.chan.ring.wakeflags j = WAKEFLAG_WAITING → s'.chan.ring.wakeflags j = WAKEFLAG_WAITING)
      (clients : ∀ c ∈ s'.clients, c ∈ s.clients)
      (ahead : ∀ i, s'.Accepted i → (s.subs i).pc.stage.Holds = true → s.Flagged i →
        s.Ahead i ∨ s.chan.ring.tail < s'.chan.ring.tail → s'.Ahead i) : WakeEffect s s' a
  | join {call i} (phase : s.phase = .recvFd call i) (chan : s'.chan = s.chan)
      (efd : ∀ k, (s'.subs k).efd = (s.subs k).efd) (clients : ∀ c ∈ s'.clients, c ∈ s.clients ∨ c.sub = i) :
      WakeEffect s s' .publisher
  | take {result k c} (phase : s.phase = .take result k) (phase' : s'.phase = .fire result k)
      (at_k : s.clients[k]? = some c) (set : s.chan.ring.wakeflags c.cursorIdx = WAKEFLAG_WAITING)
      (ring : s'.chan.ring = s.chan.ring.setFlagWord c.cursorIdx 0) (subs : s'.subs = s.subs)
      (clients : s'.clients = s.clients) : WakeEffect s s' .publisher
  | fire {result k c} (phase : s.phase = .fire result k) (at_k : s.clients[k]? = some c) (chan : s'.chan = s.chan)
      (efd : (s'.subs c.sub).efd = (s.subs c.sub).efd + 1)
      (others : ∀ i, i ≠ c.sub → (s'.subs i).efd = (s.subs i).efd) (clients : s'.clients = s.clients)
      (ahead : ∀ i, s.Ahead i → s'.Ahead i) : WakeEffect s s' .publisher

variable {s s' : Bus}

/-- The broadcast goes on with the client `k`. -/
theorem ahead_broadcastAt {result : CallResult} {k i : Nat} (h : s.ClientFrom k i) : (s.broadcastAt result k).Ahead i := by
  obtain ⟨m, c, hk, hm, hc⟩ := h
  have hlt : m < s.clients.length := (List.getElem?_eq_some_iff.1 hm).1
  simp only [broadcastAt, if_pos (show k < s.clients.length by omega)]
  exact ⟨m, c, hk, hm, hc⟩

theorem Accepted.clientFrom {i : Nat} (h : s.Accepted i) : s.ClientFrom 0 i := by
  obtain ⟨c, hc, hsub⟩ := h
  obtain ⟨m, hm⟩ := List.getElem?_of_mem hc
  exact ⟨m, c, Nat.zero_le _, hm, hsub⟩

/-- `publish_many` goes on, or comes to its broadcast, once it has published something. -/
theorem ahead_finishMany {result : CallResult} {count i : Nat} (h : s.Accepted i) (hcount : 0 < count) :
    (s.finishMany result count).Ahead i := by
  simp only [finishMany, if_pos hcount]
  exact ahead_broadcastAt h.clientFrom

theorem finishMany_frame (result : CallResult) (count : Nat) :
    (s.finishMany result count).chan = s.chan ∧ (s.finishMany result count).subs = s.subs ∧
      (s.finishMany result count).clients = s.clients ∧
        ∀ i, s.Accepted i → 0 < count → (s.finishMany result count).Ahead i := by
  refine ⟨?_, ?_, ?_, fun i hacc hcount => ahead_finishMany hacc hcount⟩
  all_goals
    unfold finishMany
    split <;> rfl

theorem nextItem_frame {count : Nat} {items : List Bytes} (hs : s.nextItem count items = some s') :
    s'.chan = s.chan ∧ s'.subs = s.subs ∧ s'.clients = s.clients ∧
      ∀ i, s.Accepted i → 0 < count → s'.Ahead i := by
  cases items with
  | nil =>
    cases hs
    exact finishMany_frame ..
  | cons data rest =>
    simp only [nextItem] at hs
    split at hs
    · cases hs
      exact finishMany_frame ..
    · split at hs
      · cases hs
        exact ⟨rfl, rfl, rfl, fun i _ hcount => hcount⟩
      · cases hs

/-- After `swap_remove` of the client `k`, those from `k` on but itself are still there from `k` on. -/
theorem ClientFrom.swapRemove {k i : Nat} {c : Client} (h : s.ClientFrom k i) (hk : s.clients[k]? = some c)
    (hne : c.sub ≠ i) (hs : s'.clients = Mmbus.swapRemove s.clients k) : s'.ClientFrom k i := by
  obtain ⟨m, d, hkm, hm, hd⟩ := h
  have hmk : m ≠ k := by
    rintro rfl
    rw [hk] at hm
    cases hm
    exact hne hd
  have hlt : m < s.clients.length := (List.getElem?_eq_some_iff.1 hm).1
  by_cases hlast : m + 1 < s.clients.length
  · exact ⟨m, d, hkm, by rw [hs, getElem?_swapRemove, if_pos hlast, if_neg hmk, hm], hd⟩
  · -- the last client has moved to `k`
    refine ⟨k, d, le_rfl, ?_, hd⟩
    rw [hs, getElem?_swapRemove, if_pos (by omega), if_pos rfl, List.getLast?_eq_getElem?,
      show s.clients.length - 1 = m by omega, hm]

/-- A step outside the broadcast that leaves the flags and the eventfds alone -/
private theorem quiet_of_frame {a : Act} (hfire : ∀ i, ¬s.Firing i) (hchan : s'.chan.ring.wakeflags = s.chan.ring.wakeflags)
    (hsubs : ∀ i, (s'.subs i).efd = (s.subs i).efd) (hclients : s'.clients = s.clients)
    (hahead : ∀ i, s.Accepted i → s.Ahead i ∨ s.chan.ring.tail < s'.chan.ring.tail → s'.Ahead i) :
    WakeEffect s s' a :=
  .quiet hfire hsubs (fun j hj => by rw [hchan, hj]) (fun c hc => hclients ▸ hc) fun i hacc _ _ h =>
    hahead i (by rwa [Accepted, hclients] at hacc) h

/-- Inside a ring call -/
private theorem quiet_of_ring {chan : Channel} {pc pc' : PublishPc} (hfire : ∀ i, ¬s.Firing i)
    (hstep : pc.step s.chan = some (chan, pc')) (hchan : s'.chan = chan) (hsubs : s'.subs = s.subs)
    (hclients : s'.clients = s.clients)
    (hahead : ∀ i, s.Accepted i → s.Ahead i ∨ pc' = .returned true → s'.Ahead i) : WakeEffect s s' .publisher := by
  obtain ⟨-, -, -, -, hflags, -⟩ := PublishPc.frame_step hstep
  refine quiet_of_frame hfire (hchan ▸ hflags) (fun i => by rw [hsubs]) hclients fun i hacc h => hahead i hacc ?_
  refine h.imp_right fun hlt => ?_
  by_contra hne
  rw [hchan, PublishPc.tail_step hstep hne] at hlt
  exact lt_irrefl _ hlt

private theorem efd_update {subs : Nat → Subscriber} {k : Nat} {sub : Subscriber} (h : sub.efd = (subs k).efd)
    (i : Nat) : (Function.update subs k sub i).efd = (subs i).efd := by
  by_cases hi : i = k
  · subst hi
    rw [Function.update_self, h]
  · rw [Function.update_of_ne hi]

theorem publisherStep_wake (hconn : s.Connections) (hinv : s.Inv) (hs : s.publisherStep = some s') :
    WakeEffect s s' .publisher := by
  unfold publisherStep at hs
  cases hphase : s.phase with
  | idle | dropped => simp [hphase] at hs
  | accept call =>
    have hfire : ∀ i, ¬s.Firing i := fun i h => by simp [Firing, hphase] at h
    have hahead : ∀ i, ¬s.Ahead i := fun i h => by simp [Ahead, hphase] at h
    simp only [hphase] at hs
    split at hs
    · cases hs
      exact quiet_of_frame hfire rfl (fun _ => rfl) rfl fun i _ h => (h.elim (hahead i) (lt_irrefl _)).elim
    · cases call with
      | publish data =>
        simp only [afterAccept] at hs
        split at hs
        · cases hs
          exact quiet_of_frame hfire rfl (fun _ => rfl) rfl fun i _ h => (h.elim (hahead i) (lt_irrefl _)).elim
        · cases hs
      | publishMany items =>
        obtain ⟨hchan, hsubs, hclients, -⟩ := nextItem_frame hs
        exact quiet_of_frame hfire (by rw [hchan]) (fun i => by rw [hsubs]) hclients fun i _ h =>
          (h.elim (hahead i) (by rw [hchan]; exact lt_irrefl _)).elim
      | waitForSubscribers minCount =>
        simp only [afterAccept, Option.some.injEq] at hs
        subst hs
        split
        all_goals exact quiet_of_frame hfire rfl (fun _ => rfl) rfl fun i _ h => (h.elim (hahead i) (lt_irrefl _)).elim
  | recvFd call i =>
    have hfire : ∀ i, ¬s.Firing i := fun i h => by simp [Firing, hphase] at h
    have hahead : ∀ i, ¬s.Ahead i := fun i h => by simp [Ahead, hphase] at h
    simp only [hphase] at hs
    split at hs
    · cases hs
      refine WakeEffect.join hphase rfl (efd_update rfl) fun c hc => ?_
      simp only [List.mem_append, List.mem_singleton] at hc
      exact hc.imp_right fun h => by rw [h]
    · split at hs
      · cases hs
        exact quiet_of_frame hfire rfl (fun _ => rfl) rfl fun i _ h => (h.elim (hahead i) (lt_irrefl _)).elim
      · cases hs
  | publishing pc =>
    have hfire : ∀ i, ¬s.Firing i := fun i h => by simp [Firing, hphase] at h
    have hahead : ∀ i, ¬s.Ahead i := fun i h => by simp [Ahead, hphase] at h
    simp only [hphase] at hs
    split at hs
    · rename_i chan hstep
      cases hs
      exact quiet_of_ring hfire hstep rfl rfl rfl fun i hacc _ => ahead_broadcastAt hacc.clientFrom
    · rename_i chan hstep
      cases hs
      exact quiet_of_ring hfire hstep rfl rfl rfl fun i _ h => (h.elim (hahead i) (by simp)).elim
    · rename_i chan pc' hne _ hstep
      cases hs
      exact quiet_of_ring hfire hstep rfl rfl rfl fun i _ h => (h.elim (hahead i) (by simpa using hne)).elim
    · cases hs
  | publishingMany rest count pc =>
    have hfire : ∀ i, ¬s.Firing i := fun i h => by simp [Firing, hphase] at h
    have hahead : ∀ i, s.Ahead i → 0 < count := fun i h => by simpa [Ahead, hphase] using h
    simp only [hphase] at hs
    split at hs
    · rename_i chan hstep
      obtain ⟨hchan, hsubs, hclients, hmany⟩ := nextItem_frame hs
      exact quiet_of_ring hfire hstep hchan hsubs hclients fun i hacc _ => hmany i hacc (by omega)
    · rename_i chan hstep
      cases hs
      obtain ⟨hchan, hsubs, hclients, hmany⟩ := @finishMany_frame { s with chan := chan } (.count count) count
      exact quiet_of_ring hfire hstep hchan hsubs hclients fun i hacc h =>
        hmany i hacc (h.elim (hahead i) (by simp))
    · rename_i chan pc' hne _ hstep
      cases hs
      exact quiet_of_ring hfire hstep rfl rfl rfl fun i _ h => h.elim (hahead i) fun heq => absurd heq (by simpa using hne)
    · cases hs
  | probe result k =>
    have hfire : ∀ i, ¬s.Firing i := fun i h => by simp [Firing, hphase] at h
    have hahead : ∀ i, s.Ahead i → s.ClientFrom k i := fun i h => by simpa [Ahead, hphase] using h
    simp only [hphase] at hs
    split at hs
    · rename_i c hk
      split at hs
      · rename_i hfree
        cases hs
        have hout : (s.subs c.sub).pc.stage = .out :=
          hconn.out_of_free hinv (List.mem_of_getElem? hk) (by simpa [cursorIsUnclaimed] using hfree)
        refine .quiet hfire (efd_update rfl) (fun j hj => hj) (fun d hd => mem_of_mem_swapRemove hd)
          fun i _ hholds _ h => ?_
        refine ahead_broadcastAt ((hahead i (h.resolve_right (lt_irrefl _))).swapRemove hk ?_ rfl)
        rintro rfl
        rw [hout] at hholds
        cases hholds
      · cases hs
        exact quiet_of_frame hfire rfl (fun _ => rfl) rfl fun i _ h => hahead i (h.resolve_right (lt_irrefl _))
    · cases hs
  | take result k =>
    have hfire : ∀ i, ¬s.Firing i := fun i h => by simp [Firing, hphase] at h
    have hahead : ∀ i, s.Ahead i → s.ClientFrom k i := fun i h => by simpa [Ahead, hphase] using h
    simp only [hphase] at hs
    split at hs
    · rename_i c hk
      simp only [Option.some.injEq] at hs
      subst hs
      split
      · rename_i hset
        exact .take hphase rfl hk (by simpa [takeWakeflag] using hset) rfl rfl rfl
      · rename_i hunset
        have hne : s.chan.ring.wakeflags c.cursorIdx ≠ WAKEFLAG_WAITING := by simpa [takeWakeflag] using hunset
        refine .quiet hfire (fun _ => rfl) (fun j hj => ?_) (fun d hd => hd) fun i _ _ hset h => ?_
        · have hjc : j ≠ c.cursorIdx := fun heq => hne (heq ▸ hj)
          simpa [takeWakeflag, setFlagWord_wakeflags, hjc] using hj
        · obtain ⟨m, d, hkm, hm, rfl⟩ := hahead i (h.resolve_right (lt_irrefl _))
          refine ahead_broadcastAt ⟨m, d, Nat.lt_of_le_of_ne hkm ?_, hm, rfl⟩
          -- the flag of this client is not set
          rintro rfl
          rw [hk] at hm
          cases hm
          refine hne ?_
          rw [(hconn.client c (List.mem_of_getElem? hk)).2]
          exact hset
    · cases hs
  | fire result k =>
    have hahead : ∀ i, s.Ahead i → s.ClientFrom (k + 1) i := fun i h => by simpa [Ahead, hphase] using h
    simp only [hphase] at hs
    split at hs
    · rename_i c hk
      cases hs
      refine .fire hphase hk rfl ?_ (fun i hi => ?_) rfl fun i h => ahead_broadcastAt (hahead i h)
      · simp [setSub]
      · simp [setSub, Function.update_of_ne hi]
    · cases hs

theorem step_wake {a : Act} (hconn : s.Connections) (hinv : s.Inv) (ha : ∀ i choice, a ≠ .sub i choice)
    (hs : s.step a = some s') : WakeEffect s s' a := by
  -- outside the calls there is no broadcast
  have still : (∀ i, ¬s.Firing i) → (∀ i, ¬s.Ahead i) → s'.chan = s.chan →
      (∀ i, (s'.subs i).efd = (s.subs i).efd) → s'.clients = s.clients → WakeEffect s s' a := by
    intro hfire hahead hchan hefd hclients
    exact quiet_of_frame hfire (by rw [hchan]) hefd hclients fun i _ h =>
      (h.elim (hahead i) (by rw [hchan]; exact lt_irrefl _)).elim
  cases a with
  | sub i choice => exact absurd rfl (ha i choice)
  | publisher => exact publisherStep_wake hconn hinv hs
  | begin call =>
    simp only [step] at hs
    split at hs
    · rename_i hphase
      cases hs
      have hcall : (s.beginCall call).chan = s.chan ∧ (s.beginCall call).subs = s.subs ∧
          (s.beginCall call).clients = s.clients := by
        unfold beginCall
        split
        · split <;> exact ⟨rfl, rfl, rfl⟩
        · exact ⟨rfl, rfl, rfl⟩
      exact still (fun i h => by simp [Firing, hphase] at h) (fun i h => by simp [Ahead, hphase] at h) hcall.1
        (fun i => by rw [hcall.2.1]) hcall.2.2
    · cases hs
  | timeout =>
    simp only [step] at hs
    split at hs
    · rename_i hphase
      split at hs
      · cases hs
        exact still (fun i h => by simp [Firing, hphase] at h) (fun i h => by simp [Ahead, hphase] at h) rfl
          (fun _ => rfl) rfl
      · cases hs
    · cases hs
  | drop =>
    simp only [step] at hs
    split at hs
    · rename_i hphase
      cases hs
      exact still (fun i h => by simp [Firing, hphase] at h) (fun i h => by simp [Ahead, hphase] at h) rfl
        (fun _ => rfl) rfl
    · cases hs
  | closeSock i =>
    simp only [step] at hs
    split at hs
    · rename_i hphase
      split at hs
      · cases hs
        exact still (fun i h => by simp [Firing, hphase] at h) (fun i h => by simp [Ahead, hphase] at h) rfl
          (efd_update rfl) rfl
      · cases hs
    · cases hs

/-! ### The invariant -/

/-- Who waits has its flag set, or has been woken since it set it. -/
structure Wakeups (s : Bus) : Prop where
  inv : s.Inv
  connections : s.Connections
  clear : ∀ i call, (s.subs i).pc ≠ .clearFlag call .armed
  flagged : ∀ i, (s.subs i).Waiting s.chan.ring.tail → s.Flagged i ∨ 0 < (s.subs i).efd ∨ s.Firing i
  pending : s.NoLostWakeup

namespace Wakeups

theorem init {r : RingBuffer} {backpressure : BackpressurePolicy} (hr : r.Started) :
    (Bus.init r backpressure).Wakeups where
  inv := Inv.init hr
  connections := Connections.init
  clear _ _ h := by cases h
  flagged _ h := by cases h.watches
  pending _ _ _ h := by cases h

theorem waiting_of_asleep {i tail : Nat} (halive : (s.subs i).alive = true) (h : (s.subs i).pc.Asleep = true) :
    (s.subs i).Waiting tail := ⟨halive, .inl h⟩

/-- Who waits after a step that is not a subscriber's waited before it, and keeps its flag or is woken. -/
theorem flagged_publisher {a : Act} (h : s.Wakeups) (he : PublisherEffect s s') (hw : WakeEffect s s' a)
    (howner : s.WakesOwner a) {i : Nat} (hi : (s'.subs i).Waiting s'.chan.ring.tail) :
    s'.Flagged i ∨ 0 < (s'.subs i).efd ∨ s'.Firing i := by
  obtain ⟨-, -, -, -, -, htail⟩ := h.inv.publisher_ring he
  have hi₀ : (s.subs i).Waiting s.chan.ring.tail := by
    simp only [Subscriber.Waiting, (he.fields i).1, (he.fields i).2.1, (he.fields i).2.2.1] at hi
    exact ⟨hi.1, hi.2.imp_right fun hr => ⟨htail.trans hr.1, hr.2⟩⟩
  have hbefore := h.flagged i hi₀
  simp only [Flagged, (he.fields i).2.2.2.1] at hbefore ⊢
  cases hw with
  | quiet fire efd flags =>
    rw [efd]
    rcases hbefore with hset | hefd | hfire
    · exact .inl (flags _ hset)
    · exact .inr (.inl hefd)
    · exact absurd hfire (fire i)
  | join phase chan efd clients =>
    rw [efd, chan]
    refine hbefore.imp_right fun h => .inl (h.resolve_right fun hfire => ?_)
    simp [Firing, phase] at hfire
  | @take result k c phase phase' at_k set ring subs clients =>
    by_cases hidx : (s.subs i).cursorIdx = c.cursorIdx
    · -- the flag is the one this client's subscriber waits with
      have hown : c.sub = i := by
        simp only [WakesOwner, phase] at howner
        exact howner c at_k set i hi₀ hidx
      refine .inr (.inr ?_)
      simp only [Firing, phase', clients]
      exact ⟨c, at_k, hown⟩
    · rw [ring, setFlagWord_wakeflags, if_neg hidx, subs]
      refine hbefore.imp_right fun h => .inl (h.resolve_right fun hfire => ?_)
      simp [Firing, phase] at hfire
  | @fire result k c phase at_k chan efd others clients ahead =>
    by_cases hown : i = c.sub
    · subst hown
      exact .inr (.inl (by omega))
    · rw [others i hown, chan]
      refine hbefore.imp_right fun h => .inl (h.resolve_right fun hfire => hown ?_)
      simp only [Firing, phase, at_k] at hfire
      obtain ⟨c', hc', rfl⟩ := hfire
      cases hc'
      rfl

/-- The broadcast that follows a publication comes to everybody who has been asleep since. -/
theorem pending_publisher {a : Act} (h : s.Wakeups) (he : PublisherEffect s s') (hw : WakeEffect s s' a)
    (howner : s.WakesOwner a) : s'.NoLostWakeup := by
  intro i halive hacc hsleep hlt
  rw [(he.fields i).1] at hsleep
  rw [(he.fields i).2.1] at halive
  rw [(he.fields i).2.2.1] at hlt
  simp only [Flagged, (he.fields i).2.2.2.1]
  have hbefore := h.pending i halive
  have hflag := h.flagged i (waiting_of_asleep halive hsleep)
  simp only [Flagged] at hbefore hflag
  cases hw with
  | quiet fire efd flags clients ahead =>
    have hacc₀ : s.Accepted i := by
      obtain ⟨c, hc, hci⟩ := hacc
      exact ⟨c, clients c hc, hci⟩
    have hholds : (s.subs i).pc.stage.Holds = true := by
      rw [(waiting_of_asleep halive hsleep : (s.subs i).Waiting 0).live]
      rfl
    rw [efd]
    by_cases hold : (s.subs i).cursor < s.chan.ring.tail
    · rcases hbefore hacc₀ hsleep hold with hefd | hfire | ⟨hset, hahead⟩
      · exact .inl hefd
      · exact absurd hfire (fire i)
      · exact .inr (.inr ⟨flags _ hset, ahead i hacc hholds hset (.inl hahead)⟩)
    · -- the message it sleeps through is the one just published
      rcases hflag with hset | hefd | hfire
      · exact .inr (.inr ⟨flags _ hset, ahead i hacc hholds hset (.inr (by omega))⟩)
      · exact .inl hefd
      · exact absurd hfire (fire i)
  | @join call k phase chan efd clients =>
    rw [chan] at hlt
    have hacc₀ : s.Accepted i := by
      obtain ⟨c, hc, rfl⟩ := hacc
      refine ⟨c, (clients c hc).resolve_right fun hck => ?_, rfl⟩
      simp only [WakesOwner, phase] at howner
      exact absurd (howner (hck ▸ halive) (hck ▸ hsleep)) (hck ▸ Nat.not_le.2 hlt)
    rw [efd]
    rcases hbefore hacc₀ hsleep hlt with hefd | hfire | ⟨-, hahead⟩
    · exact .inl hefd
    · simp [Firing, phase] at hfire
    · simp [Ahead, phase] at hahead
  | @take result k c phase phase' at_k set ring subs clients =>
    rw [ring, setFlagWord_tail] at hlt
    have hacc₀ : s.Accepted i := by rwa [Accepted, clients] at hacc
    by_cases hown : c.sub = i
    · refine .inr (.inl ?_)
      simp only [Firing, phase', clients]
      exact ⟨c, at_k, hown⟩
    · have hidx : (s.subs i).cursorIdx ≠ c.cursorIdx := by
        intro hidx
        simp only [WakesOwner, phase] at howner
        exact hown (howner c at_k set i (waiting_of_asleep halive hsleep) hidx)
      rw [ring, setFlagWord_wakeflags, if_neg hidx, subs]
      rcases hbefore hacc₀ hsleep hlt with hefd | hfire | ⟨hset, hahead⟩
      · exact .inl hefd
      · simp [Firing, phase] at hfire
      · refine .inr (.inr ⟨hset, ?_⟩)
        simp only [Ahead, phase] at hahead
        simp only [Ahead, phase']
        obtain ⟨m, d, hkm, hm, hd⟩ := hahead
        have hmk : m ≠ k := by
          rintro rfl
          rw [at_k] at hm
          cases hm
          exact hown hd
        exact ⟨m, d, by omega, by rw [clients, hm], hd⟩
  | @fire result k c phase at_k chan efd others clients ahead =>
    rw [chan] at hlt
    have hacc₀ : s.Accepted i := by rwa [Accepted, clients] at hacc
    by_cases hown : i = c.sub
    · subst hown
      exact .inl (by omega)
    · rw [others i hown, chan]
      rcases hbefore hacc₀ hsleep hlt with hefd | hfire | ⟨hset, hahead⟩
      · exact .inl hefd
      · simp only [Firing, phase] at hfire
        obtain ⟨c', hc', rfl⟩ := hfire
        rw [at_k] at hc'
        cases hc'
        exact absurd rfl hown
      · exact .inr (.inr ⟨hset, ahead i hahead⟩)

theorem publisher {a : Act} (h : s.Wakeups) (he : PublisherEffect s s') (hw : WakeEffect s s' a) (hc : ConnEffect s s')
    (howner : s.WakesOwner a) : s'.Wakeups where
  inv := h.inv.publisher he
  connections := h.connections.publisher h.inv he hc
  clear i call := (he.fields i).1 ▸ h.clear i call
  flagged _ hi := h.flagged_publisher he hw howner hi
  pending := h.pending_publisher he hw howner

theorem subscriber (h : s.Wakeups) {i : Nat} {choice : Choice} {ring : RingBuffer} {sub : Subscriber}
    (hs : (s.subs i).step s.chan.ring s.listening choice = some (ring, sub)) :
    Wakeups { s with
      chan := { s.chan with ring := ring }
      subs := Function.update s.subs i sub
      backlog := if (s.subs i).pc = .connectSock ∧ sub.pc = .sendFd then s.backlog ++ [i] else s.backlog } := by
  obtain ⟨cursors, flags, hring, -, hflags⟩ := (Subscriber.step_effect hs).frame
  have htail : ring.tail = s.chan.ring.tail := by rw [hring]
  -- the flags of the other subscribers that wait stay
  have others : ∀ k, k ≠ i → (s.subs k).Waiting s.chan.ring.tail →
      ring.wakeflags (s.subs k).cursorIdx = s.chan.ring.wakeflags (s.subs k).cursorIdx := by
    intro k hki hk
    have hholds : (s.subs k).pc.stage.Holds = true := by
      rw [hk.live]
      rfl
    by_contra hne
    rw [hring] at hne
    obtain ⟨hi, hidx⟩ := hflags _ hne
    exact h.inv.distinct k i hki hholds hi hidx
  refine ⟨h.inv.subscriber hs, h.connections.subscriber hs, fun k call => ?_, fun k hk => ?_,
    fun k halive hacc hsleep hlt => ?_⟩
  · by_cases hki : k = i
    · subst hki
      intro hpc
      simp only [Function.update_self] at hpc
      exact h.clear k call (Subscriber.clear_step hs hpc)
    · simpa [Function.update_of_ne hki] using h.clear k call
  · by_cases hki : k = i
    · subst hki
      simp only [Flagged, Function.update_self] at hk ⊢
      rcases Subscriber.waiting_step (h.clear k) hs hk with ⟨call, hpc, hle, rfl, heq⟩ | ⟨call, hpc, rfl, rfl⟩
      · have halive := (Subscriber.step_cases hs).1
        rw [heq]
        exact h.flagged k ⟨halive, .inr ⟨hle, call, hpc⟩⟩
      · exact .inl (by simp [setWakeflag, setFlagWord_wakeflags])
    · simp only [Flagged, Function.update_of_ne hki] at hk ⊢
      rw [htail] at hk
      rw [others k hki hk]
      exact h.flagged k hk
  · by_cases hki : k = i
    · subst hki
      simp only [Function.update_self] at halive hsleep hlt
      rcases Subscriber.waiting_step (h.clear k) hs ⟨halive, .inl hsleep⟩ with
        ⟨call, hpc, hle, rfl, heq⟩ | ⟨call, hpc, rfl, rfl⟩
      · -- it has just seen that nothing is unread
        rw [heq] at hlt
        exact absurd hle (Nat.not_le.2 hlt)
      · cases hsleep
    · simp only [Function.update_of_ne hki] at halive hsleep hlt
      rw [htail] at hlt
      simp only [Flagged, Function.update_of_ne hki]
      rw [others k hki ⟨halive, .inl hsleep⟩]
      exact h.pending k halive hacc hsleep hlt

theorem step {a : Act} (h : s.Wakeups) (ha : s.WakesOwner a) (hs : s.step a = some s') : s'.Wakeups := by
  rcases step_cases h.inv.fits hs with ⟨i, choice, ring, sub, rfl, hsub, rfl⟩ | ⟨hne, he⟩
  · exact h.subscriber hsub
  · exact h.publisher he (step_wake h.connections h.inv hne hs) (step_conn hne hs) ha

end Wakeups

/-- No lost wakeup, in every state of every run whose steps wake the owner of the flag they take. -/
theorem noLostWakeup {r : RingBuffer} {backpressure : BackpressurePolicy} (hr : r.Started) {acts : List Act}
    (hmeets : Meets Bus.step WakesOwner (.init r backpressure) acts)
    (hrun : run Bus.step (.init r backpressure) acts = some s) : s.NoLostWakeup :=
  (run_invariant_when Wakeups WakesOwner (fun _ _ _ h ha hs => h.step ha hs) hmeets (Wakeups.init hr) hrun).pending

/-- Nobody but the subscriber 0 takes part. -/
def Alone : Act → Bool
  | .sub i _ => i == 0
  | _ => true

/-- Who becomes a client is not asleep. -/
def JoinsAwake (s : Bus) : Act → Prop
  | .publisher =>
    match s.phase with
    | .recvFd _ i => (s.subs i).pc.Asleep = false
    | _ => True
  | _ => True

instance (s : Bus) : DecidablePred s.JoinsAwake := by
  intro a
  unfold JoinsAwake
  split
  · split <;> infer_instance
  · infer_instance

theorem absent_of_alone {r : RingBuffer} {backpressure : BackpressurePolicy} (hr : r.Started) {acts : List Act}
    (halone : ∀ a ∈ acts, Alone a = true) (hrun : run Bus.step (.init r backpressure) acts = some s) :
    s.Inv ∧ s.Connections ∧ ∀ i, i ≠ 0 → (s.subs i).pc = .absent := by
  refine run_invariant_of (fun s => s.Inv ∧ s.Connections ∧ ∀ i, i ≠ 0 → (s.subs i).pc = .absent) (Alone · = true) ?_
    halone ⟨Inv.init hr, Connections.init, fun _ _ => rfl⟩ hrun
  rintro s a s' ⟨hinv, hconn, habsent⟩ ha hs
  refine ⟨hinv.step hs, hconn.step hinv hs, fun i hi => ?_⟩
  rcases step_cases hinv.fits hs with ⟨k, choice, ring, sub, rfl, -, rfl⟩ | ⟨-, he⟩
  · have hk : i ≠ k := by simpa [Alone, ← show k = 0 by simpa [Alone] using ha] using hi
    simpa [Function.update_of_ne hk] using habsent i hi
  · obtain ⟨efd, hup, acceptedAt, heq⟩ := he.subs i
    rw [heq]
    exact habsent i hi

/-- A single subscriber is woken as it should, unless it has become a client in its sleep. -/
theorem meets_wakesOwner_of_alone {r : RingBuffer} {backpressure : BackpressurePolicy} (hr : r.Started) {acts : List Act}
    (halone : ∀ a ∈ acts, Alone a = true) (hjoins : Meets Bus.step JoinsAwake (.init r backpressure) acts) :
    Meets Bus.step WakesOwner (.init r backpressure) acts := by
  have hreach : Meets Bus.step (fun s _ => s.Connections ∧ ∀ i, i ≠ 0 → (s.subs i).pc = .absent)
      (.init r backpressure) acts := by
    refine Meets.of_split fun before a after s hacts hrun => (absent_of_alone hr (fun b hb => halone b ?_) hrun).2
    rw [hacts]
    exact List.mem_append_left _ hb
  refine (hjoins.and hreach).mono fun s a h => ?_
  obtain ⟨hjoin, hconn, habsent⟩ := h
  unfold WakesOwner
  split
  · split
    · rename_i call i hphase
      intro _ hsleep
      simp only [JoinsAwake, hphase] at hjoin
      rw [hjoin] at hsleep
      cases hsleep
    · rename_i result k hphase
      intro c hk _ i hwait _
      have hzero : ∀ j, (s.subs j).pc ≠ .absent → j = 0 := fun j hj => by
        by_contra hne
        exact hj (habsent j hne)
      have hi : i = 0 := hzero i fun h => by
        have hw := hwait.watches
        rw [h] at hw
        cases hw
      have hc : c.sub = 0 := hzero c.sub fun h => by
        have hearly := hconn.client_not_early (List.mem_of_getElem? hk)
        rw [h] at hearly
        cases hearly
      rw [hi, hc]
    · trivial
  · trivial

/-- The publisher accepts the subscriber, publishes when it has gone to sleep, and wakes it. -/
def wokenByPublish : List Act :=
  connectActs 0 ++ List.replicate 3 (.sub 0 .go) ++ .begin (.waitForSubscribers 1) :: List.replicate 3 .publisher ++
    .sub 0 (.call (.receive false)) :: List.replicate 3 (.sub 0 .go) ++ .begin (.publish [7]) ::
    List.replicate 11 .publisher

theorem noLostWakeup_wokenByPublish : ∃ s, run Bus.step (.init (create 2 4 1) .error) wokenByPublish = some s ∧
    (s.subs 0).pc = .poll (.receive false) ∧ (s.subs 0).cursor < s.chan.ring.tail ∧ s.NoLostWakeup := by
  obtain ⟨s, hrun, hs⟩ := Option.map_eq_some_iff.1
    (show (run Bus.step (.init (create 2 4 1) .error) wokenByPublish).map
        (fun s => ((s.subs 0).pc, (s.subs 0).cursor, s.chan.ring.tail)) = some (.poll (.receive false), 0, 1) by decide)
  simp only [Prod.mk.injEq] at hs
  exact ⟨s, hrun, hs.1, by omega, noLostWakeup (started_create (by decide))
    (meets_wakesOwner_of_alone (started_create (by decide)) (by decide) (by decide)) hrun⟩

/-- The subscriber 0 has left its entry to the subscriber 1, and its client is still there: the broadcast takes the flag
of the subscriber 1 for the client of the subscriber 0. -/
def reusedEntry : List Act :=
  connectActs 0 ++ List.replicate 3 (.sub 0 .go) ++ .begin (.waitForSubscribers 1) :: List.replicate 3 .publisher ++
    [.sub 0 .drop, .sub 0 .go] ++ connectActs 1 ++ List.replicate 3 (.sub 1 .go) ++
    .begin (.waitForSubscribers 2) :: List.replicate 3 .publisher ++
    .sub 1 (.call (.receive false)) :: List.replicate 3 (.sub 1 .go) ++ .begin (.publish [7]) ::
    List.replicate 13 .publisher

/-- The subscriber goes to sleep behind the loop that accepts connections, and becomes a client after the message. -/
def lateAcceptance : List Act :=
  .begin (.publish [7]) :: .publisher :: connectActs 0 ++ List.replicate 3 (.sub 0 .go) ++
    .sub 0 (.call (.receive false)) :: List.replicate 3 (.sub 0 .go) ++ List.replicate 7 .publisher ++
    .begin (.waitForSubscribers 1) :: List.replicate 3 .publisher

/-- The subscriber `i` is a client and sleeps with messages unread, its eventfd is not ready, and the publisher is
between two calls. -/
def Oversleeps (s : Bus) (i : Nat) : Bool :=
  (s.subs i).alive && (s.clients.map Client.sub).contains i && (s.subs i).pc.Asleep &&
    decide ((s.subs i).cursor < s.chan.ring.tail) && (s.subs i).efd == 0 &&
    match s.phase with
    | .idle _ => true
    | _ => false

theorem not_noLostWakeup {i : Nat} (h : s.Oversleeps i = true) : ¬s.NoLostWakeup := by
  simp only [Oversleeps, Bool.and_eq_true, decide_eq_true_eq, List.contains_iff_mem, List.mem_map, beq_iff_eq] at h
  obtain ⟨⟨⟨⟨⟨halive, hacc⟩, hsleep⟩, hlt⟩, hefd⟩, hphase⟩ := h
  intro hall
  rcases hall i halive hacc hsleep hlt with h | h | ⟨-, h⟩
  · omega
  · unfold Firing at h
    split at h
    · rename_i heq
      simp [heq] at hphase
    · exact h
  · unfold Ahead at h
    split at h <;> first | exact h | (rename_i heq; simp [heq] at hphase)

theorem noLostWakeup_fails :
    (∃ s, run Bus.step (.init (create 2 4 1) .error) reusedEntry = some s ∧ ¬s.NoLostWakeup) ∧
      ∃ s, run Bus.step (.init (create 2 4 1) .error) lateAcceptance = some s ∧ ¬s.NoLostWakeup := by
  obtain ⟨s, hrun, hs⟩ := Option.map_eq_some_iff.1
    (show (run Bus.step (.init (create 2 4 1) .error) reusedEntry).map (Oversleeps · 1) = some true by decide)
  obtain ⟨s', hrun', hs'⟩ := Option.map_eq_some_iff.1
    (show (run Bus.step (.init (create 2 4 1) .error) lateAcceptance).map (Oversleeps · 0) = some true by decide)
  exact ⟨⟨s, hrun, not_noLostWakeup hs⟩, s', hrun', not_noLostWakeup hs'⟩

end Bus

end Mmbus
