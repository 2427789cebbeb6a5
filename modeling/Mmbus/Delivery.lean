import Mmbus.Ownership

/-!
# No loss, no duplication, no reordering

Under `BackpressurePolicy::Error` a subscriber that connects at the current tail, or before it is overtaken, keeps the
positions it has not read from being overwritten (`Guard`), so what it has received is an unbroken stream from its start position on
(`Stream`), and a receive call that finds its cursor below the tail delivers in its first round (`Delivering`), in at most
five accesses more than the payload has bytes (`Bound`).
-/

namespace Mmbus

open RingBuffer Transition

/-- The subscriber knows its position and has not released its entry. -/
def Stage.Reads : Stage → Bool
  | positioned | live => true
  | _ => false

theorem Stage.holds_of_reads {stage : Stage} (h : stage.Reads = true) : stage.Holds = true := by
  cases stage <;> first | rfl | cases h

namespace Subscriber

/-- The positions from the subscriber's cursor on are protected: its entry shows the cursor, or the cursor is the tail
it has just read and its entry is older. -/
def Guarded (s : Subscriber) : Prop :=
  s.pc.stage = .live ∨ s.pc.stage = .positioned ∧ s.startPos = .now

theorem Guarded.reads {s : Subscriber} (h : s.Guarded) : s.pc.stage.Reads = true := by
  rcases h with h | ⟨h, -⟩ <;> rw [h] <;> rfl

/-- The messages returned so far are those of the positions from `first` up to `cursor`, one each. -/
def Stream (log : Nat → Option Bytes) (s : Subscriber) : Prop :=
  match s.first with
  | none => s.delivered = []
  | some f => f ≤ s.cursor ∧ s.delivered.length = s.cursor - f ∧
      ∀ k data, s.delivered[k]? = some data → log (f + k) = some data

/-- The part of the invariant about one subscriber -/
structure Tracked (c : Channel) (pc : PublishPc) (s : Subscriber) : Prop where
  unplaced : s.pc.stage = .init ∨ s.pc.stage = .claiming ∨ s.pc.stage = .claimed → s.first = none
  placed : s.pc.stage.Reads = true → s.first ≠ none
  guard : s.Guarded → Guard c.ring pc s.cursorIdx s.cursor
  stream : s.Stream c.log
  reading : ∀ call rp, s.pc = .receiving call rp → rp = .loadTail s.cursor ∨
    s.cursor < c.ring.tail ∧ ∃ data, c.log s.cursor = some data ∧ Delivering data rp

namespace Tracked

variable {s s' : Subscriber} {c c' : Channel} {pc pc' : PublishPc} {r' : RingBuffer}

/-- A step of another party: the positions the subscriber has yet to read are still guarded. -/
theorem of_channel (h : s.Tracked c pc)
    (hguard : s.Guarded → Guard c'.ring pc' s.cursorIdx s.cursor)
    (htail : c.ring.tail ≤ c'.ring.tail) (hlog : ∀ p data, c.log p = some data → c'.log p = some data) :
    s.Tracked c' pc' where
  unplaced := h.unplaced
  placed := h.placed
  guard := hguard
  stream := by
    have hstream := h.stream
    unfold Stream at hstream ⊢
    split at hstream
    · exact hstream
    · exact ⟨hstream.1, hstream.2.1, fun k data hk => hlog _ _ (hstream.2.2 k data hk)⟩
  reading call rp hrp := by
    rcases h.reading call rp hrp with hload | ⟨hlt, data, hl, hd⟩
    · exact .inl hload
    · exact .inr ⟨hlt.trans_le htail, data, hlog _ _ hl, hd⟩

/-- The first position to read is intact if it is below the tail. -/
private theorem front (h : s.Tracked c pc) (hp : PublishInv 0 c pc) (hr : s.Guarded)
    (hlt : s.cursor < c.ring.tail) :
    ∃ data, c.log s.cursor = some data ∧ data.length ≤ c.ring.slotSize ∧ (c.ring.slot s.cursor).Holds s.cursor data :=
  (h.guard hr).held hp (Nat.zero_le _) le_rfl hlt

/-- What one access makes of a receive call that began at the subscriber's cursor: unless it found nothing new, it is
bound to deliver. -/
theorem receive_access (h : s.Tracked c pc) (hp : PublishInv 0 c pc) (hl : s.Local c.ring) {call : Call} {rp rp' : ReceivePc}
    (hrp : s.pc = .receiving call rp) (hs : rp.step s.cursorIdx c.ring = some (r', rp')) :
    (∃ tail, tail ≤ s.cursor ∧ rp' = .returned s.cursor tail none) ∨
      s.cursor < c.ring.tail ∧ ∃ data, c.log s.cursor = some data ∧ Delivering data rp' := by
  have hreads : s.Guarded := .inl (by rw [hrp]; rfl)
  rcases h.reading call rp hrp with rfl | ⟨hlt, data, hlog, hd⟩
  · simp only [ReceivePc.step, Option.some.injEq, Prod.mk.injEq] at hs
    obtain ⟨-, rfl⟩ := hs
    split
    · rename_i hle
      exact .inl ⟨_, hle, rfl⟩
    · rename_i hlt
      obtain ⟨data, hlog, -, -⟩ := h.front hp hreads (by omega)
      exact .inr ⟨by omega, data, hlog, by omega, rfl, rfl⟩
  · obtain ⟨data', hlog', hfit, hh⟩ := h.front hp hreads hlt
    obtain rfl : data = data' := by simpa [hlog] using hlog'
    have hcur : rp.cursor = s.cursor := (hl.receiving call rp hrp).1
    exact .inr ⟨hlt, data, hlog, hd.step (hcur ▸ hh) hfit (hcur ▸ hlt.trans_le hp.tail_le) hs⟩

/-- A receive call in progress is bound to deliver. -/
private theorem reading_step {listening : Bool} {choice : Choice} (h : s.Tracked c pc) (hp : PublishInv 0 c pc)
    (hl : s.Local c.ring) (hs : s.step c.ring listening choice = some (r', s')) (call : Call) (rp : ReceivePc)
    (hrp : s'.pc = .receiving call rp) : rp = .loadTail s'.cursor ∨
      s'.cursor < c.ring.tail ∧ ∃ data, c.log s'.cursor = some data ∧ Delivering data rp := by
  rcases receiving_step hs hrp with hload | ⟨rp₀, hrp₀, hstep, heq, hret⟩ | ⟨hrp₀, -, heq⟩
  · exact .inl hload
  · have hcursor : s'.cursor = s.cursor := by rw [heq]
    rw [hcursor]
    rcases h.receive_access hp hl hrp₀ hstep with ⟨tail, -, heq'⟩ | hd
    · exact (hret _ _ _ heq').elim
    · exact .inr hd
  · have hcursor : s'.cursor = s.cursor := by rw [heq]
    rw [hcursor]
    exact h.reading call rp hrp₀

/-- The subscriber's own step.  A subscriber that does not start at the tail must show its position before the
publisher overtakes it. -/
theorem step {listening : Bool} {choice : Choice} (h : s.Tracked c pc) (hp : PublishInv 0 c pc) (hl : s.Local c.ring)
    (hset : choice = .go → s.pc = .setCursor → s.startPos = .now ∨ LapFree c.ring pc s.cursorIdx s.cursor)
    (hs : s.step c.ring listening choice = some (r', s')) : s'.Tracked { c with ring := r' } pc := by
  have hread := h.reading_step hp hl hs
  have htail : r'.tail = c.ring.tail := by
    obtain ⟨cursors, flags, rfl, -, -⟩ := (step_effect hs).frame
    rfl
  have hrec : ∀ call rp, s'.pc = .receiving call rp → rp = .loadTail s'.cursor ∨ s'.cursor < r'.tail ∧
      ∃ data, c.log s'.cursor = some data ∧ Delivering data rp := fun call rp hrp => htail ▸ hread call rp hrp
  have hlim := hp.tail_le
  have hsmall : ∀ {n : Nat}, n ≤ 2 ^ SEQ_WRITING → n ≠ CURSOR_UNCLAIMED := fun hn => (hn.trans_lt (by decide)).ne
  -- without a position there is nothing to guard
  have hout : s'.pc.stage.Reads = false →
      (s'.pc.stage.Reads = true → s'.first ≠ none) ∧ (s'.Guarded → Guard r' pc s'.cursorIdx s'.cursor) := by
    refine fun hr => ⟨fun hr' => by simp [hr] at hr', fun hg => ?_⟩
    have := hg.reads
    simp [hr] at this
  cases step_effect hs with
  | keep stage start own =>
    refine ⟨fun hu => h.unplaced (stage ▸ hu), fun hr => h.placed (stage ▸ hr), fun hg => ?_, h.stream, hrec⟩
    refine (h.guard ?_).of_tables rfl
    rcases hg with hlive | ⟨hpos, hnow⟩
    · exact .inl (stage ▸ hlive)
    · have hstage : s.pc.stage = .positioned := stage.symm.trans hpos
      rcases start with rfl | ⟨hinit, -⟩
      · exact .inr ⟨hstage, hnow⟩
      · rw [hstage] at hinit
        cases hinit
  | readTail stage stage' =>
    obtain ⟨hplaced, hguard⟩ := hout (by simp [stage', Stage.Reads])
    exact ⟨fun _ => h.unplaced (.inl stage), hplaced, hguard, h.stream, hrec⟩
  | giveUp _ stage' | release _ stage' =>
    obtain ⟨hplaced, hguard⟩ := hout (by simp [stage', Stage.Reads])
    exact ⟨fun hu => absurd hu (by simp [stage']), hplaced, hguard, h.stream, hrec⟩
  | claim stage stage' =>
    obtain ⟨hplaced, hguard⟩ := hout (by simp [stage', Stage.Reads])
    exact ⟨fun _ => h.unplaced (.inr (.inl stage)), hplaced, hguard, h.stream, hrec⟩
  | position stage stage' hc =>
    have hh : s.pc.stage.Holds = true := by rw [stage]; rfl
    have hnone : s.delivered = [] := by
      have hstream := h.stream
      simpa only [Stream, h.unplaced (.inr (.inr stage))] using hstream
    refine ⟨fun hu => absurd hu (by simp [stage']), fun _ => by simp, fun hg => ?_, by simp [Stream, hnone], hrec⟩
    rcases hg with hlive | ⟨-, hnow⟩
    · simp [stage'] at hlive
    · -- the start position is the tail just read, so every call in progress is less than a lap ahead of it
      replace hnow : s.startPos = .now := hnow
      rw [hnow] at hc
      cases hc
      have hentry : c.ring.cursors s.cursorIdx ≤ c.ring.tail := by
        rw [hl.entry hh]
        simp only [Subscriber.entry, stage]
        exact hl.tail_le
      have hcap : c.ring.tail < c.ring.tail + c.ring.cap := Nat.lt_add_of_pos_right hp.cap_pos
      exact Guard.of_lapFree (hl.idx_lt hh) (hl.claimed hlim hh) hentry ⟨hcap.le, fun heq => absurd heq hcap.ne⟩
        hp.target_tail
  | publish stage stage' =>
    refine ⟨fun hu => absurd hu (by simp [stage']), fun _ => h.placed (by rw [stage]; rfl), fun _ => ?_, h.stream,
      hrec⟩
    obtain ⟨hgo, hpc⟩ := go_of_publish hs stage stage'
    rcases hset hgo hpc with hnow | hlap
    · exact (h.guard (.inr ⟨stage, hnow⟩)).advance le_rfl (by simp) (by simpa using hsmall hl.cursor_le)
    · exact Guard.of_lapFree (hl.idx_lt (by rw [stage]; rfl)) (by simpa [setCursor_cursors] using hsmall hl.cursor_le)
        (by simp [setCursor_cursors]) hlap hp.target_tail
  | deliver at_store stage' =>
    rename_i call cursor tail eff out pc'
    have hreads : s.Guarded := .inl (by rw [at_store]; rfl)
    have hg := h.guard hreads
    -- the call was bound to deliver the payload of the subscriber's cursor
    obtain ⟨hlt, rfl, hlog⟩ : s.cursor < c.ring.tail ∧ eff = s.cursor ∧ c.log s.cursor = some out := by
      rcases h.reading _ _ at_store with hload | ⟨hlt, data, hlog, -, heff, hout⟩
      · cases hload
      · have hcur : cursor = s.cursor := (hl.receiving _ _ at_store).1
        exact ⟨hlt, heff.trans hcur, hout ▸ hlog⟩
    have hle : s.cursor + 1 ≤ 2 ^ SEQ_WRITING := Nat.succ_le_of_lt (hlt.trans_le hlim)
    refine ⟨fun hu => absurd hu (by simp [stage']), fun _ => h.placed hreads.reads, fun _ => ?_, ?_, hrec⟩
    · exact hg.advance (Nat.le_succ _) (by simp) (by simpa using hsmall hle)
    · have hstream := h.stream
      unfold Stream at hstream ⊢
      split at hstream
      · rename_i hfirst
        exact absurd hfirst (h.placed hreads.reads)
      · rename_i f hfirst
        obtain ⟨hle, hlen, hall⟩ := hstream
        simp only [hfirst]
        refine ⟨by omega, by rw [List.length_append, List.length_singleton]; omega, fun k data hk => ?_⟩
        rcases Nat.lt_or_ge k s.delivered.length with hk' | hk'
        · exact hall k data (by rwa [List.getElem?_append_left hk'] at hk)
        · -- the message just returned is that of the old cursor
          rw [List.getElem?_append_right hk'] at hk
          obtain ⟨hk₀, rfl⟩ : k - s.delivered.length = 0 ∧ out = data := by
            cases hsub : k - s.delivered.length with
            | zero => exact ⟨rfl, by simpa [hsub] using hk⟩
            | succ n => simp [hsub] at hk
          rw [show f + k = s.cursor by omega]
          exact hlog

end Tracked

end Subscriber

namespace Bus

/-- The subscribers connect with `StartPos::Now` only. -/
def NowOnly : Act → Bool
  | .sub _ (.connect start) => start = .now
  | _ => true

/-- A subscriber that does not start at the tail shows its position before the publisher overtakes it. -/
def SetsInTime (s : Bus) : Act → Prop
  | .sub i .go => (s.subs i).pc = .setCursor →
      (s.subs i).startPos = .now ∨ LapFree s.chan.ring s.phase.ring (s.subs i).cursorIdx (s.subs i).cursor
  | _ => True

structure Delivery (s : Bus) : Prop where
  inv : s.Inv
  policy : s.backpressure = .error
  checked : ∀ data, s.phase.ring ≠ .loadTail .dropOldest data
  tracked : ∀ i, (s.subs i).Tracked s.chan s.phase.ring

namespace Delivery

variable {s s' : Bus}

theorem init {r : RingBuffer} (hr : r.Started) : (Bus.init r .error).Delivery where
  inv := Inv.init hr
  policy := rfl
  checked data h := by cases h
  tracked i := ⟨fun _ => rfl, fun h => (Bool.false_ne_true h).elim, fun h => (Bool.false_ne_true h.reads).elim, rfl,
    fun _ _ h => by cases h⟩

theorem guard_restart {policy : BackpressurePolicy} {c : Channel} {pc pc' : PublishPc} {j n : Nat}
    (h : Guard c.ring pc j n) (hr : Restart policy c pc pc') : Guard c.ring pc' j n := by
  cases hr with
  | same => exact h
  | done => exact h.restart rfl
  | next => exact h.restart rfl

/-- A step that is not a subscriber's -/
theorem publisher (h : s.Delivery) (he : PublisherEffect s s') : s'.Delivery := by
  have hinv := h.inv.publisher he
  obtain ⟨-, -, -, -, -, htail⟩ := h.inv.publisher_ring he
  obtain ⟨chan, pc, flags, hstep, hchan, hrestart⟩ := he.chan
  refine ⟨hinv, he.backpressure.trans h.policy, fun data hdrop => ?_, fun i => ?_⟩
  · rw [hdrop, h.policy] at hrestart
    cases hrestart with
    | same =>
      rcases hstep with ⟨-, heq⟩ | hstep
      · exact h.checked data heq.symm
      · exact PublishPc.step_ne_loadTail hstep _ _ rfl
  · have hlog : ∀ p data, s.chan.log p = some data → s'.chan.log p = some data := by
      intro p data hl
      rw [hchan]
      rcases hstep with ⟨rfl, -⟩ | hstep
      · exact hl
      · exact h.inv.publish.log_step hstep hl
    have hguard : (s.subs i).Guarded →
        Guard s'.chan.ring s'.phase.ring (s.subs i).cursorIdx (s.subs i).cursor := by
      intro hr
      have hg := (h.tracked i).guard hr
      rw [hchan]
      rcases hstep with ⟨rfl, rfl⟩ | hstep
      · exact (guard_restart hg hrestart).of_tables rfl
      · exact (guard_restart (hg.publish h.inv.publish h.checked hstep) hrestart).of_tables rfl
    have ht := (h.tracked i).of_channel hguard htail hlog
    -- what the publisher writes of a subscriber plays no role here
    obtain ⟨efd, hup, acceptedAt, heq⟩ := he.subs i
    rw [heq]
    exact ⟨ht.unplaced, ht.placed, ht.guard, ht.stream, ht.reading⟩

theorem subscriber (h : s.Delivery) {i : Nat} {choice : Choice} {ring : RingBuffer} {sub : Subscriber}
    {backlog : List Nat} (hset : choice = .go → (s.subs i).pc = .setCursor →
      (s.subs i).startPos = .now ∨ LapFree s.chan.ring s.phase.ring (s.subs i).cursorIdx (s.subs i).cursor)
    (hs : (s.subs i).step s.chan.ring s.listening choice = some (ring, sub)) :
    Delivery { s with
      chan := { s.chan with ring := ring }
      subs := Function.update s.subs i sub
      backlog := backlog } := by
  have he := Subscriber.step_effect hs
  refine ⟨h.inv.subscriber hs, h.policy, h.checked, fun k => ?_⟩
  show (Function.update s.subs i sub k).Tracked _ _
  by_cases hki : k = i
  · subst hki
    rw [Function.update_self]
    exact (h.tracked k).step h.inv.publish (h.inv.sub k) hset hs
  · rw [Function.update_of_ne hki]
    have hentry : (s.subs k).pc.stage.Holds = true →
        ring.cursors (s.subs k).cursorIdx = s.chan.ring.cursors (s.subs k).cursorIdx := h.inv.others_entry hki he
    obtain ⟨cursors, flags, rfl, -, -⟩ := he.frame
    refine (h.tracked k).of_channel (fun hr => ?_) le_rfl fun _ _ hl => hl
    exact ((h.tracked k).guard hr).of_tables (hentry (Stage.holds_of_reads hr.reads))

theorem step {a : Act} (h : s.Delivery) (ha : s.SetsInTime a) (hs : s.step a = some s') : s'.Delivery := by
  rcases step_cases h.inv.fits hs with ⟨i, choice, ring, sub, rfl, hsub, rfl⟩ | ⟨-, he⟩
  · refine h.subscriber (fun hgo => ?_) hsub
    subst hgo
    exact ha
  · exact h.publisher he

end Delivery

/-! ### Subscribers that start at the tail -/

/-- Every subscriber starts at the tail. -/
def AllNow (s : Bus) : Prop :=
  ∀ i, (s.subs i).startPos = .now

theorem AllNow.step {s s' : Bus} {a : Act} (h : s.AllNow) (hinv : s.Inv) (ha : NowOnly a = true)
    (hs : s.step a = some s') : s'.AllNow := by
  intro k
  rcases step_cases hinv.fits hs with ⟨i, choice, ring, sub, rfl, hsub, rfl⟩ | ⟨-, he⟩
  · by_cases hki : k = i
    · subst hki
      simp only [Function.update_self]
      rcases Subscriber.startPos_step hsub with heq | rfl
      · exact heq.trans (h k)
      · simpa [NowOnly] using ha
    · simpa [Function.update_of_ne hki] using h k
  · obtain ⟨efd, hup, acceptedAt, heq⟩ := he.subs k
    rw [heq]
    exact h k

theorem AllNow.setsInTime {s : Bus} (h : s.AllNow) (a : Act) : s.SetsInTime a := by
  unfold SetsInTime
  split
  · exact fun _ => .inl (h _)
  · trivial

theorem Delivery.run {r : RingBuffer} (hr : r.Started) {acts : List Act} (hnow : ∀ a ∈ acts, NowOnly a = true)
    {s : Bus} (hrun : Transition.run Bus.step (.init r .error) acts = some s) : s.Delivery ∧ s.AllNow :=
  run_invariant_of (fun s => s.Delivery ∧ s.AllNow) (NowOnly · = true)
    (fun _ _ _ h ha hs => ⟨h.1.step (h.2.setsInTime _) hs, h.2.step h.1.inv ha hs⟩) hnow
    ⟨init hr, fun _ => rfl⟩ hrun

theorem meets_setsInTime {r : RingBuffer} (hr : r.Started) {acts : List Act} (hnow : ∀ a ∈ acts, NowOnly a = true) :
    Meets Bus.step SetsInTime (.init r .error) acts := by
  refine Meets.of_split fun before a after s hacts hrun => (Delivery.run hr (fun b hb => hnow b ?_) hrun).2.setsInTime a
  rw [hacts]
  exact List.mem_append_left _ hb

/-! ### A call whose cursor is below the tail -/

/-- The receive call of the subscriber `i` at the cursor `c` has `n` accesses to make, and then returns `data`. -/
structure Bound (s : Bus) (i c : Nat) (call : Call) (data : Bytes) (n : Nat) : Prop where
  alive : (s.subs i).alive = true
  cursor : (s.subs i).cursor = c
  log : s.chan.log c = some data
  below : c < s.chan.ring.tail
  receiving : ∃ pc, (s.subs i).pc = .receiving call pc ∧ (pc = .loadTail c ∨ Delivering data pc) ∧ pc.left data = n
  pos : 0 < n

/-- The accesses of the subscriber `i` among the steps -/
def accesses (i : Nat) (acts : List Act) : Nat := acts.countP fun
  | .sub k .go => k = i
  | _ => false

/-- The subscriber `i`, which the steps have taken from `s` to `s'`, has received `data` in `n` accesses. -/
def Returns (s s' : Bus) (i n : Nat) (data : Bytes) (acts : List Act) : Prop :=
  accesses i acts = n ∧ (s'.subs i).pc = .ready .message ∧ (s'.subs i).delivered = (s.subs i).delivered ++ [data]

namespace Bound

variable {s s' : Bus} {i c n : Nat} {call : Call} {data : Bytes}

/-- The next access of the call can be made. -/
theorem enabled (h : s.Bound i c call data n) : ∃ s', s.step (.sub i .go) = some s' := by
  obtain ⟨pc, hpc, -, hleft⟩ := h.receiving
  have hnext : ∃ r' pc', pc.step (s.subs i).cursorIdx s.chan.ring = some (r', pc') := by
    cases pc with
    | returned =>
      have hpos := h.pos
      rw [← hleft] at hpos
      cases hpos
    | _ => exact ⟨_, _, rfl⟩
  obtain ⟨r', pc', hnext⟩ := hnext
  have hsub : (s.subs i).step s.chan.ring s.listening .go = some (r', (s.subs i).afterReceive call pc') := by
    simp only [Subscriber.step, h.alive, if_true, Subscriber.go, hpc, hnext]
  simp only [step, hsub]
  exact ⟨_, rfl⟩

/-- An access of the call itself -/
theorem go (h : s.Bound i c call data n) (hd : s.Delivery) (hs : s.step (.sub i .go) = some s') :
    s'.Bound i c call data (n - 1) ∧ 1 < n ∧ (s'.subs i).delivered = (s.subs i).delivered ∨
      n = 1 ∧ (s'.subs i).pc = .ready .message ∧ (s'.subs i).delivered = (s.subs i).delivered ++ [data] := by
  obtain ⟨pc, hpc, hpc', hleft⟩ := h.receiving
  obtain ⟨k, choice, ring, sub, heq, hsub, rfl⟩ | ⟨hne, -⟩ := step_cases hd.inv.fits hs
  rotate_left
  · exact absurd rfl (hne i .go)
  cases heq
  have htail : ring.tail = s.chan.ring.tail := by
    obtain ⟨cursors, flags, rfl, -, -⟩ := (Subscriber.step_effect hsub).frame
    rfl
  have ht := hd.tracked i
  have hlive : (s.subs i).Guarded := .inl (by rw [hpc]; rfl)
  obtain ⟨data', hlog, hfit, hh⟩ := (ht.guard hlive).held hd.inv.publish (Nat.zero_le _) le_rfl (h.cursor ▸ h.below)
  obtain rfl : data = data' := Option.some.inj (h.log.symm.trans (h.cursor ▸ hlog))
  simp only [Subscriber.step, h.alive, if_true, Subscriber.go, hpc] at hsub
  split at hsub
  · rename_i r' pc' hstep
    cases hsub
    have hnext : Delivering data pc' ∧ pc'.left data + 1 = pc.left data := by
      rcases hpc' with rfl | hdel
      · simp only [ReceivePc.step, if_neg (Nat.not_le.2 h.below), Option.some.injEq, Prod.mk.injEq] at hstep
        rw [← hstep.2]
        exact ⟨⟨h.below, rfl, rfl⟩, rfl⟩
      · have hcur : pc.cursor = (s.subs i).cursor := ((hd.inv.sub i).receiving call pc hpc).1
        have hlt : pc.cursor < 2 ^ SEQ_WRITING := by
          rw [hcur, h.cursor]
          exact h.below.trans_le hd.inv.publish.tail_le
        exact hdel.step_left (hcur ▸ hh) hfit hlt hstep
    obtain ⟨hdel, hless⟩ := hnext
    have hkept : (∀ cursor tail result, pc' ≠ .returned cursor tail result) →
        (s.subs i).afterReceive call pc' = { s.subs i with pc := .receiving call pc' } := by
      intro hnot
      unfold Subscriber.afterReceive
      split
      · exact absurd rfl (hnot _ _ _)
      · exact absurd rfl (hnot _ _ _)
      · rfl
    simp only [Function.update_self]
    by_cases hreturned : ∃ cursor tail result, pc' = .returned cursor tail result
    · obtain ⟨cursor, tail, result, rfl⟩ := hreturned
      obtain ⟨-, rfl⟩ := hdel
      exact .inr ⟨(hleft.symm.trans hless.symm), rfl, rfl⟩
    · have hnot : ∀ cursor tail result, pc' ≠ .returned cursor tail result :=
        fun cursor tail result heq => hreturned ⟨cursor, tail, result, heq⟩
      have hpos : 0 < pc'.left data := ReceivePc.left_pos hnot
      rw [hkept hnot]
      refine .inl ⟨⟨?_, ?_, h.log, htail ▸ h.below, ⟨pc', ?_, .inr hdel, by omega⟩, by omega⟩, by omega, rfl⟩
      · simpa only [Function.update_self] using h.alive
      · simpa only [Function.update_self] using h.cursor
      · simp only [Function.update_self]
  · cases hsub

/-- A step of anybody else -/
theorem other {a : Act} (h : s.Bound i c call data n) (hd : s.Delivery) (hgo : a ≠ .sub i .go) (hkill : a ≠ .sub i .kill)
    (hs : s.step a = some s') : s'.Bound i c call data n ∧ (s'.subs i).delivered = (s.subs i).delivered := by
  obtain ⟨pc, hpc, hpc', hleft⟩ := h.receiving
  rcases step_cases hd.inv.fits hs with ⟨k, choice, ring, sub, rfl, hsub, rfl⟩ | ⟨-, he⟩
  · have hki : i ≠ k := by
      rintro rfl
      -- a call in progress leaves nothing to the environment but the end of the process
      obtain ⟨-, ⟨rfl, -⟩ | ⟨-, hdecision⟩⟩ := Subscriber.step_cases hsub
      · exact hgo rfl
      · cases hdecision with
        | kill => exact hkill rfl
        | noSocket pc => rcases pc with pc | pc <;> cases hpc.symm.trans pc
        | connect pc | call pc | deadline pc | timeout pc | noRing pc | pollWake pc | pollHup pc | drop pc =>
          cases hpc.symm.trans pc
    have htail : ring.tail = s.chan.ring.tail := by
      obtain ⟨cursors, flags, rfl, -, -⟩ := (Subscriber.step_effect hsub).frame
      rfl
    have hsame : Function.update s.subs k sub i = s.subs i := Function.update_of_ne hki ..
    simp only [hsame]
    refine ⟨⟨?_, ?_, h.log, htail ▸ h.below, ⟨pc, ?_, hpc', hleft⟩, h.pos⟩, trivial⟩
    all_goals simp only [hsame]
    · exact h.alive
    · exact h.cursor
    · exact hpc
  · obtain ⟨efd, hup, acceptedAt, heq⟩ := he.subs i
    obtain ⟨-, -, -, -, -, htail⟩ := hd.inv.publisher_ring he
    have hlog : s'.chan.log c = some data := by
      obtain ⟨chan, pc, flags, hstep, hchan, -⟩ := he.chan
      rw [hchan]
      rcases hstep with ⟨rfl, -⟩ | hstep
      · exact h.log
      · exact hd.inv.publish.log_step hstep h.log
    rw [heq]
    refine ⟨⟨?_, ?_, hlog, h.below.trans_le htail, ⟨pc, ?_, hpc', hleft⟩, h.pos⟩, rfl⟩
    all_goals rw [heq]
    · exact h.alive
    · exact h.cursor
    · exact hpc

end Bound

theorem accesses_cons_go {i : Nat} {acts : List Act} : accesses i (.sub i .go :: acts) = accesses i acts + 1 := by
  simp [accesses]

theorem accesses_cons_of_ne {i : Nat} {a : Act} {acts : List Act} (h : a ≠ .sub i .go) :
    accesses i (a :: acts) = accesses i acts := by
  rw [accesses, List.countP_cons_of_neg]
  · rfl
  · intro ha
    split at ha
    · obtain rfl : _ = i := of_decide_eq_true ha
      exact h rfl
    · cases ha

/-- Whatever the others do: after `k` accesses the call has `n - k` to make and can go on, or it has returned the message
in `n` accesses. -/
theorem Bound.run {acts : List Act} {s s' : Bus} {i c n : Nat} {call : Call} {data : Bytes} (h : s.Bound i c call data n)
    (hd : s.Delivery ∧ s.AllNow) (hacts : ∀ a ∈ acts, NowOnly a = true ∧ a ≠ .sub i .kill)
    (hrun : Transition.run Bus.step s acts = some s') :
    s'.Bound i c call data (n - accesses i acts) ∧ accesses i acts < n ∧ (s'.subs i).delivered = (s.subs i).delivered ∨
      ∃ before after s₁, acts = before ++ after ∧ Transition.run Bus.step s before = some s₁ ∧
        s.Returns s₁ i n data before := by
  induction acts generalizing s n with
  | nil =>
    cases hrun
    exact .inl ⟨h, h.pos, rfl⟩
  | cons a acts ih =>
    obtain ⟨s₁, h₁, h₂⟩ := run_cons.1 hrun
    obtain ⟨hnow, hkill⟩ := hacts a (List.mem_cons_self ..)
    have hd₁ : s₁.Delivery ∧ s₁.AllNow := ⟨hd.1.step (hd.2.setsInTime a) h₁, hd.2.step hd.1.inv hnow h₁⟩
    have hrest : ∀ b ∈ acts, NowOnly b = true ∧ b ≠ .sub i .kill := fun b hb => hacts b (List.mem_cons_of_mem _ hb)
    by_cases hgo : a = .sub i .go
    · subst hgo
      rw [accesses_cons_go]
      rcases h.go hd.1 h₁ with ⟨h', hlt, hsame⟩ | ⟨rfl, hready, hdelivered⟩
      · rcases ih h' hd₁ hrest h₂ with ⟨hb, hk, hdel⟩ | ⟨before, after, s₂, rfl, hrun', hacc, hready, hdel⟩
        · refine .inl ⟨?_, by omega, hdel.trans hsame⟩
          rwa [Nat.sub_sub, Nat.add_comm] at hb
        · refine .inr ⟨_ :: before, after, s₂, rfl, run_cons.2 ⟨s₁, h₁, hrun'⟩, ?_, hready, by rw [hdel, hsame]⟩
          rw [accesses_cons_go]
          omega
      · refine .inr ⟨[.sub i .go], acts, s₁, rfl, run_cons.2 ⟨s₁, h₁, rfl⟩, ?_, hready, hdelivered⟩
        rw [accesses_cons_go]
        rfl
    · obtain ⟨h', hsame⟩ := h.other hd.1 hgo hkill h₁
      rw [accesses_cons_of_ne hgo]
      rcases ih h' hd₁ hrest h₂ with ⟨hb, hk, hdel⟩ | ⟨before, after, s₂, rfl, hrun', hacc, hready, hdel⟩
      · exact .inl ⟨hb, hk, hdel.trans hsame⟩
      · refine .inr ⟨a :: before, after, s₂, rfl, run_cons.2 ⟨s₁, h₁, hrun'⟩, ?_, hready, by rw [hdel, hsame]⟩
        rw [accesses_cons_of_ne hgo, hacc]

/-- What the subscriber `i` is promised: the positions it has still to read are intact in the ring; it has received
the messages of the positions from the tail it re-read on, in order, each once; a receive call returns nothing only
if the tail it loaded is not above its cursor; and one whose cursor is below the tail when it is about to load it returns the
message of its cursor in as many accesses as the payload has bytes and five, whatever is done between them: before that it
can always go on. -/
structure Exact (s : Bus) (i : Nat) : Prop where
  intact : (s.subs i).pc.stage.Reads = true → ∀ p, (s.subs i).cursor ≤ p → p < s.chan.ring.tail →
    ∃ data, s.chan.log p = some data ∧ (s.chan.ring.slot p).Holds p data
  stream : (s.subs i).Stream s.chan.log
  answered : ∀ call pc ring cursor tail, (s.subs i).pc = .receiving call pc →
    pc.step (s.subs i).cursorIdx s.chan.ring = some (ring, .returned cursor tail none) → tail ≤ cursor
  returns : ∀ call cursor, (s.subs i).alive = true → (s.subs i).pc = .receiving call (.loadTail cursor) →
    cursor < s.chan.ring.tail → ∃ data, s.chan.log cursor = some data ∧ data.length ≤ s.chan.ring.slotSize ∧
      ∀ acts s', (∀ a ∈ acts, NowOnly a = true ∧ a ≠ .sub i .kill) → run step s acts = some s' →
        (∃ pc, (s'.subs i).pc = .receiving call pc) ∧ (s'.subs i).delivered = (s.subs i).delivered ∧
          accesses i acts < data.length + 5 ∧ (∃ s'', s'.step (.sub i .go) = some s'') ∨
        ∃ before after s₁, acts = before ++ after ∧ run step s before = some s₁ ∧
          s.Returns s₁ i (data.length + 5) data before

/-- No loss, no duplication and no reordering under `BackpressurePolicy::Error`, in every reachable state. -/
theorem delivery_exact {r : RingBuffer} (hr : r.Started) {acts : List Act} (hnow : ∀ a ∈ acts, NowOnly a = true)
    {s : Bus} (hrun : run step (.init r .error) acts = some s) (i : Nat) : s.Exact i := by
  obtain ⟨h, hall⟩ := Delivery.run hr hnow hrun
  have ht := h.tracked i
  have hguarded : (s.subs i).pc.stage.Reads = true → (s.subs i).Guarded := by
    intro hreads
    cases hstage : (s.subs i).pc.stage with
    | live => exact .inl hstage
    | positioned => exact .inr ⟨hstage, hall i⟩
    | _ => simp [hstage, Stage.Reads] at hreads
  refine ⟨fun hreads p hp hlt => ?_, ht.stream, fun call pc ring cursor tail hpc hstep => ?_,
    fun call cursor halive hpc hlt => ?_⟩
  · obtain ⟨data, hl, -, hh⟩ := (ht.guard (hguarded hreads)).held h.inv.publish (Nat.zero_le _) hp hlt
    exact ⟨data, hl, hh⟩
  · rcases ht.receive_access h.inv.publish (h.inv.sub i) hpc hstep with ⟨tail', hle, heq⟩ | ⟨-, data, -, hd⟩
    · cases heq
      exact hle
    · cases hd.2
  · have hcursor : cursor = (s.subs i).cursor := ((h.inv.sub i).receiving call _ hpc).1
    have hguard := ht.guard (.inl (by rw [hpc]; rfl))
    obtain ⟨data, hlog, hfit, -⟩ := hguard.held h.inv.publish (Nat.zero_le _) le_rfl (hcursor ▸ hlt)
    rw [← hcursor] at hlog
    have hbound : s.Bound i cursor call data (data.length + 5) :=
      ⟨halive, hcursor.symm, hlog, hlt, ⟨_, hpc, .inl rfl, rfl⟩, Nat.succ_pos _⟩
    refine ⟨data, hlog, hfit, fun acts s' hacts hrun' => ?_⟩
    refine (hbound.run ⟨h, hall⟩ hacts hrun').imp_left fun ⟨hb, hlt', hdel⟩ => ?_
    obtain ⟨pc, hpc', -⟩ := hb.receiving
    exact ⟨⟨pc, hpc'⟩, hdel, hlt', hb.enabled⟩

/-- A subscriber connects up to the hand-over of its eventfd. -/
def connectActs (i : Nat) : List Act := .sub i (.connect .now) :: List.replicate 5 (.sub i .go)

/-- One subscriber connects, and begins to receive when the only message has been published. -/
def callBegun : List Act :=
  connectActs 0 ++ List.replicate 3 (.sub 0 .go) ++ .begin (.publish [7]) :: List.replicate 12 .publisher ++
    [.sub 0 (.call .tryReceive)]

/-- It receives the message. -/
def oneMessage : List Act := callBegun ++ List.replicate 6 (.sub 0 .go)

theorem started_create {capacity slotPayloadSize maxSubscribers : UInt32} (hcap : 0 < capacity) :
    (create capacity slotPayloadSize maxSubscribers).Started :=
  @started_createOrReuse none (fun _ h => by cases h) _ _ _ hcap

theorem delivery_exact_oneMessage : ∃ s s', run step (.init (create 2 4 1) .error) callBegun = some s ∧
    (s.subs 0).pc = .receiving .tryReceive (.loadTail 0) ∧ s.chan.ring.tail = 1 ∧ s.Exact 0 ∧
    run step (.init (create 2 4 1) .error) oneMessage = some s' ∧ (s'.subs 0).delivered = [[7]] ∧ s'.Exact 0 := by
  obtain ⟨s, hrun, hs⟩ := Option.map_eq_some_iff.1 (show (run step (.init (create 2 4 1) .error) callBegun).map
    (fun s => ((s.subs 0).pc, s.chan.ring.tail)) = some (.receiving .tryReceive (.loadTail 0), 1) by decide)
  obtain ⟨s', hrun', hdel⟩ := Option.map_eq_some_iff.1
    (show (run step (.init (create 2 4 1) .error) oneMessage).map (fun s => (s.subs 0).delivered) = some [[7]] by
      decide)
  obtain ⟨hpc, htail⟩ := Prod.mk.inj hs
  have hstarted : (create 2 4 1).Started := started_create (by decide)
  exact ⟨s, s', hrun, hpc, htail, delivery_exact hstarted (by decide) hrun 0, hrun', hdel,
    delivery_exact hstarted (by decide) hrun' 0⟩

end Bus

end Mmbus
