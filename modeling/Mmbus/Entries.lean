import Mmbus.Lifecycle

/-!
# The cursor table over the lives of its processes

What each operation of a topic does to the cursor table (`Topic.step_effect`), and two properties of the table that the
publisher relies on.

Every claimed entry is held by a live subscriber of the current generation, if no subscriber process dies while it holds
one (`claims_are_live`): nothing but its holder releases an entry, neither the publisher when it reaps the client nor
`create_or_reuse`.  Every claimed entry is at most the tail, so that only a slow subscriber makes the ring full, if no
operation moves an entry past the tail or the tail below an entry (`full_of_slow_subscriber`).
-/

namespace Mmbus

open FlagBit RingBuffer Transition

namespace Topic

/-! ### What an operation does to the table -/

/-- The ring but for its cursor table and its slots -/
structure SameShape (r r' : RingBuffer) : Prop where
  maxSubs : r'.maxSubs = r.maxSubs
  cap : r'.cap = r.cap
  generation : r'.generation = r.generation

/-- Where the tail of a ring begins under a new publisher: behind the last record of its log -/
def firstPosition (s : Topic) (cfg : WalConfig) : Nat :=
  match s.openWal cfg with
  | .ok (some w) => w.pendingCursor
  | _ => 0

/-- The operation moves no entry past the tail, nor the tail below an entry: a ring is taken over only when the new tail
begins at every claimed entry or behind it, an explicit start position and the cursor at a hand-off are not past the tail,
and a subscriber reads from the ring only where the slots show positions below the tail.  A ring has slots. -/
def StaysBelow (s : Topic) : Act → Prop
  | .create cfg => cfg.capacity ≠ 0 ∧ ∀ r, s.ring = some r →
      ∀ j < r.maxSubs, r.cursors j ≠ CURSOR_UNCLAIMED → r.cursors j ≤ s.firstPosition cfg.wal
  | .finish i => ∀ r, s.ring = some r → ∀ c, (s.sessions i).phase = .connecting (.explicit c) → c ≤ r.tail
  | .nextWal i => ∀ r, s.ring = some r → ∀ p, (s.sessions i).walReplay = some p → (p.next s.files).1 = none →
      (s.sessions i).cursor ≤ r.tail
  | .tryReceive i => ∀ r, s.ring = some r → ∀ e, (s.sessions i).cursor ≤ e → e < r.tail →
      hasFlag SEQ_WRITING (r.slot e).seq = false → (r.slot e).seq < r.tail
  | _ => True

/-- A ring is taken over only when no subscriber of the last generation holds an entry. -/
def TakesOverFree (s : Topic) : Act → Prop
  | .create _ => ∀ i, (s.sessions i).Holds = false
  | _ => True

/-- What a step of a subscriber does to its entry and to itself; what it stores is not past the tail if `below` holds. -/
inductive SessionEffect (below : Prop) (r : RingBuffer) (c : Session) (r' : RingBuffer) (c' : Session) : Prop
  | keep (cursors : r'.cursors = r.cursors) (holds : c'.Holds = c.Holds) (idx : c'.cursorIdx = c.cursorIdx)
  | claim (new : c.Holds = false) (holds : c'.Holds = true) (lt : c'.cursorIdx < r.maxSubs)
      (free : r.cursors c'.cursorIdx = CURSOR_UNCLAIMED) (cursors : r'.cursors = Function.update r.cursors c'.cursorIdx r.tail)
  | store (v : Nat) (le : below → v ≤ r.tail) (held : c.Holds = true) (holds : c'.Holds = true) (idx : c'.cursorIdx = c.cursorIdx)
      (cursors : r'.cursors = Function.update r.cursors c.cursorIdx v)
  | release (out : c'.Holds = false) (cursors : r'.cursors = Function.update r.cursors c.cursorIdx CURSOR_UNCLAIMED)

/-- What a step does to the cursor table: nothing, beyond a tail that grows; a publisher takes the ring over, or finds
none; a subscriber is at work; a subscriber dies -/
inductive Effect (s : Topic) : Act → Topic → Prop
  | quiet {a : Act} {s' : Topic} (sessions : s'.sessions = s.sessions)
      (ring : ∀ r', s'.ring = some r' →
        ∃ r, s.ring = some r ∧ SameShape r r' ∧ r'.cursors = r.cursors ∧ r.tail ≤ r'.tail) : Effect s a s'
  | fresh {cfg : BusConfig} {s' : Topic} {r' : RingBuffer} (sessions : s'.sessions = s.sessions) (ring' : s'.ring = some r')
      (cap : r'.cap = cfg.capacity.toNat) (cursors : ∀ j, r'.cursors j = CURSOR_UNCLAIMED) : Effect s (.create cfg) s'
  | reuse {cfg : BusConfig} {s' : Topic} {r r' : RingBuffer} (sessions : s'.sessions = s.sessions) (ring : s.ring = some r)
      (ring' : s'.ring = some r') (cap : r'.cap = cfg.capacity.toNat) (maxSubs : r'.maxSubs = r.maxSubs)
      (cursors : r'.cursors = r.cursors) (tail : r'.tail = s.firstPosition cfg.wal) : Effect s (.create cfg) s'
  | session {a : Act} {s' : Topic} {r r' : RingBuffer} {c' : Session} (i : Nat) (ring : s.ring = some r)
      (ring' : s'.ring = some r') (shape : SameShape r r') (tail : r'.tail = r.tail)
      (sessions : s'.sessions = Function.update s.sessions i c') (alive : (s.sessions i).alive = true)
      (alive' : c'.alive = true) (generation : c'.phase = .connected → c'.generation = r.generation ∨
        (s.sessions i).phase = .connected ∧ c'.generation = (s.sessions i).generation)
      (effect : SessionEffect (s.StaysBelow a) r (s.sessions i) r' c') : Effect s a s'
  | kill {i : Nat} {s' : Topic} (ring : s'.ring = s.ring)
      (sessions : s'.sessions = Function.update s.sessions i { s.sessions i with alive := false }) : Effect s (.kill i) s'

variable {s s' : Topic} {r r' : RingBuffer} {i j : Nat}

theorem quiet_of_ring_eq {a : Act} (hsessions : s'.sessions = s.sessions) (hring : s'.ring = s.ring) : Effect s a s' :=
  .quiet hsessions fun r' hr' => ⟨r', hring ▸ hr', ⟨rfl, rfl, rfl⟩, rfl, le_rfl⟩

theorem create_effect {cfg : BusConfig} (hs : s.create cfg = some s') : Effect s (.create cfg) s' := by
  unfold create at hs
  split at hs
  · cases hs
  · rename_i hfit
    have hring : ∀ r', (r' = createOrReuse s.ring cfg.capacity cfg.slotSize cfg.maxSubscribers ∨
          ∃ v, r' = (createOrReuse s.ring cfg.capacity cfg.slotSize cfg.maxSubscribers).setTail v) →
        r'.tail = s.firstPosition cfg.wal →
        ∀ s', s'.sessions = s.sessions → s'.ring = some r' → Effect s (.create cfg) s' := by
      intro r' hr' htail s' hsessions hring'
      have hcursors : r'.cursors = (createOrReuse s.ring cfg.capacity cfg.slotSize cfg.maxSubscribers).cursors := by
        rcases hr' with rfl | ⟨v, rfl⟩ <;> rfl
      have hcap : r'.cap = (createOrReuse s.ring cfg.capacity cfg.slotSize cfg.maxSubscribers).cap := by
        rcases hr' with rfl | ⟨v, rfl⟩ <;> rfl
      have hmax : r'.maxSubs = (createOrReuse s.ring cfg.capacity cfg.slotSize cfg.maxSubscribers).maxSubs := by
        rcases hr' with rfl | ⟨v, rfl⟩ <;> rfl
      cases hold : s.ring with
      | none =>
        simp only [hold, createOrReuse] at hcursors hcap
        exact .fresh hsessions hring' hcap fun j => by rw [hcursors]; rfl
      | some r =>
        have hsame : r.capacity = cfg.capacity ∧ r.slotPayloadSize = cfg.slotSize ∧ r.maxSubscribers = cfg.maxSubscribers := by
          simpa [hold] using (not_or.1 hfit).2
        simp only [hold, createOrReuse, if_pos hsame] at hcursors hcap hmax
        refine .reuse hsessions hold hring' (hcap.trans ?_) hmax hcursors htail
        change r.capacity.toNat = _
        rw [hsame.1]
    have hzero : (createOrReuse s.ring cfg.capacity cfg.slotSize cfg.maxSubscribers).tail = 0 :=
      (createOrReuse_shape ..).1
    dsimp only at hs
    split at hs
    · rename_i hopen
      cases hs
      exact hring _ (.inl rfl) (by simp only [hzero, firstPosition, hopen]) _ rfl rfl
    · rename_i w hopen
      cases hs
      split
      · exact hring _ (.inr ⟨_, rfl⟩) (by simp only [setTail, firstPosition, hopen]) _ rfl rfl
      · exact hring _ (.inl rfl) (by simp only [firstPosition, hopen]; omega) _ rfl rfl
    · rename_i hopen
      cases hs
      exact hring _ (.inl rfl) (by simp only [hzero, firstPosition, hopen]) _ rfl rfl

theorem ringPublish_effect (policy : BackpressurePolicy) (r : RingBuffer) (data : Bytes) :
    SameShape r (ringPublish policy r data) ∧ (ringPublish policy r data).cursors = r.cursors ∧
      r.tail ≤ (ringPublish policy r data).tail := by
  cases policy
  · simp only [ringPublish, tryPublish]
    split
    · exact ⟨⟨rfl, rfl, rfl⟩, rfl, le_rfl⟩
    · exact ⟨⟨rfl, rfl, rfl⟩, rfl, Nat.le_succ _⟩
  · exact ⟨⟨rfl, rfl, rfl⟩, rfl, Nat.le_succ _⟩

theorem publish_effect {data : Bytes} {ts : Nat} {io : WalIo} (hs : s.publish data ts io = some s') :
    Effect s (.publish data ts io) s' := by
  unfold publish at hs
  split at hs
  · rename_i r p hring _
    have hpublished (s' : Topic) (hsessions : s'.sessions = s.sessions)
        (hring' : s'.ring = some (ringPublish p.backpressure r data)) : Effect s (.publish data ts io) s' := by
      obtain ⟨hshape, hcursors, htail⟩ := ringPublish_effect p.backpressure r data
      refine .quiet hsessions fun r' hr' => ?_
      obtain rfl : ringPublish p.backpressure r data = r' := Option.some.inj (hring'.symm.trans hr')
      exact ⟨r, hring, hshape, hcursors, htail⟩
    split at hs
    · cases hs
      exact quiet_of_ring_eq rfl rfl
    split at hs
    · cases hs
    split at hs
    · cases hs
      exact hpublished _ rfl rfl
    · split at hs
      · cases hs
        exact quiet_of_ring_eq rfl rfl
      · split at hs <;> cases hs
        · exact hpublished _ rfl rfl
        · exact quiet_of_ring_eq rfl rfl
  · cases hs

/-- The entry is given back. -/
theorem release_effect {a : Act} (hring : s.ring = some r) (halive : (s.sessions i).alive = true) :
    Effect s a (s.release i r) := by
  refine .session i hring rfl ⟨rfl, rfl, rfl⟩ rfl rfl halive halive ?_ (.release rfl rfl)
  rintro ⟨⟩

theorem holds_of_phase {c : Session} (h : c.phase = .connected ∨ ∃ start, c.phase = .connecting start) : c.Holds = true := by
  rcases h with h | ⟨start, h⟩ <;> rw [Session.Holds, h]

theorem phase_of_holds {c : Session} (h : c.Holds = true) : c.phase = .connected ∨ ∃ start, c.phase = .connecting start := by
  unfold Session.Holds at h
  split at h
  · exact .inr ⟨_, ‹_›⟩
  · exact .inl ‹_›
  · cases h

theorem claim_effect {start : StartPos} (halive : (s.sessions i).alive = true) (hs : s.claim i start = some s') :
    Effect s (.claim i start) s' := by
  simp only [claim] at hs
  split at hs
  · rename_i r hring hphase
    have hnew : (s.sessions i).Holds = false := by rw [Session.Holds, hphase]
    split at hs
    · rename_i idx r' hclaim
      cases hs
      obtain ⟨hlt, hfree, rfl⟩ := claimCursor_eq_some hclaim
      refine .session i hring rfl ⟨rfl, rfl, rfl⟩ rfl rfl halive halive ?_ (.claim hnew rfl hlt hfree rfl)
      rintro ⟨⟩
    · cases hs
      refine .session i hring hring ⟨rfl, rfl, rfl⟩ rfl rfl halive halive ?_ (.keep rfl hnew.symm rfl)
      rintro ⟨⟩
  · cases hs

theorem handshakeFails_effect (halive : (s.sessions i).alive = true) (hs : s.handshakeFails i = some s') :
    Effect s (.handshakeFails i) s' := by
  simp only [handshakeFails] at hs
  split at hs
  · cases hs
    exact release_effect ‹_› halive
  · cases hs

theorem startFrom_le {capacity tail cursor : Nat} {files : WalDir} {start : StartPos} {replay : Option WalReplayer}
    (hs : startFrom capacity tail files start = some (cursor, replay)) (hnone : replay = none)
    (hexplicit : ∀ c, start = .explicit c → c ≤ tail) : cursor ≤ tail := by
  subst hnone
  unfold startFrom at hs
  cases start with
  | now =>
    cases hs
    exact le_rfl
  | historyBack n =>
    cases hs
    exact Nat.sub_le ..
  | explicit p =>
    simp only [Subscriber.startCursor] at hs
    by_cases hp : tail - capacity ≤ p
    · simp only [if_pos hp] at hs
      cases hs
      exact hexplicit _ rfl
    · simp only [if_neg hp] at hs
      split at hs
      · cases hs
      · split at hs <;> cases hs

/-- The loop of `try_receive` stays below the tail if the slots do. -/
theorem receiveLoop_le {fuel effective cursor : Nat} {out : Bytes} (hlt : effective < r.tail)
    (hbelow : ∀ e, effective ≤ e → e < r.tail → hasFlag SEQ_WRITING (r.slot e).seq = false → (r.slot e).seq < r.tail)
    (hs : r.receiveLoop fuel effective = some (cursor, out)) : cursor ≤ r.tail := by
  induction fuel generalizing effective with
  | zero =>
    unfold receiveLoop at hs
    dsimp only at hs
    split_ifs at hs
    cases hs
    exact hlt
  | succ fuel ih =>
    unfold receiveLoop at hs
    dsimp only at hs
    split_ifs at hs with hflag hahead
    · exact ih hlt hbelow hs
    · have hseq := hbelow effective le_rfl hlt (by simpa using hflag)
      exact ih hseq (fun e he => hbelow e (hahead.le.trans he)) hs
    · exact ih hlt hbelow hs
    · cases hs
      exact hlt

theorem finish_effect (halive : (s.sessions i).alive = true) (hs : s.finish i = some s') : Effect s (.finish i) s' := by
  simp only [finish] at hs
  split at hs
  · rename_i r start hring hphase
    have hheld : (s.sessions i).Holds = true := holds_of_phase (.inr ⟨start, hphase⟩)
    split at hs
    · rename_i cursor replay hstart
      cases hs
      refine .session i hring rfl ⟨rfl, rfl, rfl⟩ rfl rfl halive halive (fun _ => .inl rfl)
        (.store _ (fun hbelow => ?_) hheld rfl rfl rfl)
      split
      · exact le_rfl
      · rename_i hnone
        exact startFrom_le hstart (by simpa using hnone) fun c hc => hbelow r hring c (hc ▸ hphase)
    · cases hs
      exact release_effect hring halive
  · cases hs

theorem nextWal_effect (halive : (s.sessions i).alive = true) (hs : s.nextWal i = some s') : Effect s (.nextWal i) s' := by
  simp only [nextWal] at hs
  split at hs
  · rename_i r p hring hphase hreplay
    have hheld : (s.sessions i).Holds = true := holds_of_phase (.inl hphase)
    split at hs <;> cases hs
    · refine .session i hring hring ⟨rfl, rfl, rfl⟩ rfl rfl halive halive (fun _ => .inr ⟨hphase, rfl⟩) (.keep rfl rfl rfl)
    · refine .session i hring hring ⟨rfl, rfl, rfl⟩ rfl rfl halive halive (fun _ => .inr ⟨hphase, rfl⟩) (.keep rfl rfl rfl)
    · rename_i hnext
      refine .session i hring rfl ⟨rfl, rfl, rfl⟩ rfl rfl halive halive (fun _ => .inr ⟨hphase, rfl⟩)
        (.store _ (fun hbelow => ?_) hheld hheld rfl rfl)
      exact hbelow r hring p hreplay (by rw [hnext])
  · cases hs

theorem tryReceive_effect (halive : (s.sessions i).alive = true) (hs : s.tryReceive i = some s') :
    Effect s (.tryReceive i) s' := by
  simp only [tryReceive] at hs
  split at hs
  · rename_i r hring hphase
    have hheld : (s.sessions i).Holds = true := holds_of_phase (.inl hphase)
    split at hs
    · rename_i r' cursor out hreceive
      cases hs
      unfold RingBuffer.tryReceive at hreceive
      split at hreceive
      · cases hreceive
      · rename_i hlt
        split at hreceive <;> cases hreceive
        rename_i hloop
        exact .session i hring rfl ⟨rfl, rfl, rfl⟩ rfl rfl halive halive (fun _ => .inr ⟨hphase, rfl⟩)
          (.store _ (fun hbelow => receiveLoop_le (not_le.1 hlt) (hbelow _ hring) hloop) hheld hheld rfl rfl)
    · cases hs
      exact quiet_of_ring_eq rfl rfl
  · cases hs

theorem drop_effect (halive : (s.sessions i).alive = true) (hs : s.drop i = some s') : Effect s (.drop i) s' := by
  simp only [drop] at hs
  split at hs
  · cases hs
    exact release_effect ‹_› halive
  · cases hs

theorem step_effect {a : Act} (hs : s.step a = some s') : Effect s a s' := by
  cases a with
  | create cfg => exact create_effect hs
  | publish data ts io => exact publish_effect hs
  | flush io =>
    simp only [step, flush] at hs
    split at hs <;> cases hs
    exact quiet_of_ring_eq rfl rfl
  | dropPublisher | crash =>
    simp only [step, endPublisher] at hs
    split at hs <;> cases hs <;> exact quiet_of_ring_eq rfl rfl
  | claim i start =>
    obtain ⟨halive, hs⟩ := Option.ite_none_right_eq_some.1 hs
    exact claim_effect halive hs
  | handshakeFails i =>
    obtain ⟨halive, hs⟩ := Option.ite_none_right_eq_some.1 hs
    exact handshakeFails_effect halive hs
  | finish i =>
    obtain ⟨halive, hs⟩ := Option.ite_none_right_eq_some.1 hs
    exact finish_effect halive hs
  | nextWal i =>
    obtain ⟨halive, hs⟩ := Option.ite_none_right_eq_some.1 hs
    exact nextWal_effect halive hs
  | tryReceive i =>
    obtain ⟨halive, hs⟩ := Option.ite_none_right_eq_some.1 hs
    exact tryReceive_effect halive hs
  | drop i =>
    obtain ⟨halive, hs⟩ := Option.ite_none_right_eq_some.1 hs
    exact drop_effect halive hs
  | kill i =>
    obtain ⟨-, hs⟩ := Option.ite_none_right_eq_some.1 hs
    cases hs
    exact .kill rfl rfl

/-- The subscriber whose step it is -/
def Act.subscriber : Act → Option Nat
  | claim i _ | handshakeFails i | finish i | nextWal i | tryReceive i | drop i | kill i => some i
  | _ => none

/-- A subscriber stays as it is while others are at work. -/
theorem sessions_step {a : Act} (hs : s.step a = some s') (hi : a.subscriber ≠ some i) : s'.sessions i = s.sessions i := by
  have hother {k : Nat} {t : Topic} {c' : Session} (hk : a.subscriber = some k) :
      (t.setSession k c').sessions i = t.sessions i := by
    refine Function.update_of_ne ?_ ..
    rintro rfl
    exact hi hk
  cases a with
  | create | publish | flush | dropPublisher | crash =>
    simp only [step, create, publish, flush, endPublisher] at hs
    repeat' split at hs
    all_goals first
      | cases hs; rfl
      | cases hs
  | claim k | handshakeFails k | finish k | nextWal k | tryReceive k | drop k | kill k =>
    simp only [step, claim, handshakeFails, finish, nextWal, tryReceive, drop, release] at hs
    repeat' split at hs
    all_goals first
      | cases hs; exact hother rfl
      | cases hs; rfl
      | cases hs

theorem sessions_run {acts : List Act} (hrun : run Topic.step s acts = some s') (hi : ∀ a ∈ acts, a.subscriber ≠ some i) :
    s'.sessions i = s.sessions i := by
  induction acts generalizing s with
  | nil =>
    cases hrun
    rfl
  | cons a acts ih =>
    obtain ⟨s₁, hs, hrest⟩ := run_cons.1 hrun
    have ha := hi a (List.mem_cons_self ..)
    rw [ih hrest fun b hb => hi b (List.mem_cons_of_mem _ hb), sessions_step hs ha]

/-! ### Who holds a claimed entry -/

/-- Every claimed entry of the table is that of a subscriber with the property `P`. -/
def Held (P : Session → Prop) (s : Topic) (r : RingBuffer) : Prop :=
  ∀ j < r.maxSubs, r.cursors j ≠ CURSOR_UNCLAIMED →
    ∃ i, (s.sessions i).Holds = true ∧ (s.sessions i).cursorIdx = j ∧ P (s.sessions i)

/-- A subscriber at work leaves the entries of the others alone. -/
theorem Held.session {P : Session → Prop} {c' : Session} (h : s.Held P r)
    (hsessions : s'.sessions = Function.update s.sessions i c') (hmax : r'.maxSubs = r.maxSubs)
    {below : Prop} (heffect : SessionEffect below r (s.sessions i) r' c') (hP : c'.Holds = true → P c') : s'.Held P r' := by
  intro j hj hclaimed
  have hself (hholds : c'.Holds = true) (hidx : c'.cursorIdx = j) :
      ∃ i, (s'.sessions i).Holds = true ∧ (s'.sessions i).cursorIdx = j ∧ P (s'.sessions i) := by
    refine ⟨i, ?_⟩
    rw [hsessions, Function.update_self]
    exact ⟨hholds, hidx, hP hholds⟩
  -- the entry was claimed before, and its holder is the one that moved only if it still holds it
  have hbefore (hold : r.cursors j ≠ CURSOR_UNCLAIMED) (hkept : (s.sessions i).Holds = true →
      (s.sessions i).cursorIdx = j → c'.Holds = true ∧ c'.cursorIdx = j) :
      ∃ i, (s'.sessions i).Holds = true ∧ (s'.sessions i).cursorIdx = j ∧ P (s'.sessions i) := by
    obtain ⟨k, hholds, hidx, hPk⟩ := h j (hmax ▸ hj) hold
    by_cases hk : k = i
    · subst hk
      obtain ⟨hholds', hidx'⟩ := hkept hholds hidx
      exact hself hholds' hidx'
    · refine ⟨k, ?_⟩
      rw [hsessions, Function.update_of_ne hk]
      exact ⟨hholds, hidx, hPk⟩
  cases heffect with
  | keep hcursors hholds hidx =>
    rw [hcursors] at hclaimed
    exact hbefore hclaimed fun hheld heq => ⟨hholds.trans hheld, hidx.trans heq⟩
  | claim hnew hholds hlt hfree hcursors =>
    rw [hcursors] at hclaimed
    by_cases hidx : j = c'.cursorIdx
    · exact hself hholds hidx.symm
    · rw [Function.update_of_ne hidx] at hclaimed
      refine hbefore hclaimed fun hheld => ?_
      rw [hnew] at hheld
      cases hheld
  | store v _ hheld hholds hidx hcursors =>
    rw [hcursors] at hclaimed
    by_cases hj' : j = (s.sessions i).cursorIdx
    · exact hself hholds (hidx.trans hj'.symm)
    · rw [Function.update_of_ne hj'] at hclaimed
      exact hbefore hclaimed fun _ heq => absurd heq.symm hj'
  | release hout hcursors =>
    rw [hcursors] at hclaimed
    by_cases hj' : j = (s.sessions i).cursorIdx
    · rw [hj', Function.update_self] at hclaimed
      exact absurd rfl hclaimed
    · rw [Function.update_of_ne hj'] at hclaimed
      exact hbefore hclaimed fun _ heq => absurd heq.symm hj'

/-- The table is as it was, and so are the subscribers. -/
theorem Held.of_eq {P : Session → Prop} (h : s.Held P r) (hsessions : s'.sessions = s.sessions)
    (hmax : r'.maxSubs = r.maxSubs) (hcursors : r'.cursors = r.cursors) : s'.Held P r' := by
  intro j hj hclaimed
  rw [hmax] at hj
  rw [hcursors] at hclaimed
  rw [hsessions]
  exact h j hj hclaimed

/-! ### Subscribers that die -/

/-- No subscriber process dies while it holds an entry. -/
def DiesFree (s : Topic) : Act → Prop
  | .kill i => (s.sessions i).Holds = false
  | _ => True

instance (s : Topic) : DecidablePred s.DiesFree := by
  intro a
  unfold DiesFree
  split <;> infer_instance

theorem held_alive_step {a : Act} (h : ∀ r, s.ring = some r → s.Held (fun c => c.alive = true) r) (hfree : s.DiesFree a)
    (hs : s.step a = some s') : ∀ r', s'.ring = some r' → s'.Held (fun c => c.alive = true) r' := by
  intro r' hr'
  cases step_effect hs with
  | quiet hsessions hring =>
    obtain ⟨r, hr, hshape, hcursors, -⟩ := hring r' hr'
    exact (h r hr).of_eq hsessions hshape.maxSubs hcursors
  | fresh hsessions hring' _ hcursors =>
    cases hring'.symm.trans hr'
    exact fun j _ hclaimed => absurd (hcursors j) hclaimed
  | reuse hsessions hring hring' _ hmax hcursors =>
    cases hring'.symm.trans hr'
    exact (h _ hring).of_eq hsessions hmax hcursors
  | session i hring hring' hshape _ hsessions _ halive' _ heffect =>
    cases hring'.symm.trans hr'
    exact (h _ hring).session hsessions hshape.maxSubs heffect fun _ => halive'
  | @kill i _ hring hsessions =>
    intro j hj hclaimed
    obtain ⟨k, hholds, hidx, halive⟩ := h r' (hring ▸ hr') j hj hclaimed
    have hk : k ≠ i := by
      rintro rfl
      rw [show (s.sessions k).Holds = false from hfree] at hholds
      cases hholds
    refine ⟨k, ?_⟩
    rw [hsessions, Function.update_of_ne hk]
    exact ⟨hholds, hidx, halive⟩

/-- The holder of an entry: a live subscriber, of the current generation if it is connected -/
def LiveHolder (s : Topic) (r : RingBuffer) (i : Nat) : Prop :=
  (s.sessions i).Holds = true ∧ (s.sessions i).alive = true ∧
    ((s.sessions i).phase = .connected → (s.sessions i).generation = r.generation)

/-- Every live subscriber that is connected is of the current generation. -/
def Succeeded (s : Topic) (r : RingBuffer) : Prop :=
  ∀ i, (s.sessions i).alive = true → (s.sessions i).phase = .connected → (s.sessions i).generation = r.generation

/-- In a run in which no subscriber process dies while it holds an entry: once the live subscribers of earlier
generations are gone, every claimed entry has a live holder of the current generation, and so has the ring that is full
and the table that is used up. -/
theorem claims_are_live {acts : List Act} (hfree : Meets Topic.step DiesFree .init acts)
    (hrun : run Topic.step .init acts = some s) (hring : s.ring = some r) (hsucceeded : s.Succeeded r) :
    (∀ j < r.maxSubs, r.cursors j ≠ CURSOR_UNCLAIMED → ∃ i, s.LiveHolder r i ∧ (s.sessions i).cursorIdx = j) ∧
    (0 < r.cap → r.isFull = true →
      ∃ i, s.LiveHolder r i ∧ r.cap ≤ wrappingSub 64 r.tail (r.cursors (s.sessions i).cursorIdx)) ∧
    (∀ c, r.claimCursor c = none → ∀ j < r.maxSubs, ∃ i, s.LiveHolder r i ∧ (s.sessions i).cursorIdx = j) := by
  have hheld : s.Held (fun c => c.alive = true) r := by
    refine run_invariant_when (fun s => ∀ r, s.ring = some r → s.Held (fun c => c.alive = true) r) DiesFree
      (fun _ _ _ h hfree hs => held_alive_step h hfree hs) hfree ?_ hrun r hring
    rintro r ⟨⟩
  have hholder (j : Nat) (hj : j < r.maxSubs) (hclaimed : r.cursors j ≠ CURSOR_UNCLAIMED) :
      ∃ i, s.LiveHolder r i ∧ (s.sessions i).cursorIdx = j := by
    obtain ⟨i, hholds, hidx, halive⟩ := hheld j hj hclaimed
    exact ⟨i, ⟨hholds, halive, hsucceeded i halive⟩, hidx⟩
  refine ⟨hholder, fun hcap hfull => ?_, fun c hnone j hj => hholder j hj (claimed_of_claimCursor hnone hj)⟩
  obtain ⟨j, hj, hclaimed, hlag⟩ := exists_entry_of_isFull hcap hfull
  obtain ⟨i, hlive, rfl⟩ := hholder j hj hclaimed
  exact ⟨i, hlive, hlag⟩

/-- A ring of four slots with two entries, and no log -/
def twoEntries (backpressure : BackpressurePolicy) : BusConfig := ⟨4, 8, 2, backpressure, ⟨false, .batched, 128, 1024⟩⟩

/-- A subscriber dies with its entry, then the publisher dies and is started again: the entry is still claimed, no live
subscriber is connected, and nobody live holds an entry. -/
theorem claims_are_live_fails : ∃ s r,
    run Topic.step .init [.create (twoEntries .error), .claim 0 .now, .finish 0, .kill 0, .crash,
      .create (twoEntries .error)] = some s ∧ s.ring = some r ∧ s.Succeeded r ∧ r.cursors 0 ≠ CURSOR_UNCLAIMED ∧
      ∀ i, ¬s.LiveHolder r i := by
  obtain ⟨s, hrun, hs⟩ := Option.map_eq_some_iff.1 (show (run Topic.step .init
      [.create (twoEntries .error), .claim 0 .now, .finish 0, .kill 0, .crash, .create (twoEntries .error)]).map
        (fun s => (s.ring.map fun r => r.cursors 0, (s.sessions 0).alive)) = some (some 0, false) by decide +kernel)
  obtain ⟨r, hring, hentry⟩ := Option.map_eq_some_iff.1 (congrArg Prod.fst hs)
  have hdead : (s.sessions 0).alive = false := congrArg Prod.snd hs
  -- nobody else has ever connected
  have hother (i : Nat) (hi : i ≠ 0) : s.sessions i = ⟨.absent, true, 0, 0, 0, none⟩ := by
    refine sessions_run hrun fun a ha => ?_
    simp only [List.mem_cons, List.not_mem_nil, or_false] at ha
    rcases ha with rfl | rfl | rfl | rfl | rfl | rfl <;> simp [Act.subscriber, hi.symm]
  refine ⟨s, r, hrun, hring, fun i halive hconnected => ?_, ?_, fun i hlive => ?_⟩
  · by_cases hi : i = 0
    · rw [hi, hdead] at halive
      cases halive
    · rw [hother i hi] at hconnected
      cases hconnected
  · rw [hentry]
    decide
  · by_cases hi : i = 0
    · have halive := hlive.2.1
      rw [hi, hdead] at halive
      cases halive
    · have hholds := hlive.1
      rw [hother i hi] at hholds
      cases hholds

/-- One subscriber is dropped before the publisher dies, and another connects to the next one. -/
theorem claims_are_live_reconnect : ∃ s r,
    run Topic.step .init [.create (twoEntries .error), .claim 0 .now, .finish 0, .drop 0, .kill 0, .crash,
      .create (twoEntries .error), .claim 1 .now, .finish 1] = some s ∧ s.ring = some r ∧
      r.cursors 0 ≠ CURSOR_UNCLAIMED ∧ ∃ i, s.LiveHolder r i ∧ (s.sessions i).cursorIdx = 0 := by
  obtain ⟨s, hrun, hs⟩ := Option.map_eq_some_iff.1 (show (run Topic.step .init
      [.create (twoEntries .error), .claim 0 .now, .finish 0, .drop 0, .kill 0, .crash, .create (twoEntries .error),
        .claim 1 .now, .finish 1]).map (fun s => (s.ring.map fun r => (r.cursors 0, r.maxSubs, r.generation),
          (s.sessions 0).alive, (s.sessions 1).generation)) = some (some (0, 2, 2), false, 2) by decide +kernel)
  obtain ⟨r, hring, hr⟩ := Option.map_eq_some_iff.1 (congrArg Prod.fst hs)
  have hdead : (s.sessions 0).alive = false := congrArg (fun p => p.2.1) hs
  have hentry : r.cursors 0 = 0 := congrArg Prod.fst hr
  have hmax : r.maxSubs = 2 := congrArg (fun p => p.2.1) hr
  have hgeneration : (s.sessions 1).generation = r.generation :=
    (congrArg (fun p => p.2.2) hs).trans (congrArg (fun p => p.2.2) hr).symm
  have hsucceeded : s.Succeeded r := by
    intro i halive hconnected
    by_cases h0 : i = 0
    · rw [h0, hdead] at halive
      cases halive
    by_cases h1 : i = 1
    · rw [h1, hgeneration]
    · have hother : s.sessions i = ⟨.absent, true, 0, 0, 0, none⟩ := by
        refine sessions_run hrun fun a ha => ?_
        simp only [List.mem_cons, List.not_mem_nil, or_false] at ha
        rcases ha with rfl | rfl | rfl | rfl | rfl | rfl | rfl | rfl | rfl <;> simp [Act.subscriber, Ne.symm h0, Ne.symm h1]
      rw [hother] at hconnected
      cases hconnected
  have hclaimed : r.cursors 0 ≠ CURSOR_UNCLAIMED := by
    rw [hentry]
    decide
  exact ⟨s, r, hrun, hring, hclaimed, (claims_are_live (by decide +kernel) hrun hring hsucceeded).1 0 (by omega) hclaimed⟩

/-! ### Entries past the tail -/

/-- Every claimed entry is at most the tail, and has a holder. -/
structure Below (s : Topic) (r : RingBuffer) : Prop where
  cap : 0 < r.cap
  le_tail : ∀ j < r.maxSubs, r.cursors j ≠ CURSOR_UNCLAIMED → r.cursors j ≤ r.tail
  held : s.Held (fun _ => True) r

theorem le_tail_session {below : Prop} {c c' : Session} (heffect : SessionEffect below r c r' c') (hbelow : below)
    (hmax : r'.maxSubs = r.maxSubs) (htail : r'.tail = r.tail)
    (h : ∀ j < r.maxSubs, r.cursors j ≠ CURSOR_UNCLAIMED → r.cursors j ≤ r.tail) :
    ∀ j < r'.maxSubs, r'.cursors j ≠ CURSOR_UNCLAIMED → r'.cursors j ≤ r'.tail := by
  intro j hj hclaimed
  rw [hmax] at hj
  rw [htail]
  have hupdate {k v : Nat} (hcursors : r'.cursors = Function.update r.cursors k v)
      (hv : v ≠ CURSOR_UNCLAIMED → v ≤ r.tail) : r'.cursors j ≤ r.tail := by
    rw [hcursors] at hclaimed ⊢
    by_cases hjk : j = k
    · rw [hjk, Function.update_self] at hclaimed ⊢
      exact hv hclaimed
    · rw [Function.update_of_ne hjk] at hclaimed ⊢
      exact h j hj hclaimed
  cases heffect with
  | keep hcursors =>
    rw [hcursors] at hclaimed ⊢
    exact h j hj hclaimed
  | claim _ _ _ _ hcursors => exact hupdate hcursors fun _ => le_rfl
  | store v hle _ _ _ hcursors => exact hupdate hcursors fun _ => hle hbelow
  | release _ hcursors => exact hupdate hcursors fun hne => absurd rfl hne

theorem below_step {a : Act} (h : ∀ r, s.ring = some r → s.Below r) (hbelow : s.StaysBelow a) (hs : s.step a = some s') :
    ∀ r', s'.ring = some r' → s'.Below r' := by
  intro r' hr'
  cases step_effect hs with
  | quiet hsessions hring =>
    obtain ⟨r, hr, hshape, hcursors, htail⟩ := hring r' hr'
    obtain ⟨hcap, hle, hheld⟩ := h r hr
    refine ⟨hshape.cap ▸ hcap, fun j hj hclaimed => ?_, hheld.of_eq hsessions hshape.maxSubs hcursors⟩
    rw [hshape.maxSubs] at hj
    rw [hcursors] at hclaimed ⊢
    exact (hle j hj hclaimed).trans htail
  | fresh hsessions hring' hcap hcursors =>
    cases hring'.symm.trans hr'
    refine ⟨?_, fun j _ hclaimed => absurd (hcursors j) hclaimed, fun j _ hclaimed => absurd (hcursors j) hclaimed⟩
    rw [hcap]
    exact Nat.pos_of_ne_zero fun hzero => hbelow.1 (UInt32.toNat_inj.1 hzero)
  | @reuse _ _ r _ hsessions hring hring' hcap hmax hcursors htail =>
    cases hring'.symm.trans hr'
    refine ⟨?_, fun j hj hclaimed => ?_, (h r hring).held.of_eq hsessions hmax hcursors⟩
    · rw [hcap]
      exact Nat.pos_of_ne_zero fun hzero => hbelow.1 (UInt32.toNat_inj.1 hzero)
    · rw [hmax] at hj
      rw [hcursors] at hclaimed ⊢
      rw [htail]
      exact hbelow.2 r hring j hj hclaimed
  | session i hring hring' hshape htail hsessions _ _ _ heffect =>
    cases hring'.symm.trans hr'
    obtain ⟨hcap, hle, hheld⟩ := h _ hring
    exact ⟨hshape.cap ▸ hcap, le_tail_session heffect hbelow hshape.maxSubs htail hle,
      hheld.session hsessions hshape.maxSubs heffect fun _ => trivial⟩
  | @kill i _ hring hsessions =>
    obtain ⟨hcap, hle, hheld⟩ := h r' (hring ▸ hr')
    refine ⟨hcap, hle, fun j hj hclaimed => ?_⟩
    obtain ⟨k, hholds, hidx, -⟩ := hheld j hj hclaimed
    refine ⟨k, ?_⟩
    rw [hsessions]
    by_cases hki : k = i
    · subst hki
      rw [Function.update_self]
      exact ⟨hholds, hidx, trivial⟩
    · rw [Function.update_of_ne hki]
      exact ⟨hholds, hidx, trivial⟩

/-- Who is connected is so to the current generation. -/
def Current (s : Topic) : Prop :=
  ∀ r, s.ring = some r → ∀ i, (s.sessions i).phase = .connected → (s.sessions i).generation = r.generation

theorem Current.step {a : Act} (h : s.Current) (hfree : s.TakesOverFree a) (hs : s.step a = some s') : s'.Current := by
  intro r' hr' k hconnected
  cases step_effect hs with
  | quiet hsessions hring =>
    obtain ⟨r, hr, hshape, -⟩ := hring r' hr'
    rw [hsessions] at hconnected ⊢
    rw [hshape.generation]
    exact h r hr k hconnected
  | fresh hsessions | reuse hsessions =>
    have hholds : (s.sessions k).Holds = true := holds_of_phase (.inl (hsessions ▸ hconnected))
    rw [hfree k] at hholds
    cases hholds
  | session i hring hring' hshape _ hsessions _ _ hgeneration =>
    cases hring'.symm.trans hr'
    rw [hsessions] at hconnected ⊢
    rw [hshape.generation]
    by_cases hki : k = i
    · subst hki
      rw [Function.update_self] at hconnected ⊢
      rcases hgeneration hconnected with hnew | ⟨hold, hsame⟩
      · exact hnew
      · rw [hsame]
        exact h _ hring k hold
    · rw [Function.update_of_ne hki] at hconnected ⊢
      exact h _ hring k hconnected
  | @kill i _ hring hsessions =>
    rw [hsessions] at hconnected ⊢
    by_cases hki : k = i
    · subst hki
      rw [Function.update_self] at hconnected ⊢
      exact h r' (hring ▸ hr') k hconnected
    · rw [Function.update_of_ne hki] at hconnected ⊢
      exact h r' (hring ▸ hr') k hconnected

/-- In a run in which no operation moves an entry past the tail or the tail below an entry, every claimed entry is at most
the tail, and a publish fails only for a subscriber, connected or in its handshake, whose entry is `capacity` positions
behind: connected to the current generation, if none of an earlier one held an entry when the ring was taken over. -/
theorem full_of_slow_subscriber {acts : List Act} (hbelow : Meets Topic.step StaysBelow .init acts)
    (hrun : run Topic.step .init acts = some s) (hring : s.ring = some r) :
    (∀ j < r.maxSubs, r.cursors j ≠ CURSOR_UNCLAIMED → r.cursors j ≤ r.tail) ∧
    ∀ data, r.isFull = true ∨ (r.tryPublish data).2 = false →
      ∃ i, ((s.sessions i).phase = .connected ∧
            (Meets Topic.step TakesOverFree .init acts → (s.sessions i).generation = r.generation) ∨
          ∃ start, (s.sessions i).phase = .connecting start) ∧
        r.cap ≤ r.tail - r.cursors (s.sessions i).cursorIdx := by
  obtain ⟨hcap, hle, hheld⟩ : s.Below r := by
    refine run_invariant_when (fun s => ∀ r, s.ring = some r → s.Below r) StaysBelow
      (fun _ _ _ h hbelow hs => below_step h hbelow hs) hbelow ?_ hrun r hring
    rintro r ⟨⟩
  have hcurrent (hfree : Meets Topic.step TakesOverFree .init acts) : s.Current :=
    run_invariant_when Current TakesOverFree (fun _ _ _ h hfree hs => h.step hfree hs) hfree nofun hrun
  refine ⟨hle, fun data hfails => ?_⟩
  have hfull : r.isFull = true := by
    rcases hfails with hfull | hfails
    · exact hfull
    · unfold tryPublish at hfails
      split at hfails
      · assumption
      · cases hfails
  obtain ⟨j, hj, hclaimed, hlag⟩ := exists_entry_of_isFull hcap hfull
  obtain ⟨i, hholds, rfl, -⟩ := hheld j hj hclaimed
  refine ⟨i, ?_, hlag.trans (wrappingSub_le 64 (hle _ hj hclaimed))⟩
  rcases phase_of_holds hholds with hconnected | hconnecting
  · exact .inl ⟨hconnected, fun hfree => hcurrent hfree r hring i hconnected⟩
  · exact .inr hconnecting

/-- A subscriber starts past the tail of a ring that has no message yet: its entry is past the tail, and the ring is
full at once. -/
theorem full_of_slow_subscriber_fails : ∃ s r,
    run Topic.step .init [.create (twoEntries .error), .claim 0 (.explicit 9), .finish 0] = some s ∧ s.ring = some r ∧
      r.cursors 0 ≠ CURSOR_UNCLAIMED ∧ r.tail < r.cursors 0 ∧ r.isFull = true ∧ (r.tryPublish [7]).2 = false := by
  obtain ⟨s, hrun, hs⟩ := Option.map_eq_some_iff.1 (show (run Topic.step .init
      [.create (twoEntries .error), .claim 0 (.explicit 9), .finish 0]).map
        (fun s => s.ring.map fun r => (r.tail, r.cursors 0, r.isFull, (r.tryPublish [7]).2)) =
          some (some (0, 9, true, false)) by decide +kernel)
  obtain ⟨r, hring, hr⟩ := Option.map_eq_some_iff.1 hs
  obtain ⟨htail, hentry, hfull, hpublish⟩ : r.tail = 0 ∧ r.cursors 0 = 9 ∧ r.isFull = true ∧
      (r.tryPublish [7]).2 = false := by simpa using hr
  refine ⟨s, r, hrun, hring, ?_, by omega, hfull, hpublish⟩
  rw [hentry]
  decide

/-- A subscriber connects at the tail and lets the ring fill up. -/
def fillsUp : List Act :=
  [.create (twoEntries .error), .claim 0 .now, .finish 0, .publish [1] 0 .ok, .publish [2] 0 .ok, .publish [3] 0 .ok,
    .publish [4] 0 .ok]

theorem full_of_slow_subscriber_now : ∃ s r, run Topic.step .init fillsUp = some s ∧ s.ring = some r ∧ r.isFull = true ∧
    ∃ i, ((s.sessions i).phase = .connected ∧ (s.sessions i).generation = r.generation ∨
        ∃ start, (s.sessions i).phase = .connecting start) ∧
      r.cap ≤ r.tail - r.cursors (s.sessions i).cursorIdx := by
  obtain ⟨s, hrun, hs⟩ := Option.map_eq_some_iff.1 (show (run Topic.step .init fillsUp).map
    (fun s => s.ring.map fun r => r.isFull) = some (some true) by decide +kernel)
  obtain ⟨r, hring, hfull⟩ := Option.map_eq_some_iff.1 hs
  have hbelow : Meets Topic.step StaysBelow .init fillsUp := by
    refine ⟨⟨by decide, nofun⟩, fun s₁ hs₁ => ⟨trivial, fun s₂ hs₂ => ⟨fun r hr c hc => ?_, fun _ _ => ?_⟩⟩⟩
    · cases hs₁
      cases hs₂
      cases hc
    · exact ⟨trivial, fun _ _ => ⟨trivial, fun _ _ => ⟨trivial, fun _ _ => ⟨trivial, fun _ _ => trivial⟩⟩⟩⟩
  have hfree : Meets Topic.step TakesOverFree .init fillsUp :=
    ⟨fun _ => rfl, fun _ _ => ⟨trivial, fun _ _ => ⟨trivial, fun _ _ => ⟨trivial, fun _ _ => ⟨trivial, fun _ _ =>
      ⟨trivial, fun _ _ => ⟨trivial, fun _ _ => trivial⟩⟩⟩⟩⟩⟩⟩
  obtain ⟨i, hi, hlag⟩ := (full_of_slow_subscriber hbelow hrun hring).2 [5] (.inl hfull)
  exact ⟨s, r, hrun, hring, hfull, i, hi.imp_left fun ⟨hconnected, hgeneration⟩ => ⟨hconnected, hgeneration hfree⟩, hlag⟩

end Topic

end Mmbus
