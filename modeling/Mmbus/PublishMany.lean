import Mmbus.Logging
import Mmbus.Untimed

/-!
# Batches and counters

`publish` and `publish_many` of a publisher with a log or without one, under either policy, with the two counters
`published_total` and `full_rejected_total`.  What a call sees of the world is a `View` for each message, as in `Logging`.

A batch does what its messages do one by one, up to the first error, unless a waiting connection has died and its first
message is not one that comes as far as that connection (`batch_as_each_iff`).  The counters are exact as long as no call
takes one of the exits that leave a counter as it is (`counters_exact_iff`).
-/

namespace Mmbus

open Attempt Transition

/-- A publisher and its counters -/
structure CountedPublisher (B : LogBackend) where
  ring : RingBuffer
  backpressure : BackpressurePolicy
  wal : Option B.State
  publishedTotal : Nat
  fullRejectedTotal : Nat
  /-- The messages written to the ring since the publisher was created (no process reads this) -/
  written : Nat
  /-- The calls of `publish` that have returned `Error::Full` (no process reads this) -/
  fullReturned : Nat

namespace CountedPublisher

variable {B : LogBackend}

/-- A new publisher on the ring `r` -/
def create (r : RingBuffer) (backpressure : BackpressurePolicy) (wal : Option B.State) : CountedPublisher B where
  ring := r
  backpressure := backpressure
  wal := wal
  publishedTotal := 0
  fullRejectedTotal := 0
  written := 0
  fullReturned := 0

variable (s : CountedPublisher B)

/-- The append of the record before the ring is written, if there is a log -/
def logFirst (data : Bytes) (v : View B) : CountedPublisher B × Except (PublishError B.Err) Unit :=
  match s.wal with
  | none => (s, .ok ())
  | some wal =>
    if s.backpressure = .error ∧ s.ring.fullAt s.ring.tail v.atCheck then (s, .error .full)
    else
      match B.append s.ring.tail v.ts data v.io wal with
      | (wal, .ok _) => ({ s with wal := some wal }, .ok ())
      | (wal, .error e) => ({ s with wal := some wal }, .error (.wal e))

/-- `try_publish` or `publish_drop_oldest`, on the cursor table that it sees -/
def ringWrite (data : Bytes) (cursors : Nat → Nat) : CountedPublisher B × Bool :=
  let r : RingBuffer := { s.ring with cursors := cursors }
  let (ring, written) :=
    match s.backpressure with
    | .error => r.tryPublish data
    | .dropOldest => r.publishDropOldest data
  ({ s with ring := ring, written := if written then s.written + 1 else s.written }, written)

/-- `publish`; `accepted` tells how `accept_clients` ends. -/
def publish (data : Bytes) (accepted : Bool) (v : View B) : CountedPublisher B × Except (PublishError B.Err) Unit :=
  if s.ring.slotSize < data.length then (s, .error (.tooLarge data.length s.ring.slotSize))
  else if accepted = false then (s, .error .io)
  else
    match s.logFirst data v with
    | (s, .error e) => (s, .error e)
    | (s, .ok _) =>
      match s.ringWrite data v.atPublish with
      | (s, true) => ({ s with publishedTotal := s.publishedTotal + 1 }, .ok ())
      | (s, false) => ({ s with fullRejectedTotal := s.fullRejectedTotal + 1 }, .error .full)

/-- The end of a batch after `count` messages -/
def endBatch (count : Nat) : CountedPublisher B × Except (PublishError B.Err) Nat :=
  ({ s with publishedTotal := s.publishedTotal + count }, .ok count)

/-- The loop of `publish_many` after `count` messages -/
def publishLoop (count : Nat) : List (Bytes × View B) → CountedPublisher B →
    CountedPublisher B × Except (PublishError B.Err) Nat
  | [], s => s.endBatch count
  | (data, v) :: rest, s =>
    if s.ring.slotSize < data.length then (s, .error (.tooLarge data.length s.ring.slotSize))
    else
      match s.logFirst data v with
      | (s, .error .full) => s.endBatch count
      | (s, .error e) => (s, .error e)
      | (s, .ok _) =>
        match s.ringWrite data v.atPublish with
        | (s, true) => publishLoop (count + 1) rest s
        | (s, false) => s.endBatch count

def publishMany (items : List (Bytes × View B)) (accepted : Bool) :
    CountedPublisher B × Except (PublishError B.Err) Nat :=
  if accepted = false then (s, .error .io) else publishLoop 0 items s

/-- `accept_clients` on the connections that wait, each with whether it is accepted and sends its handle: whether it
succeeds, and the connections that it leaves.  It returns with the first that fails. -/
def acceptClients : List Bool → Bool × List Bool
  | [] => (true, [])
  | true :: waiting => acceptClients waiting
  | false :: waiting => (false, waiting)

/-- `publish` on the messages one by one while no subscriber takes a step: how many succeed, and the first error -/
def publishEach (count : Nat) : List (Bytes × View B) → List Bool → CountedPublisher B →
    CountedPublisher B × Nat × Option (PublishError B.Err)
  | [], _, s => (s, count, none)
  | (data, v) :: rest, waiting, s =>
    match s.publish data (acceptClients waiting).1 v with
    | (s, .ok _) => publishEach (count + 1) rest (acceptClients waiting).2 s
    | (s, .error e) => (s, count, some e)

/-- What `publish_many` is to return: a full ring ends a batch like the end of the list. -/
def batchResult : Nat × Option (PublishError B.Err) → Except (PublishError B.Err) Nat
  | (k, none) | (k, some .full) => .ok k
  | (_, some e) => .error e

/-! ### A batch and its messages -/

variable {s t : CountedPublisher B} {untimed : B.State → B.State}

/-- What is seen of the world but for the time -/
def SeesSame (x y : Bytes × View B) : Prop :=
  x.1 = y.1 ∧ x.2.atCheck = y.2.atCheck ∧ x.2.atPublish = y.2.atPublish ∧ x.2.io = y.2.io

/-- The same publisher but for the counters and the times in the log -/
structure Alike (untimed : B.State → B.State) (s t : CountedPublisher B) : Prop where
  ring : s.ring = t.ring
  backpressure : s.backpressure = t.backpressure
  wal : s.wal.map untimed = t.wal.map untimed

/-- The time of a record decides nothing. -/
def Untimes (B : LogBackend) (untimed : B.State → B.State) : Prop :=
  ∀ cursor ts payload io, Lifts untimed (B.append cursor ts payload io) (B.append cursor 0 payload io)

theorem Alike.logFirst (hB : Untimes B untimed) (h : Alike untimed s t) {x y : Bytes × View B} (hxy : SeesSame x y) :
    Alike untimed (s.logFirst x.1 x.2).1 (t.logFirst y.1 y.2).1 ∧ (s.logFirst x.1 x.2).2 = (t.logFirst y.1 y.2).2 := by
  obtain ⟨data, v⟩ := x
  obtain ⟨data', v'⟩ := y
  obtain ⟨hdata, hcheck, -, hio⟩ := hxy
  dsimp only at hdata hcheck hio
  subst hdata
  have hwal := h.wal
  unfold CountedPublisher.logFirst
  cases hs : s.wal with
  | none =>
    cases ht : t.wal with
    | none => exact ⟨h, rfl⟩
    | some wal' =>
      rw [hs, ht] at hwal
      cases hwal
  | some wal =>
    cases ht : t.wal with
    | none =>
      rw [hs, ht] at hwal
      cases hwal
    | some wal' =>
      rw [hs, ht, Option.map_some, Option.map_some, Option.some.injEq] at hwal
      simp only [h.ring, h.backpressure, hcheck, hio]
      split
      · exact ⟨h, rfl⟩
      · have happend : (B.append t.ring.tail v.ts data v'.io wal).map untimed id =
            (B.append t.ring.tail v'.ts data v'.io wal').map untimed id := by
          rw [← hB, ← hB, hwal]
        rcases happ : B.append t.ring.tail v.ts data v'.io wal with ⟨w, r⟩
        rcases happ' : B.append t.ring.tail v'.ts data v'.io wal' with ⟨w', r'⟩
        rw [happ, happ', Prod.map_apply, Prod.map_apply, Prod.mk.injEq] at happend
        obtain ⟨hw, hr⟩ := happend
        dsimp only [id] at hr
        subst hr
        cases r with
        | ok _ => exact ⟨⟨rfl, rfl, congrArg some hw⟩, rfl⟩
        | error e => exact ⟨⟨rfl, rfl, congrArg some hw⟩, rfl⟩

theorem Alike.ringWrite (h : Alike untimed s t) (data : Bytes) (cursors : Nat → Nat) :
    Alike untimed (s.ringWrite data cursors).1 (t.ringWrite data cursors).1 ∧
      (s.ringWrite data cursors).2 = (t.ringWrite data cursors).2 := by
  simp only [CountedPublisher.ringWrite, h.ring, h.backpressure]
  exact ⟨⟨rfl, rfl, h.wal⟩, trivial⟩

theorem Alike.publishLoop (hB : Untimes B untimed) {items items' : List (Bytes × View B)}
    (hitems : List.Forall₂ SeesSame items items') {count : Nat} (h : Alike untimed s t) :
    Alike untimed (publishLoop count items s).1 (publishEach count items' [] t).1 ∧
      (publishLoop count items s).2 = batchResult (publishEach count items' [] t).2 := by
  induction hitems generalizing s t count with
  | nil => exact ⟨⟨h.ring, h.backpressure, h.wal⟩, rfl⟩
  | @cons x y items items' hxy _ ih =>
    obtain ⟨hlog, hlogged⟩ := h.logFirst hB hxy
    obtain ⟨data, v⟩ := x
    obtain ⟨data', v'⟩ := y
    obtain ⟨hdata, -, hpublish, -⟩ := hxy
    dsimp only at hdata hpublish hlog hlogged
    subst hdata
    simp only [CountedPublisher.publishLoop, publishEach, publish, h.ring]
    by_cases hlength : t.ring.slotSize < data.length
    · rw [if_pos hlength, if_pos hlength]
      exact ⟨h, rfl⟩
    rw [if_neg hlength, if_neg hlength, if_neg (show ¬(acceptClients []).1 = false by decide)]
    rcases hs : s.logFirst data v with ⟨s₁, r⟩
    rcases ht : t.logFirst data v' with ⟨t₁, r'⟩
    rw [hs, ht] at hlog hlogged
    dsimp only at hlog hlogged
    subst hlogged
    cases r with
    | error e => cases e <;> exact ⟨⟨hlog.ring, hlog.backpressure, hlog.wal⟩, rfl⟩
    | ok _ =>
      obtain ⟨hwrite, hwritten⟩ := hlog.ringWrite data v.atPublish
      rw [← hpublish]
      rcases hs' : s₁.ringWrite data v.atPublish with ⟨s₂, b⟩
      rcases ht' : t₁.ringWrite data v.atPublish with ⟨t₂, b'⟩
      rw [hs', ht'] at hwrite hwritten
      dsimp only at hwrite hwritten
      subst hwritten
      simp only [hs', ht']
      cases b with
      | false => exact ⟨⟨hwrite.ring, hwrite.backpressure, hwrite.wal⟩, rfl⟩
      | true => exact ih ⟨hwrite.ring, hwrite.backpressure, hwrite.wal⟩

/-- The messages with what is seen of the world, once with the time of the batch and once with another -/
theorem forall₂_retimed (items : List (Bytes × View B × Nat)) : List.Forall₂ SeesSame
    (items.map fun x => (x.1, x.2.1)) (items.map fun x => (x.1, { x.2.1 with ts := x.2.2 })) := by
  induction items with
  | nil => exact .nil
  | cons x items ih => exact .cons ⟨rfl, rfl, rfl, rfl⟩ ih

/-- What the batch does is what its messages do one by one, and it returns how many succeed, or the first error unless that
is a full ring. -/
def DoesAsEach (untimed : B.State → B.State) (batch : CountedPublisher B × Except (PublishError B.Err) Nat)
    (each : CountedPublisher B × Nat × Option (PublishError B.Err)) : Prop :=
  batch.1.ring = each.1.ring ∧ batch.1.wal.map untimed = each.1.wal.map untimed ∧ batch.2 = batchResult each.2

/-- The connections are all accepted, or there is a first message and it is not too large. -/
def AcceptsFirst (s : CountedPublisher B) (items : List (Bytes × View B × Nat)) (waiting : List Bool) : Prop :=
  (acceptClients waiting).1 = true ∨ ∃ item ∈ items.head?, item.1.length ≤ s.ring.slotSize

/-- Once the connections are accepted, none waits. -/
theorem acceptClients_left {waiting : List Bool} (h : (acceptClients waiting).1 = true) : (acceptClients waiting).2 = [] := by
  induction waiting with
  | nil => rfl
  | cons ok waiting ih =>
    cases ok with
    | true => exact ih h
    | false => cases h

theorem publishEach_of_accepts {items : List (Bytes × View B)} {waiting : List Bool} {count : Nat}
    (h : (acceptClients waiting).1 = true) : publishEach count items waiting s = publishEach count items [] s := by
  cases items with
  | nil => rfl
  | cons item items =>
    obtain ⟨data, v⟩ := item
    simp only [publishEach, acceptClients_left h, h]
    rfl

theorem doesAsEach_iff (hB : Untimes B untimed) (s : CountedPublisher B) (items : List (Bytes × View B × Nat))
    (waiting : List Bool) : DoesAsEach untimed (s.publishMany (items.map fun x => (x.1, x.2.1)) (acceptClients waiting).1)
      (publishEach 0 (items.map fun x => (x.1, { x.2.1 with ts := x.2.2 })) waiting s) ↔ s.AcceptsFirst items waiting := by
  cases haccepted : (acceptClients waiting).1 with
  | true =>
    rw [publishEach_of_accepts haccepted]
    have hself : Alike untimed s s := ⟨rfl, rfl, rfl⟩
    obtain ⟨halike, hresult⟩ : Alike untimed (publishLoop 0 (items.map fun x => (x.1, x.2.1)) s).1
        (publishEach 0 (items.map fun x => (x.1, { x.2.1 with ts := x.2.2 })) [] s).1 ∧ _ :=
      hself.publishLoop hB (forall₂_retimed items)
    exact iff_of_true ⟨halike.ring, halike.wal, hresult⟩ (.inl haccepted)
  | false =>
    -- the batch ends at once; so does the first message, unless it is refused before or there is none
    have hbatch : s.publishMany (items.map fun x => (x.1, x.2.1)) false = (s, .error .io) := rfl
    rw [hbatch]
    cases items with
    | nil =>
      refine iff_of_false (fun h => nomatch h.2.2) fun h => ?_
      rcases h with h | ⟨item, hitem, -⟩
      · rw [haccepted] at h
        cases h
      · cases hitem
    | cons item items =>
      obtain ⟨data, v, ts⟩ := item
      simp only [List.map_cons, publishEach, publish, haccepted]
      by_cases hlength : s.ring.slotSize < data.length
      · rw [if_pos hlength]
        refine iff_of_false (fun h => nomatch h.2.2) fun h => ?_
        rcases h with h | ⟨item, hitem, hfits⟩
        · rw [haccepted] at h
          cases h
        · cases hitem
          exact absurd hlength (Nat.not_lt.2 hfits)
      · rw [if_neg hlength]
        exact iff_of_true ⟨rfl, rfl, rfl⟩ (.inr ⟨_, rfl, Nat.not_lt.1 hlength⟩)

/-- With either log or without one, a batch does to the ring and, up to times, to the log what `publish` does with its
messages one by one up to the first error, and returns how many there were, or that error unless it is a full ring: if and
only if it accepts the connections that wait, or its first message fits. -/
theorem batch_as_each_iff (waiting : List Bool) :
    (∀ (s : CountedPublisher .v1) (items : List (Bytes × View .v1 × Nat)),
      DoesAsEach Wal.untimed (s.publishMany (items.map fun x => (x.1, x.2.1)) (acceptClients waiting).1)
        (publishEach 0 (items.map fun x => (x.1, { x.2.1 with ts := x.2.2 })) waiting s) ↔ s.AcceptsFirst items waiting) ∧
    ∀ (s : CountedPublisher .v2) (items : List (Bytes × View .v2 × Nat)),
      DoesAsEach V2.Wal.untimed (s.publishMany (items.map fun x => (x.1, x.2.1)) (acceptClients waiting).1)
        (publishEach 0 (items.map fun x => (x.1, { x.2.1 with ts := x.2.2 })) waiting s) ↔ s.AcceptsFirst items waiting :=
  ⟨fun s items => doesAsEach_iff (B := .v1) Wal.append_untimed s items waiting,
    fun s items => doesAsEach_iff (B := .v2) V2.Wal.append_untimed s items waiting⟩

/-- With a connection that has died before its handshake, an empty batch fails where no message is, and a batch whose first
message is too large fails for the connection and not for the message. -/
theorem batch_as_each_fails :
    let s : CountedPublisher .v1 := create (RingBuffer.createOrReuse none 1 4 1) .error none
    let items : List (Bytes × View .v1 × Nat) := [([1, 2, 3, 4, 5], Publisher.alone .v1, 0)]
    ¬DoesAsEach Wal.untimed (s.publishMany [] (acceptClients [false]).1) (publishEach 0 [] [false] s) ∧
    ¬DoesAsEach Wal.untimed (s.publishMany (items.map fun x => (x.1, x.2.1)) (acceptClients [false]).1)
      (publishEach 0 (items.map fun x => (x.1, { x.2.1 with ts := x.2.2 })) [false] s) := by
  intro s items
  refine ⟨fun h => ?_, fun h => ?_⟩
  · cases h.2.2
  · cases h.2.2

/-! ### The counters -/

/-- A call, or a round of the flusher between two calls -/
inductive Act (B : LogBackend)
  | publish (data : Bytes) (accepted : Bool) (v : View B)
  | publishMany (items : List (Bytes × View B)) (accepted : Bool)
  | flusher (io : B.Io)

def step (s : CountedPublisher B) : Act B → Option (CountedPublisher B)
  | .publish data accepted v =>
    match s.publish data accepted v with
    | (s, .error .full) => some { s with fullReturned := s.fullReturned + 1 }
    | (s, _) => some s
  | .publishMany items accepted => some (s.publishMany items accepted).1
  | .flusher io => some { s with wal := s.wal.map (B.flusherTick io) }

/-- The loop of a batch comes to a message that is too large or that the log refuses, and has written one before
(`behind`: before this part of the batch already). -/
def RefusedBehind (behind : Prop) : List (Bytes × View B) → CountedPublisher B → Prop
  | [], _ => False
  | (data, v) :: rest, s =>
    if s.ring.slotSize < data.length then behind
    else
      match s.logFirst data v with
      | (_, .error .full) => False
      | (_, .error _) => behind
      | (s, .ok _) =>
        match s.ringWrite data v.atPublish with
        | (s, true) => RefusedBehind True rest s
        | (_, false) => False

/-- The call leaves by no exit that passes a counter over: with a log under `BackpressurePolicy::Error`, `is_full` finds
room for a message of `publish`, and no batch is refused behind its first message. -/
def PassesCounters (s : CountedPublisher B) : Act B → Prop
  | .publish data accepted v => data.length ≤ s.ring.slotSize → accepted = true → s.wal.isSome = true →
      s.backpressure = .error → s.ring.fullAt s.ring.tail v.atCheck = false
  | .publishMany items accepted => accepted = true → ¬RefusedBehind False items s
  | .flusher _ => True

/-- The counters are not ahead. -/
def Behind (s : CountedPublisher B) : Prop := s.publishedTotal ≤ s.written ∧ s.fullRejectedTotal ≤ s.fullReturned

/-- How far they are behind -/
def lag (s : CountedPublisher B) : Nat := (s.written - s.publishedTotal) + (s.fullReturned - s.fullRejectedTotal)

variable {data : Bytes} {v : View B} {s' : CountedPublisher B}

/-- The four counts are as they were. -/
structure SameCounts (s s' : CountedPublisher B) : Prop where
  publishedTotal : s'.publishedTotal = s.publishedTotal
  fullRejectedTotal : s'.fullRejectedTotal = s.fullRejectedTotal
  written : s'.written = s.written
  fullReturned : s'.fullReturned = s.fullReturned

theorem logFirst_counts {r : Except (PublishError B.Err) Unit} (h : s.logFirst data v = (s', r)) : SameCounts s s' ∧
    s'.ring = s.ring ∧ (r = .error .full ↔
      s.wal.isSome = true ∧ s.backpressure = .error ∧ s.ring.fullAt s.ring.tail v.atCheck = true) := by
  unfold logFirst at h
  cases hwal : s.wal with
  | none =>
    rw [hwal] at h
    cases h
    exact ⟨⟨rfl, rfl, rfl, rfl⟩, rfl, by simp⟩
  | some wal =>
    simp only [hwal] at h
    split at h
    · rename_i hfull
      cases h
      exact ⟨⟨rfl, rfl, rfl, rfl⟩, rfl, by simpa using hfull⟩
    · rename_i hroom
      have hno : ¬(True ∧ s.backpressure = .error ∧ s.ring.fullAt s.ring.tail v.atCheck = true) := fun h => hroom h.2
      split at h <;> cases h
      · exact ⟨⟨rfl, rfl, rfl, rfl⟩, rfl, by simpa using hno⟩
      · exact ⟨⟨rfl, rfl, rfl, rfl⟩, rfl, by simpa using hno⟩

theorem ringWrite_counts {cursors : Nat → Nat} {b : Bool} (h : s.ringWrite data cursors = (s', b)) :
    s'.publishedTotal = s.publishedTotal ∧ s'.fullRejectedTotal = s.fullRejectedTotal ∧ s'.fullReturned = s.fullReturned ∧
      s'.written = if b then s.written + 1 else s.written := by
  unfold ringWrite at h
  cases h
  exact ⟨rfl, rfl, rfl, rfl⟩

theorem publishLoop_counts {items : List (Bytes × View B)} {count : Nat} {r : Except (PublishError B.Err) Nat}
    (h : publishLoop count items s = (s', r)) :
    s'.fullRejectedTotal = s.fullRejectedTotal ∧ s'.fullReturned = s.fullReturned ∧
      s'.publishedTotal + s.written ≤ s.publishedTotal + s'.written + count ∧
      (s'.publishedTotal + s.written = s.publishedTotal + s'.written + count ↔ ¬RefusedBehind (0 < count) items s) := by
  induction items generalizing s count with
  | nil =>
    cases h
    refine ⟨rfl, rfl, by simp only; omega, ?_⟩
    simp only [RefusedBehind, not_false_eq_true, iff_true]
    omega
  | cons item items ih =>
    obtain ⟨data, v⟩ := item
    unfold publishLoop at h
    unfold RefusedBehind
    by_cases hlength : s.ring.slotSize < data.length
    · rw [if_pos hlength] at h ⊢
      cases h
      refine ⟨rfl, rfl, by omega, ?_⟩
      omega
    rw [if_neg hlength] at h ⊢
    rcases hlog : s.logFirst data v with ⟨s₁, r₁⟩
    obtain ⟨⟨hp, hrej, hw, hret⟩, -, -⟩ := logFirst_counts hlog
    rw [hlog] at h
    cases r₁ with
    | error e =>
      cases e with
      | full =>
        cases h
        refine ⟨hrej, hret, by simp only [hp, hw]; omega, ?_⟩
        simp only [hp, hw, not_false_eq_true, iff_true]
        omega
      | tooLarge | io | wal =>
        cases h
        refine ⟨hrej, hret, ?_, ?_⟩ <;> rw [hp, hw] <;> omega
    | ok _ =>
      rcases hwrite : s₁.ringWrite data v.atPublish with ⟨s₂, b⟩
      obtain ⟨hp', hrej', hret', hw'⟩ := ringWrite_counts hwrite
      simp only [hwrite] at h ⊢
      cases b with
      | false =>
        cases h
        rw [if_neg nofun] at hw'
        refine ⟨hrej'.trans hrej, hret'.trans hret, by simp only [hp', hw', hp, hw]; omega, ?_⟩
        simp only [hp', hw', hp, hw, not_false_eq_true, iff_true]
        omega
      | true =>
        obtain ⟨hrej'', hret'', hle, hiff⟩ := ih h
        rw [hp', hp, hw', hw, if_pos rfl] at hle hiff
        have htrue : (0 < count + 1) = True := eq_true (Nat.succ_pos count)
        rw [htrue] at hiff
        refine ⟨hrej''.trans (hrej'.trans hrej), hret''.trans (hret'.trans hret), by omega, ?_⟩
        rw [← hiff]
        omega

/-- What a call does to the counters -/
theorem step_lag {a : Act B} (h : Behind s) (hs : step s a = some s') :
    Behind s' ∧ lag s ≤ lag s' ∧ (lag s' = lag s ↔ PassesCounters s a) := by
  obtain ⟨hpublished, hrejected⟩ := h
  cases a with
  | publish data accepted v =>
    simp only [step, publish] at hs
    simp only [PassesCounters]
    by_cases hlength : s.ring.slotSize < data.length
    · rw [if_pos hlength] at hs
      cases hs
      exact ⟨⟨hpublished, hrejected⟩, Nat.le_refl _, fun _ hfits => absurd hlength (Nat.not_lt.2 hfits), fun _ => rfl⟩
    by_cases haccepted : accepted = false
    · rw [if_neg hlength, if_pos haccepted] at hs
      cases hs
      refine ⟨⟨hpublished, hrejected⟩, Nat.le_refl _, fun _ _ htrue => ?_, fun _ => rfl⟩
      rw [haccepted] at htrue
      cases htrue
    rw [if_neg hlength, if_neg haccepted] at hs
    have hpasses : (data.length ≤ s.ring.slotSize → accepted = true → s.wal.isSome = true → s.backpressure = .error →
        s.ring.fullAt s.ring.tail v.atCheck = false) ↔ ¬(s.wal.isSome = true ∧ s.backpressure = .error ∧
          s.ring.fullAt s.ring.tail v.atCheck = true) := by
      simp [Nat.not_lt.1 hlength, Bool.eq_true_of_not_eq_false haccepted]
    rw [hpasses]
    rcases hlog : s.logFirst data v with ⟨s₁, r₁⟩
    obtain ⟨⟨hp, hrej, hw, hret⟩, -, hfull⟩ := logFirst_counts hlog
    rw [hlog] at hs
    unfold Behind lag
    cases r₁ with
    | error e =>
      have hother : e ≠ .full → s₁ = s' := fun hne => by
        cases e with
        | full => exact absurd rfl hne
        | tooLarge | io | wal => exact Option.some.inj hs
      by_cases he : e = .full
      · -- the exit that does not count the rejection
        subst he
        cases hs
        simp only [hp, hrej, hw, hret, not_true_eq_false, hfull.1 rfl, and_self, iff_false]
        omega
      · rw [← hother he, hp, hrej, hw, hret]
        have hno := fun hall => he (Except.error.inj (hfull.2 hall))
        exact ⟨⟨hpublished, hrejected⟩, Nat.le_refl _, fun _ => hno, fun _ => rfl⟩
    | ok _ =>
      have hno : ¬(s.wal.isSome = true ∧ s.backpressure = .error ∧ s.ring.fullAt s.ring.tail v.atCheck = true) :=
        fun hall => nomatch hfull.2 hall
      rcases hwrite : s₁.ringWrite data v.atPublish with ⟨s₂, b⟩
      obtain ⟨hp', hrej', hret', hw'⟩ := ringWrite_counts hwrite
      simp only [hwrite] at hs
      cases b with
      | true | false =>
        cases hs
        simp only [hp', hrej', hret', hw', hp, hrej, hw, hret, if_true, Bool.false_eq_true, if_false]
        exact ⟨by omega, by omega, fun _ => hno, fun _ => by omega⟩
  | publishMany items accepted =>
    simp only [step, publishMany, Option.some.injEq] at hs
    simp only [PassesCounters]
    by_cases haccepted : accepted = false
    · rw [if_pos haccepted] at hs
      cases hs
      refine ⟨⟨hpublished, hrejected⟩, Nat.le_refl _, fun _ htrue => ?_, fun _ => rfl⟩
      rw [haccepted] at htrue
      cases htrue
    rw [if_neg haccepted] at hs
    rcases hloop : publishLoop 0 items s with ⟨s₁, r⟩
    obtain ⟨hrej, hret, hle, hiff⟩ := publishLoop_counts hloop
    rw [hloop] at hs
    cases hs
    have hpasses : (accepted = true → ¬RefusedBehind False items s) ↔ ¬RefusedBehind (0 < 0) items s := by
      simp [Bool.eq_true_of_not_eq_false haccepted]
    rw [hpasses, ← hiff]
    simp only [Behind, lag, hrej, hret]
    omega
  | flusher io =>
    cases hs
    exact ⟨⟨hpublished, hrejected⟩, Nat.le_refl _, fun _ => trivial, fun _ => rfl⟩

/-- The counters are exact after a run if and only if no call of it has passed them over. -/
theorem counters_exact_iff {r : RingBuffer} {backpressure : BackpressurePolicy} {wal : Option B.State}
    {acts : List (Act B)} (hr : run step (create r backpressure wal) acts = some s) :
    s.publishedTotal = s.written ∧ s.fullRejectedTotal = s.fullReturned ↔
      Meets step PassesCounters (create r backpressure wal) acts := by
  have hinit : Behind (create r backpressure wal) := ⟨Nat.le_refl _, Nat.le_refl _⟩
  rw [← (run_kept_iff Behind lag PassesCounters (fun _ _ _ => step_lag) hinit hr).2]
  have hbehind : Behind s := run_invariant Behind (fun _ _ _ h hs => (step_lag h hs).1) hinit hr
  unfold Behind at hbehind
  simp only [lag, create]
  omega

/-- A new publisher with one position, `BackpressurePolicy::Error` and a log -/
def logged : CountedPublisher .v1 :=
  create (RingBuffer.createOrReuse none 1 4 1) .error (some (Wal.ofDir Publisher.smallCfg .empty 0))

/-- A batch whose second message finds the ring full, and a `publish` that finds it full only after the append -/
def filled : List (Act .v1) :=
  [.publishMany [([1], Publisher.alone .v1), ([2], { Publisher.alone .v1 with atCheck := fun _ => 0 })] true,
    .publish [2] true { Publisher.alone .v1 with atPublish := fun _ => 0 }]

theorem counters_exact_filled : ∃ s, run step logged filled = some s ∧ s.publishedTotal = 1 ∧ s.fullRejectedTotal = 1 ∧
    (s.publishedTotal = s.written ∧ s.fullRejectedTotal = s.fullReturned ↔ Meets step PassesCounters logged filled) := by
  obtain ⟨s, hr, hs⟩ := Option.map_eq_some_iff.1 (show (run step logged filled).map
    (fun s => (s.publishedTotal, s.fullRejectedTotal)) = some (1, 1) by decide)
  obtain ⟨hpublished, hrejected⟩ := Prod.mk.inj hs
  exact ⟨s, hr, hpublished, hrejected, counters_exact_iff hr⟩

/-- A batch whose second message is too large leaves its first message uncounted; a `publish` that `is_full` rejects before
the append is not counted as rejected. -/
theorem counters_exact_fails :
    (∃ s : CountedPublisher .v1, run step (create (RingBuffer.createOrReuse none 1 4 1) .dropOldest none)
      [.publishMany [([1], Publisher.alone .v1), ([1, 2, 3, 4, 5], Publisher.alone .v1)] true] = some s ∧
        s.publishedTotal ≠ s.written) ∧
    ∃ s : CountedPublisher .v1,
      run step (create (RingBuffer.createOrReuse none 1 4 1) .error (some (Wal.ofDir Publisher.smallCfg .empty 0)))
        [.publish [1] true (Publisher.alone .v1), .publish [2] true { Publisher.alone .v1 with atCheck := fun _ => 0 }] =
          some s ∧ s.fullRejectedTotal ≠ s.fullReturned := by
  refine ⟨?_, ?_⟩
  · obtain ⟨s, hr, hs⟩ := Option.map_eq_some_iff.1 (show (run step
      (create (B := .v1) (RingBuffer.createOrReuse none 1 4 1) .dropOldest none)
      [.publishMany [([1], Publisher.alone .v1), ([1, 2, 3, 4, 5], Publisher.alone .v1)] true]).map
        (fun s => (s.publishedTotal, s.written)) = some (0, 1) by decide)
    obtain ⟨hpublished, hwritten⟩ := Prod.mk.inj hs
    exact ⟨s, hr, by rw [hpublished, hwritten]; exact nofun⟩
  · obtain ⟨s, hr, hs⟩ := Option.map_eq_some_iff.1 (show (run step
      (create (B := .v1) (RingBuffer.createOrReuse none 1 4 1) .error (some (Wal.ofDir Publisher.smallCfg .empty 0)))
      [.publish [1] true (Publisher.alone .v1), .publish [2] true { Publisher.alone .v1 with atCheck := fun _ => 0 }]).map
        (fun s => (s.fullRejectedTotal, s.fullReturned)) = some (0, 1) by decide)
    obtain ⟨hrejected, hreturned⟩ := Prod.mk.inj hs
    exact ⟨s, hr, by rw [hrejected, hreturned]; exact nofun⟩

end CountedPublisher

end Mmbus
