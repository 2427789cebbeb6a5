import Mmbus.Lib.Transition
import Mmbus.WalV2

/-!
# The ring and the log

`publish` and `publish_many` with a log: the record is appended at the ring's tail before the ring is written, and under
`BackpressurePolicy::Error` the fullness of the ring is looked at before the append (`is_full`) and again by
`try_publish`.  The calls are functions of the publisher's state and of what they see of the world on their way: the
cursor table at either look, and the answers of the system calls.  The two logs are two instances of `LogBackend`.

`Publisher.stays_coherent`: ring and log agree after every call, unless the second look finds the ring full and the first
did not, or a fault leaves a record without its publish or a segment file without its writer.
-/

namespace Mmbus

open Attempt Transition

/-! ### The logs a publisher can have -/

structure LogBackend where
  State : Type
  Io : Type
  Err : Type
  append : (cursor ts : Nat) → Bytes → Io → Attempt Err State
  pendingCursor : State → Nat
  history : State → List Record
  flusherTick : Io → State → State
  /-- No system call fails. -/
  ok : Io

namespace LogBackend

def v1 : LogBackend where
  State := Wal
  Io := WalIo
  Err := WalError
  append := Wal.append
  pendingCursor := Wal.pendingCursor
  history := Wal.history
  flusherTick := Wal.flusherTick
  ok := .ok

def v2 : LogBackend where
  State := V2.Wal
  Io := V2.WalIo
  Err := V2.WalError
  append := V2.Wal.append
  pendingCursor := V2.Wal.pendingCursor
  history := V2.Wal.history
  flusherTick := V2.Wal.flusherTick
  ok := .ok

variable (B : LogBackend)

/-- What a log shows, given what it means that it takes records -/
def asLog (Ready : B.State → Prop) : AppendLog B.State Record := ⟨Ready, B.pendingCursor, B.history⟩

/-- A log that takes payloads of up to `slotSize` bytes, whose appends survive the faults of `harmless` and whose
flusher survives those of `survives` -/
structure Lawful (slotSize : Nat) (Ready : B.State → Prop) (harmless survives : B.Io → Prop) : Prop where
  ok_harmless : harmless B.ok
  append_ends : ∀ w ts payload io, Ready w → payload.length ≤ slotSize → harmless io →
    Ends (B.append (B.pendingCursor w) ts payload io) w
      ((B.asLog Ready).Adds ⟨B.pendingCursor w, ts, payload⟩ w) ((B.asLog Ready).Kept (io ≠ B.ok) w)
  tick : ∀ w io, Ready w → survives io → (B.asLog Ready).Same w (B.flusherTick io w)

end LogBackend

/-! ### The publisher -/

/-- The ring would be full at `tail` with the cursor table `cursors`. -/
def RingBuffer.fullAt (r : RingBuffer) (tail : Nat) (cursors : Nat → Nat) : Bool :=
  { r with tail := tail, cursors := cursors }.isFull

/-- What the publication of one message sees of the world: the cursor table at `is_full` and at `try_publish`, the time,
and the answers of the system calls. -/
structure View (B : LogBackend) where
  atCheck : Nat → Nat
  atPublish : Nat → Nat
  ts : Nat
  io : B.Io

inductive PublishError (ε : Type)
  | tooLarge (size max : Nat)
  | io
  | full
  | wal (e : ε)

structure Publisher (B : LogBackend) where
  ring : RingBuffer
  backpressure : BackpressurePolicy
  wal : B.State
  /-- The payloads published so far (no process reads this) -/
  published : List Bytes

namespace Publisher

variable {B : LogBackend}

/-- The publisher that has just taken over the ring `r` and opened its log: the tail is moved up to the log's next
cursor. -/
def create (r : RingBuffer) (backpressure : BackpressurePolicy) (wal : B.State) : Publisher B where
  ring := if r.tail < B.pendingCursor wal then r.setTail (B.pendingCursor wal) else r
  backpressure := backpressure
  wal := wal
  published := []

/-- The ring's publish, on the cursor table it sees -/
def ringWrite (data : Bytes) (cursors : Nat → Nat) (s : Publisher B) : RingBuffer × Bool :=
  match s.backpressure with
  | .error => { s.ring with cursors := cursors }.tryPublish data
  | .dropOldest => { s.ring with cursors := cursors }.publishDropOldest data

def ringPublish (data : Bytes) (v : View B) : Attempt (PublishError B.Err) (Publisher B) := fun s =>
  match s.ringWrite data v.atPublish with
  | (ring, true) => ({ s with ring := ring, published := s.published ++ [data] }, .ok ())
  | (ring, false) => ({ s with ring := ring }, .error .full)

/-- The append of the record at the ring's tail -/
def logAppend (data : Bytes) (v : View B) : Attempt (PublishError B.Err) (Publisher B) := fun s =>
  match B.append s.ring.tail v.ts data v.io s.wal with
  | (wal, .ok _) => ({ s with wal := wal }, .ok ())
  | (wal, .error e) => ({ s with wal := wal }, .error (.wal e))

/-- One message, after its size has been checked -/
def publishOne (data : Bytes) (v : View B) : Attempt (PublishError B.Err) (Publisher B) := fun s =>
  if s.backpressure = .error ∧ s.ring.fullAt s.ring.tail v.atCheck then (s, .error .full)
  else (logAppend data v).andThen (ringPublish data v) s

/-- `publish`; `accepted` tells how `accept_clients` ends. -/
def publish (data : Bytes) (accepted : Bool) (v : View B) : Attempt (PublishError B.Err) (Publisher B) := fun s =>
  if s.ring.slotSize < data.length then (s, .error (.tooLarge data.length s.ring.slotSize))
  else if accepted then publishOne data v s
  else (s, .error .io)

/-- The loop of `publish_many` after `count` messages -/
def publishLoop (count : Nat) :
    List (Bytes × View B) → Publisher B → Publisher B × Except (PublishError B.Err) Nat
  | [], s => (s, .ok count)
  | (data, v) :: rest, s =>
    if s.ring.slotSize < data.length then (s, .error (.tooLarge data.length s.ring.slotSize))
    else
      match publishOne data v s with
      | (s, .ok _) => publishLoop (count + 1) rest s
      | (s, .error .full) => (s, .ok count)
      | (s, .error e) => (s, .error e)

def publishMany (items : List (Bytes × View B)) (accepted : Bool) (s : Publisher B) :
    Publisher B × Except (PublishError B.Err) Nat :=
  if accepted then publishLoop 0 items s else (s, .error .io)

/-- A call, or a round of the flusher between two calls -/
inductive Act (B : LogBackend)
  | publish (data : Bytes) (accepted : Bool) (v : View B)
  | publishMany (items : List (Bytes × View B)) (accepted : Bool)
  | flusher (io : B.Io)

def step (s : Publisher B) : Act B → Option (Publisher B)
  | .publish data accepted v => some (publish data accepted v s).1
  | .publishMany items accepted => some (publishMany items accepted s).1
  | .flusher io => some { s with wal := B.flusherTick io s.wal }

/-! ### The agreement -/

/-- Ring and log agree: `base` is the tail at which the publisher began, `before` what the log held then. -/
structure Coherent (base : Nat) (before : List Record) (s : Publisher B) : Prop where
  tail_eq : s.ring.tail = B.pendingCursor s.wal
  tail_count : s.ring.tail = base + s.published.length
  one_record_each : ∃ records, B.history s.wal = before ++ records ∧
    records.map (fun r => (r.payload, r.cursor)) = s.published.zipIdx base
  publish_succeeds : ∀ data v, data.length ≤ s.ring.slotSize → s.ring.fullAt s.ring.tail v.atCheck = false →
    s.ring.fullAt s.ring.tail v.atPublish = false → v.io = B.ok → ∃ s', publish data true v s = (s', .ok ())

/-- The publication of a message `k` positions ahead of the tail survives what it sees: if the first look finds room,
the second one does, and no system call fails but in a harmless way. -/
def CalmAt (harmless : B.Io → Prop) (s : Publisher B) (k : Nat) (v : View B) : Prop :=
  harmless v.io ∧ (s.backpressure = .error → s.ring.fullAt (s.ring.tail + k) v.atCheck = false →
    s.ring.fullAt (s.ring.tail + k) v.atPublish = false)

/-- The call survives what it sees. -/
def Calm (harmless survives : B.Io → Prop) (s : Publisher B) : Act B → Prop
  | .publish _ _ v => s.CalmAt harmless 0 v
  | .publishMany items _ => ∀ k item, items[k]? = some item → s.CalmAt harmless k item.2
  | .flusher io => survives io

/-- The part of the agreement that a call works with -/
structure Inv (Ready : B.State → Prop) (slotSize base : Nat) (before : List Record) (s : Publisher B) : Prop where
  ready : Ready s.wal
  slot_size : s.ring.slotSize = slotSize
  tail_eq : s.ring.tail = B.pendingCursor s.wal
  tail_count : s.ring.tail = base + s.published.length
  one_record_each : ∃ records, B.history s.wal = before ++ records ∧
    records.map (fun r => (r.payload, r.cursor)) = s.published.zipIdx base

/-- One message further, on a ring of the same shape -/
structure Next (s s' : Publisher B) : Prop where
  tail : s'.ring.tail = s.ring.tail + 1
  cap : s'.ring.cap = s.ring.cap
  maxSubs : s'.ring.maxSubs = s.ring.maxSubs
  slotSize : s'.ring.slotSize = s.ring.slotSize
  backpressure : s'.backpressure = s.backpressure

variable {Ready : B.State → Prop} {harmless survives : B.Io → Prop} {slotSize base : Nat} {before : List Record}
  {s s' : Publisher B} {data : Bytes} {v : View B}

/-- Fullness depends on the shape of the ring only, given the tail and the table. -/
theorem fullAt_congr {r r' : RingBuffer} (hcap : r'.cap = r.cap) (hmax : r'.maxSubs = r.maxSubs) (tail : Nat)
    (cursors : Nat → Nat) : r'.fullAt tail cursors = r.fullAt tail cursors := by
  have hcap' : r'.capacity = r.capacity := UInt32.toNat_inj.1 hcap
  have hmax' : r'.maxSubscribers = r.maxSubscribers := UInt32.toNat_inj.1 hmax
  cases r
  cases hcap'
  cases hmax'
  rfl

theorem Next.calmAt (h : Next s s') {k : Nat} : s'.CalmAt harmless k v ↔ s.CalmAt harmless (k + 1) v := by
  have htail : s'.ring.tail + k = s.ring.tail + (k + 1) := by rw [h.tail]; omega
  simp only [CalmAt, htail, h.backpressure, fullAt_congr h.cap h.maxSubs]

theorem logAppend_ends (hB : B.Lawful slotSize Ready harmless survives) (h : Inv Ready slotSize base before s)
    (hdata : data.length ≤ slotSize) (hio : harmless v.io) : Ends (logAppend data v) s
      (fun s' => ∃ wal, s' = { s with wal := wal } ∧ (B.asLog Ready).Adds ⟨s.ring.tail, v.ts, data⟩ s.wal wal)
      (fun s' => v.io ≠ B.ok ∧ Inv Ready slotSize base before s') := by
  have happend := hB.append_ends s.wal v.ts data v.io h.ready hdata hio
  rw [← h.tail_eq] at happend
  rcases happend.cases with ⟨wal, heq, hadds⟩ | ⟨wal, e, heq, hkept⟩
  · simp only [Ends, logAppend, heq]
    exact ⟨wal, rfl, hadds⟩
  · obtain ⟨hfault, hready, hnext, hentries⟩ := hkept
    simp only [Ends, logAppend, heq]
    obtain ⟨records, hrecords, hmap⟩ := h.one_record_each
    exact ⟨hfault, hready, h.slot_size, h.tail_eq.trans hnext.symm, h.tail_count, records, hentries.trans hrecords, hmap⟩

/-- The ring takes the message if the second look finds room. -/
theorem ringPublish_ok (data : Bytes) (hroom : s.backpressure = .error → s.ring.fullAt s.ring.tail v.atPublish = false) :
    ∃ s', ringPublish data v s = (s', .ok ()) ∧ Next s s' ∧ s'.wal = s.wal ∧ s'.published = s.published ++ [data] := by
  obtain ⟨r', hwrite, htail, hcap, hmax, hslot⟩ : ∃ r', s.ringWrite data v.atPublish = (r', true) ∧
      r'.tail = s.ring.tail + 1 ∧ r'.cap = s.ring.cap ∧ r'.maxSubs = s.ring.maxSubs ∧
      r'.slotSize = s.ring.slotSize := by
    refine ⟨({ s.ring with cursors := v.atPublish }.writeSlot s.ring.tail data).setTail (s.ring.tail + 1), ?_, rfl, rfl,
      rfl, rfl⟩
    cases hbp : s.backpressure with
    | error =>
      have hfull : ({ s.ring with cursors := v.atPublish } : RingBuffer).isFull = false := hroom hbp
      simp [ringWrite, hbp, RingBuffer.tryPublish, hfull]
    | dropOldest => simp only [ringWrite, hbp, RingBuffer.publishDropOldest]
  refine ⟨{ s with ring := r', published := s.published ++ [data] }, ?_, ⟨htail, hcap, hmax, hslot, rfl⟩, rfl, rfl⟩
  simp only [ringPublish, hwrite]

/-- One message: it is in the ring and in the log, or in neither. -/
theorem publishOne_ends (hB : B.Lawful slotSize Ready harmless survives) (h : Inv Ready slotSize base before s)
    (hdata : data.length ≤ slotSize) (hcalm : s.CalmAt harmless 0 v) : Ends (publishOne data v) s
      (fun s' => Inv Ready slotSize base before s' ∧ Next s s')
      (fun s' => Inv Ready slotSize base before s' ∧ (s.ring.fullAt s.ring.tail v.atCheck = true ∨ v.io ≠ B.ok)) := by
  by_cases hfull : s.backpressure = .error ∧ s.ring.fullAt s.ring.tail v.atCheck = true
  · simp only [Ends, publishOne, if_pos hfull]
    exact ⟨h, .inl hfull.2⟩
  · have hroom : s.backpressure = .error → s.ring.fullAt s.ring.tail v.atPublish = false := fun hbp =>
      hcalm.2 hbp (by simpa [hbp] using hfull)
    have hboth : Ends ((logAppend data v).andThen (ringPublish data v)) s
        (fun s' => Inv Ready slotSize base before s' ∧ Next s s') (fun s' => v.io ≠ B.ok ∧ Inv Ready slotSize base before s') := by
      refine (logAppend_ends hB h hdata hcalm.1).andThen fun s₁ hs₁ => ?_
      obtain ⟨wal, rfl, hready, hpending, hhistory⟩ := hs₁
      obtain ⟨s', heq, hnext, hwal, hpublished⟩ := ringPublish_ok (s := { s with wal := wal }) data hroom
      obtain ⟨records, hrecords, hmap⟩ := h.one_record_each
      simp only [Ends, heq]
      refine ⟨⟨hwal ▸ hready, hnext.slotSize.trans h.slot_size, ?_, ?_, records ++ [⟨s.ring.tail, v.ts, data⟩], ?_, ?_⟩, ?_⟩
      · rw [hnext.tail, hwal]
        exact (congrArg (· + 1) h.tail_eq).trans hpending.symm
      · rw [hnext.tail, hpublished]
        simp only [List.length_append, List.length_singleton]
        have := h.tail_count
        omega
      · rw [hwal, ← List.append_assoc, ← hrecords]
        exact hhistory
      · rw [hpublished, List.map_append, hmap, List.zipIdx_append, ← h.tail_count]
        rfl
      · exact ⟨hnext.tail, hnext.cap, hnext.maxSubs, hnext.slotSize, hnext.backpressure⟩
    simp only [publishOne, Ends, if_neg hfull]
    exact hboth.mono (fun _ h => h) (fun _ h => ⟨h.2, .inr h.1⟩)

theorem Inv.publishLoop (hB : B.Lawful slotSize Ready harmless survives) {items : List (Bytes × View B)} {count : Nat}
    (h : Inv Ready slotSize base before s)
    (hcalm : ∀ k item, items[k]? = some item → s.CalmAt harmless k item.2) :
    Inv Ready slotSize base before (publishLoop count items s).1 := by
  induction items generalizing s count with
  | nil => exact h
  | cons item items ih =>
    obtain ⟨data, v⟩ := item
    unfold Publisher.publishLoop
    split
    · exact h
    · rename_i hdata
      have hdata' : data.length ≤ slotSize := h.slot_size ▸ not_lt.1 hdata
      have hone := publishOne_ends hB h hdata' (hcalm 0 (data, v) rfl)
      rcases hone.cases with ⟨s', heq, hinv, hnext⟩ | ⟨s', e, heq, hinv, -⟩
      · simp only [heq]
        refine ih hinv fun k item hk => hnext.calmAt.2 (hcalm (k + 1) item ?_)
        simpa using hk
      · simp only [heq]
        cases e <;> exact hinv

theorem Inv.step {a : Act B} (hB : B.Lawful slotSize Ready harmless survives) (h : Inv Ready slotSize base before s)
    (hcalm : s.Calm harmless survives a) (hs : s.step a = some s') : Inv Ready slotSize base before s' := by
  cases a with
  | publish data accepted v =>
    cases hs
    unfold publish
    split
    · exact h
    · rename_i hdata
      split
      · rcases (publishOne_ends hB h (h.slot_size ▸ not_lt.1 hdata) hcalm).cases with
          ⟨s', heq, hinv, -⟩ | ⟨s', e, heq, hinv, -⟩ <;>
        · rw [heq]
          exact hinv
      · exact h
  | publishMany items accepted =>
    cases hs
    unfold publishMany
    split
    · exact h.publishLoop hB hcalm
    · exact h
  | flusher io =>
    cases hs
    obtain ⟨hready, hnext, hentries⟩ := hB.tick s.wal io h.ready hcalm
    obtain ⟨records, hrecords, hmap⟩ := h.one_record_each
    exact ⟨hready, h.slot_size, h.tail_eq.trans hnext.symm, h.tail_count, records, hentries.trans hrecords, hmap⟩

theorem Inv.coherent (hB : B.Lawful slotSize Ready harmless survives) (h : Inv Ready slotSize base before s) :
    Coherent base before s where
  tail_eq := h.tail_eq
  tail_count := h.tail_count
  one_record_each := h.one_record_each
  publish_succeeds data v hdata hcheck hpublish hio := by
    have hcalm : s.CalmAt harmless 0 v := ⟨hio ▸ hB.ok_harmless, fun _ _ => hpublish⟩
    rcases (publishOne_ends hB h (h.slot_size ▸ hdata) hcalm).cases with ⟨s', heq, -⟩ | ⟨s', e, heq, -, hfull | hfault⟩
    · refine ⟨s', ?_⟩
      rw [publish, if_neg (not_lt.2 hdata), if_pos rfl, heq]
    · rw [hcheck] at hfull
      cases hfull
    · exact absurd hio hfault

/-- Ring and log stay in agreement along a run of calm calls. -/
theorem coherent_of_calm (hB : B.Lawful slotSize Ready harmless survives) {r : RingBuffer}
    {backpressure : BackpressurePolicy} {wal : B.State} {acts : List (Act B)} (hslot : r.slotSize = slotSize)
    (htail : r.tail ≤ B.pendingCursor wal) (hready : Ready wal)
    (hcalm : Meets step (Calm harmless survives) (create r backpressure wal) acts)
    (hr : run step (create r backpressure wal) acts = some s) :
    Coherent (B.pendingCursor wal) (B.history wal) s := by
  have htail' : (create r backpressure wal).ring.tail = B.pendingCursor wal := by
    unfold create
    split
    · rfl
    · exact le_antisymm htail (not_lt.1 ‹_›)
  have hslot' : (create r backpressure wal).ring.slotSize = slotSize := by
    unfold create
    split <;> exact hslot
  have hinit : Inv Ready slotSize (B.pendingCursor wal) (B.history wal) (create r backpressure wal) :=
    ⟨hready, hslot', htail', htail', [], by simp [create], rfl⟩
  exact (run_invariant_when (Inv Ready slotSize _ _) (Calm harmless survives) (fun _ _ _ h hc hs => h.step hB hc hs) hcalm
    hinit hr).coherent hB

end Publisher

/-! ### The two logs -/

namespace LogBackend

theorem v1_lawful {cfg : WalConfig} {slotSize : Nat} (hfits : cfg.Fits slotSize) :
    v1.Lawful slotSize (Wal.Ready cfg) (Wal.Harmless cfg) Wal.FlusherSurvives where
  ok_harmless := .ok cfg
  append_ends _ _ _ _ hready hlen hio := Wal.append_ends hready hfits hlen hio
  tick _ _ hready hio := Wal.Ready.flusherTick hready hio

theorem v2_lawful {cfg : WalConfig} {slotSize : Nat} (hfits : V2.Wal.Fits cfg slotSize) :
    v2.Lawful slotSize (V2.Wal.Ready cfg) (V2.Wal.Harmless cfg) V2.Wal.FlusherSurvives where
  ok_harmless := .ok cfg
  append_ends _ _ _ _ hready hlen hio := V2.Wal.append_ends hready hfits hlen hio
  tick _ _ hready hio := V2.Wal.Ready.flusherTick hready hio

end LogBackend

namespace Publisher

/-- Ring and log agree after every call of a publisher with either log, as long as its calls and its flusher survive what
they see. -/
theorem stays_coherent {existing : Option RingBuffer} {capacity slotPayloadSize maxSubscribers : UInt32}
    {backpressure : BackpressurePolicy} {cfg : WalConfig} (hcfg : cfg.enabled = true) :
    (cfg.Fits slotPayloadSize.toNat → ∀ (dir : WalDir) (w : Wal) (acts : List (Act .v1)) (s : Publisher .v1),
      Wal.open cfg dir = .ok w → Wal.NewestHolds dir →
      Meets step (Calm (Wal.Harmless cfg) Wal.FlusherSurvives)
        (create (RingBuffer.createOrReuse existing capacity slotPayloadSize maxSubscribers) backpressure w) acts →
      run step (create (RingBuffer.createOrReuse existing capacity slotPayloadSize maxSubscribers) backpressure w) acts =
        some s → Coherent w.pendingCursor w.history s) ∧
    (V2.Wal.Fits cfg slotPayloadSize.toNat →
      ∀ (dir : V2.WalDir) (active : Nat) (w : V2.Wal) (acts : List (Act .v2)) (s : Publisher .v2),
      V2.Wal.open cfg dir active = .ok w → V2.Wal.NewestHolds dir →
      Meets step (Calm (V2.Wal.Harmless cfg) V2.Wal.FlusherSurvives)
        (create (RingBuffer.createOrReuse existing capacity slotPayloadSize maxSubscribers) backpressure w) acts →
      run step (create (RingBuffer.createOrReuse existing capacity slotPayloadSize maxSubscribers) backpressure w) acts =
        some s → Coherent w.pendingCursor w.history s) := by
  obtain ⟨htail, -, hslot⟩ := RingBuffer.createOrReuse_shape existing capacity slotPayloadSize maxSubscribers
  refine ⟨fun hfits dir w acts s hopen hdir hcalm hr => ?_, fun hfits dir active w acts s hopen hdir hcalm hr => ?_⟩
  · exact coherent_of_calm (LogBackend.v1_lawful hfits) hslot (htail ▸ Nat.zero_le _)
      (Wal.open_ready hopen hcfg hdir) hcalm hr
  · exact coherent_of_calm (LogBackend.v2_lawful hfits) hslot (htail ▸ Nat.zero_le _)
      (V2.Wal.open_ready hopen hcfg hfits hdir) hcalm hr

/-! ### Runs of a small topic -/

/-- A log with small segments -/
def smallCfg : WalConfig := ⟨true, .batched, 1024, 4096⟩

/-- A new topic with one position, slots of four bytes and one cursor entry -/
def fresh (wal : B.State) : Publisher B := create (RingBuffer.createOrReuse none 1 4 1) .error wal

/-- No subscriber at either look, and no system call fails. -/
def alone (B : LogBackend) : View B := ⟨fun _ => CURSOR_UNCLAIMED, fun _ => CURSOR_UNCLAIMED, 0, B.ok⟩

theorem stays_coherent_oneMessage :
    (∃ s : Publisher .v1, run step (fresh (Wal.ofDir smallCfg .empty 0)) [.publish [7] true (alone .v1)] = some s ∧
      s.published = [[7]] ∧ Coherent 0 [] s) ∧
    ∃ s : Publisher .v2, run step (fresh (V2.Wal.ofDir smallCfg .empty 0 0)) [.publish [7] true (alone .v2)] = some s ∧
      s.published = [[7]] ∧ Coherent 0 [] s := by
  have h := @stays_coherent none 1 4 1 .error smallCfg rfl
  refine ⟨?_, ?_⟩
  · obtain ⟨s, hr, hs⟩ := Option.map_eq_some_iff.1 (show (run step (fresh (Wal.ofDir smallCfg .empty 0))
      [.publish [7] true (alone .v1)]).map Publisher.published = some [[7]] by decide)
    have hcalm : Meets step (Calm (Wal.Harmless smallCfg) Wal.FlusherSurvives) (fresh (Wal.ofDir smallCfg .empty 0))
      [.publish [7] true (alone .v1)] := ⟨⟨.ok _, fun _ _ => rfl⟩, fun _ _ => trivial⟩
    exact ⟨s, hr, hs, h.1 ⟨by decide, by decide⟩ .empty _ _ s rfl nofun hcalm hr⟩
  · obtain ⟨s, hr, hs⟩ := Option.map_eq_some_iff.1 (show (run step (fresh (V2.Wal.ofDir smallCfg .empty 0 0))
      [.publish [7] true (alone .v2)]).map Publisher.published = some [[7]] by decide)
    have hcalm : Meets step (Calm (V2.Wal.Harmless smallCfg) V2.Wal.FlusherSurvives)
      (fresh (V2.Wal.ofDir smallCfg .empty 0 0)) [.publish [7] true (alone .v2)] :=
      ⟨⟨.ok _, fun _ _ => rfl⟩, fun _ _ => trivial⟩
    exact ⟨s, hr, hs, h.2 ⟨by decide, by decide⟩ .empty 0 _ _ s rfl nofun hcalm hr⟩

/-- Between the two looks of the second call a subscriber has moved its cursor back to the first message: `is_full` finds
room, the record is appended, and `try_publish` finds the ring full. -/
def secondLookFull : List (Act .v1) :=
  [.publish [1] true (alone .v1), .publish [2] true { alone .v1 with atCheck := fun _ => 1, atPublish := fun _ => 0 }]

theorem stays_coherent_fails : ∃ s : Publisher .v1, Wal.open smallCfg .empty = .ok (Wal.ofDir smallCfg .empty 0) ∧
    run step (fresh (Wal.ofDir smallCfg .empty 0)) secondLookFull = some s ∧ ¬Coherent 0 [] s := by
  obtain ⟨s, hr, hs⟩ := Option.map_eq_some_iff.1 (show (run step (fresh (Wal.ofDir smallCfg .empty 0))
    secondLookFull).map (fun s => (s.ring.tail, LogBackend.v1.pendingCursor s.wal)) = some (1, 2) by decide)
  obtain ⟨htail, hpending⟩ := Prod.mk.inj hs
  refine ⟨s, rfl, hr, fun h => ?_⟩
  have heq := h.tail_eq
  rw [htail, hpending] at heq
  cases heq

end Publisher

end Mmbus
