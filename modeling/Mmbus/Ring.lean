import Mmbus.Lib.FlagBit
import Mathlib.Logic.Function.Basic
import Mathlib.Data.List.Basic

/-!
# The ring buffer in the memory-mapped file

The header (shape, generation, tail), the cursor table, the wakeup-flag table and the slots of `ring.mmap`, with
the operations of `RingBuffer` as functions on the whole ring.  A position is the value of `tail` at which a
message is published; the message of the position `p` lives in the slot `p % capacity`.

The functions here are the operations run without interference.  `Publish` and `Receive` split the operations
that touch the slots into their atomic accesses.
-/

namespace Mmbus

open FlagBit Function

/-- A payload -/
abbrev Bytes := List UInt8

/-- Entry of the cursor table that no subscriber holds (`u64::MAX`) -/
def CURSOR_UNCLAIMED : Nat := 2 ^ 64 - 1

/-- Wakeup flag of a subscriber that is about to sleep -/
def WAKEFLAG_WAITING : Nat := 1

/-- The bit of `seq` that marks a slot being written (`SEQ_WRITING_BIT = 1 << 63`).  The ring relies on positions
staying below it. -/
def SEQ_WRITING : Nat := 63

inductive BackpressurePolicy
  | error
  | dropOldest
  deriving DecidableEq

/-- One slot: `[u64 seq][u32 len][payload]` -/
structure Slot where
  seq : Nat
  len : Nat
  payload : Nat → UInt8

/-- The slot of a zero-filled file -/
def Slot.zero : Slot := ⟨0, 0, fun _ => 0⟩

/-- The first `len` bytes of the payload area -/
def Slot.read (s : Slot) : Bytes := (List.range s.len).map s.payload

/-- The slot is committed for the position `p` with the payload `data`. -/
def Slot.Holds (s : Slot) (p : Nat) (data : Bytes) : Prop :=
  s.seq = p ∧ s.len = data.length ∧ ∀ k, k < data.length → data[k]? = some (s.payload k)

structure RingBuffer where
  capacity : UInt32
  slotPayloadSize : UInt32
  maxSubscribers : UInt32
  generation : Nat
  tail : Nat
  cursors : Nat → Nat
  wakeflags : Nat → Nat
  slots : Nat → Slot

namespace RingBuffer

variable (r : RingBuffer)

/-- The slot count, as an index bound -/
def cap : Nat := r.capacity.toNat

/-- `slot_payload_size as usize` -/
def slotSize : Nat := r.slotPayloadSize.toNat

/-- `max_subscribers as usize` -/
def maxSubs : Nat := r.maxSubscribers.toNat

theorem slotSize_lt : r.slotSize < 2 ^ 32 := r.slotPayloadSize.toNat_lt

/-- The slot of the position `p` -/
def slot (p : Nat) : Slot := r.slots (p % r.cap)

/-! ### Stores -/

def setTail (value : Nat) : RingBuffer := { r with tail := value }

def setCursor (idx value : Nat) : RingBuffer := { r with cursors := update r.cursors idx value }

def releaseCursor (idx : Nat) : RingBuffer := r.setCursor idx CURSOR_UNCLAIMED

def setFlagWord (idx value : Nat) : RingBuffer := { r with wakeflags := update r.wakeflags idx value }

def setWakeflag (idx : Nat) : RingBuffer := r.setFlagWord idx WAKEFLAG_WAITING

def clearWakeflag (idx : Nat) : RingBuffer := r.setFlagWord idx 0

/-- `take_wakeflag`: swap the flag to zero; the value tells whether it was set. -/
def takeWakeflag (idx : Nat) : RingBuffer × Bool :=
  (r.setFlagWord idx 0, r.wakeflags idx == WAKEFLAG_WAITING)

def cursorIsUnclaimed (idx : Nat) : Bool := r.cursors idx == CURSOR_UNCLAIMED

/-- Replace the slot of the position `p`. -/
def setSlot (p : Nat) (s : Slot) : RingBuffer := { r with slots := update r.slots (p % r.cap) s }

/-! ### Creation -/

/-- `RingBuffer::create`: a zero-filled file with generation 1 and every cursor unclaimed. -/
def create (capacity slotPayloadSize maxSubscribers : UInt32) : RingBuffer where
  capacity := capacity
  slotPayloadSize := slotPayloadSize
  maxSubscribers := maxSubscribers
  generation := 1
  tail := 0
  cursors := fun _ => CURSOR_UNCLAIMED
  wakeflags := fun _ => 0
  slots := fun _ => Slot.zero

/-- `RingBuffer::create_or_reuse`: a compatible ring is kept with its cursors and slots, its generation is bumped
and its tail reset; anything else is replaced by a fresh ring. -/
def createOrReuse (existing : Option RingBuffer) (capacity slotPayloadSize maxSubscribers : UInt32) :
    RingBuffer :=
  match existing with
  | some r =>
    if r.capacity = capacity ∧ r.slotPayloadSize = slotPayloadSize ∧ r.maxSubscribers = maxSubscribers then
      { r with generation := r.generation + 1, tail := 0 }
    else create capacity slotPayloadSize maxSubscribers
  | none => create capacity slotPayloadSize maxSubscribers

/-! ### The cursor table -/

/-- `claim_cursor`: the first unclaimed entry takes the initial cursor, and its wakeup flag is cleared. -/
def claimCursor (initial : Nat) : Option (Nat × RingBuffer) :=
  match (List.range r.maxSubs).find? fun i => r.cursors i == CURSOR_UNCLAIMED with
  | some i => some (i, (r.setCursor i initial).clearWakeflag i)
  | none => none

/-- One step of the scan in `min_active_cursor`: the entry `c` joins the running minimum unless unclaimed. -/
def minStep (min : Option Nat) (c : Nat) : Option Nat :=
  if c = CURSOR_UNCLAIMED then min else
    match min with
    | some m => some (Nat.min m c)
    | none => some c

def minActiveCursor : Option Nat :=
  (List.range r.maxSubs).foldl (fun min i => minStep min (r.cursors i)) none

/-- The comparison of `try_publish` and `is_full`, for the minimum found by a scan. -/
def lagsBehind (tail : Nat) (min : Option Nat) : Bool :=
  decide (r.cap ≤ wrappingSub 64 tail (min.getD tail))

def isFull : Bool := r.lagsBehind r.tail r.minActiveCursor

/-! ### Publishing and receiving -/

/-- `write_slot`, all its stores at once -/
def writeSlot (tail : Nat) (data : Bytes) : RingBuffer :=
  r.setSlot tail
    { seq := tail
      len := data.length % 2 ^ 32
      payload := fun k => data.getD k ((r.slot tail).payload k) }

def tryPublish (data : Bytes) : RingBuffer × Bool :=
  if r.isFull then (r, false) else ((r.writeSlot r.tail data).setTail (r.tail + 1), true)

def publishDropOldest (data : Bytes) : RingBuffer × Bool :=
  ((r.writeSlot r.tail data).setTail (r.tail + 1), true)

/-- The retry loop of `try_receive` on a ring that nobody writes meanwhile: `fuel` more rounds after this one. -/
def receiveLoop : (fuel effective : Nat) → Option (Nat × Bytes)
  | fuel, effective =>
    let slot := r.slot effective
    let retry := fun effective => match fuel with
      | 0 => none
      | fuel + 1 => receiveLoop fuel effective
    if hasFlag SEQ_WRITING slot.seq then retry effective
    else if effective < slot.seq then retry slot.seq
    else if slot.seq < effective then none
    else if r.slotSize < slot.len then retry effective
    else some (effective + 1, slot.read)

/-- `try_receive` has 16 rounds (`MAX_RETRIES`). -/
def tryReceive (cursorIdx localCursor : Nat) : RingBuffer × Option (Nat × Bytes) :=
  if r.tail ≤ localCursor then (r, none) else
    match r.receiveLoop 15 localCursor with
    | some (newCursor, out) => (r.setCursor cursorIdx newCursor, some (newCursor, out))
    | none => (r, none)

/-! ### Fields after a store -/

variable {r}

@[simp] theorem setTail_tail (v : Nat) : (r.setTail v).tail = v := rfl
@[simp] theorem setTail_cap (v : Nat) : (r.setTail v).cap = r.cap := rfl
@[simp] theorem setTail_slotSize (v : Nat) : (r.setTail v).slotSize = r.slotSize := rfl
@[simp] theorem setTail_maxSubs (v : Nat) : (r.setTail v).maxSubs = r.maxSubs := rfl
@[simp] theorem setTail_cursors (v : Nat) : (r.setTail v).cursors = r.cursors := rfl
@[simp] theorem setTail_wakeflags (v : Nat) : (r.setTail v).wakeflags = r.wakeflags := rfl
@[simp] theorem setTail_generation (v : Nat) : (r.setTail v).generation = r.generation := rfl
@[simp] theorem setTail_slots (v : Nat) : (r.setTail v).slots = r.slots := rfl

@[simp] theorem setCursor_tail (i v : Nat) : (r.setCursor i v).tail = r.tail := rfl
@[simp] theorem setCursor_cap (i v : Nat) : (r.setCursor i v).cap = r.cap := rfl
@[simp] theorem setCursor_slotSize (i v : Nat) : (r.setCursor i v).slotSize = r.slotSize := rfl
@[simp] theorem setCursor_maxSubs (i v : Nat) : (r.setCursor i v).maxSubs = r.maxSubs := rfl
@[simp] theorem setCursor_wakeflags (i v : Nat) : (r.setCursor i v).wakeflags = r.wakeflags := rfl
@[simp] theorem setCursor_generation (i v : Nat) : (r.setCursor i v).generation = r.generation := rfl
@[simp] theorem setCursor_slots (i v : Nat) : (r.setCursor i v).slots = r.slots := rfl

theorem setCursor_cursors (i v j : Nat) :
    (r.setCursor i v).cursors j = if j = i then v else r.cursors j := by
  simp [setCursor, update_apply]

@[simp] theorem setFlagWord_tail (i v : Nat) : (r.setFlagWord i v).tail = r.tail := rfl
@[simp] theorem setFlagWord_cap (i v : Nat) : (r.setFlagWord i v).cap = r.cap := rfl
@[simp] theorem setFlagWord_slotSize (i v : Nat) : (r.setFlagWord i v).slotSize = r.slotSize := rfl
@[simp] theorem setFlagWord_maxSubs (i v : Nat) : (r.setFlagWord i v).maxSubs = r.maxSubs := rfl
@[simp] theorem setFlagWord_cursors (i v : Nat) : (r.setFlagWord i v).cursors = r.cursors := rfl
@[simp] theorem setFlagWord_generation (i v : Nat) : (r.setFlagWord i v).generation = r.generation := rfl
@[simp] theorem setFlagWord_slots (i v : Nat) : (r.setFlagWord i v).slots = r.slots := rfl

theorem setFlagWord_wakeflags (i v j : Nat) :
    (r.setFlagWord i v).wakeflags j = if j = i then v else r.wakeflags j := by
  simp [setFlagWord, update_apply]

@[simp] theorem setSlot_tail (p : Nat) (s : Slot) : (r.setSlot p s).tail = r.tail := rfl
@[simp] theorem setSlot_cap (p : Nat) (s : Slot) : (r.setSlot p s).cap = r.cap := rfl
@[simp] theorem setSlot_slotSize (p : Nat) (s : Slot) : (r.setSlot p s).slotSize = r.slotSize := rfl
@[simp] theorem setSlot_maxSubs (p : Nat) (s : Slot) : (r.setSlot p s).maxSubs = r.maxSubs := rfl
@[simp] theorem setSlot_cursors (p : Nat) (s : Slot) : (r.setSlot p s).cursors = r.cursors := rfl
@[simp] theorem setSlot_wakeflags (p : Nat) (s : Slot) : (r.setSlot p s).wakeflags = r.wakeflags := rfl
@[simp] theorem setSlot_generation (p : Nat) (s : Slot) : (r.setSlot p s).generation = r.generation := rfl

theorem setSlot_slots (p : Nat) (s : Slot) (j : Nat) :
    (r.setSlot p s).slots j = if j = p % r.cap then s else r.slots j := by
  simp [setSlot, update_apply]

@[simp] theorem setTail_slot (v p : Nat) : (r.setTail v).slot p = r.slot p := rfl
@[simp] theorem setCursor_slot (i v p : Nat) : (r.setCursor i v).slot p = r.slot p := rfl
@[simp] theorem setFlagWord_slot (i v p : Nat) : (r.setFlagWord i v).slot p = r.slot p := rfl

@[simp] theorem setSlot_slot_self (p : Nat) (s : Slot) : (r.setSlot p s).slot p = s := by
  simp [slot, setSlot_slots]

theorem setSlot_slot (p q : Nat) (s : Slot) :
    (r.setSlot p s).slot q = if q % r.cap = p % r.cap then s else r.slot q := by
  simp [slot, setSlot_slots]

/-- The shape and the tail of a ring that a publisher opens -/
theorem createOrReuse_shape (existing : Option RingBuffer) (capacity slotPayloadSize maxSubscribers : UInt32) :
    (createOrReuse existing capacity slotPayloadSize maxSubscribers).tail = 0 ∧
      (createOrReuse existing capacity slotPayloadSize maxSubscribers).cap = capacity.toNat ∧
        (createOrReuse existing capacity slotPayloadSize maxSubscribers).slotSize = slotPayloadSize.toNat := by
  unfold createOrReuse
  split
  · split
    · rename_i h
      exact ⟨rfl, congrArg UInt32.toNat h.1, congrArg UInt32.toNat h.2.1⟩
    · exact ⟨rfl, rfl, rfl⟩
  · exact ⟨rfl, rfl, rfl⟩

/-! ### The scan for the minimum -/

theorem minStep_le {min : Option Nat} {c m v : Nat} (hm : min = some m) (h : m ≤ v) :
    ∃ m', minStep min c = some m' ∧ m' ≤ v := by
  subst hm
  unfold minStep
  split
  · exact ⟨m, rfl, h⟩
  · exact ⟨Nat.min m c, rfl, (Nat.min_le_left m c).trans h⟩

theorem minStep_self_le {min : Option Nat} {c v : Nat} (hc : c ≠ CURSOR_UNCLAIMED) (h : c ≤ v) :
    ∃ m', minStep min c = some m' ∧ m' ≤ v := by
  unfold minStep
  rw [if_neg hc]
  cases min with
  | none => exact ⟨c, rfl, h⟩
  | some m => exact ⟨Nat.min m c, rfl, (Nat.min_le_right m c).trans h⟩

/-- A publish passes the comparison only less than `capacity` ahead of the minimum. -/
theorem lt_of_not_lagsBehind {tail m : Nat} {min : Option Nat} (h : r.lagsBehind tail min = false)
    (hmin : min = some m) (ht : tail ≤ 2 ^ SEQ_WRITING) : tail < m + r.cap := by
  subst hmin
  have hbit : 2 ^ SEQ_WRITING = 2 ^ 63 := rfl
  simp only [lagsBehind, Option.getD_some, decide_eq_false_iff_not] at h
  rcases Nat.lt_or_ge tail m with hlt | hle
  · omega
  · rw [wrappingSub_of_le hle (by omega)] at h
    omega

/-- The minimum is an entry of the table that is claimed, and no claimed entry is below it. -/
theorem minActiveCursor_eq_some {m : Nat} (h : r.minActiveCursor = some m) :
    ∃ i < r.maxSubs, r.cursors i = m ∧ r.cursors i ≠ CURSOR_UNCLAIMED := by
  have hscan : ∀ (l : List Nat) (min : Option Nat), l.foldl (fun min i => minStep min (r.cursors i)) min = some m →
      min = some m ∨ ∃ i ∈ l, r.cursors i = m ∧ r.cursors i ≠ CURSOR_UNCLAIMED := by
    intro l
    induction l with
    | nil => exact fun min h => .inl h
    | cons i l ih =>
      intro min h
      rcases ih _ h with hstep | ⟨j, hj, hm⟩
      · simp only [minStep] at hstep
        split at hstep
        · exact .inl hstep
        · rename_i hclaimed
          cases min with
          | none => exact .inr ⟨i, List.mem_cons_self .., by simpa using hstep, hclaimed⟩
          | some n =>
            have hmin : Nat.min n (r.cursors i) = m := by simpa using hstep
            rcases Nat.le_total n (r.cursors i) with hle | hle
            · exact .inl (congrArg some ((Nat.min_eq_left hle).symm.trans hmin))
            · exact .inr ⟨i, List.mem_cons_self .., (Nat.min_eq_right hle).symm.trans hmin, hclaimed⟩
      · exact .inr ⟨j, List.mem_cons_of_mem _ hj, hm⟩
  rcases hscan _ _ h with hnone | ⟨i, hi, hm⟩
  · cases hnone
  · exact ⟨i, List.mem_range.1 hi, hm⟩

/-- A ring is full because of an entry of the table. -/
theorem exists_entry_of_isFull (hcap : 0 < r.cap) (h : r.isFull = true) :
    ∃ i < r.maxSubs, r.cursors i ≠ CURSOR_UNCLAIMED ∧ r.cap ≤ wrappingSub 64 r.tail (r.cursors i) := by
  unfold isFull lagsBehind at h
  cases hmin : r.minActiveCursor with
  | none =>
    have hself : wrappingSub 64 r.tail r.tail = 0 := by
      rw [wrappingSub, Nat.add_sub_cancel_left, Nat.mod_self]
    rw [hmin, Option.getD_none, hself] at h
    simp only [decide_eq_true_eq] at h
    omega
  | some m =>
    obtain ⟨i, hi, hm, hclaimed⟩ := minActiveCursor_eq_some hmin
    rw [hmin, Option.getD_some, ← hm] at h
    exact ⟨i, hi, hclaimed, by simpa using h⟩

/-! ### Claiming an entry -/

theorem claimCursor_eq_some {initial i : Nat} {r' : RingBuffer} (h : r.claimCursor initial = some (i, r')) :
    i < r.maxSubs ∧ r.cursors i = CURSOR_UNCLAIMED ∧ r' = (r.setCursor i initial).clearWakeflag i := by
  unfold claimCursor at h
  split at h
  · rename_i k hk
    cases h
    have hmem := List.mem_of_find?_eq_some hk
    have hfree := List.find?_some hk
    exact ⟨List.mem_range.1 hmem, by simpa using hfree, rfl⟩
  · cases h

/-- No entry is free when none can be claimed. -/
theorem claimed_of_claimCursor {initial i : Nat} (h : r.claimCursor initial = none) (hi : i < r.maxSubs) :
    r.cursors i ≠ CURSOR_UNCLAIMED := by
  unfold claimCursor at h
  split at h
  · cases h
  · rename_i hnone
    have hfind := List.find?_eq_none.1 hnone i (List.mem_range.2 hi)
    simpa using hfind

end RingBuffer

end Mmbus
