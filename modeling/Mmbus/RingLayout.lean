import Mmbus.RingCreation

/-!
# The layout of the ring file

`wakeflags_offset`, `slots_offset`, `slot_stride` and `mmap_size` with the arithmetic of `usize`, and the addresses that
the atomic operations, `write_slot` and `try_receive` compute from them.  The mapping begins at a page boundary, so an
address is aligned as its offset is.

The offsets fit for every shape whose file size fits, and the layout has no slot to address only when the capacity is
zero (`layout_sound_iff`).
-/

namespace Mmbus.Layout

open Creation FlagBit

/-- What ends an operation: a result that does not fit in `usize`, or a remainder by zero -/
inductive Fault
  | overflow
  | divideByZero
  deriving DecidableEq

/-- The result of a `usize` operation -/
def usize (n : Nat) : Except Fault Nat := if n < 2 ^ 64 then .ok n else .error .overflow

/-- `a % b` -/
def remainder (a b : Nat) : Except Fault Nat := if b = 0 then .error .divideByZero else .ok (a % b)

def SLOT_OVERHEAD : Nat := 8 + 4

def SLOT_ALIGN : Nat := 8

def wakeflagsOffset (maxSubscribers : UInt32) : Except Fault Nat := do
  let cursors ← usize (8 * maxSubscribers.toNat)
  usize (OFF_CURSORS + cursors)

def slotsOffset (maxSubscribers : UInt32) : Except Fault Nat := do
  let wakeflags ← wakeflagsOffset maxSubscribers
  let table ← usize (8 * maxSubscribers.toNat)
  let raw ← usize (wakeflags + table)
  let raised ← usize (raw + 63)
  pure (clearLow 64 6 raised)

def slotStride (slotPayloadSize : UInt32) : Except Fault Nat := do
  let raw ← usize (SLOT_OVERHEAD + slotPayloadSize.toNat)
  let raised ← usize (raw + SLOT_ALIGN)
  pure (clearLow 64 3 (raised - 1))

def mmapSize (shape : Shape) : Except Fault Nat := do
  let slots ← slotsOffset shape.maxSubscribers
  let stride ← slotStride shape.slotPayloadSize
  let area ← usize (stride * shape.capacity.toNat)
  usize (slots + area)

/-- The slot of the position `tail`, as `write_slot` and `try_receive` compute it -/
def slotAddress (shape : Shape) (tail : Nat) : Except Fault Nat := do
  let idx ← remainder tail shape.capacity.toNat
  let slots ← slotsOffset shape.maxSubscribers
  let stride ← slotStride shape.slotPayloadSize
  let offset ← usize (idx * stride)
  usize (slots + offset)

/-- `cursor_atomic` -/
def cursorAddress (idx : Nat) : Except Fault Nat := do
  let offset ← usize (idx * 8)
  usize (OFF_CURSORS + offset)

/-- `wakeflag_atomic` -/
def wakeflagAddress (shape : Shape) (idx : Nat) : Except Fault Nat := do
  let wakeflags ← wakeflagsOffset shape.maxSubscribers
  let offset ← usize (idx * 8)
  usize (wakeflags + offset)

/-! ### Areas and words -/

/-- The parts of the file -/
inductive Area (shape : Shape)
  | header
  | cursorTable
  | wakeflagTable
  | slot (i : Fin shape.capacity.toNat)
  deriving DecidableEq

/-- Where an area begins, and how long it is; of a slot the whole payload area counts. -/
def Area.span {shape : Shape} : Area shape → Except Fault (Nat × Nat)
  | .header => .ok (0, OFF_CURSORS)
  | .cursorTable => do
    let length ← usize (8 * shape.maxSubscribers.toNat)
    pure (OFF_CURSORS, length)
  | .wakeflagTable => do
    let first ← wakeflagsOffset shape.maxSubscribers
    let length ← usize (8 * shape.maxSubscribers.toNat)
    pure (first, length)
  | .slot i => do
    let first ← slotAddress shape i
    let length ← usize (SLOT_OVERHEAD + shape.slotPayloadSize.toNat)
    pure (first, length)

/-- The words that are read and written atomically -/
inductive Word (shape : Shape)
  | generation
  | tail
  | cursor (i : Fin shape.maxSubscribers.toNat)
  | wakeflag (i : Fin shape.maxSubscribers.toNat)
  | seq (i : Fin shape.capacity.toNat)

def Word.address {shape : Shape} : Word shape → Except Fault Nat
  | .generation => .ok 24
  | .tail => .ok 32
  | .cursor i => cursorAddress i
  | .wakeflag i => wakeflagAddress shape i
  | .seq i => slotAddress shape i

def Word.area {shape : Shape} : Word shape → Area shape
  | .generation | .tail => .header
  | .cursor _ => .cursorTable
  | .wakeflag _ => .wakeflagTable
  | .seq i => .slot i

/-! ### Operations -/

end Mmbus.Layout

namespace Mmbus.RingBuffer

open Layout

def shape (r : RingBuffer) : Creation.Shape := ⟨r.capacity, r.slotPayloadSize, r.maxSubscribers⟩

/-- The slot that `try_publish` (under the policy `Error`) or `publish_drop_oldest` writes, if any -/
def publishAddress (policy : BackpressurePolicy) (r : RingBuffer) : Except Fault (Option Nat) :=
  if policy = .error ∧ r.isFull then .ok none else (slotAddress r.shape r.tail).map some

/-- The slot that `try_receive` reads in a round of its loop, at the position `effective` -/
def receiveAddress (r : RingBuffer) (localCursor effective : Nat) : Except Fault (Option Nat) :=
  if r.tail ≤ localCursor then .ok none else (slotAddress r.shape effective).map some

end Mmbus.RingBuffer

namespace Mmbus.Layout

open Creation FlagBit

variable {shape : Shape}

/-- The address is that of a slot, if there is one. -/
def OfSlot (shape : Shape) (result : Except Fault (Option Nat)) : Prop :=
  ∃ address, result = .ok address ∧ ∀ a ∈ address, ∃ i : Fin shape.capacity.toNat, slotAddress shape i = .ok a

/-- The layout does what the raw accesses rely on. -/
structure Sound (shape : Shape) : Prop where
  /-- Nothing overflows, and every area ends within the file. -/
  inside : ∃ total, mmapSize shape = .ok total ∧
    ∀ area : Area shape, ∃ first length, area.span = .ok (first, length) ∧ first + length ≤ total
  disjoint : ∀ area area' : Area shape, area ≠ area' → ∀ first length first' length',
    area.span = .ok (first, length) → area'.span = .ok (first', length') →
      first + length ≤ first' ∨ first' + length' ≤ first
  /-- Every atomic word is aligned, and lies in its area. -/
  words : ∀ word : Word shape, ∃ a first length, word.address = .ok a ∧ a % 8 = 0 ∧
    word.area.span = .ok (first, length) ∧ first ≤ a ∧ a + 8 ≤ first + length
  publish : ∀ (policy : BackpressurePolicy) (r : RingBuffer), r.shape = shape → OfSlot shape (r.publishAddress policy)
  receive : ∀ (r : RingBuffer) (localCursor effective : Nat), r.shape = shape →
    OfSlot shape (r.receiveAddress localCursor effective)

/-! ### The values of the offsets -/

theorem usize_ok {n : Nat} (h : n < 2 ^ 64) : usize n = .ok n := if_pos h

theorem wakeflagsOffset_eq (maxSubscribers : UInt32) :
    wakeflagsOffset maxSubscribers = .ok (OFF_CURSORS + 8 * maxSubscribers.toNat) := by
  have hm := maxSubscribers.toNat_lt
  rw [wakeflagsOffset, usize_ok (by omega)]
  exact usize_ok (by rw [OFF_CURSORS]; omega)

/-- The offsets of the tables and of the first slot fit for every number of subscribers. -/
theorem slotsOffset_eq (maxSubscribers : UInt32) :
    slotsOffset maxSubscribers = .ok (Creation.slotsOffset maxSubscribers) := by
  have hm := maxSubscribers.toNat_lt
  have hraw : OFF_CURSORS + 8 * maxSubscribers.toNat + 8 * maxSubscribers.toNat + 63 < 2 ^ 64 := by
    rw [OFF_CURSORS]
    omega
  rw [slotsOffset, wakeflagsOffset_eq, usize_ok (by omega)]
  simp only [bind, Except.bind, usize_ok (Nat.lt_of_le_of_lt (Nat.le_add_right _ 63) hraw), usize_ok hraw,
    clearLow_eq (show 6 ≤ 64 by decide) hraw]
  rfl

/-- So does the stride, for every payload size. -/
theorem slotStride_eq (slotPayloadSize : UInt32) :
    slotStride slotPayloadSize = .ok (Creation.slotStride slotPayloadSize) := by
  have hp := slotPayloadSize.toNat_lt
  have hraw : SLOT_OVERHEAD + slotPayloadSize.toNat + SLOT_ALIGN < 2 ^ 64 := by
    rw [SLOT_OVERHEAD, SLOT_ALIGN]
    omega
  rw [slotStride, usize_ok (by omega)]
  simp only [bind, Except.bind, usize_ok hraw, clearLow_eq (show 3 ≤ 64 by decide) (Nat.lt_of_le_of_lt (Nat.sub_le _ 1) hraw)]
  rfl

theorem mmapSize_eq (shape : Shape) :
    mmapSize shape = if Creation.mmapSize shape < 2 ^ 64 then .ok (Creation.mmapSize shape) else .error .overflow := by
  rw [mmapSize, slotsOffset_eq, slotStride_eq]
  simp only [bind, Except.bind]
  by_cases h : Creation.mmapSize shape < 2 ^ 64
  · have harea : Creation.slotStride shape.slotPayloadSize * shape.capacity.toNat < 2 ^ 64 :=
      Nat.lt_of_le_of_lt (Nat.le_add_left ..) h
    rw [if_pos h, usize_ok harea]
    exact usize_ok h
  · rw [if_neg h]
    by_cases harea : Creation.slotStride shape.slotPayloadSize * shape.capacity.toNat < 2 ^ 64
    · rw [usize_ok harea]
      exact if_neg h
    · rw [usize, if_neg harea]

/-- The slot `i` ends within the file. -/
private theorem slot_le (hi : i < shape.capacity.toNat) :
    Creation.slotsOffset shape.maxSubscribers + i * Creation.slotStride shape.slotPayloadSize +
      Creation.slotStride shape.slotPayloadSize ≤ Creation.mmapSize shape := by
  have hmul : (i + 1) * Creation.slotStride shape.slotPayloadSize ≤
      shape.capacity.toNat * Creation.slotStride shape.slotPayloadSize := Nat.mul_le_mul_right _ hi
  rw [Nat.add_mul, Nat.one_mul] at hmul
  rw [Creation.mmapSize, Nat.mul_comm (Creation.slotStride _)]
  omega

/-- A slot has room for its sequence number, its length and the whole payload area. -/
private theorem room_le_stride (slotPayloadSize : UInt32) :
    SLOT_OVERHEAD + slotPayloadSize.toNat ≤ Creation.slotStride slotPayloadSize := by
  rw [Creation.slotStride, SLOT_OVERHEAD]
  omega

theorem slotAddress_eq (hsize : Creation.mmapSize shape < 2 ^ 64) (hcap : shape.capacity ≠ 0) (tail : Nat) :
    slotAddress shape tail = .ok (Creation.slotsOffset shape.maxSubscribers +
      tail % shape.capacity.toNat * Creation.slotStride shape.slotPayloadSize) := by
  have hne : shape.capacity.toNat ≠ 0 := fun h => hcap (UInt32.toNat_inj.1 h)
  have hle := slot_le (Nat.mod_lt tail (Nat.pos_of_ne_zero hne))
  rw [slotAddress, remainder, if_neg hne, slotsOffset_eq, slotStride_eq]
  simp only [bind, Except.bind]
  rw [usize_ok (by omega)]
  exact usize_ok (by omega)

/-- A slot is there only when the capacity is not zero. -/
theorem capacity_ne_zero (i : Fin shape.capacity.toNat) : shape.capacity ≠ 0 := by
  have hpos : 0 < shape.capacity.toNat := Nat.zero_lt_of_lt i.isLt
  rintro h
  rw [h] at hpos
  exact absurd hpos (by decide)

theorem slotAddress_mod (hcap : shape.capacity ≠ 0) (tail : Nat) :
    ∃ i : Fin shape.capacity.toNat, slotAddress shape i = slotAddress shape tail := by
  have hne : shape.capacity.toNat ≠ 0 := fun h => hcap (UInt32.toNat_inj.1 h)
  refine ⟨⟨tail % shape.capacity.toNat, Nat.mod_lt tail (Nat.pos_of_ne_zero hne)⟩, ?_⟩
  simp only [slotAddress, remainder, Nat.mod_mod]

/-- Of a position there is always the address of a slot. -/
theorem ofSlot_slotAddress (hsize : Creation.mmapSize shape < 2 ^ 64) (hcap : shape.capacity ≠ 0) (tail : Nat) :
    OfSlot shape ((slotAddress shape tail).map some) := by
  obtain ⟨i, hi⟩ := slotAddress_mod hcap tail
  refine ⟨_, by rw [slotAddress_eq hsize hcap]; rfl, ?_⟩
  rintro a ⟨⟩
  exact ⟨i, by rw [hi, slotAddress_eq hsize hcap]⟩

/-! ### Where the areas are -/

/-- The spans of a layout that fits, with the values of the offsets -/
private theorem span_eq (hsize : Creation.mmapSize shape < 2 ^ 64) (area : Area shape) :
    area.span = .ok (match area with
      | .header => (0, OFF_CURSORS)
      | .cursorTable => (OFF_CURSORS, 8 * shape.maxSubscribers.toNat)
      | .wakeflagTable => (OFF_CURSORS + 8 * shape.maxSubscribers.toNat, 8 * shape.maxSubscribers.toNat)
      | .slot i => (Creation.slotsOffset shape.maxSubscribers + i * Creation.slotStride shape.slotPayloadSize,
          SLOT_OVERHEAD + shape.slotPayloadSize.toNat)) := by
  have hm := shape.maxSubscribers.toNat_lt
  have hp := shape.slotPayloadSize.toNat_lt
  cases area with
  | header => rfl
  | cursorTable =>
    rw [Area.span, usize_ok (by omega)]
    rfl
  | wakeflagTable =>
    rw [Area.span, wakeflagsOffset_eq, usize_ok (by omega)]
    rfl
  | slot i =>
    rw [Area.span, slotAddress_eq hsize (capacity_ne_zero i), usize_ok (by rw [SLOT_OVERHEAD]; omega), Nat.mod_eq_of_lt i.isLt]
    rfl

/-- The slots begin behind the tables. -/
private theorem tables_le (maxSubscribers : UInt32) :
    OFF_CURSORS + 8 * maxSubscribers.toNat + 8 * maxSubscribers.toNat ≤ Creation.slotsOffset maxSubscribers := by
  rw [Creation.slotsOffset]
  omega

private theorem inside_of_fits (hsize : Creation.mmapSize shape < 2 ^ 64) (area : Area shape) :
    ∃ first length, area.span = .ok (first, length) ∧ first + length ≤ Creation.mmapSize shape := by
  have htables := tables_le shape.maxSubscribers
  have hslots : Creation.slotsOffset shape.maxSubscribers ≤ Creation.mmapSize shape := Nat.le_add_right ..
  refine ⟨_, _, span_eq hsize area, ?_⟩
  cases area with
  | header => simp only; omega
  | cursorTable => simp only; omega
  | wakeflagTable => simp only; omega
  | slot i =>
    have hroom := room_le_stride shape.slotPayloadSize
    have hle := slot_le i.isLt
    simp only
    omega

/-- Of two slots the one with the smaller index ends first. -/
private theorem slots_disjoint {i j : Nat} (h : i < j) (slotPayloadSize : UInt32) (slots : Nat) :
    slots + i * Creation.slotStride slotPayloadSize + (SLOT_OVERHEAD + slotPayloadSize.toNat) ≤
      slots + j * Creation.slotStride slotPayloadSize := by
  have hroom := room_le_stride slotPayloadSize
  have hmul : (i + 1) * Creation.slotStride slotPayloadSize ≤ j * Creation.slotStride slotPayloadSize :=
    Nat.mul_le_mul_right _ h
  rw [Nat.add_mul, Nat.one_mul] at hmul
  omega

private theorem disjoint_of_fits (hsize : Creation.mmapSize shape < 2 ^ 64) {area area' : Area shape} (hne : area ≠ area')
    {first length first' length' : Nat} (h : area.span = .ok (first, length)) (h' : area'.span = .ok (first', length')) :
    first + length ≤ first' ∨ first' + length' ≤ first := by
  have htables := tables_le shape.maxSubscribers
  rw [span_eq hsize] at h h'
  cases area with
  | header => cases area' <;> simp only [Except.ok.injEq, Prod.mk.injEq, ne_eq, not_true_eq_false] at * <;> omega
  | cursorTable => cases area' <;> simp only [Except.ok.injEq, Prod.mk.injEq, ne_eq, not_true_eq_false] at * <;> omega
  | wakeflagTable => cases area' <;> simp only [Except.ok.injEq, Prod.mk.injEq, ne_eq, not_true_eq_false] at * <;> omega
  | slot i =>
    cases area' with
    | slot j =>
      have hij : (i : Nat) ≠ j := fun heq => hne (by rw [Fin.ext heq])
      cases h
      cases h'
      rcases Nat.lt_or_gt_of_ne hij with hlt | hlt
      · exact .inl (slots_disjoint hlt _ _)
      · exact .inr (slots_disjoint hlt _ _)
    | _ =>
      simp only [Except.ok.injEq, Prod.mk.injEq] at h h'
      omega

/-- The slots begin at a multiple of 64, and their stride is a multiple of 8. -/
private theorem slot_aligned (shape : Shape) (i : Nat) :
    (Creation.slotsOffset shape.maxSubscribers + i * Creation.slotStride shape.slotPayloadSize) % 8 = 0 := by
  have hstride : 8 ∣ i * Creation.slotStride shape.slotPayloadSize := by
    rw [Creation.slotStride]
    exact Dvd.dvd.mul_left (Dvd.intro_left _ rfl) _
  have hslots : 8 ∣ Creation.slotsOffset shape.maxSubscribers := by
    rw [Creation.slotsOffset]
    omega
  exact Nat.mod_eq_zero_of_dvd ((Nat.dvd_add_right hslots).2 hstride)

private theorem words_of_fits (hsize : Creation.mmapSize shape < 2 ^ 64) (word : Word shape) :
    ∃ a first length, word.address = .ok a ∧ a % 8 = 0 ∧ word.area.span = .ok (first, length) ∧ first ≤ a ∧
      a + 8 ≤ first + length := by
  have hm := shape.maxSubscribers.toNat_lt
  have hCursors : OFF_CURSORS = 64 := rfl
  cases word with
  | generation => exact ⟨24, 0, OFF_CURSORS, rfl, rfl, rfl, by decide, by decide⟩
  | tail => exact ⟨32, 0, OFF_CURSORS, rfl, rfl, rfl, by decide, by decide⟩
  | cursor i =>
    have hi := i.isLt
    refine ⟨OFF_CURSORS + i * 8, _, _, ?_, by omega, span_eq hsize .cursorTable, Nat.le_add_right .., by omega⟩
    rw [Word.address, cursorAddress, usize_ok (by omega)]
    exact usize_ok (by omega)
  | wakeflag i =>
    have hi := i.isLt
    refine ⟨OFF_CURSORS + 8 * shape.maxSubscribers.toNat + i * 8, _, _, ?_, by omega, span_eq hsize .wakeflagTable,
      Nat.le_add_right .., by omega⟩
    rw [Word.address, wakeflagAddress, wakeflagsOffset_eq, usize_ok (by omega)]
    exact usize_ok (by omega)
  | seq i =>
    refine ⟨_, _, _, ?_, slot_aligned shape i, span_eq hsize (.slot i), Nat.le_refl _, ?_⟩
    · rw [Word.address, slotAddress_eq hsize (capacity_ne_zero i), Nat.mod_eq_of_lt i.isLt]
    · rw [SLOT_OVERHEAD]
      omega

theorem ofSlot_none : OfSlot shape (.ok none) := ⟨none, rfl, fun a ha => by cases ha⟩

/-- A layout whose file size fits and that has a slot is sound. -/
theorem sound_of_fits (hsize : Creation.mmapSize shape < 2 ^ 64) (hcap : shape.capacity ≠ 0) : Sound shape where
  inside := by
    refine ⟨Creation.mmapSize shape, ?_, inside_of_fits hsize⟩
    rw [mmapSize_eq, if_pos hsize]
  disjoint area area' hne first length first' length' h h' := disjoint_of_fits hsize hne h h'
  words := words_of_fits hsize
  publish policy r hr := by
    subst hr
    unfold RingBuffer.publishAddress
    split
    · exact ofSlot_none
    · exact ofSlot_slotAddress hsize hcap r.tail
  receive r localCursor effective hr := by
    subst hr
    unfold RingBuffer.receiveAddress
    split
    · exact ofSlot_none
    · exact ofSlot_slotAddress hsize hcap effective

/-- A publish that overwrites divides by the capacity. -/
theorem publishAddress_of_no_capacity (slotPayloadSize maxSubscribers : UInt32) :
    (RingBuffer.create 0 slotPayloadSize maxSubscribers).publishAddress .dropOldest = .error .divideByZero := rfl

/-- The layout is sound when the capacity is not zero and the file size fits in 64 bits, and never otherwise. -/
theorem layout_sound_iff (shape : Shape) : Sound shape ↔ shape.capacity ≠ 0 ∧
    (64 + 16 * shape.maxSubscribers.toNat + 63) / 64 * 64 +
      (12 + shape.slotPayloadSize.toNat + 7) / 8 * 8 * shape.capacity.toNat < 2 ^ 64 := by
  have hvalue : Creation.mmapSize shape = (64 + 16 * shape.maxSubscribers.toNat + 63) / 64 * 64 +
      (12 + shape.slotPayloadSize.toNat + 7) / 8 * 8 * shape.capacity.toNat := by
    rw [Creation.mmapSize, Creation.slotsOffset, Creation.slotStride, OFF_CURSORS]
    congr 3
    omega
  rw [← hvalue]
  constructor
  · intro h
    refine ⟨fun hcap => ?_, ?_⟩
    · obtain ⟨capacity, slotPayloadSize, maxSubscribers⟩ := shape
      obtain rfl : capacity = 0 := hcap
      obtain ⟨address, haddress, -⟩ := h.publish .dropOldest (.create 0 slotPayloadSize maxSubscribers) rfl
      rw [publishAddress_of_no_capacity] at haddress
      cases haddress
    · obtain ⟨total, htotal, -⟩ := h.inside
      by_contra hsize
      rw [mmapSize_eq, if_neg hsize] at htotal
      cases htotal
  · rintro ⟨hcap, hsize⟩
    exact sound_of_fits hsize hcap

/-- Shapes that `Publisher::create` passes on: without a slot, and with more slots of the largest size than fit -/
theorem layout_unsound : ¬Sound ⟨0, 64, 16⟩ ∧ ¬Sound ⟨0xFFFFFFFF, 0xFFFFFFFF, 16⟩ := by
  refine ⟨fun h => ?_, fun h => ?_⟩
  · obtain ⟨address, haddress, -⟩ := h.publish .dropOldest (.create 0 64 16) rfl
    rw [publishAddress_of_no_capacity] at haddress
    cases haddress
  · obtain ⟨total, htotal, -⟩ := h.inside
    have hsize : mmapSize ⟨0xFFFFFFFF, 0xFFFFFFFF, 16⟩ = .error .overflow := by
      rw [mmapSize_eq]
      decide
    rw [hsize] at htotal
    cases htotal

end Mmbus.Layout
