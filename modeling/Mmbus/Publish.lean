import Mmbus.Ring

/-!
# A publish call, one atomic access at a time

`try_publish` and `publish_drop_oldest` as a program that performs one load or store per step: load `tail`, load
every cursor in turn (only `try_publish`), then `write_slot` (marker, length, bytes, commit) and the store of
`tail + 1`.  The program runs on a `Channel`, the ring together with a log of the payloads committed so far.

`PublishInv` says what the slots hold at every moment of a call: the last `capacity` positions are intact except
the one whose slot is being overwritten.
-/

namespace Mmbus

open FlagBit RingBuffer

/-- The ring, and the history of the payloads committed at each position (no process reads the history). -/
structure Channel where
  ring : RingBuffer
  log : Nat → Option Bytes

/-- What the next access of a publish call is -/
inductive PublishPc
  | idle
  | loadTail (policy : BackpressurePolicy) (data : Bytes)
  | loadCursor (data : Bytes) (tail i : Nat) (min : Option Nat)
  | storeMark (data : Bytes) (tail : Nat)
  | storeLen (data : Bytes) (tail : Nat)
  | storeByte (data : Bytes) (tail k : Nat)
  | storeSeq (data : Bytes) (tail : Nat)
  | storeTail (data : Bytes) (tail : Nat)
  | returned (ok : Bool)
  deriving DecidableEq

namespace PublishPc

/-- The scan of `min_active_cursor` before the entry `i`, or the comparison after its last entry -/
def scanAt (r : RingBuffer) (data : Bytes) (tail i : Nat) (min : Option Nat) : PublishPc :=
  if i < r.maxSubs then loadCursor data tail i min
  else if r.lagsBehind tail min then returned false
  else storeMark data tail

/-- The copy of the payload before the byte `k` -/
def copyAt (data : Bytes) (tail k : Nat) : PublishPc :=
  if k < data.length then storeByte data tail k else storeSeq data tail

/-- One atomic access of the publisher -/
def step (c : Channel) : PublishPc → Option (Channel × PublishPc)
  | idle => none
  | loadTail .error data => some (c, scanAt c.ring data c.ring.tail 0 none)
  | loadTail .dropOldest data => some (c, storeMark data c.ring.tail)
  | loadCursor data tail i min => some (c, scanAt c.ring data tail (i + 1) (minStep min (c.ring.cursors i)))
  | storeMark data tail =>
    let s := c.ring.slot tail
    some ({ c with ring := c.ring.setSlot tail { s with seq := setFlag SEQ_WRITING tail } }, storeLen data tail)
  | storeLen data tail =>
    let s := c.ring.slot tail
    some ({ c with ring := c.ring.setSlot tail { s with len := data.length % 2 ^ 32 } }, copyAt data tail 0)
  | storeByte data tail k =>
    let s := c.ring.slot tail
    some ({ c with ring := c.ring.setSlot tail { s with payload := Function.update s.payload k (data.getD k 0) } },
      copyAt data tail (k + 1))
  | storeSeq data tail =>
    let s := c.ring.slot tail
    some ({ ring := c.ring.setSlot tail { s with seq := tail }, log := Function.update c.log tail (some data) },
      storeTail data tail)
  | storeTail _ tail => some ({ c with ring := c.ring.setTail (tail + 1) }, returned true)
  | returned _ => none

/-- The payload and the position of a call past its load of `tail` -/
def target : PublishPc → Option (Bytes × Nat)
  | loadCursor data tail _ _ | storeMark data tail | storeLen data tail | storeByte data tail _
  | storeSeq data tail | storeTail data tail => some (data, tail)
  | _ => none

/-- The call has marked its slot and has not yet advanced the tail. -/
def Writing : PublishPc → Prop
  | storeLen .. | storeByte .. | storeSeq .. | storeTail .. => True
  | _ => False

/-- The call is past the comparison: it will write its slot. -/
def Passed : PublishPc → Prop
  | storeMark .. | storeLen .. | storeByte .. | storeSeq .. | storeTail .. => True
  | _ => False

/-- The slot is committed, the tail not yet advanced. -/
def Committed : PublishPc → Prop
  | storeTail .. => True
  | _ => False

/-- What the slot of the call holds so far -/
def SlotSoFar (c : Channel) : PublishPc → Prop
  | storeLen _ tail => (c.ring.slot tail).seq = setFlag SEQ_WRITING tail
  | storeByte data tail k => (c.ring.slot tail).seq = setFlag SEQ_WRITING tail ∧
      (c.ring.slot tail).len = data.length ∧ k < data.length ∧
      ∀ j, j < k → data[j]? = some ((c.ring.slot tail).payload j)
  | storeSeq data tail => (c.ring.slot tail).seq = setFlag SEQ_WRITING tail ∧
      (c.ring.slot tail).len = data.length ∧
      ∀ j, j < data.length → data[j]? = some ((c.ring.slot tail).payload j)
  | storeTail data tail => (c.ring.slot tail).Holds tail data ∧ c.log tail = some data
  | _ => True

/-- No call is in progress. -/
def Free : PublishPc → Bool
  | idle | returned _ => true
  | _ => false

theorem not_writing_of_free {pc : PublishPc} (h : pc.Free = true) : ¬pc.Writing := by
  cases pc <;> simp_all [Free, Writing]

theorem passed_of_writing {pc : PublishPc} (h : pc.Writing) : pc.Passed := by
  cases pc <;> simp_all [Writing, Passed]

/-- The payload a call was given -/
def payload : PublishPc → Option Bytes
  | loadTail _ data | loadCursor data _ _ _ | storeMark data _ | storeLen data _ | storeByte data _ _
  | storeSeq data _ | storeTail data _ => some data
  | idle | returned _ => none

end PublishPc

open PublishPc

/-- The slots of a channel whose generation began at the tail `base`, in the middle of a publish call.  A call is
begun with a payload that fits a slot, at a position below the marker bit. -/
structure PublishInv (base : Nat) (c : Channel) (pc : PublishPc) : Prop where
  cap_pos : 0 < c.ring.cap
  base_le : base ≤ c.ring.tail
  tail_le : c.ring.tail ≤ 2 ^ SEQ_WRITING
  payload_fits : ∀ data, pc.payload = some data →
    data.length ≤ c.ring.slotSize ∧ c.ring.tail < 2 ^ SEQ_WRITING
  target_tail : ∀ data tail, pc.target = some (data, tail) → tail = c.ring.tail
  log_some : ∀ p, base ≤ p → p < c.ring.tail → ∃ data, c.log p = some data ∧ data.length ≤ c.ring.slotSize
  log_none : ∀ p, c.ring.tail ≤ p → c.log p ≠ none → p = c.ring.tail ∧ pc.Committed
  held : ∀ p data, base ≤ p → p < c.ring.tail → c.ring.tail ≤ p + c.ring.cap →
    (pc.Writing → c.ring.tail < p + c.ring.cap) → c.log p = some data → (c.ring.slot p).Holds p data
  slot_so_far : pc.SlotSoFar c

/-- Two positions less than a lap apart lie in different slots. -/
theorem slot_ne_of_lap {cap p q : Nat} (h : p < q) (hlap : q < p + cap) : p % cap ≠ q % cap := by
  intro he
  have h1 : (q - p) % cap = 0 := Nat.sub_mod_eq_zero_of_mod_eq he.symm
  rw [Nat.mod_eq_of_lt (by omega)] at h1
  omega

/-- The last position below `tail` that lies in the slot `j`, once the slot has been used -/
theorem exists_last_lap {cap tail j : Nat} (hj : j < cap) (ht : j < tail) :
    ∃ p, p % cap = j ∧ p < tail ∧ tail ≤ p + cap := by
  refine ⟨j + cap * ((tail - 1 - j) / cap), ?_, ?_, ?_⟩
  · rw [Nat.add_mul_mod_self_left, Nat.mod_eq_of_lt hj]
  · have := Nat.mul_div_le (tail - 1 - j) cap
    omega
  · have := Nat.lt_mul_div_succ (tail - 1 - j) (by omega : 0 < cap)
    rw [Nat.mul_add, Nat.mul_one] at this
    omega

/-- The slot of `e` is marked for a position that lies in it, or holds what was committed for this position. -/
def Channel.Shows (c : Channel) (e : Nat) : Prop :=
  ∃ p, p % c.ring.cap = e % c.ring.cap ∧ p < 2 ^ SEQ_WRITING ∧
    ((c.ring.slot e).seq = setFlag SEQ_WRITING p ∨ ∃ data, c.log p = some data ∧ (c.ring.slot e).Holds p data)

namespace Channel.Shows

variable {c : Channel} {e : Nat}

theorem mod_cap (h : c.Shows e) : dropFlag SEQ_WRITING (c.ring.slot e).seq % c.ring.cap = e % c.ring.cap := by
  obtain ⟨p, hp, hlim, hmark | ⟨data, -, hseq, -⟩⟩ := h
  · rw [hmark, dropFlag_setFlag hlim, hp]
  · rw [hseq, dropFlag_of_lt hlim, hp]

theorem committed (h : c.Shows e) (hmark : hasFlag SEQ_WRITING (c.ring.slot e).seq = false) :
    (c.ring.slot e).seq % c.ring.cap = e % c.ring.cap ∧
      ∃ data, c.log (c.ring.slot e).seq = some data ∧ (c.ring.slot e).Holds (c.ring.slot e).seq data := by
  obtain ⟨p, hp, hlim, hset | ⟨data, hl, hh⟩⟩ := h
  · rw [hset, hasFlag_setFlag hlim] at hmark
    cases hmark
  · rw [hh.1]
    exact ⟨hp, data, hl, hh⟩

end Channel.Shows

namespace PublishInv

variable {base : Nat} {c c' : Channel} {pc pc' : PublishPc}

/-- A slot that has been used shows a position that lies in it. -/
theorem shows (h : PublishInv 0 c pc) {e : Nat}
    (hused : e % c.ring.cap < c.ring.tail ∨ pc.Writing ∧ c.ring.tail % c.ring.cap = e % c.ring.cap) : c.Shows e := by
  by_cases hw : pc.Writing ∧ c.ring.tail % c.ring.cap = e % c.ring.cap
  · -- the slot of the call in progress: marked, or committed already
    have hsame : c.ring.slot e = c.ring.slot c.ring.tail := by
      unfold slot
      rw [hw.2]
    have hso := h.slot_so_far
    cases pc with
    | storeLen data tail =>
      obtain rfl := h.target_tail data tail rfl
      exact ⟨_, hw.2, (h.payload_fits data rfl).2, .inl (hsame ▸ hso)⟩
    | storeByte data tail k | storeSeq data tail =>
      obtain rfl := h.target_tail data tail rfl
      exact ⟨_, hw.2, (h.payload_fits data rfl).2, .inl (hsame ▸ hso.1)⟩
    | storeTail data tail =>
      obtain rfl := h.target_tail data tail rfl
      exact ⟨_, hw.2, (h.payload_fits data rfl).2, .inr ⟨data, hso.2, hsame ▸ hso.1⟩⟩
    | _ => exact hw.1.elim
  · -- the slot holds the last position that lies in it
    obtain ⟨p, hpj, hpt, hlap⟩ := exists_last_lap (Nat.mod_lt _ h.cap_pos) (hused.resolve_right hw)
    obtain ⟨data, hl, -⟩ := h.log_some p (Nat.zero_le _) hpt
    have hsame : c.ring.slot e = c.ring.slot p := by
      unfold slot
      rw [hpj]
    have hh : (c.ring.slot p).Holds p data := by
      refine h.held p data (Nat.zero_le _) hpt hlap (fun hwr => ?_) hl
      by_contra hge
      have htail : c.ring.tail = p + c.ring.cap := by omega
      exact hw ⟨hwr, by rw [htail, Nat.add_mod_right, hpj]⟩
    exact ⟨p, hpj, hpt.trans_le h.tail_le, .inr ⟨data, hl, hsame ▸ hh⟩⟩

/-- A generation that has published nothing -/
theorem fresh (hcap : 0 < c.ring.cap) (htail : c.ring.tail = 0) (hlog : c.log = fun _ => none) :
    PublishInv 0 c .idle where
  cap_pos := hcap
  base_le := Nat.zero_le _
  tail_le := by simp [htail]
  payload_fits _ hd := by cases hd
  target_tail _ _ hd := by cases hd
  log_some p _ hp := by simp [htail] at hp
  log_none p _ hl := absurd (congrFun hlog p) hl
  held p _ _ hp := by simp [htail] at hp
  slot_so_far := trivial

/-- A call is begun where none is in progress. -/
theorem begin {policy : BackpressurePolicy} {data : Bytes} (h : PublishInv base c pc) (hfree : pc.Free = true)
    (hfit : data.length ≤ c.ring.slotSize) (hlim : c.ring.tail < 2 ^ SEQ_WRITING) :
    PublishInv base c (.loadTail policy data) where
  cap_pos := h.cap_pos
  base_le := h.base_le
  tail_le := h.tail_le
  payload_fits d hd := by
    obtain rfl : data = d := by simpa [payload] using hd
    exact ⟨hfit, hlim⟩
  target_tail d t hd := by cases hd
  log_some := h.log_some
  log_none p hp hl := by
    have hcom := (h.log_none p hp hl).2
    cases pc <;> simp_all [Free, Committed]
  held p d hb hlt hlap _ hl := h.held p d hb hlt hlap (fun hw => (not_writing_of_free hfree hw).elim) hl
  slot_so_far := trivial

/-- A call that has returned is over. -/
theorem finish (h : PublishInv base c pc) (hfree : pc.Free = true) : PublishInv base c .idle where
  cap_pos := h.cap_pos
  base_le := h.base_le
  tail_le := h.tail_le
  payload_fits d hd := by cases hd
  target_tail d t hd := by cases hd
  log_some := h.log_some
  log_none p hp hl := by
    have hcom := (h.log_none p hp hl).2
    cases pc <;> simp_all [Free, Committed]
  held p d hb hlt hlap _ hl := h.held p d hb hlt hlap (fun hw => (not_writing_of_free hfree hw).elim) hl
  slot_so_far := trivial

/-- The cursor and wakeup-flag tables play no role. -/
theorem tables (h : PublishInv base c pc) (cursors wakeflags : Nat → Nat) :
    PublishInv base { c with ring := { c.ring with cursors := cursors, wakeflags := wakeflags } } pc where
  cap_pos := h.cap_pos
  base_le := h.base_le
  tail_le := h.tail_le
  payload_fits := h.payload_fits
  target_tail := h.target_tail
  log_some := h.log_some
  log_none := h.log_none
  held := h.held
  slot_so_far := by
    have hso := h.slot_so_far
    cases pc <;> exact hso

/-! ### A step of the publisher keeps the invariant -/

/-- A step that only loads -/
private theorem load (h : PublishInv base c pc) (hw : ¬pc.Writing) (hw' : ¬pc'.Writing)
    (hpay : ∀ data, pc'.payload = some data → pc.payload = some data)
    (htgt : ∀ data tail, pc'.target = some (data, tail) → tail = c.ring.tail) : PublishInv base c pc' where
  cap_pos := h.cap_pos
  base_le := h.base_le
  tail_le := h.tail_le
  payload_fits data hd := h.payload_fits data (hpay data hd)
  target_tail := htgt
  log_some := h.log_some
  log_none p hp hl := by
    obtain ⟨rfl, hc⟩ := h.log_none p hp hl
    cases pc <;> simp_all [Committed, Writing]
  held p data hb hp hlap _ hl := h.held p data hb hp hlap (fun hw₁ => absurd hw₁ hw) hl
  slot_so_far := by cases pc' <;> simp_all [Writing, SlotSoFar]

/-- A store into the slot of the call, before the commit -/
private theorem store {s : Slot} {data : Bytes} {tail : Nat} (h : PublishInv base c pc)
    (ht : pc.target = some (data, tail)) (hc : ¬pc.Committed) (hw' : pc'.Writing) (hpay : pc'.payload = pc.payload) (ht' : pc'.target = pc.target)
    (hs : pc'.SlotSoFar { c with ring := c.ring.setSlot tail s }) :
    PublishInv base { c with ring := c.ring.setSlot tail s } pc' where
  cap_pos := h.cap_pos
  base_le := h.base_le
  tail_le := h.tail_le
  payload_fits data hd := h.payload_fits data (hpay ▸ hd)
  target_tail data tail hd := h.target_tail data tail (ht' ▸ hd)
  log_some := h.log_some
  log_none p hp hl := absurd (h.log_none p hp hl).2 hc
  held p d hb hlt hlap hw hl := by
    have htail : tail = c.ring.tail := h.target_tail data tail ht
    have hlap' : c.ring.tail < p + c.ring.cap := hw hw'
    have hne : p % c.ring.cap ≠ tail % c.ring.cap := htail ▸ slot_ne_of_lap hlt hlap'
    show ((c.ring.setSlot tail s).slot p).Holds p d
    rw [setSlot_slot, if_neg hne]
    exact h.held p d hb hlt hlap (fun _ => hlap') hl
  slot_so_far := hs

/-- The commit of the slot -/
private theorem commit {data : Bytes} {tail : Nat} (h : PublishInv base c (.storeSeq data tail)) :
    PublishInv base
      { ring := c.ring.setSlot tail { c.ring.slot tail with seq := tail },
        log := Function.update c.log tail (some data) } (.storeTail data tail) where
  cap_pos := h.cap_pos
  base_le := h.base_le
  tail_le := h.tail_le
  payload_fits d hd := h.payload_fits d hd
  target_tail d t hd := h.target_tail d t hd
  log_some p hb hp := by
    have htail : tail = c.ring.tail := h.target_tail data tail rfl
    have hne : p ≠ tail := by
      rintro rfl
      exact absurd hp (by simp [← htail])
    simpa [Function.update_of_ne hne] using h.log_some p hb hp
  log_none p hp hl := by
    have htail : tail = c.ring.tail := h.target_tail data tail rfl
    by_cases hpt : p = tail
    · exact ⟨hpt.trans htail, trivial⟩
    · have hl' : c.log p ≠ none := by simpa [Function.update_of_ne hpt] using hl
      exact absurd (h.log_none p hp hl').2 (by simp [Committed])
  held p d hb hlt hlap hw hl := by
    have htail : tail = c.ring.tail := h.target_tail data tail rfl
    have hlt' : p < tail := htail ▸ hlt
    have hlap' : c.ring.tail < p + c.ring.cap := hw trivial
    have hne : p % c.ring.cap ≠ tail % c.ring.cap := htail ▸ slot_ne_of_lap hlt hlap'
    have hl' : c.log p = some d := by simpa [Function.update_of_ne hlt'.ne] using hl
    show ((c.ring.setSlot tail _).slot p).Holds p d
    rw [setSlot_slot, if_neg hne]
    exact h.held p d hb hlt hlap (fun _ => hlap') hl'
  slot_so_far := by
    obtain ⟨-, hlen, hbytes⟩ := h.slot_so_far
    exact ⟨by simpa [Slot.Holds, hlen] using hbytes, by simp⟩

/-- The store of the tail ends the call. -/
private theorem advance {data : Bytes} {tail : Nat} (h : PublishInv base c (.storeTail data tail)) :
    PublishInv base { c with ring := c.ring.setTail (tail + 1) } (.returned true) where
  cap_pos := h.cap_pos
  base_le := by
    have := h.base_le
    have := h.target_tail data tail rfl
    simp only [setTail_tail]
    omega
  tail_le := by
    have := (h.payload_fits data rfl).2
    have := h.target_tail data tail rfl
    simp only [setTail_tail]
    omega
  payload_fits d hd := by simp [payload] at hd
  target_tail d t hd := by simp [target] at hd
  log_some p hb hp := by
    have htail := h.target_tail data tail rfl
    simp only [setTail_tail] at hp
    by_cases hpt : p = tail
    · subst hpt
      exact ⟨data, h.slot_so_far.2, (h.payload_fits data rfl).1⟩
    · exact h.log_some p hb (by omega)
  log_none p hp hl := by
    have htail := h.target_tail data tail rfl
    simp only [setTail_tail] at hp
    have := h.log_none p (by omega) hl
    omega
  held p d hb hlt hlap _ hl := by
    have htail := h.target_tail data tail rfl
    simp only [setTail_tail, setTail_cap] at hlt hlap
    show (c.ring.slot p).Holds p d
    by_cases hpt : p = tail
    · subst hpt
      have hd : data = d := by simpa [h.slot_so_far.2] using hl
      exact hd ▸ h.slot_so_far.1
    · exact h.held p d hb (by omega) (by omega) (fun _ => by omega) hl
  slot_so_far := trivial

private theorem scan {data : Bytes} {tail i : Nat} {min : Option Nat} (h : PublishInv base c pc)
    (hw : ¬pc.Writing) (hpay : pc.payload = some data) (ht : tail = c.ring.tail) :
    PublishInv base c (scanAt c.ring data tail i min) := by
  unfold scanAt
  split
  · exact h.load hw id (fun d hd => hpay.trans hd) (fun d t hd => by simp_all [target])
  · split
    · exact h.load hw id (fun d hd => by simp [payload] at hd) (fun d t hd => by simp [target] at hd)
    · exact h.load hw id (fun d hd => hpay.trans hd) (fun d t hd => by simp_all [target])

theorem step (h : PublishInv base c pc) (hs : pc.step c = some (c', pc')) : PublishInv base c' pc' := by
  cases pc with
  | idle | returned _ => simp [PublishPc.step] at hs
  | loadTail policy data =>
    cases policy with
    | error =>
      obtain ⟨rfl, rfl⟩ : c = c' ∧ scanAt c.ring data c.ring.tail 0 none = pc' := by
        simpa [PublishPc.step] using hs
      exact h.scan id rfl rfl
    | dropOldest =>
      obtain ⟨rfl, rfl⟩ : c = c' ∧ storeMark data c.ring.tail = pc' := by simpa [PublishPc.step] using hs
      exact h.load id id (fun d hd => hd) (fun d t hd => by simp_all [target])
  | loadCursor data tail i min =>
    obtain ⟨rfl, rfl⟩ : c = c' ∧ scanAt c.ring data tail (i + 1) (minStep min (c.ring.cursors i)) = pc' := by
      simpa [PublishPc.step] using hs
    exact h.scan id rfl (h.target_tail data tail rfl)
  | storeMark data tail =>
    simp only [PublishPc.step, Option.some.injEq, Prod.mk.injEq] at hs
    obtain ⟨rfl, rfl⟩ := hs
    exact h.store rfl id trivial rfl rfl (by simp [SlotSoFar])
  | storeLen data tail =>
    simp only [PublishPc.step, Option.some.injEq, Prod.mk.injEq] at hs
    obtain ⟨rfl, rfl⟩ := hs
    have hlen : data.length < 2 ^ 32 := (h.payload_fits data rfl).1.trans_lt c.ring.slotSize_lt
    have hseq : (c.ring.slot tail).seq = setFlag SEQ_WRITING tail := h.slot_so_far
    unfold copyAt
    split
    · rename_i hpos
      exact h.store rfl id trivial rfl rfl ⟨by simp [hseq], by simpa using hlen, hpos, by omega⟩
    · exact h.store rfl id trivial rfl rfl ⟨by simp [hseq], by simpa using hlen, by omega⟩
  | storeByte data tail k =>
    simp only [PublishPc.step, Option.some.injEq, Prod.mk.injEq] at hs
    obtain ⟨rfl, rfl⟩ := hs
    obtain ⟨hseq, hlen, hk, hbytes⟩ := h.slot_so_far
    -- the bytes up to and including `k` are now those of the payload
    have hcopied : ∀ j, j < k + 1 → data[j]? =
        some (Function.update (c.ring.slot tail).payload k (data.getD k 0) j) := by
      intro j hj
      by_cases hjk : j = k
      · subst hjk
        simp [List.getElem?_eq_getElem hk]
      · rw [Function.update_of_ne hjk]
        exact hbytes j (by omega)
    unfold copyAt
    split
    · rename_i hk'
      exact h.store rfl id trivial rfl rfl ⟨by simp [hseq], by simp [hlen], hk', by simpa using hcopied⟩
    · exact h.store rfl id trivial rfl rfl
        ⟨by simp [hseq], by simp [hlen], fun j hj => by simpa using hcopied j (by omega)⟩
  | storeSeq data tail =>
    simp only [PublishPc.step, Option.some.injEq, Prod.mk.injEq] at hs
    obtain ⟨rfl, rfl⟩ := hs
    exact h.commit
  | storeTail data tail =>
    simp only [PublishPc.step, Option.some.injEq, Prod.mk.injEq] at hs
    obtain ⟨rfl, rfl⟩ := hs
    exact h.advance

/-! ### What a step leaves alone -/

/-- A position that is committed keeps its payload. -/
theorem log_step (h : PublishInv base c pc) (hs : pc.step c = some (c', pc')) {p : Nat} {data : Bytes}
    (hl : c.log p = some data) : c'.log p = some data := by
  cases pc with
  | idle | returned _ => simp [PublishPc.step] at hs
  | storeSeq data' tail =>
    simp only [PublishPc.step, Option.some.injEq, Prod.mk.injEq] at hs
    obtain ⟨rfl, -⟩ := hs
    have hne : p ≠ tail := by
      rintro rfl
      exact (h.log_none p (h.target_tail data' p rfl).ge (by simp [hl])).2
    simpa [Function.update_of_ne hne] using hl
  | loadTail policy data =>
    cases policy <;>
    · simp only [PublishPc.step, Option.some.injEq, Prod.mk.injEq] at hs
      exact hs.1 ▸ hl
  | _ =>
    simp only [PublishPc.step, Option.some.injEq, Prod.mk.injEq] at hs
    exact hs.1 ▸ hl

/-- A step that touches the slot of a committed position `p` marks it or commits it for a later position. -/
theorem slot_step (h : PublishInv base c pc) (hs : pc.step c = some (c', pc')) {p : Nat}
    (hl : c.log p ≠ none) :
    c'.ring.slot p = c.ring.slot p ∨ p < dropFlag SEQ_WRITING (c'.ring.slot p).seq := by
  -- the position of the call comes after `p` and is below the marker bit
  have later : ∀ data tail, pc.target = some (data, tail) → pc.payload = some data → ¬pc.Committed →
      p < tail ∧ tail < 2 ^ SEQ_WRITING := by
    intro data tail ht hpay hc
    obtain rfl := h.target_tail data tail ht
    refine ⟨?_, (h.payload_fits data hpay).2⟩
    by_contra hp
    exact hc (h.log_none p (by omega) hl).2
  -- a store of the call into its slot
  have stored : ∀ tail (s : Slot), p < dropFlag SEQ_WRITING s.seq →
      (c.ring.setSlot tail s).slot p = c.ring.slot p ∨
        p < dropFlag SEQ_WRITING ((c.ring.setSlot tail s).slot p).seq := by
    intro tail s hlt
    rw [setSlot_slot]
    split
    · exact .inr hlt
    · exact .inl rfl
  cases pc with
  | idle | returned _ => simp [PublishPc.step] at hs
  | loadTail policy data =>
    cases policy <;>
    · simp only [PublishPc.step, Option.some.injEq, Prod.mk.injEq] at hs
      exact .inl (hs.1 ▸ rfl)
  | loadCursor data tail i min | storeTail data tail =>
    simp only [PublishPc.step, Option.some.injEq, Prod.mk.injEq] at hs
    exact .inl (hs.1 ▸ rfl)
  | storeMark data tail =>
    simp only [PublishPc.step, Option.some.injEq, Prod.mk.injEq] at hs
    obtain ⟨rfl, -⟩ := hs
    obtain ⟨hlt, hlim⟩ := later data tail rfl rfl id
    exact stored tail _ (by simpa [dropFlag_setFlag hlim] using hlt)
  | storeLen data tail =>
    simp only [PublishPc.step, Option.some.injEq, Prod.mk.injEq] at hs
    obtain ⟨rfl, -⟩ := hs
    obtain ⟨hlt, hlim⟩ := later data tail rfl rfl id
    have hseq : (c.ring.slot tail).seq = setFlag SEQ_WRITING tail := h.slot_so_far
    exact stored tail _ (by simpa [hseq, dropFlag_setFlag hlim] using hlt)
  | storeByte data tail k =>
    simp only [PublishPc.step, Option.some.injEq, Prod.mk.injEq] at hs
    obtain ⟨rfl, -⟩ := hs
    obtain ⟨hlt, hlim⟩ := later data tail rfl rfl id
    have hseq : (c.ring.slot tail).seq = setFlag SEQ_WRITING tail := h.slot_so_far.1
    exact stored tail _ (by simpa [hseq, dropFlag_setFlag hlim] using hlt)
  | storeSeq data tail =>
    simp only [PublishPc.step, Option.some.injEq, Prod.mk.injEq] at hs
    obtain ⟨rfl, -⟩ := hs
    obtain ⟨hlt, hlim⟩ := later data tail rfl rfl id
    exact stored tail _ (by simpa [dropFlag_of_lt hlim] using hlt)

theorem tail_le_step (h : PublishInv base c pc) (hs : pc.step c = some (c', pc')) :
    c.ring.tail ≤ c'.ring.tail := by
  cases pc with
  | idle | returned _ => simp [PublishPc.step] at hs
  | loadTail policy data =>
    cases policy <;>
    · simp only [PublishPc.step, Option.some.injEq, Prod.mk.injEq] at hs
      exact hs.1 ▸ le_rfl
  | storeTail data tail =>
    have htail := h.target_tail data tail rfl
    simp only [PublishPc.step, Option.some.injEq, Prod.mk.injEq] at hs
    obtain ⟨rfl, -⟩ := hs
    simp only [setTail_tail]
    omega
  | _ =>
    simp only [PublishPc.step, Option.some.injEq, Prod.mk.injEq] at hs
    exact hs.1 ▸ le_rfl

/-- The `seq` words stay words. -/
theorem seq_lt_step (h : PublishInv base c pc) (hseq : ∀ j, (c.ring.slots j).seq < 2 ^ 64)
    (hs : pc.step c = some (c', pc')) : ∀ j, (c'.ring.slots j).seq < 2 ^ 64 := by
  have stored : ∀ tail (s : Slot), s.seq < 2 ^ 64 → ∀ j, ((c.ring.setSlot tail s).slots j).seq < 2 ^ 64 := by
    intro tail s hlt j
    rw [setSlot_slots]
    split
    · exact hlt
    · exact hseq j
  cases pc with
  | idle | returned _ => simp [PublishPc.step] at hs
  | loadTail policy data =>
    cases policy <;>
    · simp only [PublishPc.step, Option.some.injEq, Prod.mk.injEq] at hs
      obtain ⟨rfl, -⟩ := hs
      exact hseq
  | loadCursor data tail i min | storeTail data tail =>
    simp only [PublishPc.step, Option.some.injEq, Prod.mk.injEq] at hs
    obtain ⟨rfl, -⟩ := hs
    exact hseq
  | storeMark data tail =>
    simp only [PublishPc.step, Option.some.injEq, Prod.mk.injEq] at hs
    obtain ⟨rfl, -⟩ := hs
    obtain rfl := h.target_tail data tail rfl
    exact stored _ _ (setFlag_lt (h.payload_fits data rfl).2)
  | storeLen data tail | storeByte data tail k =>
    simp only [PublishPc.step, Option.some.injEq, Prod.mk.injEq] at hs
    obtain ⟨rfl, -⟩ := hs
    exact stored _ _ (hseq _)
  | storeSeq data tail =>
    simp only [PublishPc.step, Option.some.injEq, Prod.mk.injEq] at hs
    obtain ⟨rfl, -⟩ := hs
    obtain rfl := h.target_tail data tail rfl
    exact stored _ _ ((h.payload_fits data rfl).2.trans (by decide))

end PublishInv

namespace PublishPc

/-- The publisher writes no cursor and no wakeup flag, and keeps the shape and the generation. -/
theorem frame_step {c c' : Channel} {pc pc' : PublishPc} (hs : pc.step c = some (c', pc')) :
    c'.ring.cap = c.ring.cap ∧ c'.ring.slotSize = c.ring.slotSize ∧ c'.ring.maxSubs = c.ring.maxSubs ∧
      c'.ring.cursors = c.ring.cursors ∧ c'.ring.wakeflags = c.ring.wakeflags ∧
      c'.ring.generation = c.ring.generation := by
  cases pc with
  | idle | returned _ => simp [PublishPc.step] at hs
  | loadTail policy data =>
    cases policy <;>
    · simp only [PublishPc.step, Option.some.injEq, Prod.mk.injEq] at hs
      obtain ⟨rfl, -⟩ := hs
      simp
  | _ =>
    simp only [PublishPc.step, Option.some.injEq, Prod.mk.injEq] at hs
    obtain ⟨rfl, -⟩ := hs
    simp

/-- The tail moves with the last access of a successful call. -/
theorem tail_step {c c' : Channel} {pc pc' : PublishPc} (hs : pc.step c = some (c', pc')) (hpc : pc' ≠ .returned true) :
    c'.ring.tail = c.ring.tail := by
  cases pc with
  | idle | returned _ => simp [PublishPc.step] at hs
  | loadTail policy data =>
    cases policy <;>
    · simp only [PublishPc.step, Option.some.injEq, Prod.mk.injEq] at hs
      rw [← hs.1]
  | storeTail data tail =>
    simp only [PublishPc.step, Option.some.injEq, Prod.mk.injEq] at hs
    exact absurd hs.2.symm hpc
  | _ =>
    simp only [PublishPc.step, Option.some.injEq, Prod.mk.injEq] at hs
    obtain ⟨rfl, -⟩ := hs
    simp

/-- Only a new call loads the tail. -/
theorem step_ne_loadTail {c c' : Channel} {pc pc' : PublishPc} (hs : pc.step c = some (c', pc'))
    (policy : BackpressurePolicy) (data : Bytes) : pc' ≠ .loadTail policy data := by
  have hscan : ∀ d t i m, scanAt c.ring d t i m ≠ .loadTail policy data := by
    intro d t i m
    unfold scanAt
    split
    · simp
    · split <;> simp
  have hcopy : ∀ d t k, copyAt d t k ≠ .loadTail policy data := by
    intro d t k
    unfold copyAt
    split <;> simp
  cases pc with
  | idle | returned => simp [PublishPc.step] at hs
  | loadTail policy' data' =>
    cases policy' <;>
    · simp only [PublishPc.step, Option.some.injEq, Prod.mk.injEq] at hs
      obtain ⟨-, rfl⟩ := hs
      first | exact hscan _ _ _ _ | simp
  | _ =>
    simp only [PublishPc.step, Option.some.injEq, Prod.mk.injEq] at hs
    obtain ⟨-, rfl⟩ := hs
    first | exact hscan _ _ _ _ | exact hcopy _ _ _ | simp

end PublishPc

end Mmbus
