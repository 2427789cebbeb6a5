import Mmbus.Subscriber

/-!
# Overrun

What a subscriber reads after `publish_drop_oldest` has overwritten messages that it has not read.  `try_receive` skips to
the message that it finds in the slot of its cursor, the newest one there and not the oldest one in the ring.
`overrun_exact_iff`: the two are the same exactly if the subscriber is at most a lap behind, or whole laps.
-/

namespace Mmbus

open FlagBit

theorem Slot.Holds.read {s : Slot} {p : Nat} {data : Bytes} (h : s.Holds p data) : s.read = data := by
  obtain ⟨-, hlen, hbytes⟩ := h
  apply List.ext_getElem?
  intro k
  rw [Slot.read, List.getElem?_map, hlen]
  by_cases hk : k < data.length
  · rw [List.getElem?_range hk, hbytes k hk]
    rfl
  · rw [List.getElem?_eq_none (by simpa using hk), List.getElem?_eq_none (by omega)]
    rfl

namespace RingBuffer

/-- The ring after a history of `publish_drop_oldest` -/
def dropOldestAll (r : RingBuffer) (history : List Bytes) : RingBuffer :=
  history.foldl (fun r data => (r.publishDropOldest data).1) r

/-- What the next `k` calls of `try_receive` deliver -/
def receiveMany (idx : Nat) : (k cursor : Nat) → RingBuffer → List Bytes
  | 0, _, _ => []
  | k + 1, cursor, r =>
    match r.tryReceive idx cursor with
    | (r, some (cursor, out)) => out :: receiveMany idx k cursor r
    | (r, none) => receiveMany idx k cursor r

/-- The oldest unread position that is still in the ring -/
def oldestUnread (r : RingBuffer) (cursor : Nat) : Nat := max cursor (r.tail - r.cap)

/-- The newest position in the slot of `p` -/
def newest (r : RingBuffer) (p : Nat) : Nat := r.tail - 1 - (r.tail - 1 - p) % r.cap

/-- The last lap of the history lies in the slots. -/
structure Filled (r : RingBuffer) (history : List Bytes) : Prop where
  cap_pos : 0 < r.cap
  tail_eq : r.tail = history.length
  fits : ∀ data ∈ history, data.length ≤ r.slotSize
  holds : ∀ p data, history[p]? = some data → r.tail ≤ p + r.cap → (r.slot p).Holds p data

variable {r : RingBuffer} {history : List Bytes} {data : Bytes} {p : Nat}

/-! ### The positions of a slot -/

theorem newest_lt (h : p < r.tail) : r.newest p < r.tail := by
  unfold newest
  omega

theorem le_newest (h : p < r.tail) : p ≤ r.newest p := by
  have := Nat.mod_le (r.tail - 1 - p) r.cap
  unfold newest
  omega

theorem tail_le_newest (hcap : 0 < r.cap) : r.tail ≤ r.newest p + r.cap := by
  have := Nat.mod_lt (r.tail - 1 - p) hcap
  unfold newest
  omega

theorem newest_mod (h : p < r.tail) : r.newest p % r.cap = p % r.cap := by
  have hsplit := Nat.div_add_mod (r.tail - 1 - p) r.cap
  have hnewest : r.newest p = p + r.cap * ((r.tail - 1 - p) / r.cap) := by
    unfold newest
    omega
  rw [hnewest, Nat.add_mul_mod_self_left]

theorem newest_eq_self (h : p < r.tail) (hlap : r.tail ≤ p + r.cap) : r.newest p = p := by
  unfold newest
  rw [Nat.mod_eq_of_lt (by omega)]
  omega

/-- A cursor that is a lap behind or whole laps finds the oldest unread position in its slot. -/
theorem newest_eq_oldestUnread_iff (hcap : 0 < r.cap) (h : p < r.tail) :
    r.newest p = r.oldestUnread p ↔ r.tail ≤ p + r.cap ∨ r.cap ∣ r.tail - p := by
  unfold oldestUnread
  by_cases hlap : r.tail ≤ p + r.cap
  · rw [newest_eq_self h hlap, max_eq_left (by omega)]
    simp [hlap]
  · rw [max_eq_right (by omega), or_iff_right hlap, Nat.dvd_iff_mod_eq_zero]
    have hmod := Nat.mod_lt (r.tail - 1 - p) hcap
    have hle := Nat.mod_le (r.tail - 1 - p) r.cap
    have hnext : (r.tail - p) % r.cap = ((r.tail - 1 - p) % r.cap + 1) % r.cap := by
      rw [Nat.mod_add_mod, show r.tail - 1 - p + 1 = r.tail - p by omega]
    rw [hnext]
    unfold newest
    by_cases hlast : (r.tail - 1 - p) % r.cap + 1 = r.cap
    · rw [hlast, Nat.mod_self]
      omega
    · have hself : ((r.tail - 1 - p) % r.cap + 1) % r.cap = (r.tail - 1 - p) % r.cap + 1 := Nat.mod_eq_of_lt (by omega)
      rw [hself]
      omega

/-! ### Publishing -/

theorem Filled.publishDropOldest (h : r.Filled history) (hfit : data.length ≤ r.slotSize) :
    (r.publishDropOldest data).1.Filled (history ++ [data]) := by
  have htail : (r.publishDropOldest data).1.tail = r.tail + 1 := rfl
  refine ⟨h.cap_pos, ?_, fun d hd => ?_, fun p d hp hlap => ?_⟩
  · rw [htail, h.tail_eq, List.length_append, List.length_singleton]
  · rcases List.mem_append.1 hd with hold | hnew
    · exact h.fits d hold
    · rw [List.mem_singleton.1 hnew]
      exact hfit
  · have hlap' : r.tail + 1 ≤ p + r.cap := hlap
    show ((r.writeSlot r.tail data).slot p).Holds p d
    rw [writeSlot, setSlot_slot]
    rcases Nat.lt_or_ge p history.length with hlt | hge
    · -- a position of the last lap that is not the new one lies in another slot
      rw [if_neg (slot_ne_of_lap (h.tail_eq ▸ hlt) (by omega))]
      rw [List.getElem?_append_left hlt] at hp
      exact h.holds p d hp (by omega)
    · have hp' : p = r.tail ∧ d = data := by
        rw [List.getElem?_append_right hge] at hp
        have := h.tail_eq
        cases hk : p - history.length with
        | zero =>
          rw [hk] at hp
          exact ⟨by omega, (Option.some.inj hp).symm⟩
        | succ k =>
          rw [hk] at hp
          cases hp
      obtain ⟨rfl, rfl⟩ := hp'
      rw [if_pos rfl]
      have hword : d.length % 2 ^ 32 = d.length := Nat.mod_eq_of_lt (Nat.lt_of_le_of_lt hfit r.slotSize_lt)
      refine ⟨rfl, hword, fun k hk => ?_⟩
      simp [List.getD_eq_getElem?_getD, List.getElem?_eq_getElem hk]

theorem filled_dropOldestAll (hcap : 0 < r.cap) (htail : r.tail = 0) (hfit : ∀ data ∈ history, data.length ≤ r.slotSize) :
    (r.dropOldestAll history).Filled history ∧ (r.dropOldestAll history).cap = r.cap := by
  have hrun : ∀ (rest done : List Bytes) (r' : RingBuffer), r'.Filled done → r'.cap = r.cap → r'.slotSize = r.slotSize →
      (∀ data ∈ rest, data.length ≤ r.slotSize) →
      (r'.dropOldestAll rest).Filled (done ++ rest) ∧ (r'.dropOldestAll rest).cap = r.cap := by
    intro rest
    induction rest with
    | nil =>
      intro done r' hr' hcap' _ _
      rw [List.append_nil]
      exact ⟨hr', hcap'⟩
    | cons data rest ih =>
      intro done r' hr' hcap' hsize hrest
      have hdata : data.length ≤ r'.slotSize := hsize ▸ hrest data (List.mem_cons_self ..)
      have := ih (done ++ [data]) _ (hr'.publishDropOldest hdata) hcap' hsize
        fun d hd => hrest d (List.mem_cons_of_mem _ hd)
      rwa [List.append_assoc, List.singleton_append] at this
  have hempty : r.Filled [] := ⟨hcap, htail, by simp, by simp⟩
  simpa using hrun history [] r hempty rfl rfl hfit

/-! ### Receiving -/

theorem Filled.setCursor (h : r.Filled history) (idx value : Nat) : (r.setCursor idx value).Filled history :=
  ⟨h.cap_pos, h.tail_eq, h.fits, h.holds⟩

/-- A reader behind the tail gets the newest message in the slot of its cursor. -/
theorem Filled.tryReceive (h : r.Filled history) (hlim : r.tail ≤ 2 ^ SEQ_WRITING) (idx : Nat) {cursor : Nat}
    (hcursor : cursor < r.tail) : ∃ data, history[r.newest cursor]? = some data ∧
      r.tryReceive idx cursor = (r.setCursor idx (r.newest cursor + 1), some (r.newest cursor + 1, data)) := by
  have hlt := newest_lt hcursor
  have hle := le_newest hcursor
  obtain ⟨data, hdata⟩ : ∃ data, history[r.newest cursor]? = some data :=
    ⟨_, List.getElem?_eq_getElem (h.tail_eq ▸ hlt)⟩
  have hholds := h.holds _ _ hdata (tail_le_newest h.cap_pos)
  have hslot : r.slot cursor = r.slot (r.newest cursor) := by rw [slot, slot, newest_mod hcursor]
  have hseq : (r.slot (r.newest cursor)).seq = r.newest cursor := hholds.1
  have hlen : ¬r.slotSize < (r.slot (r.newest cursor)).len := by
    have := h.fits data (List.mem_of_getElem? hdata)
    rw [hholds.2.1]
    omega
  have hflag : hasFlag SEQ_WRITING (r.newest cursor) = false := hasFlag_of_lt (by omega)
  have hhere : ∀ fuel, r.receiveLoop fuel (r.newest cursor) = some (r.newest cursor + 1, data) := by
    intro fuel
    unfold receiveLoop
    simp [hseq, hflag, hlen, hholds.read]
  have hloop : r.receiveLoop 15 cursor = some (r.newest cursor + 1, data) := by
    rcases Nat.eq_or_lt_of_le hle with heq | hskip
    · have hsame := hhere 15
      rwa [← heq] at hsame ⊢
    · unfold receiveLoop
      simp only [hslot, hseq, hflag, Bool.false_eq_true, if_false, if_pos hskip]
      exact hhere 14
  refine ⟨data, hdata, ?_⟩
  rw [RingBuffer.tryReceive, if_neg (Nat.not_le.2 hcursor), hloop]

/-- A reader that is at most a lap behind gets everything from its cursor on. -/
theorem Filled.receiveMany_lap (h : r.Filled history) (hlim : r.tail ≤ 2 ^ SEQ_WRITING) (idx k : Nat) {cursor : Nat}
    (hcursor : cursor ≤ r.tail) (hlap : r.tail ≤ cursor + r.cap) :
    receiveMany idx k cursor r = (history.drop cursor).take k := by
  induction k generalizing cursor r with
  | zero => rfl
  | succ k ih =>
    unfold receiveMany
    rcases Nat.eq_or_lt_of_le hcursor with rfl | hlt
    · rw [RingBuffer.tryReceive, if_pos (Nat.le_refl _)]
      dsimp only
      rw [ih h hlim hcursor hlap, h.tail_eq, List.drop_length, List.take_nil, List.take_nil]
    · obtain ⟨data, hdata, hreceive⟩ := h.tryReceive hlim idx hlt
      rw [newest_eq_self hlt hlap] at hdata hreceive
      rw [hreceive]
      dsimp only
      rw [ih (h.setCursor ..) hlim (show cursor + 1 ≤ r.tail from hlt) (show r.tail ≤ cursor + 1 + r.cap by omega)]
      obtain ⟨hbound, rfl⟩ := List.getElem?_eq_some_iff.1 hdata
      rw [List.drop_eq_getElem_cons hbound, List.take_succ_cons]

theorem Filled.receiveMany (h : r.Filled history) (hlim : r.tail ≤ 2 ^ SEQ_WRITING) (idx k : Nat) {cursor : Nat}
    (hcursor : cursor < r.tail) : receiveMany idx k cursor r = (history.drop (r.newest cursor)).take k := by
  cases k with
  | zero => rfl
  | succ k =>
    have hlt := newest_lt hcursor
    have hlap : r.tail ≤ r.newest cursor + r.cap := tail_le_newest h.cap_pos
    obtain ⟨data, hdata, hreceive⟩ := h.tryReceive hlim idx hcursor
    unfold RingBuffer.receiveMany
    rw [hreceive]
    dsimp only
    rw [(h.setCursor ..).receiveMany_lap hlim idx k (show r.newest cursor + 1 ≤ r.tail from hlt)
      (show r.tail ≤ r.newest cursor + 1 + r.cap by omega)]
    obtain ⟨hbound, rfl⟩ := List.getElem?_eq_some_iff.1 hdata
    rw [List.drop_eq_getElem_cons hbound, List.take_succ_cons]

/-- After any history, a subscriber below the tail gets the oldest unread message of the ring and then all that follow if
and only if the ring has not overtaken it, or by whole laps; so with `n` messages of history. -/
theorem overrun_exact_iff (existing : Option RingBuffer) (capacity slotPayloadSize maxSubscribers : UInt32)
    (hcap : 0 < capacity.toNat) (hfit : ∀ data ∈ history, data.length ≤ slotPayloadSize.toNat)
    (hlim : history.length ≤ 2 ^ SEQ_WRITING) (idx : Nat) :
    let r := (createOrReuse existing capacity slotPayloadSize maxSubscribers).dropOldestAll history
    (∀ cursor < r.tail, (r.tryReceive idx cursor).2 =
          (history[r.oldestUnread cursor]?).map (fun data => (r.oldestUnread cursor + 1, data)) ∧
        (∀ k, receiveMany idx k cursor r = (history.drop (r.oldestUnread cursor)).take k) ↔
      r.tail ≤ cursor + r.cap ∨ r.cap ∣ r.tail - cursor) ∧
    ∀ n cursor, Subscriber.startCursor r.cap r.tail (.historyBack n) = some cursor →
      ((∀ k, receiveMany idx k cursor r = (history.drop (history.length - min n (min r.cap r.tail))).take k) ↔
        min n r.tail ≤ r.cap ∨ r.cap ∣ min n r.tail) := by
  intro r
  obtain ⟨htail₀, hcap₀, hsize₀⟩ := createOrReuse_shape existing capacity slotPayloadSize maxSubscribers
  have hfilled : r.Filled history := (filled_dropOldestAll (hcap₀ ▸ hcap) htail₀ (hsize₀ ▸ hfit)).1
  have hlim' : r.tail ≤ 2 ^ SEQ_WRITING := hfilled.tail_eq ▸ hlim
  have htail := hfilled.tail_eq
  refine ⟨fun cursor hcursor => ?_, fun n cursor hstart => ?_⟩
  · obtain ⟨data, hdata, hreceive⟩ := hfilled.tryReceive hlim' idx hcursor
    rw [← newest_eq_oldestUnread_iff hfilled.cap_pos hcursor]
    refine ⟨fun hboth => ?_, fun heq => ⟨?_, fun k => ?_⟩⟩
    · have hfirst := hboth.1
      rw [hreceive] at hfirst
      obtain ⟨_, -, heq⟩ := Option.map_eq_some_iff.1 hfirst.symm
      exact (Nat.succ.inj (Prod.mk.inj heq).1).symm
    · rw [hreceive, ← heq, hdata]
      rfl
    · rw [← heq, hfilled.receiveMany hlim' idx k hcursor]
  · obtain rfl : r.tail - n = cursor := Option.some.inj hstart
    rcases Nat.lt_or_ge (r.tail - n) r.tail with hlt | hge
    · have hiff := newest_eq_oldestUnread_iff hfilled.cap_pos hlt
      have hback : r.tail - (r.tail - n) = min n r.tail := by omega
      have hlap : r.tail ≤ r.tail - n + r.cap ↔ min n r.tail ≤ r.cap := by omega
      have holdest : r.oldestUnread (r.tail - n) = history.length - min n (min r.cap r.tail) := by
        unfold oldestUnread
        omega
      rw [hback, hlap, holdest] at hiff
      rw [← hiff]
      refine ⟨fun hall => ?_, fun heq k => ?_⟩
      · have hlength := congrArg List.length (hall history.length)
        rw [hfilled.receiveMany hlim' idx _ hlt] at hlength
        simp only [List.length_take, List.length_drop] at hlength
        have := newest_lt hlt
        omega
      · rw [← heq, hfilled.receiveMany hlim' idx k hlt]
    · have hnone : min n r.tail = 0 := by omega
      have hzero : min n (min r.cap r.tail) = 0 := by omega
      rw [hzero, hnone]
      refine ⟨fun _ => .inl (Nat.zero_le _), fun _ k => ?_⟩
      have hself : r.tail - n = r.tail := by omega
      rw [hself, hfilled.receiveMany_lap hlim' idx k (Nat.le_refl _) (Nat.le_add_right ..), htail, Nat.sub_zero]

/-- Three messages in a ring with two slots, read from the second one -/
theorem overrun_exact_threeMessages :
    (((create 2 4 1).dropOldestAll [[1], [2], [3]]).tryReceive 0 1).2 = some (2, [2]) := by
  have hfit : ∀ data ∈ ([[1], [2], [3]] : List Bytes), data.length ≤ (4 : UInt32).toNat := by decide
  have h := (overrun_exact_iff none 2 4 1 (by decide) hfit (by decide) 0).1 1 (by decide)
  exact (h.2 (.inl (by decide))).1

/-- From the first one, the message 2 is skipped although it is still in the ring. -/
theorem overrun_exact_fails : ¬∀ (history : List Bytes) (cursor : Nat),
    let r := (createOrReuse none 2 4 1).dropOldestAll history
    cursor < r.tail → (r.tryReceive 0 cursor).2 =
      (history[r.oldestUnread cursor]?).map fun data => (r.oldestUnread cursor + 1, data) := by
  intro h
  have hskip := h [[1], [2], [3]] 0 (by decide)
  revert hskip
  decide

end RingBuffer

end Mmbus
