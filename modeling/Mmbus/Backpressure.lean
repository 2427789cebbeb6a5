import Mmbus.Publish

/-!
# How a cursor entry holds the publisher back

`try_publish` reads the cursor table entry by entry, so a call in progress may have passed an entry before it was
claimed or raised.  `Guard r pc j c` says that the entry `j` protects the positions from `c` on against the call
`pc` nevertheless: the call has not yet passed the entry, or the minimum it carries is at most `c`, or its target is
less than a lap ahead of `c`.  The guard is there when an entry is published less than a lap behind the tail, and
every step keeps it.
-/

namespace Mmbus

open RingBuffer PublishPc

/-- The entry `j` keeps the slots of the positions from `c` on from being overwritten. -/
structure Guard (r : RingBuffer) (pc : PublishPc) (j c : Nat) : Prop where
  idx_lt : j < r.maxSubs
  claimed : r.cursors j ≠ CURSOR_UNCLAIMED
  entry_le : r.cursors j ≤ c
  tail_le : r.tail ≤ c + r.cap
  scan : ∀ data tail i min, pc = .loadCursor data tail i min → j < i →
    (∃ m, min = some m ∧ m ≤ c) ∨ tail < c + r.cap
  passed : pc.Passed → r.tail < c + r.cap

/-- The publisher is at most a lap ahead of `c`, and when it is a full lap ahead, a call in progress has yet to look at
the entry `j` or carries a minimum that will stop it. -/
def LapFree (r : RingBuffer) (pc : PublishPc) (j c : Nat) : Prop :=
  r.tail ≤ c + r.cap ∧ (r.tail = c + r.cap → ¬pc.Passed ∧
    ∀ data tail i min, pc = .loadCursor data tail i min → i ≤ j ∨ ∃ m, min = some m ∧ m ≤ c)

namespace Guard

variable {base j c c' : Nat} {chan chan' : Channel} {r : RingBuffer} {pc pc' : PublishPc}

/-- An entry that shows a position is guarded at once if no call in progress is about to overtake the position. -/
theorem of_lapFree (hidx : j < r.maxSubs) (hclaimed : r.cursors j ≠ CURSOR_UNCLAIMED) (hentry : r.cursors j ≤ c)
    (hlap : LapFree r pc j c) (htarget : ∀ data tail, pc.target = some (data, tail) → tail = r.tail) :
    Guard r pc j c where
  idx_lt := hidx
  claimed := hclaimed
  entry_le := hentry
  tail_le := hlap.1
  scan data tail i min hpc hj := by
    subst hpc
    obtain rfl := htarget data tail rfl
    rcases Nat.eq_or_lt_of_le hlap.1 with heq | hlt
    · exact .inl (((hlap.2 heq).2 data _ i min rfl).resolve_left (by omega))
    · exact .inr hlt
  passed hp := by
    rcases Nat.eq_or_lt_of_le hlap.1 with heq | hlt
    · exact absurd hp (hlap.2 heq).1
    · exact hlt

/-- The guard depends on its own entry only, and moves up with it. -/
theorem advance {cursors flags : Nat → Nat} (h : Guard r pc j c) (hc : c ≤ c')
    (hentry : cursors j ≤ c') (hclaimed : cursors j ≠ CURSOR_UNCLAIMED) :
    Guard { r with cursors := cursors, wakeflags := flags } pc j c' where
  idx_lt := h.idx_lt
  claimed := hclaimed
  entry_le := hentry
  tail_le := h.tail_le.trans (by simp only [cap]; omega)
  scan data tail i min hpc hi := by
    rcases h.scan data tail i min hpc hi with ⟨m, hm, hmc⟩ | hlt
    · exact .inl ⟨m, hm, hmc.trans hc⟩
    · exact .inr (hlt.trans_le (by simp only [cap]; omega))
  passed hp := (h.passed hp).trans_le (by simp only [cap]; omega)

/-- A step that leaves the entry alone -/
theorem of_tables {cursors flags : Nat → Nat} (h : Guard r pc j c) (hj : cursors j = r.cursors j) :
    Guard { r with cursors := cursors, wakeflags := flags } pc j c :=
  h.advance le_rfl (hj ▸ h.entry_le) (hj ▸ h.claimed)

/-- Between two calls there is nothing to guard against. -/
theorem restart (h : Guard r pc j c) (hpc' : pc'.target = none) : Guard r pc' j c where
  idx_lt := h.idx_lt
  claimed := h.claimed
  entry_le := h.entry_le
  tail_le := h.tail_le
  scan data tail i min hpc := by
    subst hpc
    cases hpc'
  passed hp := by cases pc' <;> first | exact False.elim hp | cases hpc'

/-- The scan reaches the entry `i`, or the comparison. -/
private theorem scanAt {data : Bytes} {i : Nat} {min : Option Nat} (h : Guard r pc j c)
    (hlim : r.tail ≤ 2 ^ SEQ_WRITING) (hmin : j < i → (∃ m, min = some m ∧ m ≤ c) ∨ r.tail < c + r.cap) :
    Guard r (PublishPc.scanAt r data r.tail i min) j c where
  idx_lt := h.idx_lt
  claimed := h.claimed
  entry_le := h.entry_le
  tail_le := h.tail_le
  scan d t k m hpc hk := by
    unfold PublishPc.scanAt at hpc
    split at hpc
    · obtain ⟨rfl, rfl, rfl, rfl⟩ : data = d ∧ r.tail = t ∧ i = k ∧ min = m := by simpa using hpc
      exact hmin hk
    · split at hpc <;> cases hpc
  passed hp := by
    have hj := h.idx_lt
    unfold PublishPc.scanAt at hp
    split at hp
    · exact hp.elim
    · split at hp
      · exact hp.elim
      · -- the call passed the comparison with a minimum at most `c`
        rename_i hlag
        rcases hmin (by omega) with ⟨m, hm, hmc⟩ | hlt
        · have := lt_of_not_lagsBehind (by simpa using hlag) hm hlim
          omega
        · exact hlt

/-- A store of the call into its slot, or its commit -/
private theorem passing {chan' : Channel} (h : Guard chan.ring pc j c) (hp : pc.Passed)
    (hmax : chan'.ring.maxSubs = chan.ring.maxSubs) (hcur : chan'.ring.cursors = chan.ring.cursors)
    (hcap : chan'.ring.cap = chan.ring.cap) (htail : chan'.ring.tail = chan.ring.tail) (hp' : pc'.Passed) :
    Guard chan'.ring pc' j c where
  idx_lt := hmax ▸ h.idx_lt
  claimed := hcur ▸ h.claimed
  entry_le := hcur ▸ h.entry_le
  tail_le := by rw [htail, hcap]; exact h.tail_le
  scan data tail i min hpc _ := by
    subst hpc
    exact hp'.elim
  passed _ := by rw [htail, hcap]; exact h.passed hp

/-- A step of `try_publish` keeps the guard. -/
theorem publish (h : Guard chan.ring pc j c) (hp : PublishInv base chan pc)
    (herr : ∀ data, pc ≠ .loadTail .dropOldest data) (hs : pc.step chan = some (chan', pc')) :
    Guard chan'.ring pc' j c := by
  have hlim := hp.tail_le
  cases pc with
  | idle | returned => simp [PublishPc.step] at hs
  | loadTail policy data =>
    cases policy with
    | error =>
      simp only [PublishPc.step, Option.some.injEq, Prod.mk.injEq] at hs
      obtain ⟨rfl, rfl⟩ := hs
      exact h.scanAt hlim (fun hj => absurd hj (Nat.not_lt_zero j))
    | dropOldest => exact absurd rfl (herr data)
  | loadCursor data tail i min =>
    simp only [PublishPc.step, Option.some.injEq, Prod.mk.injEq] at hs
    obtain ⟨rfl, rfl⟩ := hs
    obtain rfl := hp.target_tail data tail rfl
    refine h.scanAt hlim fun hj => ?_
    by_cases hji : j = i
    · -- the entry itself joins the minimum
      subst hji
      exact .inl (minStep_self_le h.claimed h.entry_le)
    · rcases h.scan data _ i min rfl (by omega) with ⟨m, hm, hmc⟩ | hlt
      · exact .inl (minStep_le hm hmc)
      · exact .inr hlt
  | storeMark data tail | storeSeq data tail =>
    simp only [PublishPc.step, Option.some.injEq, Prod.mk.injEq] at hs
    obtain ⟨rfl, rfl⟩ := hs
    exact h.passing trivial rfl rfl rfl rfl trivial
  | storeLen data tail | storeByte data tail k =>
    simp only [PublishPc.step, Option.some.injEq, Prod.mk.injEq] at hs
    obtain ⟨rfl, rfl⟩ := hs
    refine h.passing trivial rfl rfl rfl rfl ?_
    unfold PublishPc.copyAt
    split <;> trivial
  | storeTail data tail =>
    have hlt := h.passed trivial
    obtain rfl := hp.target_tail data tail rfl
    simp only [PublishPc.step, Option.some.injEq, Prod.mk.injEq] at hs
    obtain ⟨rfl, rfl⟩ := hs
    exact ⟨h.idx_lt, h.claimed, h.entry_le,
      by simp only [setTail_tail, setTail_cap]; omega, (fun data tail i min hpc => by cases hpc), False.elim⟩

/-- The slots from `c` on are intact. -/
theorem held (h : Guard chan.ring pc j c) (hp : PublishInv base chan pc) (hbase : base ≤ c) {p : Nat}
    (hcp : c ≤ p) (hpt : p < chan.ring.tail) :
    ∃ data, chan.log p = some data ∧ data.length ≤ chan.ring.slotSize ∧ (chan.ring.slot p).Holds p data := by
  obtain ⟨data, hl, hfit⟩ := hp.log_some p (hbase.trans hcp) hpt
  have htail := h.tail_le
  refine ⟨data, hl, hfit, hp.held p data (hbase.trans hcp) hpt (by omega) (fun hw => ?_) hl⟩
  have := h.passed (PublishPc.passed_of_writing hw)
  omega

end Guard

end Mmbus
