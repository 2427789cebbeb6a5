import Mmbus.Lib.Transition
import Mmbus.Overrun
import Mmbus.Wal

/-!
# Catching up over a damaged record

A subscriber that reads its backlog from the log, with the receive methods that consult the replayer first.  The replayer is
a parameter: `next` is its `Iterator::next`, of either log.  What other processes do to the ring between two reads of it is
arbitrary.

`not_skipped`: nothing behind a record that the replayer reports as an error is returned before an error is, as long as it
is not `try_receive_into` that comes to the record; that method drops the error and goes on with the ring.
-/

namespace Mmbus

open Transition

/-- What a receive call has returned: the message of a position, nothing (no message, or a timeout), or an error -/
inductive Received
  | message (position : Nat) (data : Bytes)
  | nothing
  | error
  deriving DecidableEq

/-- How a `wait_readable` ends: with a ring to read again, by its timeout, or with an error -/
inductive Wait
  | readable (r : RingBuffer)
  | timedOut
  | failed

/-- A connected subscriber, the ring as it finds it, and what its calls have returned -/
structure CatchUp (ρ : Type) where
  ring : RingBuffer
  cursor : Nat
  cursorIdx : Nat
  generation : Nat
  walReplay : Option ρ
  received : List Received

namespace CatchUp

variable {ρ ε : Type}

/-- A subscriber that has just connected behind the ring: its entry is parked at the tail. -/
def connect (r : RingBuffer) (cursorIdx cursor : Nat) (p : ρ) : CatchUp ρ where
  ring := r.setCursor cursorIdx r.tail
  cursor := cursor
  cursorIdx := cursorIdx
  generation := r.generation
  walReplay := some p
  received := []

/-- `try_receive` of the ring, and the cursor after it -/
def ringReceive (s : CatchUp ρ) : CatchUp ρ × Option (Nat × Bytes) :=
  match s.ring.tryReceive s.cursorIdx s.cursor with
  | (r, some (cursor, out)) => ({ s with ring := r, cursor := cursor }, some (cursor - 1, out))
  | (r, none) => ({ s with ring := r }, none)

/-- The loop of `receive_into` and `receive_timeout_into`; `none` if the call still waits after `waits`. -/
def receiveLoop (timeout : Bool) : List Wait → CatchUp ρ → Option (CatchUp ρ × Received)
  | waits, s =>
    match s.ringReceive with
    | (s, some (position, out)) => some (s, .message position out)
    | (s, none) =>
      match waits with
      | [] => none
      | .readable r :: waits => receiveLoop timeout waits { s with ring := r }
      | .timedOut :: waits => if timeout then some (s, .nothing) else receiveLoop timeout waits s
      | .failed :: _ => some (s, .error)

/-- The receive methods.  `capacity` is the length of the caller's slice, `drained` is what `try_drain_wakeup` returns
(`none`: an error). -/
inductive Call
  | receiveInto (waits : List Wait)
  | receiveTimeoutInto (waits : List Wait)
  | tryReceiveInto
  | tryReceiveOneIntoSlice (capacity : Nat)
  | pollRecv (drained : Option Bool)

/-- A call, or what other processes make of the ring -/
inductive Act
  | call (c : Call)
  | ring (r : RingBuffer)

section

variable (next : ρ → Option (Except ε Record) × ρ)

def nextWalRecord (s : CatchUp ρ) : CatchUp ρ × Except ε (Option (Nat × Bytes)) :=
  match s.walReplay with
  | none => (s, .ok none)
  | some p =>
    match next p with
    | (some (.ok record), p) =>
      ({ s with cursor := record.cursor + 1, walReplay := some p }, .ok (some (record.cursor, record.payload)))
    | (some (.error e), _) => ({ s with walReplay := none }, .error e)
    | (none, _) => ({ s with walReplay := none, ring := s.ring.setCursor s.cursorIdx s.cursor }, .ok none)

/-- `if let Ok(Some(payload))`: an error of the replayer is a reason to read the ring. -/
def tryReceiveInto (s : CatchUp ρ) : CatchUp ρ × Received :=
  match s.nextWalRecord next with
  | (s, .ok (some (position, payload))) => (s, .message position payload)
  | (s, _) =>
    match s.ringReceive with
    | (s, some (position, out)) => (s, .message position out)
    | (s, none) => (s, .nothing)

def receive (s : CatchUp ρ) : Call → Option (CatchUp ρ × Received)
  | .receiveInto waits =>
    match s.nextWalRecord next with
    | (s, .error _) => some (s, .error)
    | (s, .ok (some (position, payload))) => some (s, .message position payload)
    | (s, .ok none) => receiveLoop false waits s
  | .receiveTimeoutInto waits =>
    match s.nextWalRecord next with
    | (s, .error _) => some (s, .error)
    | (s, .ok (some (position, payload))) => some (s, .message position payload)
    | (s, .ok none) => receiveLoop true waits s
  | .tryReceiveInto => some (s.tryReceiveInto next)
  | .tryReceiveOneIntoSlice capacity =>
    match s.nextWalRecord next with
    | (s, .error _) => some (s, .error)
    | (s, .ok (some (position, payload))) =>
      some (s, if capacity < payload.length then .error else .message position payload)
    | (s, .ok none) =>
      match s.ringReceive with
      | (s, some (position, out)) => some (s, if capacity < out.length then .error else .message position out)
      | (s, none) => some (s, .nothing)
  | .pollRecv drained =>
    match s.nextWalRecord next with
    | (s, .error _) => some (s, .error)
    | (s, .ok (some (position, payload))) => some (s, .message position payload)
    | (s, .ok none) =>
      match drained with
      | none => some (s, .error)
      | some false => some (s, .nothing)
      | some true => if s.ring.generation ≠ s.generation then some (s, .error) else some (s.tryReceiveInto next)

def step (s : CatchUp ρ) : Act → Option (CatchUp ρ)
  | .call c => (s.receive next c).map fun x => { x.1 with received := x.1.received ++ [x.2] }
  | .ring r => some { s with ring := r }

/-- The replay returns records below `k`, and then an error. -/
inductive ReportsAt (k : Nat) : ρ → Prop
  | error {p p' : ρ} {e : ε} (h : next p = (some (.error e), p')) : ReportsAt k p
  | record {p p' : ρ} {r : Record} (h : next p = (some (.ok r), p')) (hlt : r.cursor < k) (hrest : ReportsAt k p') :
      ReportsAt k p

/-- It is not `try_receive_into` that comes to the error of the replay. -/
def Surfaces (s : CatchUp ρ) : Act → Prop
  | .call .tryReceiveInto => ∀ p, s.walReplay = some p → ∀ e p', next p ≠ (some (.error e), p')
  | _ => True

end

/-- Before any message behind `k` there is an error. -/
def NotSkipped (k : Nat) (received : List Received) : Prop :=
  ∀ before position data after, received = before ++ .message position data :: after → k < position → .error ∈ before

/-- No error has been returned, and nothing but what the replay has returned, which has the error still before it. -/
structure Behind (next : ρ → Option (Except ε Record) × ρ) (k : Nat) (s : CatchUp ρ) : Prop where
  replaying : ∃ p, s.walReplay = some p ∧ ReportsAt next k p
  below : ∀ position data, .message position data ∈ s.received → position < k

variable {next : ρ → Option (Except ε Record) × ρ} {k : Nat} {s s' : CatchUp ρ}

/-- While the error is ahead, a call returns the next record or the error. -/
theorem nextWalRecord_behind {p : ρ} (hp : s.walReplay = some p) (h : ReportsAt next k p) :
    (∃ e p', next p = (some (.error e), p') ∧ s.nextWalRecord next = ({ s with walReplay := none }, .error e)) ∨
    ∃ (record : Record) (p' : ρ), record.cursor < k ∧ ReportsAt next k p' ∧ s.nextWalRecord next =
      ({ s with cursor := record.cursor + 1, walReplay := some p' }, .ok (some (record.cursor, record.payload))) := by
  cases h with
  | @error p p' e h => exact .inl ⟨e, p', h, by simp only [nextWalRecord, hp, h]⟩
  | @record p p' record h hlt hrest => exact .inr ⟨record, p', hlt, hrest, by simp only [nextWalRecord, hp, h]⟩

theorem ringReceive_received (s : CatchUp ρ) : s.ringReceive.1.received = s.received := by
  unfold ringReceive
  split <;> rfl

theorem nextWalRecord_received (next : ρ → Option (Except ε Record) × ρ) (s : CatchUp ρ) :
    (s.nextWalRecord next).1.received = s.received := by
  unfold nextWalRecord
  split
  · rfl
  · split <;> rfl

theorem receiveLoop_received {timeout : Bool} {waits : List Wait} {out : Received}
    (h : receiveLoop timeout waits s = some (s', out)) : s'.received = s.received := by
  induction waits generalizing s with
  | nil =>
    unfold receiveLoop at h
    have hread := s.ringReceive_received
    split at h
    · rename_i heq
      rw [heq] at hread
      cases h
      exact hread
    · cases h
  | cons wait waits ih =>
    unfold receiveLoop at h
    have hread := s.ringReceive_received
    split at h
    · rename_i heq
      rw [heq] at hread
      cases h
      exact hread
    · rename_i s₁ heq
      rw [heq] at hread
      cases wait with
      | readable r => exact (ih h).trans hread
      | timedOut =>
        dsimp only at h
        split at h
        · cases h
          exact hread
        · exact (ih h).trans hread
      | failed =>
        cases h
        exact hread

theorem tryReceiveInto_received (next : ρ → Option (Except ε Record) × ρ) (s : CatchUp ρ) :
    (s.tryReceiveInto next).1.received = s.received := by
  have hrecord := s.nextWalRecord_received next
  unfold tryReceiveInto
  split
  · rename_i heq
    rw [heq] at hrecord
    exact hrecord
  · rename_i s₁ _ _ heq
    rw [heq] at hrecord
    have hread := s₁.ringReceive_received
    split
    · rename_i heq'
      rw [heq'] at hread
      exact hread.trans hrecord
    · rename_i heq'
      rw [heq'] at hread
      exact hread.trans hrecord

/-- A call does not touch what the calls before it have returned. -/
theorem receive_received {c : Call} {out : Received} (hs : s.receive next c = some (s', out)) :
    s'.received = s.received := by
  have hrecord := s.nextWalRecord_received next
  cases c with
  | receiveInto waits | receiveTimeoutInto waits =>
    unfold receive at hs
    dsimp only at hs
    split at hs
    · rename_i heq
      rw [heq] at hrecord
      cases hs
      exact hrecord
    · rename_i heq
      rw [heq] at hrecord
      cases hs
      exact hrecord
    · rename_i heq
      rw [heq] at hrecord
      exact (receiveLoop_received hs).trans hrecord
  | tryReceiveInto =>
    have htry := s.tryReceiveInto_received next
    simp only [receive, Option.some.injEq] at hs
    rwa [hs] at htry
  | tryReceiveOneIntoSlice capacity =>
    unfold receive at hs
    dsimp only at hs
    split at hs
    · rename_i heq
      rw [heq] at hrecord
      cases hs
      exact hrecord
    · rename_i heq
      rw [heq] at hrecord
      cases hs
      exact hrecord
    · rename_i s₁ heq
      rw [heq] at hrecord
      have hread := s₁.ringReceive_received
      split at hs <;>
      · rename_i heq'
        rw [heq'] at hread
        cases hs
        exact hread.trans hrecord
  | pollRecv drained =>
    unfold receive at hs
    dsimp only at hs
    split at hs
    · rename_i heq
      rw [heq] at hrecord
      cases hs
      exact hrecord
    · rename_i heq
      rw [heq] at hrecord
      cases hs
      exact hrecord
    · rename_i s₁ heq
      rw [heq] at hrecord
      have htry := s₁.tryReceiveInto_received next
      split at hs
      · cases hs
        exact hrecord
      · cases hs
        exact hrecord
      · split at hs
        · cases hs
          exact hrecord
        · rw [Option.some.injEq] at hs
          rw [hs] at htry
          exact htry.trans hrecord

theorem receive_behind {c : Call} {out : Received} (h : s.Behind next k) (hc : Surfaces next s (.call c))
    (hs : s.receive next c = some (s', out)) :
    out = .error ∨ (∃ p, s'.walReplay = some p ∧ ReportsAt next k p) ∧
      ∀ position data, out = .message position data → position < k := by
  obtain ⟨p, hp, hreports⟩ := h.replaying
  rcases nextWalRecord_behind hp hreports with ⟨e, p', hnext, hrecord⟩ | ⟨record, p', hlt, hrest, hrecord⟩
  · cases c with
    | tryReceiveInto => exact absurd hnext (hc p hp e p')
    | receiveInto | receiveTimeoutInto | tryReceiveOneIntoSlice | pollRecv =>
      simp only [receive, hrecord] at hs
      cases hs
      exact .inl rfl
  · cases c with
    | tryReceiveInto | receiveInto | receiveTimeoutInto | pollRecv =>
      simp only [receive, tryReceiveInto, hrecord] at hs
      cases hs
      refine .inr ⟨⟨p', rfl, hrest⟩, ?_⟩
      rintro position data ⟨⟩
      exact hlt
    | tryReceiveOneIntoSlice capacity =>
      simp only [receive, hrecord, Option.some.injEq, Prod.mk.injEq] at hs
      obtain ⟨rfl, rfl⟩ := hs
      split
      · exact .inl rfl
      · refine .inr ⟨⟨p', rfl, hrest⟩, ?_⟩
        rintro position data ⟨⟩
        exact hlt

/-- An error has been returned, before any message behind `k`; or none has been, and the error of the replay is ahead. -/
structure Kept (next : ρ → Option (Except ε Record) × ρ) (k : Nat) (s : CatchUp ρ) : Prop where
  notSkipped : NotSkipped k s.received
  ahead : .error ∈ s.received ∨ s.Behind next k

theorem NotSkipped.append {received : List Received} {out : Received} (h : NotSkipped k received)
    (hout : .error ∈ received ∨ ∀ position data, out = .message position data → position < k) :
    NotSkipped k (received ++ [out]) := by
  intro before position data after heq hlt
  rcases List.eq_nil_or_concat after with rfl | ⟨after', last, rfl⟩
  · obtain ⟨hbefore, hlast⟩ := List.append_inj' heq rfl
    rcases hout with herror | hbelow
    · rwa [hbefore] at herror
    · exact absurd (hbelow position data (List.singleton_inj.1 hlast)) (by omega)
  · have heq' : received ++ [out] = (before ++ .message position data :: after') ++ [last] := by simpa using heq
    exact h before position data after' (List.append_inj' heq' rfl).1 hlt

theorem Kept.step {a : Act} (h : s.Kept next k) (hc : Surfaces next s a) (hs : s.step next a = some s') :
    s'.Kept next k := by
  cases a with
  | ring r =>
    cases hs
    refine ⟨h.notSkipped, ?_⟩
    rcases h.ahead with herror | hbehind
    · exact .inl herror
    · exact .inr ⟨hbehind.replaying, hbehind.below⟩
  | call c =>
    obtain ⟨⟨s₁, out⟩, hreceive, rfl⟩ := Option.map_eq_some_iff.1 hs
    have hreceived : s₁.received = s.received := receive_received hreceive
    rcases h.ahead with herror | hbehind
    · refine ⟨?_, .inl ?_⟩ <;> dsimp only <;> rw [hreceived]
      · exact h.notSkipped.append (.inl herror)
      · exact List.mem_append_left _ herror
    · rcases receive_behind hbehind hc hreceive with rfl | ⟨hreplaying, hbelow⟩
      · refine ⟨?_, .inl ?_⟩ <;> dsimp only <;> rw [hreceived]
        · exact h.notSkipped.append (.inr nofun)
        · exact List.mem_append_right _ (List.mem_singleton_self _)
      · refine ⟨?_, .inr ⟨hreplaying, ?_⟩⟩ <;> dsimp only <;> rw [hreceived]
        · exact h.notSkipped.append (.inr hbelow)
        · intro position data hmem
          rcases List.mem_append.1 hmem with hold | hnew
          · exact hbehind.below position data hold
          · exact hbelow position data (List.mem_singleton.1 hnew).symm

/-- A run in which no `try_receive_into` comes to the damaged record returns nothing behind it before an error. -/
theorem not_skipped {r : RingBuffer} {cursorIdx cursor : Nat} {p : ρ} {acts : List Act} (hp : ReportsAt next k p)
    (hc : Meets (step next) (Surfaces next) (connect r cursorIdx cursor p) acts)
    (hr : run (step next) (connect r cursorIdx cursor p) acts = some s) : NotSkipped k s.received := by
  have hinit : Kept next k (connect r cursorIdx cursor p) := ⟨by simp [NotSkipped, connect], .inr ⟨⟨p, rfl, hp⟩, nofun⟩⟩
  exact (run_invariant_when (Kept next k) (Surfaces next) (fun _ _ _ h hc hs => h.step hc hs) hc hinit hr).notSkipped

/-- A replay given by what it returns -/
def nextOfList : List (Except Unit Record) → Option (Except Unit Record) × List (Except Unit Record)
  | [] => (none, [])
  | item :: items => (some item, items)

/-- A ring with two slots after three messages, and a subscriber that starts at the first, which is damaged in the log -/
def overtaken : CatchUp (List (Except Unit Record)) :=
  connect ((RingBuffer.create 2 4 1).dropOldestAll [[1], [2], [3]]) 0 0 [.error ()]

/-- A ring with two slots after four messages, and a subscriber that starts at the first, with the second damaged in the
log -/
def damagedSecond : CatchUp (List (Except Unit Record)) :=
  connect ((RingBuffer.create 2 4 1).dropOldestAll [[1], [2], [3], [4]]) 0 0 [.ok ⟨0, 0, [1]⟩, .error ()]

/-- `receive_into` comes to the damaged record, between two calls of `try_receive_into`. -/
def aroundDamage : List Act := [.call .tryReceiveInto, .call (.receiveInto []), .call .tryReceiveInto]

theorem not_skipped_receiveInto : ∃ s, run (step nextOfList) damagedSecond aroundDamage = some s ∧
    s.received = [.message 0 [1], .error, .message 3 [4]] ∧ NotSkipped 1 s.received := by
  obtain ⟨s, hr, hs⟩ := Option.map_eq_some_iff.1 (show (run (step nextOfList) damagedSecond aroundDamage).map received =
    some [.message 0 [1], .error, .message 3 [4]] by decide)
  have hp : ReportsAt nextOfList 1 [.ok ⟨0, 0, [1]⟩, .error ()] := .record rfl (by decide) (.error rfl)
  have hc : Meets (step nextOfList) (Surfaces nextOfList) damagedSecond aroundDamage := by
    refine ⟨?_, fun _ h₁ => ⟨trivial, fun _ h₂ => ⟨?_, fun _ _ => trivial⟩⟩⟩
    · rintro p ⟨⟩
      nofun
    · cases h₁
      cases h₂
      nofun
  exact ⟨s, hr, hs, not_skipped hp hc hr⟩

/-- `try_receive_into` returns the third message instead, and no error. -/
theorem not_skipped_fails : ReportsAt nextOfList 0 [.error ()] ∧
    ∃ s, run (step nextOfList) overtaken [.call .tryReceiveInto] = some s ∧ ¬NotSkipped 0 s.received := by
  refine ⟨.error rfl, ?_⟩
  obtain ⟨s, hr, hs⟩ := Option.map_eq_some_iff.1 (show (run (step nextOfList) overtaken [.call .tryReceiveInto]).map
    received = some [.message 2 [3]] by decide)
  refine ⟨s, hr, fun h => ?_⟩
  have hin := h [] 2 [3] [] hs (by decide)
  cases hin

end CatchUp

end Mmbus
