import Mathlib.Data.Finset.Insert
import Mathlib.Data.Finset.Erase
import Mathlib.Data.List.Chain
import Mmbus.Lib.Dict
import Mmbus.Lib.Transition

/-!
# Presence

The member table of a channel's presence: records of joins, heartbeats and leaves that come in, and the scans that evict
who has not been heard of.  Times are of any type with a subtraction and an order; nothing is asked of them.

The changes that are emitted tell the table exactly (`changes_describe_members`): wherever the table changes, one member
flips and the change says so (`Tells.emit`).  The member itself stays in its own table all along a run
exactly if no record of the run says that it leaves (`self_present_iff`).
-/

namespace Mmbus.Cast

open Transition

def MAX_PRESENCE_PAYLOAD : Nat := 4096

def MAX_MEMBER_ID_LEN : Nat := 256

def MAX_MEMBERS : Nat := 10000

inductive Kind
  | join
  | heartbeat
  | leave
  deriving DecidableEq

/-- A string of Python: its code points, surrogates among them -/
abbrev Str := List (Fin 0x110000)

local instance : LawfulBEq Str := inferInstance

/-- A string literal -/
def str (s : String) : Str := s.toList.map fun c => Fin.ofNat 0x110000 c.toNat

def Kind.name : Kind → Str
  | .join => str "join"
  | .heartbeat => str "heartbeat"
  | .leave => str "leave"

def VALID_KINDS : List Kind := [.join, .heartbeat, .leave]

def Kind.ofStr (s : Str) : Option Kind := VALID_KINDS.find? fun kind => kind.name = s

/-- What `json.loads` returns; an object by what its keys stand for -/
inductive Json
  | string (s : Str)
  | object (get : Str → Option Json)
  | other

/-- `_parse_presence_message` of a message of `length` bytes; `loaded` is `none` when `json.loads` raises `ValueError` or
`UnicodeDecodeError`.  What else it raises is not caught and ends the consume loop (`parsePresenceBytes`). -/
def parsePresenceMessage (length : Nat) (loaded : Option Json) : Option (Str × Kind) :=
  if MAX_PRESENCE_PAYLOAD < length then none
  else
    match loaded with
    | some (.object get) =>
      match get (str "member"), get (str "kind") with
      | some (.string member), some (.string kind) =>
        if member = [] ∨ MAX_MEMBER_ID_LEN < member.length then none
        else (Kind.ofStr kind).map fun kind => (member, kind)
      | _, _ => none
    | _ => none

structure PresenceChange where
  member : Str
  joined : Bool
  deriving DecidableEq

structure Presence (T : Type) where
  memberId : Str
  ttl : T
  changesQueueMax : Nat
  members : Dict Str T
  /-- The queue of the consumer -/
  changes : List PresenceChange
  /-- All that has been passed to `_emit_change` -/
  emitted : List PresenceChange

namespace Presence

variable {T : Type}

/-- The table when the tasks are started in `__aenter__` -/
def enter (memberId : Str) (ttl : T) (changesQueueMax : Nat) (now : T) : Presence T where
  memberId := memberId
  ttl := ttl
  changesQueueMax := max 1 changesQueueMax
  members := Dict.empty.set memberId now
  changes := []
  emitted := []

variable (s : Presence T)

/-- `_emit_change`: a full queue drops its oldest change. -/
def emitChange (change : PresenceChange) : Presence T :=
  { s with
    changes := (if s.changes.length < s.changesQueueMax then s.changes else s.changes.tail) ++ [change]
    emitted := s.emitted ++ [change] }

/-- `_apply` at the time `now` -/
def apply (member : Str) (kind : Kind) (now : T) : Presence T :=
  match kind with
  | .join | .heartbeat =>
    if member ∉ s.members.keys ∧ MAX_MEMBERS ≤ s.members.keys.length then s
    else if member ∉ s.members.keys then
      emitChange { s with members := s.members.set member now } ⟨member, true⟩
    else { s with members := s.members.set member now }
  | .leave =>
    if member ∈ s.members.keys then emitChange { s with members := s.members.erase member } ⟨member, false⟩ else s

/-- `del self._members[m]`, with its change -/
def evict (s : Presence T) (m : Str) : Presence T :=
  emitChange { s with members := s.members.erase m } ⟨m, false⟩

/-- The members that a scan of `_eviction_loop` at the time `now` finds -/
def expired [Sub T] [LT T] [DecidableLT T] (s : Presence T) (now : T) : List Str :=
  (s.members.entries.filter fun e => e.1 ≠ s.memberId ∧ s.ttl < now - e.2).map Prod.fst

def evictExpired [Sub T] [LT T] [DecidableLT T] (s : Presence T) (now : T) : Presence T := (s.expired now).foldl evict s

/-- A message that is no presence record is dropped. -/
inductive Act (T : Type)
  | consume (length : Nat) (loaded : Option Json) (now : T)
  | scan (now : T)

def step [Sub T] [LT T] [DecidableLT T] (s : Presence T) : Act T → Option (Presence T)
  | .consume length loaded now =>
    match parsePresenceMessage length loaded with
    | some (member, kind) => some (s.apply member kind now)
    | none => some s
  | .scan now => some (s.evictExpired now)

/-! ### What the changes say -/

/-- Replay changes over a set of members. -/
def replay (ms : Finset Str) (cs : List PresenceChange) : Finset Str :=
  cs.foldl (fun ms c => if c.joined then insert c.member ms else ms.erase c.member) ms

/-- Whether `m` was a member at first, and after each of its changes -/
def history (s : Presence T) (m : Str) : List Bool :=
  decide (m = s.memberId) :: (s.emitted.filter fun c => c.member = m).map PresenceChange.joined

/-- The changes tell the table. -/
structure Tells (s : Presence T) : Prop where
  replayed : ∀ m, m ∈ s.members.keys ↔ m ∈ replay {s.memberId} s.emitted
  alternate : ∀ m, (s.history m).IsChain (· ≠ ·)
  last : ∀ m, (s.history m).getLast? = some (decide (m ∈ s.members.keys))
  bounded : s.members.keys.length ≤ MAX_MEMBERS

variable {s s' : Presence T} {x : Str} {joined : Bool}

theorem tells_enter (memberId : Str) (ttl : T) (changesQueueMax : Nat) (now : T) :
    (enter memberId ttl changesQueueMax now).Tells := by
  have hkeys : (enter memberId ttl changesQueueMax now).members.keys = [memberId] := Dict.keys_set
  refine ⟨fun m => ?_, fun m => ?_, fun m => ?_, ?_⟩
  · rw [hkeys, List.mem_singleton]
    exact Finset.mem_singleton.symm
  · exact List.isChain_singleton _
  · have hmem : m ∈ (enter memberId ttl changesQueueMax now).members.keys ↔ m = memberId := by
      rw [hkeys, List.mem_singleton]
    exact congrArg some (decide_eq_decide.2 hmem.symm)
  · rw [hkeys]
    exact Nat.le_add_left 1 _

/-- A member that flips, with its change -/
theorem Tells.emit (h : s.Tells) {d : Dict Str T} (hflip : joined ≠ decide (x ∈ s.members.keys))
    (hkeys : ∀ m, m ∈ d.keys ↔ if m = x then joined = true else m ∈ s.members.keys)
    (hlength : d.keys.length ≤ MAX_MEMBERS) : (emitChange { s with members := d } ⟨x, joined⟩).Tells := by
  have hself : (emitChange { s with members := d } ⟨x, joined⟩).history x = s.history x ++ [joined] := by
    simp [history, emitChange]
  have hother (m : Str) (hm : m ≠ x) :
      (emitChange { s with members := d } ⟨x, joined⟩).history m = s.history m := by
    simp [history, emitChange, Ne.symm hm]
  refine ⟨fun m => ?_, fun m => ?_, fun m => ?_, hlength⟩
  · rw [show (emitChange { s with members := d } ⟨x, joined⟩).members = d from rfl, hkeys m]
    rw [show (emitChange { s with members := d } ⟨x, joined⟩).emitted = s.emitted ++ [⟨x, joined⟩] from rfl, replay,
      List.foldl_concat]
    rw [show (emitChange { s with members := d } ⟨x, joined⟩).memberId = s.memberId from rfl, ← replay]
    by_cases hm : m = x
    · rw [if_pos hm, hm]
      cases joined <;> simp
    · rw [if_neg hm, h.replayed m]
      cases joined <;> simp [hm]
  · by_cases hm : m = x
    · rw [hm, hself, List.isChain_append]
      refine ⟨h.alternate x, List.isChain_singleton _, fun last hlast first hfirst => ?_⟩
      rw [Option.mem_def, h.last x, Option.some.injEq] at hlast
      rw [List.head?_cons, Option.mem_def, Option.some.injEq] at hfirst
      rw [← hlast, ← hfirst]
      exact hflip.symm
    · rw [hother m hm]
      exact h.alternate m
  · by_cases hm : m = x
    · rw [hm, hself, List.getLast?_concat, Option.some.injEq]
      have := hkeys x
      rw [if_pos rfl] at this
      change joined = decide (x ∈ d.keys)
      cases joined with
      | true => exact (decide_eq_true (this.2 rfl)).symm
      | false => exact (decide_eq_false (by simpa using this)).symm
    · have := hkeys m
      rw [if_neg hm] at this
      rw [hother m hm, h.last m]
      exact congrArg some (decide_eq_decide.2 this.symm)

/-- A member that is heard of again -/
theorem Tells.refresh (h : s.Tells) {now : T} (hx : x ∈ s.members.keys) :
    { s with members := s.members.set x now : Presence T }.Tells := by
  have hkeys : (s.members.set x now).keys = s.members.keys := by rw [Dict.keys_set, if_pos hx]
  refine ⟨fun m => ?_, h.alternate, fun m => ?_, ?_⟩
  · rw [hkeys]
    exact h.replayed m
  · rw [hkeys]
    exact h.last m
  · rw [hkeys]
    exact h.bounded

theorem Tells.evict (h : s.Tells) (hx : x ∈ s.members.keys) : (s.evict x).Tells := by
  refine h.emit (by simpa using hx) (fun m => ?_) (Dict.length_keys_erase_le.trans h.bounded)
  rw [Dict.mem_keys_erase]
  by_cases hm : m = x <;> simp [hm]

theorem Tells.apply (h : s.Tells) (member : Str) (kind : Kind) (now : T) : (s.apply member kind now).Tells := by
  have hheard : (if member ∉ s.members.keys ∧ MAX_MEMBERS ≤ s.members.keys.length then s
      else if member ∉ s.members.keys then emitChange { s with members := s.members.set member now } ⟨member, true⟩
      else { s with members := s.members.set member now }).Tells := by
    by_cases hx : member ∈ s.members.keys
    · rw [if_neg fun hfull => hfull.1 hx, if_neg (not_not.2 hx)]
      exact h.refresh hx
    by_cases hfull : MAX_MEMBERS ≤ s.members.keys.length
    · rw [if_pos ⟨hx, hfull⟩]
      exact h
    · rw [if_neg fun h => hfull h.2, if_pos hx]
      refine h.emit (by simpa using hx) (fun m => ?_) ?_
      · rw [Dict.mem_keys_set]
        by_cases hm : m = member <;> simp [hm]
      · rw [Dict.keys_set, if_neg hx, List.length_append, List.length_singleton]
        omega
  cases kind with
  | join => exact hheard
  | heartbeat => exact hheard
  | leave =>
    simp only [Presence.apply]
    split
    · exact h.evict ‹_›
    · exact h

theorem Tells.evict_all {ms : List Str} (h : s.Tells) (hnodup : ms.Nodup) (hms : ∀ m ∈ ms, m ∈ s.members.keys) :
    (ms.foldl Presence.evict s).Tells := by
  induction ms generalizing s with
  | nil => exact h
  | cons m ms ih =>
    rw [List.nodup_cons] at hnodup
    refine ih (h.evict (hms m (List.mem_cons_self ..))) hnodup.2 fun m' hm' => ?_
    -- the eviction of one member leaves the others in the table
    refine Dict.mem_keys_erase.2 ⟨?_, hms m' (List.mem_cons_of_mem _ hm')⟩
    rintro rfl
    exact hnodup.1 hm'

theorem expired_sublist [Sub T] [LT T] [DecidableLT T] (s : Presence T) (now : T) : (s.expired now).Sublist s.members.keys :=
  List.filter_sublist.map _

theorem memberId_apply (member : Str) (kind : Kind) (now : T) : (s.apply member kind now).memberId = s.memberId := by
  cases kind <;> simp only [Presence.apply] <;> split_ifs <;> rfl

theorem memberId_evict_all (ms : List Str) : (ms.foldl Presence.evict s).memberId = s.memberId := by
  induction ms generalizing s with
  | nil => rfl
  | cons m ms ih => exact ih

theorem memberId_step [Sub T] [LT T] [DecidableLT T] {a : Act T} (hs : s.step a = some s') : s'.memberId = s.memberId := by
  cases a with
  | consume length loaded now =>
    simp only [step] at hs
    split at hs <;> cases hs
    · exact memberId_apply ..
    · rfl
  | scan now =>
    cases hs
    exact memberId_evict_all ..

theorem tells_step [Sub T] [LT T] [DecidableLT T] {a : Act T} (h : s.Tells) (hs : s.step a = some s') : s'.Tells := by
  cases a with
  | consume length loaded now =>
    simp only [step] at hs
    split at hs <;> cases hs
    · exact h.apply _ _ now
    · exact h
  | scan now =>
    cases hs
    exact h.evict_all (s.members.nodup.sublist (s.expired_sublist now)) fun m hm => (s.expired_sublist now).subset hm

/-- After any messages and scans at any times, the members are what the emitted changes make of the member itself; for
each member the changes alternate, and the first of them is no repetition either; the table is bounded. -/
theorem changes_describe_members [Sub T] [LT T] [DecidableLT T] {memberId : Str} {ttl now : T} {changesQueueMax : Nat} {acts : List (Act T)}
    (hrun : run step (enter memberId ttl changesQueueMax now) acts = some s) :
    (∀ m, m ∈ s.members.keys ↔ m ∈ replay {memberId} s.emitted) ∧
      (∀ m, (decide (m = memberId) :: (s.emitted.filter fun c => c.member = m).map PresenceChange.joined).IsChain (· ≠ ·)) ∧
      s.members.keys.length ≤ MAX_MEMBERS := by
  have hself : s.memberId = memberId ∧ s.Tells := by
    refine run_invariant (fun s => s.memberId = memberId ∧ s.Tells) (fun s a s' hI hs => ?_) ⟨rfl, tells_enter ..⟩ hrun
    exact ⟨(memberId_step hs).trans hI.1, tells_step hI.2 hs⟩
  obtain ⟨rfl, htells⟩ := hself
  exact ⟨htells.replayed, htells.alternate, htells.bounded⟩

/-- A member joins, and is not heard of again. -/
theorem changes_describe_members_eviction : ∃ s,
    run step (enter (str "me") (10 : Int) 4 0)
      [.consume 30 (some (.object fun key => some (.string (if key = str "member" then str "you" else str "join")))) 1, .scan 5,
        .scan 12] = some s ∧
      s.emitted = [⟨str "you", true⟩, ⟨str "you", false⟩] ∧ ∀ m, m ∈ s.members.keys ↔ m ∈ replay {str "me"} s.emitted := by
  obtain ⟨s, hrun, hs⟩ := Option.map_eq_some_iff.1 (show (run step (enter (str "me") (10 : Int) 4 0)
      [.consume 30 (some (.object fun key => some (.string (if key = str "member" then str "you" else str "join")))) 1, .scan 5,
        .scan 12]).map (fun s => s.emitted) = some [⟨str "you", true⟩, ⟨str "you", false⟩] by decide +kernel)
  exact ⟨s, hrun, hs, (changes_describe_members hrun).1⟩

/-! ### The member itself -/

/-- A record that says that `member` leaves -/
def Act.LeaveOf (member : Str) : Act T → Prop
  | .consume length loaded _ => parsePresenceMessage length loaded = some (member, .leave)
  | .scan _ => False

theorem mem_apply {member : Str} {kind : Kind} (now : T) (hx : x ∈ s.members.keys) (hne : ¬(member = x ∧ kind = .leave)) :
    x ∈ (s.apply member kind now).members.keys := by
  have hset : x ∈ (s.members.set member now).keys := Dict.mem_keys_set.2 (Or.inr hx)
  cases kind with
  | join =>
    simp only [Presence.apply]
    split_ifs
    · exact hx
    · exact hset
    · exact hset
  | heartbeat =>
    simp only [Presence.apply]
    split_ifs
    · exact hx
    · exact hset
    · exact hset
  | leave =>
    simp only [Presence.apply]
    split_ifs
    · exact Dict.mem_keys_erase.2 ⟨fun heq => hne ⟨heq.symm, rfl⟩, hx⟩
    · exact hx

theorem mem_evict_all {ms : List Str} (hx : x ∈ s.members.keys) (hms : x ∉ ms) :
    x ∈ (ms.foldl Presence.evict s).members.keys := by
  induction ms generalizing s with
  | nil => exact hx
  | cons m ms ih =>
    rw [List.mem_cons, not_or] at hms
    exact ih (Dict.mem_keys_erase.2 ⟨hms.1, hx⟩) hms.2

section
variable [Sub T] [LT T] [DecidableLT T]

theorem self_not_expired (s : Presence T) (now : T) : s.memberId ∉ s.expired now := by
  intro hmem
  obtain ⟨e, he, heq⟩ := List.mem_map.1 hmem
  have hne := of_decide_eq_true (List.mem_filter.1 he).2
  exact hne.1 heq

/-- A scan, or a record that does not say that the member itself leaves, keeps it in the table. -/
theorem self_mem_step {a : Act T} (hself : s.memberId ∈ s.members.keys) (ha : ¬a.LeaveOf s.memberId)
    (hs : s.step a = some s') : s.memberId ∈ s'.members.keys := by
  cases a with
  | consume length loaded now =>
    simp only [step] at hs
    split at hs <;> cases hs
    · rename_i member kind hparse
      refine mem_apply now hself fun hleave => ha ?_
      rw [Act.LeaveOf, hparse, hleave.1, hleave.2]
    · exact hself
  | scan now =>
    cases hs
    exact mem_evict_all hself (s.self_not_expired now)

/-- The record of a leave takes its member out of the table, whoever it is. -/
theorem leave_step {a : Act T} (ha : a.LeaveOf x) (hs : s.step a = some s') : x ∉ s'.members.keys := by
  cases a with
  | scan now => exact ha.elim
  | consume length loaded now =>
    rw [Act.LeaveOf] at ha
    simp only [step, ha, Option.some.injEq] at hs
    subst hs
    simp only [Presence.apply]
    split_ifs with hx
    · exact fun hmem => (Dict.mem_keys_erase.1 hmem).1 rfl
    · exact hx

theorem step_total (s : Presence T) (a : Act T) : ∃ s', s.step a = some s' := by
  cases a with
  | consume length loaded now =>
    simp only [step]
    split <;> exact ⟨_, rfl⟩
  | scan now => exact ⟨_, rfl⟩

theorem run_total (s : Presence T) (acts : List (Act T)) : ∃ s', run step s acts = some s' := by
  induction acts generalizing s with
  | nil => exact ⟨s, rfl⟩
  | cons a acts ih =>
    obtain ⟨s₁, h₁⟩ := s.step_total a
    obtain ⟨s₂, h₂⟩ := ih s₁
    exact ⟨s₂, run_cons.2 ⟨s₁, h₁, h₂⟩⟩

/-- The member itself is in the table all along a run exactly if no record of the run says that it leaves. -/
theorem self_present_iff (memberId : Str) (ttl now : T) (changesQueueMax : Nat) (acts : List (Act T)) :
    (∀ acts', acts' <+: acts → ∀ s, run step (enter memberId ttl changesQueueMax now) acts' = some s →
        memberId ∈ s.members.keys) ↔
      ∀ a ∈ acts, ¬a.LeaveOf memberId := by
  constructor
  · intro hpresent a ha hleave
    obtain ⟨before, after, rfl⟩ := List.mem_iff_append.1 ha
    obtain ⟨s₁, h₁⟩ := run_total (enter memberId ttl changesQueueMax now) before
    obtain ⟨s₂, h₂⟩ := s₁.step_total a
    have hrun : run step (enter memberId ttl changesQueueMax now) (before ++ [a]) = some s₂ :=
      run_append.2 ⟨s₁, h₁, run_cons.2 ⟨s₂, h₂, rfl⟩⟩
    have hpre : before ++ [a] <+: before ++ a :: after := ⟨after, by simp⟩
    exact leave_step hleave h₂ (hpresent _ hpre s₂ hrun)
  · intro hno acts' hpre s hrun
    have henter : (enter memberId ttl changesQueueMax now).memberId ∈ (enter memberId ttl changesQueueMax now).members.keys :=
      Dict.mem_keys_set.2 (Or.inl rfl)
    have hself : s.memberId = memberId ∧ s.memberId ∈ s.members.keys := by
      refine run_invariant_of (fun s => s.memberId = memberId ∧ s.memberId ∈ s.members.keys)
        (fun a => ¬a.LeaveOf memberId) (fun s a s' hI ha hs => ?_) (fun a ha => hno a (hpre.subset ha)) ⟨rfl, henter⟩ hrun
      have hid : s'.memberId = s.memberId := memberId_step hs
      refine ⟨hid.trans hI.1, ?_⟩
      rw [hid]
      exact self_mem_step hI.2 (by rwa [hI.1]) hs
    exact hself.1 ▸ hself.2

end

/-- Another handle with the same member id closes. -/
theorem self_absent_after_leave : ¬∀ (acts : List (Act Int)) (s : Presence Int),
    run step (enter (str "me") (10 : Int) 4 0) acts = some s → str "me" ∈ s.members.keys := by
  intro hpresent
  obtain ⟨s, hrun, hs⟩ := Option.map_eq_some_iff.1 (show (run step (enter (str "me") (10 : Int) 4 0)
      [.consume 30 (some (.object fun key => some (.string (if key = str "member" then str "me" else str "leave")))) 1]).map
        (fun s => s.members.keys) = some [] by decide +kernel)
  have hmem := hpresent _ s hrun
  rw [hs] at hmem
  cases hmem

/-! ### Who is in the table -/

variable {m : Str} {t : T}

/-- The table takes the member, or has it. -/
def Admits (s : Presence T) (m : Str) : Prop := m ∈ s.members.keys ∨ s.members.keys.length < MAX_MEMBERS

instance (s : Presence T) (m : Str) : Decidable (s.Admits m) := inferInstanceAs (Decidable (_ ∨ _))

theorem ttl_apply (member : Str) (kind : Kind) (now : T) : (s.apply member kind now).ttl = s.ttl := by
  cases kind <;> simp only [Presence.apply] <;> split_ifs <;> rfl

theorem ttl_evict_all (ms : List Str) : (ms.foldl Presence.evict s).ttl = s.ttl := by
  induction ms generalizing s with
  | nil => rfl
  | cons m ms ih => exact ih

/-- What a record that a member is there does to the table -/
theorem mem_heard {member : Str} {kind : Kind} {now : T} (hkind : kind ≠ .leave) :
    (m, t) ∈ (s.apply member kind now).members.entries ↔
      if m = member ∧ s.Admits m then t = now else (m, t) ∈ s.members.entries := by
  have hheard : (s.apply member kind now).members =
      if member ∉ s.members.keys ∧ MAX_MEMBERS ≤ s.members.keys.length then s.members else s.members.set member now := by
    cases kind with
    | leave => exact absurd rfl hkind
    | join | heartbeat =>
      simp only [Presence.apply]
      split_ifs <;> rfl
  rw [hheard]
  by_cases hfull : member ∉ s.members.keys ∧ MAX_MEMBERS ≤ s.members.keys.length
  · rw [if_pos hfull, if_neg]
    rintro ⟨rfl, hin | hroom⟩
    · exact hfull.1 hin
    · exact absurd hfull.2 (Nat.not_le.2 hroom)
  · rw [if_neg hfull, Dict.mem_entries_set]
    have hadmits : m = member → s.Admits m := by
      rintro rfl
      by_cases hin : m ∈ s.members.keys
      · exact .inl hin
      · exact .inr (Nat.lt_of_not_le fun hle => hfull ⟨hin, hle⟩)
    by_cases hm : m = member
    · rw [if_pos hm, if_pos ⟨hm, hadmits hm⟩]
    · rw [if_neg hm, if_neg fun h => hm h.1]

theorem mem_leave {member : Str} {now : T} :
    (m, t) ∈ (s.apply member .leave now).members.entries ↔ m ≠ member ∧ (m, t) ∈ s.members.entries := by
  simp only [Presence.apply]
  split_ifs with hin
  · exact Dict.mem_entries_erase
  · refine ⟨fun hmem => ⟨?_, hmem⟩, fun h => h.2⟩
    rintro rfl
    exact hin (Dict.mem_keys_iff.2 ⟨t, hmem⟩)

theorem mem_evict_all_entries (ms : List Str) :
    (m, t) ∈ (ms.foldl Presence.evict s).members.entries ↔ m ∉ ms ∧ (m, t) ∈ s.members.entries := by
  induction ms generalizing s with
  | nil => simp
  | cons x ms ih =>
    have herase : (m, t) ∈ (s.evict x).members.entries ↔ m ≠ x ∧ (m, t) ∈ s.members.entries := Dict.mem_entries_erase
    rw [List.foldl_cons, ih, herase, List.mem_cons, not_or, ← and_assoc, and_comm (a := m ∉ ms)]

section
variable [Sub T] [LT T] [DecidableLT T]

/-- A record that comes at the time `t` and says that `m` is there -/
def Act.HeardAt (m : Str) (t : T) : Act T → Prop
  | .consume length loaded now => now = t ∧
    (parsePresenceMessage length loaded = some (m, .join) ∨ parsePresenceMessage length loaded = some (m, .heartbeat))
  | .scan _ => False

/-- A further record of `m`, or a scan that comes too late for what was heard of it at the time `t` -/
def Act.EndsAt (ttl : T) (m : Str) (t : T) : Act T → Prop
  | .consume length loaded _ => ∃ kind, parsePresenceMessage length loaded = some (m, kind)
  | .scan now => ttl < now - t

theorem ttl_step {a : Act T} (hs : s.step a = some s') : s'.ttl = s.ttl := by
  cases a with
  | consume length loaded now =>
    simp only [step] at hs
    split at hs <;> cases hs
    · exact ttl_apply ..
    · rfl
  | scan now =>
    cases hs
    exact ttl_evict_all ..

/-- Of another member a scan evicts what was heard too long ago. -/
theorem mem_expired (hm : m ≠ s.memberId) (hmem : (m, t) ∈ s.members.entries) (now : T) :
    m ∈ s.expired now ↔ s.ttl < now - t := by
  rw [expired, List.mem_map]
  constructor
  · rintro ⟨⟨m', t'⟩, he, rfl⟩
    obtain ⟨hentry, hcond⟩ := List.mem_filter.1 he
    rw [Dict.value_unique hmem hentry]
    exact (of_decide_eq_true hcond).2
  · intro hlate
    exact ⟨(m, t), List.mem_filter.2 ⟨hmem, decide_eq_true ⟨hm, hlate⟩⟩, rfl⟩

/-- One step, for another member -/
theorem mem_entries_step {a : Act T} (hm : m ≠ s.memberId) (hs : s.step a = some s') :
    (m, t) ∈ s'.members.entries ↔ (a.HeardAt m t ∧ s.Admits m) ∨ ((m, t) ∈ s.members.entries ∧ ¬a.EndsAt s.ttl m t) := by
  cases a with
  | scan now =>
    cases hs
    rw [evictExpired, mem_evict_all_entries]
    by_cases hmem : (m, t) ∈ s.members.entries
    · rw [mem_expired hm hmem now]
      exact ⟨fun h => .inr ⟨hmem, h.1⟩, fun h => ⟨(h.resolve_left fun h => h.1).2, hmem⟩⟩
    · exact ⟨fun h => absurd h.2 hmem, fun h => absurd (h.resolve_left fun h => h.1).1 hmem⟩
  | consume length loaded now =>
    simp only [step] at hs
    cases hparse : parsePresenceMessage length loaded with
    | none =>
      rw [hparse] at hs
      cases hs
      simp [Act.HeardAt, Act.EndsAt, hparse]
    | some record =>
      obtain ⟨member, kind⟩ := record
      rw [hparse] at hs
      cases hs
      have hends : Act.EndsAt s.ttl m t (.consume length loaded now) ↔ m = member := by
        simp [Act.EndsAt, hparse, eq_comm]
      by_cases hkind : kind = .leave
      · subst hkind
        have hheard : ¬Act.HeardAt m t (.consume length loaded now) := by simp [Act.HeardAt, hparse]
        rw [mem_leave, hends]
        exact ⟨fun h => .inr h.symm, fun h => (h.resolve_left fun h => hheard h.1).symm⟩
      · have hheard : Act.HeardAt m t (.consume length loaded now) ↔ m = member ∧ t = now := by
          cases kind with
          | leave => exact absurd rfl hkind
          | join | heartbeat => simp [Act.HeardAt, hparse, eq_comm, and_comm]
        rw [mem_heard hkind, hheard, hends]
        by_cases hmember : m = member
        · by_cases hadmits : s.Admits m
          · rw [if_pos ⟨hmember, hadmits⟩]
            exact ⟨fun h => .inl ⟨⟨hmember, h⟩, hadmits⟩, fun h => (h.resolve_right fun h => h.2 hmember).1.2⟩
          · -- the table is full, and the member is not in it
            have hout : (m, t) ∉ s.members.entries := fun hmem => hadmits (.inl (Dict.mem_keys_iff.2 ⟨t, hmem⟩))
            rw [if_neg fun h => hadmits h.2]
            exact ⟨fun h => absurd h hout, fun h => h.elim (fun h => absurd h.2 hadmits) fun h => h.1⟩
        · rw [if_neg fun h => hmember h.1]
          exact ⟨fun h => .inr ⟨h, hmember⟩, fun h => (h.resolve_left fun h => hmember h.1.1).1⟩

theorem memberId_run {acts : List (Act T)} (hrun : run step s acts = some s') :
    s'.memberId = s.memberId ∧ s'.ttl = s.ttl :=
  run_invariant (fun s' => s'.memberId = s.memberId ∧ s'.ttl = s.ttl)
    (fun _ _ _ h hs => ⟨(memberId_step hs).trans h.1, (ttl_step hs).trans h.2⟩) ⟨rfl, rfl⟩ hrun

/-- Another member is in the table, with the time at which it was heard of, exactly if a record of the run says at that time
that it is there, the table took it then, and since then no record of the member has come and no scan too late for it. -/
theorem members_iff_heard (memberId : Str) (ttl now : T) (changesQueueMax : Nat) (acts : List (Act T)) (s : Presence T)
    (hrun : run step (enter memberId ttl changesQueueMax now) acts = some s) (m : Str) (hm : m ≠ memberId) (t : T) :
    (m, t) ∈ s.members.entries ↔ ∃ before a after s₁, acts = before ++ a :: after ∧
      run step (enter memberId ttl changesQueueMax now) before = some s₁ ∧ a.HeardAt m t ∧ s₁.Admits m ∧
      ∀ b ∈ after, ¬b.EndsAt ttl m t := by
  induction acts using List.reverseRecOn generalizing s with
  | nil =>
    cases hrun
    have hout : (m, t) ∉ (enter memberId ttl changesQueueMax now).members.entries := by
      intro hmem
      rcases Dict.mem_keys_set.1 (Dict.mem_keys_iff.2 ⟨t, hmem⟩) with heq | hin
      · exact hm heq
      · cases hin
    refine ⟨fun hmem => absurd hmem hout, ?_⟩
    rintro ⟨before, a, after, -, hacts, -⟩
    cases before <;> cases hacts
  | append_singleton acts a ih =>
    obtain ⟨s₁, hrun₁, hlast⟩ := run_append.1 hrun
    obtain ⟨s₂, hs, hnil⟩ := run_cons.1 hlast
    cases hnil
    obtain ⟨hid, httl⟩ := memberId_run hrun₁
    have hid' : m ≠ s₁.memberId := by rwa [hid]
    have httl' : s₁.ttl = ttl := httl
    rw [mem_entries_step hid' hs, ih s₁ hrun₁, httl']
    constructor
    · rintro (⟨hheard, hadmits⟩ | ⟨⟨before, b, after, s₀, rfl, hbefore, hheard, hadmits, hafter⟩, hends⟩)
      · exact ⟨acts, a, [], s₁, rfl, hrun₁, hheard, hadmits, fun b hb => by cases hb⟩
      · refine ⟨before, b, after ++ [a], s₀, by rw [List.append_assoc, List.cons_append], hbefore, hheard, hadmits, ?_⟩
        intro c hc
        rcases List.mem_append.1 hc with hc | hc
        · exact hafter c hc
        · obtain rfl := List.mem_singleton.1 hc
          exact hends
    · rintro ⟨before, b, after, s₀, hacts, hbefore, hheard, hadmits, hafter⟩
      -- the record is the last action, or comes before it
      rcases List.eq_nil_or_concat after with rfl | ⟨rest, c, rfl⟩
      · obtain ⟨rfl, hab⟩ := List.append_inj' hacts rfl
        obtain rfl : a = b := by simpa using hab
        rw [hrun₁] at hbefore
        cases hbefore
        exact .inl ⟨hheard, hadmits⟩
      · rw [List.concat_eq_append, ← List.cons_append, ← List.append_assoc] at hacts
        rw [List.concat_eq_append] at hafter
        obtain ⟨rfl, hac⟩ := List.append_inj' hacts rfl
        obtain rfl : a = c := by simpa using hac
        refine .inr ⟨⟨before, b, rest, s₀, rfl, hbefore, hheard, hadmits, fun d hd => ?_⟩, ?_⟩
        · exact hafter d (List.mem_append_left _ hd)
        · exact hafter a (List.mem_append_right _ (List.mem_singleton_self a))

end

/-- A record of another member -/
def ofYou (kind : String) : Option Json :=
  some (.object fun key => some (.string (if key = str "member" then str "you" else str kind)))

/-- The second scan comes ten after the join, and seven after the heartbeat. -/
theorem members_iff_heard_ofYou : ∃ s, run step (enter (str "me") (8 : Int) 4 0)
    [.consume 30 (ofYou "join") 1, .scan 5, .consume 30 (ofYou "heartbeat") 4, .scan 11] = some s ∧
      (str "you", 4) ∈ s.members.entries := by
  obtain ⟨s, hrun⟩ := run_total (enter (str "me") (8 : Int) 4 0)
    [.consume 30 (ofYou "join") 1, .scan 5, .consume 30 (ofYou "heartbeat") 4, .scan 11]
  refine ⟨s, hrun, (members_iff_heard (str "me") 8 0 4 _ s hrun (str "you") (by decide +kernel) 4).2 ?_⟩
  obtain ⟨s₁, hrun₁, hadmits⟩ := Option.map_eq_some_iff.1 (show (run step (enter (str "me") (8 : Int) 4 0)
    [.consume 30 (ofYou "join") 1, .scan 5]).map (fun s => decide (s.Admits (str "you"))) = some true by decide +kernel)
  refine ⟨[.consume 30 (ofYou "join") 1, .scan 5], .consume 30 (ofYou "heartbeat") 4, [.scan 11], s₁, rfl, hrun₁,
    ⟨rfl, .inr (by decide +kernel)⟩, of_decide_eq_true hadmits, fun b hb => ?_⟩
  obtain rfl := List.mem_singleton.1 hb
  exact (by decide : ¬(8 : Int) < 11 - 4)

end Presence

end Mmbus.Cast
