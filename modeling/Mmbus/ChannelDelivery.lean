import Mmbus.FanOut
import Mmbus.SlowConsumer

/-!
# What the subscribers of a channel get

The fan-out hub with the messages that pass through it: the topics of the peers, the mmbus subscriptions that the
fan-outs read, and the queues and calls of the consumers.

There is one order in which the fan-outs take up the messages, and every consumer gets a part of that order without a
gap: from its `subscribe` on, up to its end (`channel_order`).  If the peers have different names no message is taken
up twice, and those of one peer are taken up in the order of their publication.
-/

namespace Mmbus.Cast

open Transition

/-! ### One fan-out for each peer -/

/-- What does not change in a fan-out -/
def Fanout.id (f : Fanout) : String × Nat := (f.key, f.handle)

namespace Hub

/-- The fan-outs have different keys, and those that will be started have others. -/
structure Distinct (s : Hub) : Prop where
  peers : s.peers.Nodup
  keys : (s.fanouts.map Fanout.key).Nodup
  handles : ∀ f ∈ s.fanouts, f.key ∈ s.peers ∧ f.handle < s.exited.length
  known : s.closed = false → s.closing = .no ∧ ∀ f ∈ s.fanouts, f.key ∈ s.mmbusSubs.keys
  opens : ∀ i opens, s.startLock = some (i, opens) → (opens.map Prod.fst).Nodup ∧
    ∀ x ∈ opens, x.1 ∈ s.peers ∧ x.1 ∉ s.fanouts.map Fanout.key ∧ ∀ handle, x.2 = .opened handle → handle < s.exited.length

variable {s s' : Hub} {i j : Nat} {kind : CoroutineKind} {opens : List (String × Opening)} {a : Act}

theorem distinct_create {peers : List String} (h : peers.Nodup) : (create peers).Distinct where
  peers := h
  keys := List.nodup_nil
  handles := by
    intro f hf
    cases hf
  known _ := ⟨rfl, fun f hf => by cases hf⟩
  opens := by
    intro i opens hlock
    cases hlock

theorem Distinct.of_quiet (h : s.Distinct) (hq : Quiet s s') (hopens : ∀ i opens, s'.startLock = some (i, opens) →
    (opens.map Prod.fst).Nodup ∧ ∀ x ∈ opens, x.1 ∈ s.peers ∧ x.1 ∉ s.fanouts.map Fanout.key ∧
      ∀ handle, x.2 = .opened handle → handle < s.exited.length) : s'.Distinct where
  peers := by
    rw [hq.peers]
    exact h.peers
  keys := by
    rw [hq.fanouts]
    exact h.keys
  handles := by
    rw [hq.fanouts, hq.peers, hq.exited]
    exact h.handles
  known := by
    rw [hq.closed, hq.fanouts, hq.closing, hq.mmbusSubs]
    exact h.known
  opens := by
    rw [hq.fanouts, hq.peers, hq.exited]
    exact hopens

theorem Distinct.unlock (h : s.Distinct) (hq : Quiet s s') (hfree : s'.startLock = none) : s'.Distinct :=
  h.of_quiet hq (by rw [hfree]; exact nofun)

/-- The lock is taken for peers that no fan-out has. -/
theorem Distinct.locks (h : s.Distinct) (hq : Quiet s s') (hlocks : Locks s s') : s'.Distinct := by
  refine h.of_quiet hq fun i opens hlock => ?_
  rcases hlocks with hsame | ⟨-, hopen, -, i', hnew⟩
  · exact h.opens i opens (hsame ▸ hlock)
  · rw [hnew] at hlock
    cases hlock
    refine ⟨?_, fun x hx => ?_⟩
    · rw [List.map_map]
      exact (h.peers.sublist List.filter_sublist).map fun a b heq => heq
    · obtain ⟨k, hk, rfl⟩ := List.mem_map.1 hx
      obtain ⟨hpeer, hmissing⟩ := List.mem_filter.1 hk
      refine ⟨hpeer, fun hkey => ?_, fun handle hopened => by cases hopened⟩
      obtain ⟨f, hf, rfl⟩ := List.mem_map.1 hkey
      exact of_decide_eq_true hmissing ((h.known hopen).2 f hf)

theorem mem_of_map_id (hid : s'.fanouts.map Fanout.id = s.fanouts.map Fanout.id) {f : Fanout} (hf : f ∈ s'.fanouts) :
    ∃ g ∈ s.fanouts, g.key = f.key ∧ g.handle = f.handle := by
  have hmem : f.id ∈ s.fanouts.map Fanout.id := hid ▸ List.mem_map_of_mem hf
  obtain ⟨g, hg, heq⟩ := List.mem_map.1 hmem
  exact ⟨g, hg, congrArg Prod.fst heq, congrArg Prod.snd heq⟩

theorem keys_of_map_id (hid : s'.fanouts.map Fanout.id = s.fanouts.map Fanout.id) :
    s'.fanouts.map Fanout.key = s.fanouts.map Fanout.key := by
  have hkey (l : List Fanout) : l.map Fanout.key = (l.map Fanout.id).map Prod.fst := by
    rw [List.map_map]
    rfl
  rw [hkey, hid, ← hkey]

/-- The fan-outs go on or end, and the mmbus subscriptions are exited. -/
theorem Distinct.of_flags (h : s.Distinct) (hid : s'.fanouts.map Fanout.id = s.fanouts.map Fanout.id)
    (hpeers : s'.peers = s.peers) (hexited : s'.exited.length = s.exited.length) (hlock : s'.startLock = s.startLock)
    (hopen : s'.closed = false → s.closed = false ∧ s'.closing = s.closing ∧ s'.mmbusSubs = s.mmbusSubs) :
    s'.Distinct where
  peers := by
    rw [hpeers]
    exact h.peers
  keys := by
    rw [keys_of_map_id hid]
    exact h.keys
  handles := by
    intro f hf
    obtain ⟨g, hg, hkey, hhandle⟩ := mem_of_map_id hid hf
    rw [← hkey, ← hhandle, hpeers, hexited]
    exact h.handles g hg
  known := by
    intro hclosed
    obtain ⟨hclosed', hclosing, hsubs⟩ := hopen hclosed
    rw [hclosing, hsubs]
    refine ⟨(h.known hclosed').1, fun f hf => ?_⟩
    obtain ⟨g, hg, hkey, -⟩ := mem_of_map_id hid hf
    rw [← hkey]
    exact (h.known hclosed').2 g hg
  opens := by
    rw [hlock, hpeers, hexited, keys_of_map_id hid]
    exact h.opens

/-- More mmbus subscriptions have been opened. -/
theorem Distinct.of_opened (h : s.Distinct) {exited : List Bool} (hlen : s.exited.length ≤ exited.length) :
    Distinct { s with exited := exited } where
  peers := h.peers
  keys := h.keys
  handles f hf := ⟨(h.handles f hf).1, Nat.lt_of_lt_of_le (h.handles f hf).2 hlen⟩
  known := h.known
  opens i opens hlock := by
    obtain ⟨hnodup, hall⟩ := h.opens i opens hlock
    refine ⟨hnodup, fun x hx => ?_⟩
    obtain ⟨hpeer, hkey, hhandle⟩ := hall x hx
    exact ⟨hpeer, hkey, fun handle hopened => Nat.lt_of_lt_of_le (hhandle handle hopened) hlen⟩

theorem Distinct.setOpening {result : Opening} (h : s.Distinct) (hlock : s.startLock = some (i, opens))
    (hresult : ∀ handle, result = .opened handle → handle < s.exited.length) :
    (s.setOpening i opens j result).Distinct := by
  refine h.of_quiet ⟨rfl, rfl, rfl, rfl, rfl, rfl⟩ fun i' opens' hlock' => ?_
  have hlock'' : some (i, opens.modify j fun x => (x.1, result)) = some (i', opens') := hlock'
  cases hlock''
  obtain ⟨hnodup, hall⟩ := h.opens i opens hlock
  have hfst : (opens.modify j fun x => (x.1, result)).map Prod.fst = opens.map Prod.fst := by
    refine List.ext_getElem? fun n => ?_
    rw [List.getElem?_map, List.getElem?_map, List.getElem?_modify]
    cases opens[n]? with
    | none => rfl
    | some x =>
      by_cases hn : j = n
      · simp [hn]
      · simp [hn]
  refine ⟨hfst ▸ hnodup, fun x hx => ?_⟩
  obtain ⟨n, hn⟩ := List.mem_iff_getElem?.1 hx
  rw [List.getElem?_modify] at hn
  obtain ⟨y, hy, rfl⟩ := Option.map_eq_some_iff.1 hn
  obtain ⟨hpeer, hkey, hhandle⟩ := hall y (List.mem_of_getElem? hy)
  split
  · exact ⟨hpeer, hkey, hresult⟩
  · exact ⟨hpeer, hkey, hhandle⟩

theorem key_newFanouts_sublist (opens : List (String × Opening)) :
    ((newFanouts opens).map Fanout.key).Sublist (opens.map Prod.fst) := by
  induction opens with
  | nil => exact List.Sublist.refl _
  | cons x opens ih =>
    obtain ⟨key, o⟩ := x
    cases o with
    | opened handle => exact ih.cons_cons key
    | waiting | offline => exact ih.cons key

/-- The fan-outs of a gather are started. -/
theorem Distinct.resume (h : s.Distinct) (hlock : s.startLock = some (i, opens)) :
    (s.finishStart i kind opens).Distinct := by
  obtain ⟨hq, hfree⟩ := finishStart_quiet s i kind opens
  obtain ⟨hfanouts, hkeys⟩ := register_opens s opens
  obtain ⟨hpeers, hclosed, hexited, hclosing, -⟩ := register_rest s opens
  obtain ⟨hnodup, hall⟩ := h.opens i opens hlock
  have hnew {f : Fanout} (hf : f ∈ newFanouts opens) :
      f.key ∈ s.peers ∧ f.key ∉ s.fanouts.map Fanout.key ∧ f.handle < s.exited.length := by
    obtain ⟨hpeer, hkey, hhandle⟩ := hall _ (mem_newFanouts hf).2.2
    exact ⟨hpeer, hkey, hhandle _ rfl⟩
  refine ⟨?_, ?_, ?_, ?_, by rw [hfree]; exact nofun⟩
  · rw [hq.peers, hpeers]
    exact h.peers
  · rw [hq.fanouts, hfanouts, List.map_append, List.nodup_append']
    refine ⟨h.keys, hnodup.sublist (key_newFanouts_sublist opens), fun k hk hk' => ?_⟩
    obtain ⟨f, hf, rfl⟩ := List.mem_map.1 hk'
    exact (hnew hf).2.1 hk
  · rw [hq.fanouts, hfanouts, hq.peers, hpeers, hq.exited, hexited]
    intro f hf
    rcases List.mem_append.1 hf with hold | hf
    · exact h.handles f hold
    · exact ⟨(hnew hf).1, (hnew hf).2.2⟩
  · rw [hq.closed, hclosed, hq.closing, hclosing, hq.fanouts, hfanouts, hq.mmbusSubs]
    intro hopen
    refine ⟨(h.known hopen).1, fun f hf => (hkeys f.key).2 ?_⟩
    exact (List.mem_append.1 hf).imp ((h.known hopen).2 f) fun hf => ⟨f, hf, rfl⟩

theorem map_id_set {t : Nat} {f g : Fanout} (hf : s.fanouts[t]? = some f) (hid : g.id = f.id) :
    (s.fanouts.set t g).map Fanout.id = s.fanouts.map Fanout.id := by
  obtain ⟨hlt, rfl⟩ := List.getElem?_eq_some_iff.1 hf
  rw [List.map_set, hid]
  refine List.ext_getElem (List.length_set ..) fun n h₁ h₂ => ?_
  rw [List.getElem_set]
  split
  · rename_i heq
    subst heq
    rw [List.getElem_map]
  · rfl

theorem map_id_cancel : (s.fanouts.map fun f => if f.running then { f with cancelled := true } else f).map Fanout.id =
    s.fanouts.map Fanout.id := by
  rw [List.map_map]
  refine List.map_congr_left fun f _ => ?_
  simp only [Function.comp_apply]
  split <;> rfl

theorem Distinct.step (h : s.Distinct) (hs : s.step a = some s') : s'.Distinct := by
  have hquiet (ha : a.IsQuiet) : s'.Distinct := by
    obtain ⟨hq, hlocks⟩ := step_quiet ha hs
    exact h.locks hq hlocks
  cases a with
  | subscribe => exact hquiet .subscribe
  | run i => exact hquiet (.run i)
  | acquire i => exact hquiet (.acquire i)
  | wake i => exact hquiet (.wake i)
  | strayEnds => exact hquiet .strayEnds
  | leave n => exact hquiet (.leave n)
  | disconnect n => exact hquiet (.disconnect n)
  | opened j =>
    obtain ⟨⟨i, kind, opens⟩, hawaited, rfl⟩ := Option.map_eq_some_iff.1 hs
    have hgrown : Distinct { s with exited := s.exited ++ [false] } := h.of_opened (by simp)
    refine hgrown.setOpening (awaited_eq_some hawaited).1 fun handle hopened => ?_
    cases hopened
    simp
  | offline j =>
    obtain ⟨⟨i, kind, opens⟩, hawaited, rfl⟩ := Option.map_eq_some_iff.1 hs
    exact h.setOpening (awaited_eq_some hawaited).1 (fun handle hopened => by cases hopened)
  | raises j =>
    obtain ⟨⟨i, kind, opens⟩, hawaited, rfl⟩ := Option.map_eq_some_iff.1 hs
    cases kind with
    | subscribe | reconnect => exact h.unlock ⟨rfl, rfl, rfl, rfl, rfl, rfl⟩ rfl
  | resume =>
    simp only [Hub.step] at hs
    split at hs
    · rename_i i opens hlock
      split at hs
      · split at hs
        · cases hs
        · cases hs
          exact h.resume hlock
      · cases hs
    · cases hs
  | cancel i =>
    simp only [Hub.step] at hs
    split at hs
    · cases hs
      exact h.of_quiet ⟨rfl, rfl, rfl, rfl, rfl, rfl⟩ h.opens
    · cases hs
      exact h.of_quiet ⟨rfl, rfl, rfl, rfl, rfl, rfl⟩ h.opens
    · cases hs
      exact h.of_quiet ⟨rfl, rfl, rfl, rfl, rfl, rfl⟩ h.opens
    · obtain ⟨x, -, rfl⟩ := Option.map_eq_some_iff.1 hs
      exact h.unlock ⟨rfl, rfl, rfl, rfl, rfl, rfl⟩ rfl
    · cases hs
  | strayOpens =>
    simp only [Hub.step] at hs
    split at hs
    · cases hs
      have hgrown : Distinct { s with exited := s.exited ++ [false] } := h.of_opened (by simp)
      exact ⟨hgrown.peers, hgrown.keys, hgrown.handles, hgrown.known, hgrown.opens⟩
    · cases hs
  | fanoutEnds t failed =>
    simp only [Hub.step] at hs
    split at hs
    · rename_i key handle hf
      cases hs
      have hid : (s.fanouts.set t ⟨key, handle, false, false⟩).map Fanout.id = s.fanouts.map Fanout.id :=
        map_id_set hf rfl
      cases failed with
      | false => exact h.of_flags hid rfl rfl rfl fun hopen => ⟨hopen, rfl, rfl⟩
      | true => exact h.of_flags hid rfl rfl rfl fun hopen => ⟨hopen, rfl, rfl⟩
    · cases hs
  | fanoutCancelled t =>
    simp only [Hub.step] at hs
    split at hs
    · rename_i key handle hf
      cases hs
      have hid : (s.fanouts.set t ⟨key, handle, false, true⟩).map Fanout.id = s.fanouts.map Fanout.id :=
        map_id_set hf rfl
      exact h.of_flags hid rfl rfl rfl fun hopen => ⟨hopen, rfl, rfl⟩
    · cases hs
  | close =>
    cases hs
    unfold Hub.close
    split
    · exact h
    · refine h.of_flags map_id_cancel rfl rfl rfl fun hopen => ?_
      cases hopen
  | closeStep =>
    have hclosed : s.closed = true := by
      refine Bool.eq_true_of_not_eq_false fun hopen => ?_
      rw [Hub.step, Hub.closeStep, (h.known hopen).1] at hs
      cases hs
    have hsame (hpeers : s'.peers = s.peers) (hclosed' : s'.closed = s.closed) (hfanouts : s'.fanouts = s.fanouts)
        (hexited : s'.exited.length = s.exited.length) (hlock : s'.startLock = s.startLock) : s'.Distinct := by
      refine h.of_flags (by rw [hfanouts]) hpeers hexited hlock fun hopen => ?_
      rw [hclosed', hclosed] at hopen
      cases hopen
    simp only [Hub.step, Hub.closeStep] at hs
    split at hs
    · split at hs
      · cases hs
      · cases hs
        exact hsame rfl rfl rfl rfl rfl
    · split at hs
      · cases hs
      · cases hs
        exact hsame rfl rfl rfl rfl rfl
    · cases hs
      exact hsame rfl rfl rfl rfl rfl
    · split at hs
      · cases hs
        exact hsame rfl rfl rfl rfl rfl
      · split at hs
        · cases hs
          exact hsame rfl rfl rfl (List.length_set ..) rfl
        · cases hs
          exact hsame rfl rfl rfl rfl rfl
    · cases hs

/-! ### The subscriptions that have been handed out -/

/-- A subscription is closed and detached for good, and a new one is open and attached. -/
structure LaterSubs (subs subs' : List Subscription) : Prop where
  length : subs.length ≤ subs'.length
  old : ∀ (n : Nat) (sub sub' : Subscription), subs[n]? = some sub → subs'[n]? = some sub' →
    (sub'.attached = true → sub.attached = true) ∧ (sub.closed = true → sub'.closed = true)
  new : ∀ (n : Nat) (sub' : Subscription), subs.length ≤ n → subs'[n]? = some sub' → sub' = ⟨false, true⟩

theorem later_refl (subs : List Subscription) : LaterSubs subs subs where
  length := Nat.le_refl _
  old := by
    intro n sub sub' h h'
    rw [h, Option.some.injEq] at h'
    subst h'
    exact ⟨id, id⟩
  new := by
    intro n sub' hn h'
    rw [List.getElem?_eq_none hn] at h'
    cases h'

theorem later_append (subs : List Subscription) : LaterSubs subs (subs ++ [⟨false, true⟩]) where
  length := by simp
  old := by
    intro n sub sub' h h'
    rw [List.getElem?_append_left (List.getElem?_eq_some_iff.1 h).1] at h'
    exact (later_refl subs).old n sub sub' h h'
  new := by
    intro n sub' hn h'
    rw [List.getElem?_append_right hn] at h'
    exact List.eq_of_mem_singleton (List.mem_of_getElem? h')

/-- Some of the subscriptions are changed. -/
theorem later_of_length {subs subs' : List Subscription} (hlen : subs'.length = subs.length)
    (hold : ∀ (n : Nat) (sub sub' : Subscription), subs[n]? = some sub → subs'[n]? = some sub' →
      (sub'.attached = true → sub.attached = true) ∧ (sub.closed = true → sub'.closed = true)) :
    LaterSubs subs subs' where
  length := Nat.le_of_eq hlen.symm
  old := hold
  new := by
    intro n sub' hn h'
    rw [List.getElem?_eq_none (by omega)] at h'
    cases h'

theorem later_reconnectLoop : LaterSubs s.subs (s.reconnectLoop i).subs := by
  unfold reconnectLoop
  split <;> exact later_refl s.subs

theorem later_afterStart : LaterSubs s.subs (s.afterStart i kind).subs := by
  cases kind with
  | subscribe => exact later_append s.subs
  | reconnect => exact later_reconnectLoop

theorem later_enter : LaterSubs s.subs (s.enter i kind).subs := by
  unfold enter
  split
  · exact later_afterStart
  · split
    · exact later_afterStart
    · exact later_refl s.subs

theorem later_start : LaterSubs s.subs (s.start i kind).subs := by
  unfold start
  split
  · exact later_enter
  · exact later_refl s.subs

theorem later_finishStart : LaterSubs s.subs (s.finishStart i kind opens).subs := by
  obtain ⟨-, -, -, -, -, -, hsubs, -⟩ := register_rest s opens
  have hensure (s : Hub) : s.ensureReconnect.subs = s.subs := by
    unfold ensureReconnect
    split <;> rfl
  have hlater : LaterSubs (opens.foldl register s).ensureReconnect.subs (s.finishStart i kind opens).subs :=
    later_afterStart (s := { (opens.foldl register s).ensureReconnect with startLock := none })
  rwa [hensure, hsubs] at hlater

theorem later_closeSubs : LaterSubs s.subs s.closeSubs.subs := by
  refine later_of_length (List.length_map ..) fun n sub sub' h h' => ?_
  rw [closeSubs, List.getElem?_map, h, Option.map_some, Option.some.injEq] at h'
  subst h'
  split
  · exact ⟨id, fun _ => rfl⟩
  · exact ⟨id, id⟩

/-- What a step leaves, and what it may add -/
structure Later (s s' : Hub) : Prop where
  peers : s'.peers = s.peers
  fanouts : s.fanouts.map Fanout.id <+: s'.fanouts.map Fanout.id
  exited : s.exited.length ≤ s'.exited.length
  subs : LaterSubs s.subs s'.subs

theorem Later.of_same (hpeers : s'.peers = s.peers) (hfanouts : s'.fanouts = s.fanouts)
    (hexited : s.exited.length ≤ s'.exited.length) (hsubs : LaterSubs s.subs s'.subs) : Later s s' :=
  ⟨hpeers, by rw [hfanouts], hexited, hsubs⟩

theorem later_quiet (hq : Quiet s s') (hsubs : LaterSubs s.subs s'.subs) : Later s s' :=
  .of_same hq.peers hq.fanouts (by rw [hq.exited]) hsubs

theorem later_resume : Later s (s.finishStart i kind opens) := by
  obtain ⟨hq, -⟩ := finishStart_quiet s i kind opens
  obtain ⟨hfanouts, -⟩ := register_opens s opens
  obtain ⟨hpeers, -, hexited, -⟩ := register_rest s opens
  refine ⟨hq.peers.trans hpeers, ?_, ?_, later_finishStart⟩
  · rw [hq.fanouts, hfanouts, List.map_append]
    exact List.prefix_append ..
  · rw [hq.exited, hexited]

theorem later_step (hs : s.step a = some s') : Later s s' := by
  have hrest : LaterSubs s.subs s.subs := later_refl s.subs
  cases a with
  | subscribe =>
    have hquiet := (step_quiet .subscribe hs).1
    cases hs
    exact later_quiet hquiet (later_start (s := s.spawn .subscribe))
  | run i =>
    have hquiet := (step_quiet (.run i) hs).1
    simp only [Hub.step] at hs
    split at hs
    · cases hs
      exact later_quiet hquiet later_reconnectLoop
    · cases hs
  | acquire i =>
    have hquiet := (step_quiet (.acquire i) hs).1
    simp only [Hub.step] at hs
    split at hs
    · split at hs
      · cases hs
        exact later_quiet hquiet later_enter
      · cases hs
    · cases hs
  | opened j =>
    obtain ⟨x, -, rfl⟩ := Option.map_eq_some_iff.1 hs
    exact .of_same rfl rfl (by simp) hrest
  | offline j =>
    obtain ⟨x, -, rfl⟩ := Option.map_eq_some_iff.1 hs
    exact .of_same rfl rfl (Nat.le_refl _) hrest
  | raises j =>
    obtain ⟨⟨i, kind, opens⟩, -, rfl⟩ := Option.map_eq_some_iff.1 hs
    cases kind with
    | subscribe | reconnect => exact .of_same rfl rfl (Nat.le_refl _) hrest
  | resume =>
    simp only [Hub.step] at hs
    split at hs
    · split at hs
      · split at hs
        · cases hs
        · cases hs
          exact later_resume
      · cases hs
    · cases hs
  | wake i =>
    have hquiet := (step_quiet (.wake i) hs).1
    simp only [Hub.step] at hs
    split at hs
    · cases hs
      split
      · exact .of_same rfl rfl (Nat.le_refl _) hrest
      · exact later_quiet quiet_start later_start
    · cases hs
  | cancel i =>
    simp only [Hub.step] at hs
    split at hs
    · cases hs
      exact .of_same rfl rfl (Nat.le_refl _) hrest
    · cases hs
      exact .of_same rfl rfl (Nat.le_refl _) hrest
    · cases hs
      exact .of_same rfl rfl (Nat.le_refl _) hrest
    · obtain ⟨x, -, rfl⟩ := Option.map_eq_some_iff.1 hs
      exact .of_same rfl rfl (Nat.le_refl _) hrest
    · cases hs
  | strayOpens =>
    simp only [Hub.step] at hs
    split at hs
    · cases hs
      exact .of_same rfl rfl (by simp) hrest
    · cases hs
  | strayEnds =>
    simp only [Hub.step] at hs
    split at hs
    · cases hs
      exact .of_same rfl rfl (Nat.le_refl _) hrest
    · cases hs
  | fanoutEnds t failed =>
    simp only [Hub.step] at hs
    split at hs
    · rename_i key handle hf
      cases hs
      have hid : (s.fanouts.set t ⟨key, handle, false, false⟩).map Fanout.id = s.fanouts.map Fanout.id :=
        map_id_set hf rfl
      cases failed with
      | false => exact ⟨rfl, by rw [← hid]; rfl, Nat.le_refl _, hrest⟩
      | true =>
        exact ⟨rfl, by rw [← hid]; rfl, Nat.le_refl _,
          later_closeSubs (s := { s with fanouts := s.fanouts.set t ⟨key, handle, false, false⟩ })⟩
    · cases hs
  | fanoutCancelled t =>
    simp only [Hub.step] at hs
    split at hs
    · rename_i key handle hf
      cases hs
      have hid : (s.fanouts.set t ⟨key, handle, false, true⟩).map Fanout.id = s.fanouts.map Fanout.id :=
        map_id_set hf rfl
      exact ⟨rfl, by rw [← hid], Nat.le_refl _, hrest⟩
    · cases hs
  | leave n =>
    simp only [Hub.step] at hs
    split at hs
    · cases hs
      refine .of_same rfl rfl (Nat.le_refl _) (later_of_length (List.length_set ..) fun m sub sub' h h' => ?_)
      rw [List.getElem?_set] at h'
      split at h'
      · cases h'
        refine ⟨fun hattached => ?_, fun _ => rfl⟩
        cases hattached
      · exact hrest.old m sub sub' h h'
    · cases hs
  | disconnect n =>
    cases hs
    refine .of_same rfl rfl (Nat.le_refl _) (later_of_length (List.length_modify ..) fun m sub sub' h h' => ?_)
    rw [List.getElem?_modify, h] at h'
    cases h'
    split
    · exact ⟨id, fun _ => rfl⟩
    · exact ⟨id, id⟩
  | close =>
    cases hs
    unfold Hub.close
    split
    · exact .of_same rfl rfl (Nat.le_refl _) hrest
    · exact ⟨rfl, by rw [map_id_cancel], Nat.le_refl _, hrest⟩
  | closeStep =>
    simp only [Hub.step, Hub.closeStep] at hs
    split at hs
    · split at hs
      · cases hs
      · cases hs
        exact .of_same rfl rfl (Nat.le_refl _) hrest
    · split at hs
      · cases hs
      · cases hs
        exact .of_same rfl rfl (Nat.le_refl _) hrest
    · cases hs
      exact .of_same rfl rfl (Nat.le_refl _) hrest
    · split at hs
      · cases hs
        exact .of_same rfl rfl (Nat.le_refl _) hrest
      · split at hs
        · cases hs
          exact .of_same rfl rfl (by simp) hrest
        · cases hs
          exact .of_same rfl rfl (Nat.le_refl _) later_closeSubs
    · cases hs

end Hub

/-! ### The channel with its messages -/

open SlowConsumer (SlowPolicy)

/-- A message that is published on the topic of `peer`, as the `seq`-th one.  The code has its `data` only. -/
structure Message where
  peer : String
  seq : Nat
  data : List UInt8
  deriving DecidableEq

/-- A consumer, and how many messages the fan-outs had taken up when it subscribed -/
structure Consumer where
  state : SlowConsumer.State Message
  joined : Nat

/-- `_enqueue` -/
def SlowConsumer.State.enqueue {α : Type} (s : SlowConsumer.State α) (data : α) : SlowConsumer.State α :=
  (SlowConsumer.step s (.enqueue data)).getD s

namespace Consumer

/-- The close signal of a subscription that is closed -/
def signal (sub : Subscription) (c : Consumer) : Consumer :=
  if sub.closed then { c with state := { c.state with sub := c.state.sub.closeFromFanout } } else c

/-- A fan-out has a message for the subscriptions in `_subs`. -/
def enqueue (m : Message) (sub : Subscription) (c : Consumer) : Consumer :=
  if sub.attached then { c with state := c.state.enqueue m } else c

end Consumer

/-- `_Channel` -/
structure Channel where
  hub : Hub
  /-- What has been published on the topic of a peer -/
  published : String → List (List UInt8)
  /-- Where the mmbus subscriptions are in their topics -/
  cursors : List Nat
  /-- The consumers of `hub.subs` -/
  consumers : List Consumer
  /-- What the fan-outs have taken up, in that order -/
  taken : List Message

namespace Channel

def create (peers : List String) : Channel := ⟨.create peers, fun _ => [], [], [], []⟩

inductive Act
  | publish (peer : String) (data : List UInt8)
  /-- A step of the hub; an mmbus subscription that it opens begins at `start`. -/
  | hub (a : Hub.Act) (start queueDepth : Nat) (slowPolicy : SlowPolicy)
  /-- The fan-out `t` gets the message `seq` of its topic and enqueues it. -/
  | take (t seq : Nat)
  /-- A step of a consumer's own -/
  | consumer (n : Nat) (a : SlowConsumer.Act Message)

/-- The steps of a consumer that no fan-out and no close makes -/
def isOwn : SlowConsumer.Act Message → Bool
  | .enqueue _ | .close => false
  | _ => true

/-- The hub after a step: what is new gets a cursor or a consumer, and what is closed the signal. -/
def setHub (s : Channel) (hub : Hub) (start queueDepth : Nat) (slowPolicy : SlowPolicy) : Channel :=
  let fresh := ⟨.start queueDepth slowPolicy, s.taken.length⟩
  { s with
    hub := hub
    cursors := s.cursors ++ List.replicate (hub.exited.length - s.cursors.length) start
    consumers := List.zipWith Consumer.signal hub.subs
      (s.consumers ++ List.replicate (hub.subs.length - s.consumers.length) fresh) }

def step (s : Channel) : Act → Option Channel
  | .publish peer data => some { s with published := Function.update s.published peer (s.published peer ++ [data]) }
  -- a consumer is disconnected where its queue is full
  | .hub (.disconnect _) _ _ _ => none
  | .hub a start queueDepth slowPolicy => (s.hub.step a).map fun hub => s.setHub hub start queueDepth slowPolicy
  | .take t seq =>
    match s.hub.fanouts[t]? with
    | some ⟨key, handle, true, false⟩ =>
      match s.cursors[handle]?, (s.published key)[seq]? with
      | some cursor, some data =>
        -- a subscription that has been overrun goes on further ahead
        if cursor ≤ seq then
          let consumers := List.zipWith (Consumer.enqueue ⟨key, seq, data⟩) s.hub.subs s.consumers
          some { s with
            hub := { s.hub with
              subs := List.zipWith (fun sub c => { sub with closed := c.state.sub.closed }) s.hub.subs consumers }
            cursors := s.cursors.set handle (seq + 1)
            consumers := consumers
            taken := s.taken ++ [⟨key, seq, data⟩] }
        else none
      | _, _ => none
    | _ => none
  | .consumer n a =>
    match s.consumers[n]?, isOwn a with
    | some c, true => (SlowConsumer.step c.state a).map fun state => { s with consumers := s.consumers.set n { c with state := state } }
    | _, _ => none

end Channel

/-! ### What a consumer has been given -/

/-- A consumer has been given the messages from its `subscribe` on, up to its end. -/
structure Consumer.Follows (taken : List Message) (sub : Subscription) (c : Consumer) : Prop where
  inv : SlowConsumer.Inv c.state
  closed : c.state.sub.closed = sub.closed
  joined : c.joined ≤ taken.length
  begins : c.state.enqueued <+: taken.drop c.joined
  all : sub.attached = true → sub.closed = false → c.state.enqueued = taken.drop c.joined

namespace Consumer

variable {c : Consumer} {sub sub' : Subscription} {m : Message} {taken : List Message}

theorem follows_start (queueDepth : Nat) (slowPolicy : SlowPolicy) (taken : List Message) :
    Follows taken ⟨false, true⟩ ⟨.start queueDepth slowPolicy, taken.length⟩ where
  inv := SlowConsumer.inv_start queueDepth slowPolicy
  closed := rfl
  joined := Nat.le_refl _
  begins := List.nil_prefix
  all _ _ := by
    rw [List.drop_length]
    rfl

/-- The hub goes on. -/
theorem Follows.signal (h : c.Follows taken sub) (hattached : sub'.attached = true → sub.attached = true)
    (hclosed : sub.closed = true → sub'.closed = true) : (c.signal sub').Follows taken sub' := by
  unfold Consumer.signal
  split
  · rename_i hnow
    have hstep : SlowConsumer.step c.state .close = some { c.state with sub := c.state.sub.closeFromFanout } := rfl
    refine ⟨h.inv.step hstep, hnow.symm, h.joined, h.begins, fun _ hopen => ?_⟩
    rw [hnow] at hopen
    cases hopen
  · rename_i hnow
    have hopen : sub.closed = false := Bool.eq_false_iff.2 fun hsub => hnow (hclosed hsub)
    refine ⟨h.inv, ?_, h.joined, h.begins, fun hatt _ => h.all (hattached hatt) hopen⟩
    rw [h.closed, hopen]
    exact (Bool.eq_false_iff.2 hnow).symm

/-- One more message -/
theorem Follows.enqueue (h : c.Follows taken sub) :
    (c.enqueue m sub).Follows (taken ++ [m]) { sub with closed := (c.enqueue m sub).state.sub.closed } := by
  have hjoined : c.joined ≤ (taken ++ [m]).length := h.joined.trans (by simp)
  have hdrop : (taken ++ [m]).drop c.joined = taken.drop c.joined ++ [m] := List.drop_append_of_le_length h.joined
  have hbegins : c.state.enqueued <+: (taken ++ [m]).drop c.joined := by
    rw [hdrop]
    exact h.begins.trans (List.prefix_append ..)
  unfold Consumer.enqueue
  by_cases hattached : sub.attached = true
  · rw [if_pos hattached]
    have hstep : SlowConsumer.step c.state (.enqueue m) = some (c.state.enqueue m) := rfl
    have henqueued : (c.state.enqueue m).enqueued =
        if c.state.sub.closed then c.state.enqueued else c.state.enqueued ++ [m] := rfl
    have hopen (hnow : (c.state.enqueue m).sub.closed = false) : c.state.sub.closed = false := by
      refine Bool.eq_false_iff.2 fun hclosed => ?_
      have hsame : (c.state.enqueue m).sub = c.state.sub.enqueue m := rfl
      rw [hsame, SlowConsumer.Subscription.enqueue, if_pos hclosed, hclosed] at hnow
      cases hnow
    refine ⟨h.inv.step hstep, rfl, hjoined, ?_, fun _ hnow => ?_⟩
    · rw [henqueued]
      split
      · exact hbegins
      · rename_i hsub
        rw [h.all hattached (h.closed ▸ Bool.eq_false_iff.2 hsub), hdrop]
    · rw [henqueued, if_neg (Bool.eq_false_iff.1 (hopen hnow)), hdrop, h.all hattached (h.closed ▸ hopen hnow)]
  · rw [if_neg hattached]
    exact ⟨h.inv, rfl, hjoined, hbegins, fun hatt => absurd hatt hattached⟩

/-- The consumer goes on. -/
theorem Follows.own {a : SlowConsumer.Act Message} {state : SlowConsumer.State Message} (h : c.Follows taken sub)
    (ha : Channel.isOwn a = true) (hs : SlowConsumer.step c.state a = some state) :
    ({ c with state := state } : Consumer).Follows taken sub := by
  have henqueue : ∀ m, a ≠ .enqueue m := by
    rintro m rfl
    cases ha
  have hclose : a ≠ .close := by
    rintro rfl
    cases ha
  obtain ⟨l, hmoves, -⟩ := SlowConsumer.moves_of_step hs henqueue hclose
  refine ⟨h.inv.step hs, hmoves.closed.trans h.closed, h.joined, ?_, fun hatt hopen => ?_⟩
  · rw [hmoves.enqueued]
    exact h.begins
  · rw [hmoves.enqueued]
    exact h.all hatt hopen

end Consumer

/-! ### Every run -/

namespace Channel

/-- The order in which the messages of one peer are taken up -/
def Ordered (taken : List Message) : Prop := taken.Pairwise fun a b => a.peer = b.peer → a.seq < b.seq

structure Inv (s : Channel) : Prop where
  hub : s.hub.Distinct
  cursors : s.cursors.length = s.hub.exited.length
  ordered : Ordered s.taken
  taken : ∀ m ∈ s.taken, (s.published m.peer)[m.seq]? = some m.data ∧ m.peer ∈ s.hub.fanouts.map Fanout.key
  ahead : ∀ f ∈ s.hub.fanouts, ∀ cursor, s.cursors[f.handle]? = some cursor →
    ∀ m ∈ s.taken, m.peer = f.key → m.seq < cursor
  consumers : s.consumers.length = s.hub.subs.length
  follows : ∀ (n : Nat) (sub : Subscription) (c : Consumer), s.hub.subs[n]? = some sub → s.consumers[n]? = some c →
    c.Follows s.taken sub

variable {s s' : Channel} {peers : List String}

theorem inv_create (hpeers : peers.Nodup) : (create peers).Inv where
  hub := Hub.distinct_create hpeers
  cursors := rfl
  ordered := List.Pairwise.nil
  taken := by
    intro m hm
    cases hm
  ahead := by
    intro f hf
    cases hf
  consumers := rfl
  follows := by
    intro n sub c hsub
    cases hsub

theorem Inv.publish {peer : String} {data : List UInt8} (h : s.Inv) :
    Inv { s with published := Function.update s.published peer (s.published peer ++ [data]) } where
  hub := h.hub
  cursors := h.cursors
  ordered := h.ordered
  taken := by
    intro m hm
    obtain ⟨hdata, hkey⟩ := h.taken m hm
    refine ⟨?_, hkey⟩
    change (Function.update s.published peer (s.published peer ++ [data]) m.peer)[m.seq]? = some m.data
    by_cases hpeer : m.peer = peer
    · subst hpeer
      rw [Function.update_self, List.getElem?_append_left (List.getElem?_eq_some_iff.1 hdata).1]
      exact hdata
    · rw [Function.update_of_ne hpeer]
      exact hdata
  ahead := h.ahead
  consumers := h.consumers
  follows := h.follows

theorem hub_of_step {a : Hub.Act} {start queueDepth : Nat} {slowPolicy : SlowPolicy}
    (hs : s.step (.hub a start queueDepth slowPolicy) = some s') :
    ∃ hub, s.hub.step a = some hub ∧ s.setHub hub start queueDepth slowPolicy = s' := by
  cases a with
  | disconnect n => cases hs
  | subscribe | run | acquire | opened | offline | raises | resume | wake | cancel | strayOpens | strayEnds | fanoutEnds
    | fanoutCancelled | leave | close | closeStep =>
    rw [Channel.step] at hs
    · exact Option.map_eq_some_iff.1 hs
    · exact nofun

/-- The hub takes a step: the fan-outs that are new have a new peer. -/
theorem Inv.hub_step {a : Hub.Act} {hub : Hub} (h : s.Inv) (hs : s.hub.step a = some hub) (start queueDepth : Nat)
    (slowPolicy : SlowPolicy) : (s.setHub hub start queueDepth slowPolicy).Inv := by
  unfold setHub
  obtain ⟨-, ⟨news, hid⟩, hexited, hsubs⟩ := Hub.later_step hs
  have hdistinct := h.hub.step hs
  have hkeys : s.hub.fanouts.map Fanout.key ++ news.map Prod.fst = hub.fanouts.map Fanout.key := by
    have hmap := congrArg (List.map Prod.fst) hid
    rw [List.map_append, List.map_map, List.map_map] at hmap
    exact hmap
  refine ⟨hdistinct, ?_, h.ordered, fun m hm => ?_, fun f hf cursor hcursor m hm hpeer => ?_, ?_, fun n sub c hsub hc => ?_⟩
  · change (s.cursors ++ List.replicate (hub.exited.length - s.cursors.length) start).length = hub.exited.length
    have hlen := h.cursors
    rw [List.length_append, List.length_replicate]
    omega
  · obtain ⟨hdata, hkey⟩ := h.taken m hm
    refine ⟨hdata, ?_⟩
    rw [← hkeys]
    exact List.mem_append_left _ hkey
  · -- a fan-out that has taken up a message is an old one
    have hold : f.id ∈ s.hub.fanouts.map Fanout.id := by
      rcases List.mem_append.1 (hid ▸ List.mem_map_of_mem hf : f.id ∈ _ ++ news) with hold | hnew
      · exact hold
      · have hnodup := hdistinct.keys
        rw [← hkeys, List.nodup_append'] at hnodup
        refine absurd (List.mem_map_of_mem (f := Prod.fst) hnew) fun hin => hnodup.2.2 (h.taken m hm).2 ?_
        rw [hpeer]
        exact hin
    obtain ⟨g, hg, heq⟩ := List.mem_map.1 hold
    have hkey : g.key = f.key := congrArg Prod.fst heq
    have hhandle : g.handle = f.handle := congrArg Prod.snd heq
    rw [List.getElem?_append_left (by rw [h.cursors, ← hhandle]; exact (h.hub.handles g hg).2), ← hhandle] at hcursor
    exact h.ahead g hg cursor hcursor m hm (hpeer.trans hkey.symm)
  · have hlen := h.consumers
    have hle := hsubs.length
    dsimp only
    rw [List.length_zipWith, List.length_append, List.length_replicate]
    omega
  · obtain ⟨sub', c', hsub', hc', rfl⟩ := List.getElem?_zipWith_eq_some.1 hc
    rw [hsub, Option.some.injEq] at hsub'
    subst hsub'
    rcases Nat.lt_or_ge n s.consumers.length with hlt | hge
    · rw [List.getElem?_append_left hlt] at hc'
      have hold := List.getElem?_eq_getElem (h.consumers ▸ hlt)
      obtain ⟨hattached, hclosed⟩ := hsubs.old n _ sub hold hsub
      exact (h.follows n _ c' hold hc').signal hattached hclosed
    · have hnew := hsubs.new n sub (h.consumers ▸ hge) hsub
      rw [List.getElem?_append_right hge] at hc'
      obtain ⟨-, rfl⟩ := List.mem_replicate.1 (List.mem_of_getElem? hc')
      rw [hnew]
      exact Consumer.follows_start queueDepth slowPolicy s.taken

/-- A fan-out takes up a message that none has taken up. -/
theorem Inv.take {t seq : Nat} (h : s.Inv) (hs : s.step (.take t seq) = some s') : s'.Inv := by
  simp only [step] at hs
  split at hs
  · rename_i key handle hf
    split at hs
    · rename_i cursor data hcursor hdata
      split at hs
      · rename_i hle
        cases hs
        have hmem : ⟨key, handle, true, false⟩ ∈ s.hub.fanouts := List.mem_of_getElem? hf
        have hquiet (subs : List Subscription) : Hub.Quiet s.hub { s.hub with subs := subs } := ⟨rfl, rfl, rfl, rfl, rfl, rfl⟩
        have hlen : (List.zipWith (Consumer.enqueue ⟨key, seq, data⟩) s.hub.subs s.consumers).length = s.hub.subs.length := by
          rw [List.length_zipWith, h.consumers, Nat.min_self]
        refine ⟨h.hub.of_quiet (hquiet _) h.hub.opens, ?_, ?_, fun m hm => ?_, fun f hfan cursor' hcursor' m hm hpeer => ?_, ?_,
          fun n sub c hsub hc => ?_⟩
        · exact (List.length_set ..).trans h.cursors
        · refine List.pairwise_append.2 ⟨h.ordered, List.pairwise_singleton .., fun a ha b hb hpeer => ?_⟩
          rw [List.mem_singleton.1 hb] at hpeer ⊢
          exact Nat.lt_of_lt_of_le (h.ahead _ hmem cursor hcursor a ha hpeer) hle
        · rcases List.mem_append.1 hm with hold | hnew
          · exact h.taken m hold
          · rw [List.mem_singleton.1 hnew]
            exact ⟨hdata, List.mem_map_of_mem hmem⟩
        · -- the cursor that moves is behind the message no longer
          change (s.cursors.set handle (seq + 1))[f.handle]? = some cursor' at hcursor'
          rw [List.getElem?_set] at hcursor'
          split at hcursor'
          · rename_i hsame
            obtain ⟨-, hcursor'⟩ := Option.ite_none_right_eq_some.1 hcursor'
            obtain rfl : seq + 1 = cursor' := Option.some.inj hcursor'
            rcases List.mem_append.1 hm with hold | hnew
            · exact Nat.lt_succ_of_lt (Nat.lt_of_lt_of_le (h.ahead f hfan cursor (hsame ▸ hcursor) m hold hpeer) hle)
            · rw [List.mem_singleton.1 hnew]
              exact Nat.lt_succ_self seq
          · rename_i hother
            rcases List.mem_append.1 hm with hold | hnew
            · exact h.ahead f hfan cursor' hcursor' m hold hpeer
            · rw [List.mem_singleton.1 hnew] at hpeer
              have heq := List.inj_on_of_nodup_map h.hub.keys hmem hfan hpeer
              exact absurd (congrArg Fanout.handle heq) hother
        · have hsubs (f : Subscription → Consumer → Subscription) : (List.zipWith f s.hub.subs
              (List.zipWith (Consumer.enqueue ⟨key, seq, data⟩) s.hub.subs s.consumers)).length = s.hub.subs.length := by
            rw [List.length_zipWith, hlen, Nat.min_self]
          exact hlen.trans (hsubs _).symm
        · obtain ⟨sub', c', hsub', hc', rfl⟩ := List.getElem?_zipWith_eq_some.1 hsub
          obtain rfl : c' = c := Option.some.inj (hc'.symm.trans hc)
          obtain ⟨sub, c, hsub'', hold, rfl⟩ := List.getElem?_zipWith_eq_some.1 hc
          obtain rfl : sub = sub' := Option.some.inj (hsub''.symm.trans hsub')
          exact (h.follows n sub c hsub'' hold).enqueue
      · cases hs
    · cases hs
  · cases hs

theorem Inv.consumer {n : Nat} {a : SlowConsumer.Act Message} (h : s.Inv) (hs : s.step (.consumer n a) = some s') :
    s'.Inv := by
  simp only [step] at hs
  split at hs
  · rename_i c hc hown
    obtain ⟨state, hstate, rfl⟩ := Option.map_eq_some_iff.1 hs
    refine ⟨h.hub, h.cursors, h.ordered, h.taken, h.ahead, (List.length_set ..).trans h.consumers, fun n' sub c' hsub hc' => ?_⟩
    rw [List.getElem?_set] at hc'
    split at hc'
    · rename_i hsame
      subst hsame
      obtain ⟨-, hc'⟩ := Option.ite_none_right_eq_some.1 hc'
      obtain rfl := Option.some.inj hc'
      exact (h.follows n sub c hsub hc).own hown hstate
    · exact h.follows n' sub c' hsub hc'
  · cases hs

theorem Inv.step {a : Act} (h : s.Inv) (hs : s.step a = some s') : s'.Inv := by
  cases a with
  | publish peer data =>
    cases hs
    exact h.publish
  | hub a start queueDepth slowPolicy =>
    obtain ⟨hub, hhub, rfl⟩ := hub_of_step hs
    exact h.hub_step hhub start queueDepth slowPolicy
  | take t seq => exact h.take hs
  | consumer n a => exact h.consumer hs

theorem step_peers {a : Act} (hs : s.step a = some s') : s'.hub.peers = s.hub.peers := by
  cases a with
  | publish peer data =>
    cases hs
    rfl
  | hub a start queueDepth slowPolicy =>
    obtain ⟨hub, hhub, rfl⟩ := hub_of_step hs
    exact (Hub.later_step hhub).peers
  | take t seq =>
    simp only [Channel.step] at hs
    split at hs
    · split at hs
      · split at hs
        · cases hs
          rfl
        · cases hs
      · cases hs
    · cases hs
  | consumer n a =>
    simp only [Channel.step] at hs
    split at hs
    · obtain ⟨state, -, rfl⟩ := Option.map_eq_some_iff.1 hs
      rfl
    · cases hs

/-- The messages that the fan-outs take up have one order, in which those of each peer are in the order of their
publication and none comes twice.  A consumer is given a part of it without a gap, from its `subscribe` on, which goes
to the end as long as the consumer is neither closed nor gone; and what it returns comes in that order. -/
theorem channel_order {acts : List Act} (hpeers : peers.Nodup) (hrun : run step (create peers) acts = some s) :
    s.taken.Pairwise (fun a b => a.peer = b.peer → a.seq < b.seq) ∧
    (∀ m ∈ s.taken, m.peer ∈ peers ∧ (s.published m.peer)[m.seq]? = some m.data) ∧
    s.consumers.length = s.hub.subs.length ∧
    ∀ (n : Nat) (sub : Subscription) (c : Consumer), s.hub.subs[n]? = some sub → s.consumers[n]? = some c →
      c.state.enqueued <+: s.taken.drop c.joined ∧
      (sub.attached = true → sub.closed = false → c.state.enqueued = s.taken.drop c.joined) ∧
      (c.state.returned ++ c.state.inFlight ++ c.state.items).Sublist c.state.enqueued := by
  obtain ⟨hI, hsame⟩ : s.Inv ∧ s.hub.peers = peers := by
    refine run_invariant (fun s => s.Inv ∧ s.hub.peers = peers) (fun s a s' hI hs => ?_) ⟨inv_create hpeers, rfl⟩ hrun
    exact ⟨hI.1.step hs, (step_peers hs).trans hI.2⟩
  refine ⟨hI.ordered, fun m hm => ?_, hI.consumers, fun n sub c hsub hc => ?_⟩
  · obtain ⟨hdata, hkey⟩ := hI.taken m hm
    obtain ⟨f, hf, heq⟩ := List.mem_map.1 hkey
    rw [← heq, ← hsame]
    exact ⟨(hI.hub.handles f hf).1, heq ▸ hdata⟩
  · have hfollows := hI.follows n sub c hsub hc
    exact ⟨hfollows.begins, hfollows.all, hfollows.inv.order⟩

/-- Two peers and two consumers; the second one joins after the first message and is disconnected when its queue is
full. -/
def twoPeers : List Act :=
  [.hub .subscribe 0 1 .dropOldest, .hub (.opened 0) 0 1 .dropOldest, .hub (.opened 1) 0 1 .dropOldest,
    .hub .resume 0 1 .dropOldest, .publish "w1" [1], .publish "w0" [2], .publish "w1" [3], .take 1 0,
    .hub .subscribe 0 1 .disconnect, .take 0 0, .take 1 1, .consumer 0 .anext]

theorem channel_order_twoPeers : ∃ s, run step (create ["w0", "w1"]) twoPeers = some s ∧
    s.taken.map Message.data = [[1], [2], [3]] ∧
    s.consumers.map (fun c => c.state.enqueued.map Message.data) = [[[1], [2], [3]], [[2], [3]]] ∧
    s.consumers.map (fun c => c.state.returned.map Message.data) = [[[3]], []] ∧
    ∀ (n : Nat) (sub : Subscription) (c : Consumer), s.hub.subs[n]? = some sub → s.consumers[n]? = some c →
      c.state.enqueued <+: s.taken.drop c.joined := by
  obtain ⟨s, hr, hs⟩ := Option.map_eq_some_iff.1 (show (run step (create ["w0", "w1"]) twoPeers).map (fun s =>
    (s.taken.map Message.data, s.consumers.map (fun c => c.state.enqueued.map Message.data),
      s.consumers.map (fun c => c.state.returned.map Message.data))) =
        some ([[1], [2], [3]], [[[1], [2], [3]], [[2], [3]]], [[[3]], []]) by decide +kernel)
  obtain ⟨htaken, hrest⟩ := Prod.mk.inj hs
  obtain ⟨henqueued, hreturned⟩ := Prod.mk.inj hrest
  refine ⟨s, hr, htaken, henqueued, hreturned, fun n sub c hsub hc => ?_⟩
  exact ((channel_order (by decide) hr).2.2.2 n sub c hsub hc).1

end Channel

end Mmbus.Cast
