import Mmbus.Reconnect

/-!
# Closing a channel

`close` of a channel against everything that may run beside it.  It walks the fan-out tasks, the reconnect loop, the mmbus
subscriptions and the attached `Subscription`s that are there when it comes to them; what a coroutine adds behind its back
stays.  `close_complete`: if nothing is added then, nothing is left.
-/

namespace Mmbus.Cast.Hub

open Transition

variable {s s' s'' : Hub} {i : Nat} {kind : CoroutineKind} {opens : List (String × Opening)} {c : Coroutine}

/-- The gather has opened nothing. -/
def NoneOpened (opens : List (String × Opening)) : Prop := newFanouts opens = []

/-- Nothing escapes `close`: an open that has succeeded is registered, under a key of its own and before the channel is
closed, and no `Subscription` is handed out after `close` has closed those that are attached. -/
def Orderly (s : Hub) : Act → Prop
  | .subscribe => s.closing ≠ .returned
  | .acquire i => ∀ c, s.coroutines[i]? = some c → c.kind = .subscribe → s.closing ≠ .returned
  | .resume => s.closing ≠ .returned ∧ ∀ i opens, s.startLock = some (i, opens) →
      ((newFanouts opens).map Fanout.key).Nodup ∧ (s.closed = true → NoneOpened opens)
  | .raises _ => ∀ i opens, s.startLock = some (i, opens) → NoneOpened opens
  | .cancel i => ∀ c, s.coroutines[i]? = some c → c.pc = .gather →
      ∀ i opens, s.startLock = some (i, opens) → NoneOpened opens
  | .strayOpens => False
  | _ => True

instance : DecidablePred NoneOpened := fun opens => inferInstanceAs (Decidable (newFanouts opens = []))

instance (P : List (String × Opening) → Prop) [DecidablePred P] :
    Decidable (∀ i opens, s.startLock = some (i, opens) → P opens) :=
  decidable_of_iff (∀ x ∈ s.startLock, P x.2) ⟨fun h i opens hlock => h (i, opens) hlock, fun h x hx => h x.1 x.2 hx⟩

instance (P : Coroutine → Prop) [DecidablePred P] : Decidable (∀ c, s.coroutines[i]? = some c → P c) :=
  decidable_of_iff (∀ c ∈ s.coroutines[i]?, P c) Iff.rfl

instance (s : Hub) : ∀ a, Decidable (s.Orderly a)
  | .subscribe => inferInstanceAs (Decidable (s.closing ≠ .returned))
  | .acquire i => inferInstanceAs (Decidable
      (∀ c, s.coroutines[i]? = some c → c.kind = .subscribe → s.closing ≠ .returned))
  | .resume => inferInstanceAs (Decidable (s.closing ≠ .returned ∧ ∀ i opens, s.startLock = some (i, opens) →
      ((newFanouts opens).map Fanout.key).Nodup ∧ (s.closed = true → NoneOpened opens)))
  | .raises _ => inferInstanceAs (Decidable (∀ i opens, s.startLock = some (i, opens) → NoneOpened opens))
  | .cancel i => inferInstanceAs (Decidable (∀ c, s.coroutines[i]? = some c → c.pc = .gather →
      ∀ i opens, s.startLock = some (i, opens) → NoneOpened opens))
  | .strayOpens => .isFalse id
  | .run _ | .opened _ | .offline _ | .wake _ | .strayEnds | .fanoutEnds _ _ | .fanoutCancelled _ | .leave _
  | .disconnect _ | .close | .closeStep => .isTrue trivial

/-- Nothing of the channel is left. -/
structure Complete (s : Hub) : Prop where
  fanouts : ∀ f ∈ s.fanouts, f.running = false
  reconnect : ∀ c ∈ s.coroutines, c.kind = .reconnect → c.pc = .done
  mmbusSubs : s.mmbusSubs.entries = []
  exited : ∀ b ∈ s.exited, b = true
  subs : ∀ sub ∈ s.subs, sub.closed = true

/-- The other coroutines have run to completion: no call of `subscribe` and no open is in progress, and every task that has
been created has run. -/
structure Settled (s : Hub) : Prop where
  subscribe : ∀ c ∈ s.coroutines, c.kind = .subscribe → c.pc = .done
  created : ∀ c ∈ s.coroutines, c.pc ≠ .created
  strays : s.strays = 0

/-! ### The mmbus subscriptions -/

/-- The open `handle` has succeeded and is not registered yet. -/
def Held (s : Hub) (handle : Nat) : Prop := ∃ i opens, s.startLock = some (i, opens) ∧ ∃ f ∈ newFanouts opens, f.handle = handle

/-- Every mmbus subscription has been left, or is registered, or is held by a gather, of which no peer is registered. -/
structure Tracked (s : Hub) : Prop where
  handles : ∀ handle < s.exited.length,
    s.exited[handle]? = some true ∨ handle ∈ s.mmbusSubs.values ∨ s.Held handle
  range : ∀ handle, handle ∈ s.mmbusSubs.values ∨ s.Held handle → handle < s.exited.length
  fresh : ∀ i opens, s.startLock = some (i, opens) → ∀ x ∈ opens, x.1 ∉ s.mmbusSubs.keys

theorem newFanouts_cons (key : String) (o : Opening) (opens : List (String × Opening)) :
    newFanouts ((key, o) :: opens) = match o with
      | .opened handle => ⟨key, handle, true, false⟩ :: newFanouts opens
      | _ => newFanouts opens := by
  cases o <;> rfl

theorem register_entries (s : Hub) (opens : List (String × Opening))
    (hfresh : ∀ f ∈ newFanouts opens, f.key ∉ s.mmbusSubs.keys) (hnodup : ((newFanouts opens).map Fanout.key).Nodup) :
    (opens.foldl register s).mmbusSubs.entries =
      s.mmbusSubs.entries ++ (newFanouts opens).map fun f => (f.key, f.handle) := by
  induction opens generalizing s with
  | nil => simp [newFanouts]
  | cons x opens ih =>
    obtain ⟨key, o⟩ := x
    rw [newFanouts_cons] at hfresh hnodup
    cases o with
    | opened handle =>
      obtain ⟨hkey, hnodup⟩ := List.nodup_cons.1 hnodup
      have hset := Dict.entries_set_of_not_mem (v := handle) (hfresh _ (List.mem_cons_self ..))
      have hrest := ih (register s (key, .opened handle)) (fun f hf hin => ?_) hnodup
      · rw [List.foldl_cons, hrest, newFanouts_cons]
        change (s.mmbusSubs.set key handle).entries ++ _ = _
        rw [hset, List.append_assoc]
        rfl
      · rcases Dict.mem_keys_set.1 hin with heq | hold
        · exact hkey (List.mem_map.2 ⟨f, hf, heq⟩)
        · exact hfresh f (List.mem_cons_of_mem _ hf) hold
    | waiting | offline =>
      rw [newFanouts_cons]
      exact ih s hfresh hnodup

theorem mem_handles {handle : Nat} :
    (∃ f ∈ newFanouts opens, f.handle = handle) ↔ ∃ key, (key, Opening.opened handle) ∈ opens := by
  constructor
  · rintro ⟨f, hf, rfl⟩
    exact ⟨f.key, (mem_newFanouts hf).2.2⟩
  · rintro ⟨key, hin⟩
    exact ⟨⟨key, handle, true, false⟩, List.mem_filterMap.2 ⟨_, hin, rfl⟩, rfl⟩

theorem not_held_of_noneOpened {handle : Nat} (h : ∀ i opens, s.startLock = some (i, opens) → NoneOpened opens) :
    ¬s.Held handle := by
  rintro ⟨i, opens, hlock, f, hf, -⟩
  rw [h i opens hlock] at hf
  cases hf

theorem Tracked.of_quiet (h : s.Tracked) (hq : Quiet s s') (hlocks : Locks s s') : s'.Tracked := by
  have hheld : ∀ handle, s'.Held handle ↔ s.Held handle := fun handle => by
    rcases hlocks with hsame | ⟨hfree, -, -, i', hnew⟩
    · simp only [Held, hsame]
    · constructor
      · rintro ⟨i, opens, hlock, hf⟩
        rw [hnew] at hlock
        cases hlock
        obtain ⟨key, hin⟩ := mem_handles.1 hf
        obtain ⟨k, -, heq⟩ := List.mem_map.1 hin
        cases heq
      · rintro ⟨i, opens, hlock, hf⟩
        rw [hfree] at hlock
        cases hlock
  refine ⟨fun handle hlt => ?_, fun handle => ?_, fun i opens hlock x hx => ?_⟩
  · rw [hq.exited] at hlt ⊢
    rw [hq.mmbusSubs, hheld]
    exact h.handles handle hlt
  · rw [hq.mmbusSubs, hheld, hq.exited]
    exact h.range handle
  · rw [hq.mmbusSubs]
    rcases hlocks with hsame | ⟨-, -, -, i', hnew⟩
    · exact h.fresh i opens (hsame ▸ hlock) x hx
    · rw [hnew] at hlock
      cases hlock
      obtain ⟨k, hk, rfl⟩ := List.mem_map.1 hx
      simpa using (List.mem_filter.1 hk).2

/-- A gather that has opened nothing may be left. -/
theorem Tracked.unlock (h : s.Tracked) (hnone : ∀ i opens, s.startLock = some (i, opens) → NoneOpened opens)
    (hexited : s'.exited = s.exited) (hsubs : s'.mmbusSubs = s.mmbusSubs) (hfree : s'.startLock = none) : s'.Tracked := by
  refine ⟨fun handle hlt => ?_, fun handle hin => ?_, by rw [hfree]; exact nofun⟩
  · rw [hexited] at hlt ⊢
    rw [hsubs]
    rcases h.handles handle hlt with hexit | hin | hheld
    · exact .inl hexit
    · exact .inr (.inl hin)
    · exact absurd hheld (not_held_of_noneOpened hnone)
  · rw [hexited]
    rcases hin with hin | ⟨i, opens, hlock, -⟩
    · exact h.range handle (.inl (hsubs ▸ hin))
    · rw [hfree] at hlock
      cases hlock

/-- An open of the gather that was waiting has a result. -/
theorem mem_setOpening {j handle : Nat} {key : String} {result : Opening} (hj : opens[j]? = some (key, .waiting)) :
    (∃ key, (key, Opening.opened handle) ∈ opens.modify j fun x => (x.1, result)) ↔
      (∃ key, (key, Opening.opened handle) ∈ opens) ∨ result = .opened handle := by
  have hget : ∀ n : Nat, (opens.modify j fun x => (x.1, result))[n]? =
      if n = j then some (key, result) else opens[n]? := fun n => by
    rw [List.getElem?_modify]
    by_cases hn : n = j
    · rw [hn, hj]
      simp
    · simp [hn, Ne.symm hn]
  constructor
  · rintro ⟨k, hk⟩
    obtain ⟨n, hn⟩ := List.mem_iff_getElem?.1 hk
    rw [hget] at hn
    split at hn
    · cases hn
      exact .inr rfl
    · exact .inl ⟨k, List.mem_of_getElem? hn⟩
  · rintro (⟨k, hk⟩ | rfl)
    · obtain ⟨n, hn⟩ := List.mem_iff_getElem?.1 hk
      refine ⟨k, List.mem_iff_getElem?.2 ⟨n, ?_⟩⟩
      rw [hget, if_neg, hn]
      rintro rfl
      rw [hj] at hn
      cases hn
    · exact ⟨key, List.mem_iff_getElem?.2 ⟨j, by rw [hget, if_pos rfl]⟩⟩

theorem Tracked.setOpening {j : Nat} {key : String} {result : Opening} {exited : List Bool} (h : s.Tracked)
    (hlock : s.startLock = some (i, opens)) (hj : opens[j]? = some (key, .waiting))
    (hresult : exited = s.exited ∧ (∀ handle, result ≠ .opened handle) ∨
      exited = s.exited ++ [false] ∧ result = .opened s.exited.length) :
    Tracked { s.setOpening i opens j result with exited := exited } := by
  have hheld : ∀ handle, Held { s.setOpening i opens j result with exited := exited } handle ↔
      s.Held handle ∨ result = .opened handle := fun handle => by
    simp only [Held, Hub.setOpening, hlock, Option.some.injEq, Prod.mk.injEq]
    constructor
    · rintro ⟨_, _, ⟨rfl, rfl⟩, hf⟩
      refine ((mem_setOpening hj).1 (mem_handles.1 hf)).imp_left fun hin => ⟨i, opens, ⟨rfl, rfl⟩, mem_handles.2 hin⟩
    · intro hor
      refine ⟨_, _, ⟨rfl, rfl⟩, mem_handles.2 ((mem_setOpening hj).2 (hor.imp_left ?_))⟩
      rintro ⟨_, _, ⟨rfl, rfl⟩, hf⟩
      exact mem_handles.1 hf
  refine ⟨fun handle hlt => ?_, fun handle => ?_, fun i' opens' hlock' x hx => ?_⟩
  rotate_left
  · rw [hheld]
    change handle ∈ s.mmbusSubs.values ∨ _ → handle < exited.length
    rintro (hin | hheld | rfl)
    · have := h.range handle (.inl hin)
      rcases hresult with ⟨rfl, -⟩ | ⟨rfl, -⟩
      · exact this
      · rw [List.length_append]
        omega
    · have := h.range handle (.inr hheld)
      rcases hresult with ⟨rfl, -⟩ | ⟨rfl, -⟩
      · exact this
      · rw [List.length_append]
        omega
    · rcases hresult with ⟨-, hother⟩ | ⟨rfl, hopened⟩
      · exact absurd rfl (hother handle)
      · cases hopened
        rw [List.length_append, List.length_singleton]
        omega
  rotate_left
  · rw [hheld]
    change handle < exited.length at hlt
    change exited[handle]? = some true ∨ handle ∈ s.mmbusSubs.values ∨ _
    rcases hresult with ⟨rfl, -⟩ | ⟨rfl, hopened⟩
    · exact (h.handles handle hlt).imp_right (Or.imp_right .inl)
    · rcases Nat.lt_or_ge handle s.exited.length with hold | hnew
      · rw [List.getElem?_append_left hold]
        exact (h.handles handle hold).imp_right (Or.imp_right .inl)
      · rw [List.length_append, List.length_singleton] at hlt
        obtain rfl : handle = s.exited.length := by omega
        exact .inr (.inr (.inr hopened))
  · have hlock'' : some (i, opens.modify j fun x => (x.1, result)) = some (i', opens') := hlock'
    cases hlock''
    obtain ⟨n, hn⟩ := List.mem_iff_getElem?.1 hx
    rw [List.getElem?_modify] at hn
    obtain ⟨y, hy, rfl⟩ := Option.map_eq_some_iff.1 hn
    have hy' := h.fresh i opens hlock y (List.mem_of_getElem? hy)
    split <;> exact hy'

theorem Tracked.resume {i' : Nat} (h : s.Tracked) (hlock : s.startLock = some (i', opens))
    (hnodup : ((newFanouts opens).map Fanout.key).Nodup) : (s.finishStart i kind opens).Tracked := by
  obtain ⟨hq, hfree⟩ := finishStart_quiet s i kind opens
  obtain ⟨-, -, hexited, -⟩ := register_rest s opens
  have hentries := register_entries s opens
    (fun f hf => h.fresh i' opens hlock _ (mem_newFanouts hf).2.2) hnodup
  have hvalues : ∀ handle, handle ∈ (s.finishStart i kind opens).mmbusSubs.values ↔
      handle ∈ s.mmbusSubs.values ∨ s.Held handle := fun handle => by
    rw [hq.mmbusSubs, Dict.values, hentries, List.map_append, List.mem_append]
    refine or_congr_right ⟨fun hin => ?_, ?_⟩
    · obtain ⟨x, hx, rfl⟩ := List.mem_map.1 hin
      obtain ⟨f, hf, rfl⟩ := List.mem_map.1 hx
      exact ⟨i', opens, hlock, f, hf, rfl⟩
    · rintro ⟨_, opens', hlock', f, hf, rfl⟩
      rw [hlock] at hlock'
      cases hlock'
      exact List.mem_map_of_mem (List.mem_map_of_mem hf)
  refine ⟨fun handle hlt => ?_, fun handle hin => ?_, by rw [hfree]; exact nofun⟩
  · rw [hq.exited, hexited] at hlt ⊢
    rw [hvalues]
    exact (h.handles handle hlt).imp_right .inl
  · rw [hq.exited, hexited]
    rcases hin with hin | ⟨_, opens', hlock', -⟩
    · exact h.range handle ((hvalues handle).1 hin)
    · rw [hfree] at hlock'
      cases hlock'

/-! ### What `close` has come to -/

/-- `close` has cancelled the fan-outs and awaits those that have not ended, and then has left the mmbus subscriptions before
its position in a dictionary that does not change. -/
structure Shutting (s : Hub) : Prop where
  no : s.closed = false → s.closing = .no
  tasks : s.closed = true → ∀ (t : Nat) (f : Fanout), s.fanouts[t]? = some f → f.running = true →
    ∃ ts r, s.closing = .tasks ts r ∧ t ∈ ts
  exits : ∀ p n, s.closing = .exits p n → n = s.mmbusSubs.entries.length ∧
    ∀ q < p, ∀ handle, s.mmbusSubs.values[q]? = some handle → s.exited[handle]? = some true
  returned : s.closing = .returned → s.mmbusSubs.entries = []
  not_raised : s.closing ≠ .raised

theorem Shutting.of_quiet (h : s.Shutting) (hq : Quiet s s') : s'.Shutting where
  no := by rw [hq.closed, hq.closing]; exact h.no
  tasks := by rw [hq.closed, hq.fanouts, hq.closing]; exact h.tasks
  exits := by rw [hq.closing, hq.mmbusSubs, hq.exited]; exact h.exits
  returned := by rw [hq.closing, hq.mmbusSubs]; exact h.returned
  not_raised := by rw [hq.closing]; exact h.not_raised

/-- An mmbus subscription has been opened. -/
theorem Shutting.opened (h : s.Shutting) (hq : Quiet { s with exited := s.exited ++ [false] } s') : s'.Shutting := by
  have hopened : Shutting { s with exited := s.exited ++ [false] } := by
    refine ⟨h.no, h.tasks, fun p n hclosing => ?_, h.returned, h.not_raised⟩
    obtain ⟨hn, hleft⟩ := h.exits p n hclosing
    refine ⟨hn, fun q hq handle hhandle => ?_⟩
    have hexited := hleft q hq handle hhandle
    change (s.exited ++ [false])[handle]? = some true
    rw [List.getElem?_append_left (List.getElem?_eq_some_iff.1 hexited).1, hexited]
  exact hopened.of_quiet hq

theorem noneOpened_register (s : Hub) (h : NoneOpened opens) : opens.foldl register s = s := by
  induction opens generalizing s with
  | nil => rfl
  | cons x opens ih =>
    obtain ⟨key, o⟩ := x
    rw [NoneOpened, newFanouts_cons] at h
    cases o with
    | opened handle => cases h
    | waiting | offline => exact ih s h

theorem Shutting.resume (h : s.Shutting) (hnone : s.closed = true → NoneOpened opens) :
    (s.finishStart i kind opens).Shutting := by
  obtain ⟨hq, -⟩ := finishStart_quiet s i kind opens
  cases hclosed : s.closed with
  | true =>
    rw [noneOpened_register s (hnone hclosed)] at hq
    exact h.of_quiet hq
  | false =>
    obtain ⟨-, hclosed', -, hclosing', -⟩ := register_rest s opens
    refine Shutting.of_quiet ⟨?_, ?_, ?_, ?_, ?_⟩ hq
    · rw [hclosing']
      exact fun _ => h.no hclosed
    · rw [hclosed', hclosed]
      exact nofun
    · rw [hclosing', h.no hclosed]
      exact nofun
    · rw [hclosing', h.no hclosed]
      exact nofun
    · rw [hclosing', h.no hclosed]
      exact nofun

/-- The end of one fan-out -/
theorem Shutting.endFanout {t : Nat} {f : Fanout} (h : s.Shutting)
    (hq : Quiet { s with fanouts := s.fanouts.set t { f with running := false } } s') : s'.Shutting := by
  have hended : Shutting { s with fanouts := s.fanouts.set t { f with running := false } } := by
    refine ⟨h.no, fun hclosed t' f' hf' hrunning => ?_, h.exits, h.returned, h.not_raised⟩
    have hf'' : (s.fanouts.set t { f with running := false })[t']? = some f' := hf'
    rw [List.getElem?_set] at hf''
    split at hf''
    · split at hf'' <;> cases hf''
      cases hrunning
    · exact h.tasks hclosed t' f' hf'' hrunning
  exact hended.of_quiet hq

theorem Shutting.close (h : s.Shutting) : s.close.Shutting := by
  unfold Hub.close
  split
  · exact h
  · refine ⟨nofun, fun _ t f hf _ => ⟨_, _, rfl, ?_⟩, nofun, nofun, nofun⟩
    simp only [List.getElem?_map] at hf
    obtain ⟨f', hf', -⟩ := Option.map_eq_some_iff.1 hf
    exact List.mem_range.2 (List.getElem?_eq_some_iff.1 hf').1

/-- Every step of `close` keeps what it has come to, and the mmbus subscriptions tracked. -/
theorem Shutting.closeStep (h : s.Shutting) (ht : s.Tracked) (hs : s.closeStep = some s') :
    s'.Shutting ∧ s'.Tracked := by
  have hclosed : s.closing ≠ .no → s.closed = true := fun hne => by
    cases hopen : s.closed with
    | true => rfl
    | false => exact absurd (h.no hopen) hne
  unfold Hub.closeStep at hs
  split at hs
  · rename_i t ts reconnect hclosing
    have hclosed := hclosed (by rw [hclosing]; nofun)
    split at hs
    · cases hs
    · rename_i hended
      cases hs
      refine ⟨⟨by rw [hclosed]; exact nofun, fun _ t' f hf hrunning => ?_, nofun, nofun, nofun⟩, ht.handles, ht.range, ht.fresh⟩
      obtain ⟨ts', r, heq, hmem⟩ := h.tasks hclosed t' f hf hrunning
      rw [hclosing] at heq
      cases heq
      rcases List.mem_cons.1 hmem with rfl | hmem
      · have hf' : s.fanouts[t']? = some f := hf
        rw [hf', Option.any_some] at hended
        exact absurd hrunning hended
      · exact ⟨ts, reconnect, rfl, hmem⟩
  · rename_i i hclosing
    have hclosed := hclosed (by rw [hclosing]; nofun)
    split at hs <;> cases hs
    refine ⟨⟨by rw [hclosed]; exact nofun, fun _ t f hf hrunning => ?_, nofun, nofun, nofun⟩, ht.handles, ht.range, ht.fresh⟩
    obtain ⟨ts', r, heq, hmem⟩ := h.tasks hclosed t f hf hrunning
    rw [hclosing] at heq
    cases heq
    cases hmem
  · rename_i hclosing
    have hclosed := hclosed (by rw [hclosing]; nofun)
    cases hs
    refine ⟨⟨by rw [hclosed]; exact nofun, fun _ t f hf hrunning => ?_, ?_, nofun, nofun⟩, ht.handles, ht.range, ht.fresh⟩
    · obtain ⟨ts', r, heq, hmem⟩ := h.tasks hclosed t f hf hrunning
      rw [hclosing] at heq
      cases heq
      cases hmem
    · rintro p n ⟨⟩
      exact ⟨rfl, fun q hq => absurd hq (Nat.not_lt_zero q)⟩
  · rename_i position size hclosing
    have hclosed := hclosed (by rw [hclosing]; nofun)
    obtain ⟨hsize, hleft⟩ := h.exits position size hclosing
    have hended : ∀ (t : Nat) (f : Fanout), s.fanouts[t]? = some f → f.running = true → False := fun t f hf hrunning => by
      obtain ⟨ts', r, heq, -⟩ := h.tasks hclosed t f hf hrunning
      rw [hclosing] at heq
      cases heq
    rw [if_neg (not_not.2 hsize.symm)] at hs
    split at hs
    · rename_i handle hhandle
      cases hs
      have hset : ∀ h' < s.exited.length, s.exited[h']? = some true ∨ h' = handle →
          (s.exited.set handle true)[h']? = some true := fun h' hlt hor => by
        rw [List.getElem?_set]
        split
        · rename_i heq
          rw [if_pos (heq ▸ hlt)]
        · rename_i hne
          exact hor.resolve_right fun heq => hne heq.symm
      refine ⟨⟨by rw [hclosed]; exact nofun, fun _ t f hf hrunning => (hended t f hf hrunning).elim, ?_, nofun, nofun⟩,
        fun h' hlt => ?_, fun h' hin => ?_, ht.fresh⟩
      · rintro p n ⟨⟩
        refine ⟨hsize, fun q hq h' hh' => hset h' (ht.range h' (.inl (List.mem_of_getElem? hh'))) ?_⟩
        rcases Nat.lt_succ_iff_lt_or_eq.1 hq with hlt | rfl
        · exact .inl (hleft q hlt h' hh')
        · exact .inr (Option.some.inj (hh'.symm.trans hhandle))
      · have hlt' : h' < s.exited.length := by simpa using hlt
        exact (ht.handles h' hlt').imp_left fun hexit => hset h' hlt' (.inl hexit)
      · show h' < (s.exited.set handle true).length
        rw [List.length_set]
        exact ht.range h' hin
    · rename_i hend
      cases hs
      have hall : ∀ h' ∈ s.mmbusSubs.values, s.exited[h']? = some true := fun h' hin => by
        obtain ⟨q, hq⟩ := List.mem_iff_getElem?.1 hin
        have hlt := (List.getElem?_eq_some_iff.1 hq).1
        exact hleft q (Nat.lt_of_lt_of_le hlt (List.getElem?_eq_none_iff.1 hend)) h' hq
      refine ⟨⟨?_, fun _ t f hf hrunning => (hended t f hf hrunning).elim, nofun, fun _ => rfl, nofun⟩,
        fun h' hlt => ?_, fun h' hin => ?_, fun i opens hlock x hx => nofun⟩
      · show s.closed = false → _
        rw [hclosed]
        exact nofun
      · rcases ht.handles h' hlt with hexit | hin | hheld
        · exact .inl hexit
        · exact .inl (hall h' hin)
        · exact .inr (.inr hheld)
      · rcases hin with hin | hheld
        · cases hin
        · exact ht.range h' (.inr hheld)
  · cases hs

/-! ### The subscriptions that have been handed out -/

/-- A `Subscription` that is not closed is attached, and `close` leaves none. -/
structure Handed (s : Hub) : Prop where
  attached : ∀ sub ∈ s.subs, sub.closed = true ∨ sub.attached = true
  returned : s.closing = .returned → ∀ sub ∈ s.subs, sub.closed = true

/-- Subscriptions are closed, or attached while `close` has not returned. -/
theorem Handed.of_subs (h : s.Handed) (hclosing : s'.closing = .returned → s.closing = .returned)
    (hsubs : ∀ sub ∈ s'.subs, sub.closed = true ∨ sub ∈ s.subs ∨ sub.attached = true ∧ s.closing ≠ .returned) :
    s'.Handed where
  attached := fun sub hin => by
    rcases hsubs sub hin with hclosed | hold | ⟨hattached, -⟩
    · exact .inl hclosed
    · exact h.attached sub hold
    · exact .inr hattached
  returned := fun hreturned sub hin => by
    rcases hsubs sub hin with hclosed | hold | ⟨-, hnot⟩
    · exact hclosed
    · exact h.returned (hclosing hreturned) sub hold
    · exact absurd (hclosing hreturned) hnot

theorem Handed.congr (h : s.Handed) (hclosing : s'.closing = .returned → s.closing = .returned)
    (hsubs : s'.subs = s.subs) : s'.Handed :=
  h.of_subs hclosing fun _ hin => .inr (.inl (hsubs ▸ hin))

theorem subs_reconnectLoop : (s.reconnectLoop i).subs = s.subs := by
  unfold reconnectLoop
  split <;> rfl

theorem subs_afterStart : ∀ sub ∈ (s.afterStart i kind).subs, sub ∈ s.subs ∨ sub.attached = true ∧ kind = .subscribe := by
  intro sub hin
  cases kind with
  | subscribe =>
    refine (List.mem_append.1 hin).imp_right fun hnew => ?_
    rw [List.mem_singleton.1 hnew]
    exact ⟨rfl, rfl⟩
  | reconnect =>
    have hsame : (s.afterStart i .reconnect).subs = s.subs := subs_reconnectLoop
    exact .inl (hsame ▸ hin)

theorem subs_enter : ∀ sub ∈ (s.enter i kind).subs, sub ∈ s.subs ∨ sub.attached = true ∧ kind = .subscribe := by
  unfold enter
  split
  · exact subs_afterStart
  · split
    · exact subs_afterStart
    · exact fun _ => .inl

theorem subs_start : ∀ sub ∈ (s.start i kind).subs, sub ∈ s.subs ∨ sub.attached = true ∧ kind = .subscribe := by
  unfold start
  split
  · exact subs_enter
  · exact fun _ => .inl

theorem Handed.closeSubs (h : s.Handed) : s.closeSubs.Handed := by
  refine h.of_subs id fun sub hin => ?_
  obtain ⟨sub', hsub', rfl⟩ := List.mem_map.1 hin
  split
  · exact .inl rfl
  · exact .inr (.inl hsub')

theorem Handed.closeStep (h : s.Handed) (hs : s.closeStep = some s') : s'.Handed := by
  unfold Hub.closeStep at hs
  split at hs
  · split at hs <;> cases hs
    exact h.congr nofun rfl
  · split at hs <;> cases hs
    exact h.congr nofun rfl
  · cases hs
    exact h.congr nofun rfl
  · split at hs
    · cases hs
      exact h.congr nofun rfl
    · split at hs <;> cases hs
      · exact h.congr nofun rfl
      · have hclosed : ∀ sub ∈ s.closeSubs.subs, sub.closed = true := fun sub hin => by
          obtain ⟨sub', hsub', rfl⟩ := List.mem_map.1 hin
          split
          · rfl
          · rename_i hnot
            exact (h.attached sub' hsub').resolve_right hnot
        exact ⟨fun sub hin => .inl (hclosed sub hin), fun _ => hclosed⟩
  · cases hs

/-! ### Every step -/

structure Closable (s : Hub) : Prop where
  tracked : s.Tracked
  shutting : s.Shutting
  loops : s.Loops
  handed : s.Handed

theorem handed_quiet {a : Act} (ha : a.IsQuiet) (h : s.Handed) (hm : s.Orderly a) (hs : s.step a = some s') : s'.Handed := by
  have hclosing : s'.closing = .returned → s.closing = .returned := by
    rw [(step_quiet ha hs).1.closing]
    exact id
  cases ha with
  | subscribe =>
    cases hs
    exact h.of_subs hclosing fun sub hin => .inr ((subs_start sub hin).imp_right (And.imp_right fun _ => hm))
  | run i =>
    simp only [step] at hs
    split at hs
    · cases hs
      exact h.congr hclosing subs_reconnectLoop
    · cases hs
  | acquire i =>
    simp only [step] at hs
    split at hs
    · rename_i kind _ hawake
      split at hs
      · cases hs
        exact h.of_subs hclosing fun sub hin => .inr ((subs_enter sub hin).imp_right
          (And.imp_right fun hkind => hm _ (awake_eq_some hawake).1 hkind))
      · cases hs
    · cases hs
  | wake i =>
    simp only [step] at hs
    split at hs
    · cases hs
      refine h.of_subs hclosing fun sub hin => .inr ?_
      split at hin
      · exact .inl hin
      · refine (subs_start sub hin).imp_right fun hnew => ?_
        cases hnew.2
    · cases hs
  | strayEnds =>
    simp only [step] at hs
    split at hs
    · cases hs
      exact h.congr hclosing rfl
    · cases hs
  | leave n =>
    simp only [step] at hs
    split at hs
    · cases hs
      refine h.of_subs hclosing fun sub hin => ?_
      rcases List.mem_or_eq_of_mem_set hin with hold | rfl
      · exact .inr (.inl hold)
      · exact .inl rfl
    · cases hs
  | disconnect n =>
    cases hs
    refine h.of_subs hclosing fun sub hin => ?_
    obtain ⟨j, hj⟩ := List.mem_iff_getElem?.1 hin
    rw [List.getElem?_modify] at hj
    obtain ⟨sub', hsub', rfl⟩ := Option.map_eq_some_iff.1 hj
    by_cases hn : n = j
    · simp [hn]
    · simp [hn, List.mem_of_getElem? hsub']

theorem Closable.resume (h : s.Closable) (hlock : s.startLock = some (i, opens)) (hc : s.coroutines[i]? = some c)
    (hreturned : s.closing ≠ .returned) (hnodup : ((newFanouts opens).map Fanout.key).Nodup)
    (hnone : s.closed = true → NoneOpened opens) : (s.finishStart i c.kind opens).Closable := by
  refine ⟨h.tracked.resume hlock hnodup, h.shutting.resume hnone, h.loops.finishStart hlock hc, ?_⟩
  obtain ⟨hq, -⟩ := finishStart_quiet s i c.kind opens
  obtain ⟨-, -, -, hclosing, -, -, hsubs, -⟩ := register_rest s opens
  refine h.handed.of_subs (by rw [hq.closing, hclosing]; exact id) fun sub hin => .inr ?_
  refine (subs_afterStart sub hin).imp (fun hold => ?_) (And.imp_right fun _ => hreturned)
  have hsame : (opens.foldl register s).ensureReconnect.subs = (opens.foldl register s).subs := by
    unfold Hub.ensureReconnect
    split <;> rfl
  exact hsubs ▸ hsame ▸ hold

theorem Closable.cancel (h : s.Closable) (hm : s.Orderly (.cancel i)) (hs : s.step (.cancel i) = some s') : s'.Closable := by
  have hloops : s'.Loops := h.loops.cancel hs
  have hquiet : ∀ {s'}, Quiet s s' → s'.startLock = s.startLock → s'.subs = s.subs → s'.Loops → s'.Closable :=
    fun hq hlock hsubs hloops => ⟨h.tracked.of_quiet hq (.inl hlock), h.shutting.of_quiet hq, hloops,
      h.handed.congr (by rw [hq.closing]; exact id) hsubs⟩
  simp only [step] at hs
  split at hs
  · cases hs
    exact hquiet ⟨rfl, rfl, rfl, rfl, rfl, rfl⟩ rfl rfl hloops
  · cases hs
    exact hquiet ⟨rfl, rfl, rfl, rfl, rfl, rfl⟩ rfl rfl hloops
  · cases hs
    exact hquiet ⟨rfl, rfl, rfl, rfl, rfl, rfl⟩ rfl rfl hloops
  · rename_i hc
    obtain ⟨x, -, rfl⟩ := Option.map_eq_some_iff.1 hs
    exact ⟨h.tracked.unlock (hm _ hc rfl) rfl rfl rfl, h.shutting.of_quiet ⟨rfl, rfl, rfl, rfl, rfl, rfl⟩, hloops,
      h.handed.congr id rfl⟩
  · cases hs

theorem Closable.close (h : s.Closable) : s.close.Closable := by
  refine ⟨?_, h.shutting.close, h.loops.close, ?_⟩
  · unfold Hub.close
    split
    · exact h.tracked
    · exact ⟨h.tracked.handles, h.tracked.range, h.tracked.fresh⟩
  · unfold Hub.close
    split
    · exact h.handed
    · exact h.handed.congr nofun rfl

/-- The end of one fan-out -/
theorem Closable.endFanout (h : s.Closable) (t : Nat) (f : Fanout) :
    Closable { s with fanouts := s.fanouts.set t { f with running := false } } :=
  ⟨⟨h.tracked.handles, h.tracked.range, h.tracked.fresh⟩, h.shutting.endFanout ⟨rfl, rfl, rfl, rfl, rfl, rfl⟩,
    h.loops.congr rfl rfl rfl rfl fun _ opens hlock => ⟨opens, hlock⟩, h.handed.congr id rfl⟩

theorem Closable.closeSubs (h : s.Closable) : s.closeSubs.Closable :=
  ⟨h.tracked.of_quiet ⟨rfl, rfl, rfl, rfl, rfl, rfl⟩ (.inl rfl), h.shutting.of_quiet ⟨rfl, rfl, rfl, rfl, rfl, rfl⟩,
    h.loops.congr rfl rfl rfl rfl fun _ opens hlock => ⟨opens, hlock⟩, h.handed.closeSubs⟩

theorem step_closable {a : Act} (h : s.Closable) (hm : s.Orderly a) (hs : s.step a = some s') : s'.Closable := by
  have hloops : s'.Loops := step_loops h.loops hs
  have hquiet : a.IsQuiet → s'.Closable := fun ha => by
    obtain ⟨hq, hlocks⟩ := step_quiet ha hs
    exact ⟨h.tracked.of_quiet hq hlocks, h.shutting.of_quiet hq, hloops, handed_quiet ha h.handed hm hs⟩
  cases a with
  | subscribe => exact hquiet .subscribe
  | run i => exact hquiet (.run i)
  | acquire i => exact hquiet (.acquire i)
  | wake i => exact hquiet (.wake i)
  | strayEnds => exact hquiet .strayEnds
  | leave n => exact hquiet (.leave n)
  | disconnect n => exact hquiet (.disconnect n)
  | opened j =>
    obtain ⟨⟨i, kind, opens⟩, hawaited, rfl⟩ := Option.map_eq_some_iff.1 hs
    obtain ⟨hlock, -, key, hj⟩ := awaited_eq_some hawaited
    exact ⟨h.tracked.setOpening hlock hj (.inr ⟨rfl, rfl⟩), h.shutting.opened ⟨rfl, rfl, rfl, rfl, rfl, rfl⟩, hloops,
      h.handed.congr id rfl⟩
  | offline j =>
    obtain ⟨⟨i, kind, opens⟩, hawaited, rfl⟩ := Option.map_eq_some_iff.1 hs
    obtain ⟨hlock, -, key, hj⟩ := awaited_eq_some hawaited
    exact ⟨h.tracked.setOpening hlock hj (.inl ⟨rfl, fun _ => nofun⟩),
      h.shutting.of_quiet ⟨rfl, rfl, rfl, rfl, rfl, rfl⟩, hloops, h.handed.congr id rfl⟩
  | raises j =>
    obtain ⟨⟨i, kind, opens⟩, -, rfl⟩ := Option.map_eq_some_iff.1 hs
    cases kind with
    | subscribe | reconnect =>
      exact ⟨h.tracked.unlock hm rfl rfl rfl, h.shutting.of_quiet ⟨rfl, rfl, rfl, rfl, rfl, rfl⟩, hloops,
        h.handed.congr id rfl⟩
  | resume =>
    simp only [step] at hs
    split at hs
    · rename_i i opens hlock
      split at hs
      · rename_i c hawake
        split at hs
        · cases hs
        · cases hs
          obtain ⟨hreturned, hopens⟩ := hm
          obtain ⟨hnodup, hnone⟩ := hopens i opens hlock
          exact h.resume hlock (awake_eq_some hawake).1 hreturned hnodup hnone
      · cases hs
    · cases hs
  | cancel i => exact h.cancel hm hs
  | strayOpens => exact hm.elim
  | fanoutEnds t failed =>
    simp only [step] at hs
    split at hs
    · rename_i key handle _
      cases hs
      have hended := h.endFanout t ⟨key, handle, true, false⟩
      split
      · exact hended.closeSubs
      · exact hended
    · cases hs
  | fanoutCancelled t =>
    simp only [step] at hs
    split at hs
    · rename_i key handle _
      cases hs
      exact h.endFanout t ⟨key, handle, true, true⟩
    · cases hs
  | close =>
    cases hs
    exact h.close
  | closeStep =>
    obtain ⟨hshutting, htracked⟩ := h.shutting.closeStep h.tracked hs
    exact ⟨htracked, hshutting, h.loops.closeStep hs, h.handed.closeStep hs⟩

theorem closable_create (peers : List String) : (create peers).Closable where
  tracked := by
    refine ⟨fun _ hlt => absurd hlt (Nat.not_lt_zero _), ?_, nofun⟩
    rintro handle (hin | ⟨_, _, hlock, -⟩)
    · cases hin
    · cases hlock
  shutting := ⟨fun _ => rfl, nofun, nofun, nofun, nofun⟩
  loops := loops_create peers
  handed := ⟨nofun, nofun⟩

/-! ### What `close` leaves -/

theorem Closable.complete (h : s.Closable) (hreturned : s.closing = .returned) (hsettled : s.Settled) : s.Complete := by
  have hclosed : s.closed = true := by
    cases hopen : s.closed with
    | true => rfl
    | false =>
      rw [h.shutting.no hopen] at hreturned
      cases hreturned
  have hreconnect : ∀ c ∈ s.coroutines, c.kind = .reconnect → c.pc = .done := fun c hin hkind => by
    obtain ⟨i, hi⟩ := List.mem_iff_getElem?.1 hin
    by_contra hlive
    rcases h.loops.awaited hclosed i c hi hkind hlive with hcreated | ⟨-, ts, hclosing⟩
    · exact hsettled.created c hin hcreated
    · rw [hreturned] at hclosing
      cases hclosing
  have hempty := h.shutting.returned hreturned
  refine ⟨fun f hin => ?_, hreconnect, hempty, fun b hin => ?_, h.handed.returned hreturned⟩
  · obtain ⟨t, ht⟩ := List.mem_iff_getElem?.1 hin
    by_contra hrunning
    obtain ⟨ts, r, hclosing, -⟩ := h.shutting.tasks hclosed t f ht (Bool.not_eq_false _ ▸ hrunning)
    rw [hreturned] at hclosing
    cases hclosing
  · obtain ⟨handle, hhandle⟩ := List.mem_iff_getElem?.1 hin
    rcases h.tracked.handles handle (List.getElem?_eq_some_iff.1 hhandle).1 with hexit | hvalue | ⟨i, opens, hlock, -⟩
    · rw [hhandle] at hexit
      exact Option.some.inj hexit
    · rw [Dict.values, hempty] at hvalue
      cases hvalue
    · -- nobody gathers any more
      obtain ⟨c, hc, hgather⟩ := h.loops.lock i opens hlock
      have hdone : c.pc = .done := by
        cases hkind : c.kind with
        | subscribe => exact hsettled.subscribe c (List.mem_of_getElem? hc) hkind
        | reconnect => exact hreconnect c (List.mem_of_getElem? hc) hkind
      rw [hgather] at hdone
      cases hdone

/-- In every run of a channel in which nothing escapes `close`: `close` does not raise, and once it has returned and the other
coroutines have run to completion, nothing of the channel is left. -/
theorem close_complete {peers : List String} {acts : List Act} (hr : run step (create peers) acts = some s)
    (hm : Meets step Orderly (create peers) acts) :
    s.closing ≠ .raised ∧ (s.closing = .returned → s.Settled → s.Complete) := by
  have h : s.Closable := run_invariant_when Closable Orderly (fun _ _ _ => step_closable) hm (closable_create peers) hr
  exact ⟨h.shutting.not_raised, h.complete⟩

/-- One peer is read and one is offline when the channel is closed. -/
def readAndOffline : List Act := [.subscribe, .opened 0, .offline 1, .resume, .run 1, .close, .fanoutCancelled 0, .cancel 1,
  .closeStep, .closeStep, .closeStep, .closeStep, .closeStep]

theorem close_complete_readAndOffline : ∃ s, run step (create ["a", "b"]) readAndOffline = some s ∧
    (s.closing ≠ .raised ∧ (s.closing = .returned → s.Settled → s.Complete)) ∧ s.closing = .returned ∧ s.Settled := by
  obtain ⟨s, hr, hs⟩ := Option.map_eq_some_iff.1 (show (run step (create ["a", "b"]) readAndOffline).map
    (fun s => (s.closing, s.coroutines, s.strays)) =
      some (.returned, [⟨.subscribe, .done, false⟩, ⟨.reconnect, .done, true⟩], 0) by decide +kernel)
  obtain ⟨hclosing, hrest⟩ := Prod.mk.inj hs
  obtain ⟨hcoroutines, hstrays⟩ := Prod.mk.inj hrest
  exact ⟨s, hr, close_complete hr (by decide +kernel), hclosing,
    by rw [hcoroutines]; decide, by rw [hcoroutines]; decide, hstrays⟩

/-- `close` comes and goes while the only peer is being opened. -/
def closedMeanwhile : List Act := [.subscribe, .close, .closeStep, .closeStep, .opened 0, .resume]

theorem close_complete_fails : ∃ s, run step (create ["a"]) closedMeanwhile = some s ∧
    s.closing = .returned ∧ s.Settled ∧ ¬s.Complete := by
  obtain ⟨s, hr, hs⟩ := Option.map_eq_some_iff.1 (show (run step (create ["a"]) closedMeanwhile).map
    (fun s => (s.closing, s.coroutines, s.strays, s.fanouts)) =
      some (.returned, [⟨.subscribe, .done, false⟩], 0, [⟨"a", 0, true, false⟩]) by decide +kernel)
  obtain ⟨hclosing, hrest⟩ := Prod.mk.inj hs
  obtain ⟨hcoroutines, hrest⟩ := Prod.mk.inj hrest
  obtain ⟨hstrays, hfanouts⟩ := Prod.mk.inj hrest
  refine ⟨s, hr, hclosing, ⟨by rw [hcoroutines]; decide, by rw [hcoroutines]; decide, hstrays⟩, fun hcomplete => ?_⟩
  have hended := hcomplete.fanouts ⟨"a", 0, true, false⟩ (by rw [hfanouts]; exact List.mem_singleton_self _)
  cases hended

end Mmbus.Cast.Hub
