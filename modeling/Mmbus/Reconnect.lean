import Mmbus.FanOut

/-!
# The reconnect loop

`_reconnect_loop` of a channel and the calls of `start_subscriptions` beside it: who holds `_start_lock`, and that there is
one loop at most.

A peer that is missing is tried again by the loop or by a call that is under way, until an open raises and nobody is left.
With the fan-outs that end this is all by which a peer is forgotten (`covered_iff`).
-/

namespace Mmbus.Cast.Hub

open Transition

variable {s s' s'' : Hub} {i : Nat} {kind : CoroutineKind} {opens : List (String × Opening)} {c : Coroutine}

/-! ### One loop at most -/

/-- At most one reconnect loop has not ended, and `close` has cancelled and awaits it, unless it has not run yet. -/
structure Loops (s : Hub) : Prop where
  lock : ∀ i opens, s.startLock = some (i, opens) → ∃ c, s.coroutines[i]? = some c ∧ c.pc = .gather
  task : ∀ i, s.reconnectTask = some i →
    ∃ c, s.coroutines[i]? = some c ∧ c.kind = .reconnect ∧ (s.closed = false → c.pc ≠ .done)
  cancelled : ∀ c ∈ s.coroutines, c.cancelled = true → c.kind = .reconnect ∧ s.closed = true
  live : ∀ i c, s.coroutines[i]? = some c → c.kind = .reconnect → c.pc ≠ .done → s.reconnectTask = some i
  awaited : s.closed = true → ∀ i c, s.coroutines[i]? = some c → c.kind = .reconnect → c.pc ≠ .done →
    c.pc = .created ∨ c.cancelled = true ∧ ∃ ts, s.closing = .tasks ts (some i)

/-- The coroutines, the lock and the reconnect task are as they were, up to the opens of a gather. -/
theorem Loops.congr (h : s.Loops) (hcoroutines : s'.coroutines = s.coroutines)
    (htask : s'.reconnectTask = s.reconnectTask) (hclosed : s'.closed = s.closed) (hclosing : s'.closing = s.closing)
    (hlock : ∀ i opens, s'.startLock = some (i, opens) → ∃ opens', s.startLock = some (i, opens')) : s'.Loops where
  lock := fun i opens hlock' => by
    obtain ⟨opens', hold⟩ := hlock i opens hlock'
    rw [hcoroutines]
    exact h.lock i opens' hold
  task := by rw [hcoroutines, htask, hclosed]; exact h.task
  cancelled := by rw [hcoroutines, hclosed]; exact h.cancelled
  live := by rw [hcoroutines, htask]; exact h.live
  awaited := by rw [hcoroutines, hclosed, hclosing]; exact h.awaited

theorem getElem?_setPc {pc : CoroutinePc} {j : Nat} (hc : s.coroutines[i]? = some c) :
    (s.setPc i pc).coroutines[j]? = if j = i then some { c with pc := pc } else s.coroutines[j]? := by
  simp only [setPc, List.getElem?_modify]
  by_cases hj : j = i
  · rw [hj, hc]
    simp
  · simp [hj, Ne.symm hj]

/-- One coroutine has moved. -/
theorem Loops.move {pc : CoroutinePc} (h : s.Loops) (hc : s.coroutines[i]? = some c)
    (hcoroutines : s'.coroutines = (s.setPc i pc).coroutines) (hclosed : s'.closed = s.closed)
    (hclosing : s'.closing = s.closing)
    (hlock : ∀ j opens, s'.startLock = some (j, opens) →
      j = i ∧ pc = .gather ∨ j ≠ i ∧ s.startLock = some (j, opens))
    (htask : s'.reconnectTask = s.reconnectTask ∧ (c.kind = .reconnect → s.closed = false → pc ≠ .done) ∨
      s'.reconnectTask = none ∧ c.kind = .reconnect ∧ c.pc ≠ .done ∧ pc = .done)
    (hpc : c.kind = .reconnect → pc ≠ .done → c.pc ≠ .done ∧ s.closed = false) : s'.Loops := by
  have hget : ∀ j, s'.coroutines[j]? = if j = i then some { c with pc := pc } else s.coroutines[j]? := fun j => by
    rw [hcoroutines, getElem?_setPc hc]
  have hother : ∀ j c', j ≠ i → s'.coroutines[j]? = some c' → s.coroutines[j]? = some c' := fun j c' hj hc' => by
    rwa [hget, if_neg hj] at hc'
  have hself : ∀ c', s'.coroutines[i]? = some c' → c' = { c with pc := pc } := fun c' hc' => by
    rw [hget, if_pos rfl] at hc'
    exact (Option.some.inj hc').symm
  refine ⟨fun j opens hlock' => ?_, fun j htask' => ?_, fun c' hin hcancelled => ?_, fun j c' hc' hkind hlive => ?_,
    fun hclosed' j c' hc' hkind hlive => ?_⟩
  · rw [hget]
    rcases hlock j opens hlock' with ⟨rfl, rfl⟩ | ⟨hj, hold⟩
    · exact ⟨_, if_pos rfl, rfl⟩
    · rw [if_neg hj]
      exact h.lock j opens hold
  · obtain ⟨hold, hlive⟩ : s.reconnectTask = some j ∧ (c.kind = .reconnect → s.closed = false → pc ≠ .done) := by
      rcases htask with ⟨hsame, hlive⟩ | ⟨hnone, -⟩
      · exact ⟨hsame ▸ htask', hlive⟩
      · rw [hnone] at htask'
        cases htask'
    obtain ⟨c', hc', hkind, hlive'⟩ := h.task j hold
    rw [hget, hclosed]
    by_cases hj : j = i
    · subst hj
      rw [hc, Option.some.injEq] at hc'
      subst hc'
      exact ⟨_, if_pos rfl, hkind, hlive hkind⟩
    · exact ⟨c', by rw [if_neg hj, hc'], hkind, hlive'⟩
  · obtain ⟨j, hj⟩ := List.mem_iff_getElem?.1 hin
    by_cases heq : j = i
    · subst heq
      rw [hself c' hj] at hcancelled ⊢
      rw [hclosed]
      exact h.cancelled c (List.mem_of_getElem? hc) hcancelled
    · rw [hclosed]
      exact h.cancelled c' (List.mem_of_getElem? (hother j c' heq hj)) hcancelled
  · by_cases hj : j = i
    · subst hj
      rw [hself c' hc'] at hkind hlive
      rcases htask with ⟨hsame, -⟩ | ⟨-, -, -, hdone⟩
      · rw [hsame]
        exact h.live j c hc hkind (hpc hkind hlive).1
      · exact absurd hdone hlive
    · have hold := h.live j c' (hother j c' hj hc') hkind hlive
      rcases htask with ⟨hsame, -⟩ | ⟨-, hkind', hlive', -⟩
      · rw [hsame, hold]
      · rw [h.live i c hc hkind' hlive', Option.some.injEq] at hold
        exact absurd hold.symm hj
  · rw [hclosed] at hclosed'
    rw [hclosing]
    by_cases hj : j = i
    · subst hj
      rw [hself c' hc'] at hkind hlive
      rw [(hpc hkind hlive).2] at hclosed'
      cases hclosed'
    · exact h.awaited hclosed' j c' (hother j c' hj hc') hkind hlive

/-- The end of a reconnect loop -/
theorem Loops.endReconnect (h : s.Loops) (hc : s.coroutines[i]? = some c) (hkind : c.kind = .reconnect)
    (hlive : c.pc ≠ .done) (hfree : ∀ opens, s.startLock ≠ some (i, opens)) : (s.endReconnect i).Loops := by
  refine h.move hc rfl rfl rfl (fun j opens hlock => .inr ⟨?_, hlock⟩) (.inr ⟨rfl, hkind, hlive, rfl⟩)
    fun _ hdone => absurd rfl hdone
  rintro rfl
  exact hfree opens hlock

theorem Loops.reconnectLoop (h : s.Loops) (hc : s.coroutines[i]? = some c) (hkind : c.kind = .reconnect)
    (hlive : c.pc ≠ .done) (hfree : ∀ opens, s.startLock ≠ some (i, opens)) : (s.reconnectLoop i).Loops := by
  unfold Hub.reconnectLoop
  split
  · rename_i hopen
    refine h.move hc rfl rfl rfl (fun j opens hlock => .inr ⟨?_, hlock⟩) (.inl ⟨rfl, fun _ _ => nofun⟩)
      fun _ _ => ⟨hlive, hopen.1⟩
    rintro rfl
    exact hfree opens hlock
  · exact h.endReconnect hc hkind hlive hfree

theorem Loops.afterStart (h : s.Loops) (hc : s.coroutines[i]? = some c) (hkind : c.kind = kind) (hlive : c.pc ≠ .done)
    (hfree : ∀ opens, s.startLock ≠ some (i, opens)) : (s.afterStart i kind).Loops := by
  cases kind with
  | subscribe =>
    have hnot : c.kind ≠ .reconnect := by
      rw [hkind]
      exact nofun
    refine h.move hc rfl rfl rfl (fun j opens hlock => .inr ⟨?_, hlock⟩) (.inl ⟨rfl, fun hk => absurd hk hnot⟩)
      fun _ hdone => absurd rfl hdone
    rintro rfl
    exact hfree opens hlock
  | reconnect => exact h.reconnectLoop hc hkind hlive hfree

theorem Loops.enter (h : s.Loops) (hc : s.coroutines[i]? = some c) (hkind : c.kind = kind) (hlive : c.pc ≠ .done)
    (hfree : s.startLock = none) : (s.enter i kind).Loops := by
  have hnot : ∀ opens, s.startLock ≠ some (i, opens) := by
    rw [hfree]
    exact fun _ => nofun
  unfold Hub.enter
  split
  · exact h.afterStart hc hkind hlive hnot
  · rename_i hopen
    split
    · exact h.afterStart hc hkind hlive hnot
    · refine h.move hc rfl rfl rfl (fun j opens hlock => .inl ?_) (.inl ⟨rfl, fun _ _ => nofun⟩)
        fun _ _ => ⟨hlive, Bool.eq_false_iff.2 hopen⟩
      cases hlock
      exact ⟨rfl, rfl⟩

theorem Loops.start (h : s.Loops) (hc : s.coroutines[i]? = some c) (hkind : c.kind = kind) (hlive : c.pc ≠ .done)
    (hfree : ∀ opens, s.startLock ≠ some (i, opens)) (hopen : c.kind = .reconnect → s.closed = false) :
    (s.start i kind).Loops := by
  unfold Hub.start
  split
  · rename_i hlock
    exact h.enter hc hkind hlive hlock.1
  · refine h.move hc rfl rfl rfl (fun j opens hlock => .inr ⟨?_, hlock⟩) (.inl ⟨rfl, fun _ _ => nofun⟩)
      fun hk _ => ⟨hlive, hopen hk⟩
    rintro rfl
    exact hfree opens hlock

/-- A coroutine is added; if it is a reconnect loop, it becomes the task. -/
theorem Loops.spawn (h : s.Loops) (hcoroutines : s'.coroutines = s.coroutines ++ [⟨kind, .created, false⟩])
    (htask : kind = .subscribe ∧ s'.reconnectTask = s.reconnectTask ∨
      kind = .reconnect ∧ s.reconnectTask = none ∧ s'.reconnectTask = some s.coroutines.length)
    (hclosed : s'.closed = s.closed) (hclosing : s'.closing = s.closing) (hlock : s'.startLock = s.startLock) :
    s'.Loops := by
  have hold : ∀ (j : Nat) (c : Coroutine), s.coroutines[j]? = some c → s'.coroutines[j]? = some c := fun j c hc => by
    rw [hcoroutines, List.getElem?_append_left (List.getElem?_eq_some_iff.1 hc).1, hc]
  have hcases : ∀ (j : Nat) (c : Coroutine), s'.coroutines[j]? = some c →
      s.coroutines[j]? = some c ∨ j = s.coroutines.length ∧ c = ⟨kind, .created, false⟩ := fun j c hc => by
    rw [hcoroutines] at hc
    rcases Nat.lt_or_ge j s.coroutines.length with hlt | hge
    · rw [List.getElem?_append_left hlt] at hc
      exact .inl hc
    · rw [List.getElem?_append_right hge, List.getElem?_singleton] at hc
      split at hc <;> cases hc
      exact .inr ⟨by omega, rfl⟩
  refine ⟨fun j opens hlock' => ?_, fun j htask' => ?_, fun c hin hcancelled => ?_, fun j c hc hkind hlive => ?_,
    fun hclosed' j c hc hkind hlive => ?_⟩
  · obtain ⟨c, hc, hpc⟩ := h.lock j opens (hlock ▸ hlock')
    exact ⟨c, hold j c hc, hpc⟩
  · rcases htask with ⟨-, hsame⟩ | ⟨hkind, -, hnew⟩
    · obtain ⟨c, hc, hkind, hlive⟩ := h.task j (hsame ▸ htask')
      rw [hclosed]
      exact ⟨c, hold j c hc, hkind, hlive⟩
    · rw [hnew] at htask'
      cases htask'
      exact ⟨⟨kind, .created, false⟩, by rw [hcoroutines, List.getElem?_concat_length], hkind, fun _ => nofun⟩
  · rw [hcoroutines] at hin
    rcases List.mem_append.1 hin with hin | hin
    · rw [hclosed]
      exact h.cancelled c hin hcancelled
    · rw [List.mem_singleton.1 hin] at hcancelled
      cases hcancelled
  · rcases hcases j c hc with hc | ⟨rfl, rfl⟩
    · have htask' := h.live j c hc hkind hlive
      rcases htask with ⟨-, hsame⟩ | ⟨-, hnone, -⟩
      · rw [hsame, htask']
      · rw [hnone] at htask'
        cases htask'
    · rcases htask with ⟨hsub, -⟩ | ⟨-, -, hnew⟩
      · cases hsub.symm.trans hkind
      · exact hnew
  · rcases hcases j c hc with hc | ⟨rfl, rfl⟩
    · rw [hclosing]
      exact h.awaited (hclosed ▸ hclosed') j c hc hkind hlive
    · exact .inl rfl

theorem Loops.ensureReconnect (h : s.Loops) : s.ensureReconnect.Loops := by
  unfold Hub.ensureReconnect
  split
  · rename_i hnone
    exact h.spawn rfl (.inr ⟨rfl, hnone.2, rfl⟩) rfl rfl rfl
  · exact h

theorem Loops.finishStart (h : s.Loops) (hlock : s.startLock = some (i, opens)) (hc : s.coroutines[i]? = some c) :
    (s.finishStart i c.kind opens).Loops := by
  obtain ⟨-, hclosed, -, hclosing, hcoroutines, htask, -⟩ := register_rest s opens
  obtain ⟨c', hc', hpc⟩ := h.lock i opens hlock
  rw [hc, Option.some.injEq] at hc'
  subst hc'
  have hregister : Loops { opens.foldl register s with startLock := none } :=
    h.congr hcoroutines htask hclosed hclosing nofun
  have hcomm : { (opens.foldl register s).ensureReconnect with startLock := none } =
      Hub.ensureReconnect { opens.foldl register s with startLock := none } := by
    unfold Hub.ensureReconnect
    split
    · rename_i hmissing
      exact (if_pos hmissing).symm
    · rename_i hmissing
      exact (if_neg hmissing).symm
  have hkept : (Hub.ensureReconnect { opens.foldl register s with startLock := none }).coroutines[i]? = some c := by
    rw [← hcoroutines] at hc
    unfold Hub.ensureReconnect
    split
    · exact (List.getElem?_append_left (List.getElem?_eq_some_iff.1 hc).1).trans hc
    · exact hc
  have hunlocked : ∀ j opens', (Hub.ensureReconnect { opens.foldl register s with startLock := none }).startLock ≠
      some (j, opens') := fun j opens' => by
    rw [← hcomm]
    exact nofun
  rw [Hub.finishStart, hcomm]
  exact hregister.ensureReconnect.afterStart hkept rfl (by rw [hpc]; exact nofun) (hunlocked i)

theorem Loops.close (h : s.Loops) : s.close.Loops := by
  unfold Hub.close
  split
  · exact h
  · cases htask : s.reconnectTask with
    | none =>
      refine ⟨h.lock, fun i hi => ?_, fun c hin hcancelled => ⟨(h.cancelled c hin hcancelled).1, rfl⟩,
        fun i c hc hkind hlive => ?_, fun _ i c hc hkind hlive => ?_⟩
      · obtain ⟨c, hc, hkind, -⟩ := h.task i (htask ▸ hi)
        exact ⟨c, hc, hkind, nofun⟩
      · exact htask ▸ h.live i c hc hkind hlive
      · have := h.live i c hc hkind hlive
        rw [htask] at this
        cases this
    | some i =>
      have hget : ∀ (j : Nat) (c : Coroutine), (s.coroutines.modify i fun c => { c with cancelled := true })[j]? = some c →
          ∃ c', s.coroutines[j]? = some c' ∧ c.kind = c'.kind ∧ c.pc = c'.pc ∧
            (j = i ∧ c.cancelled = true ∨ j ≠ i ∧ c.cancelled = c'.cancelled) := fun j c hc => by
        rw [List.getElem?_modify] at hc
        obtain ⟨c', hc', rfl⟩ := Option.map_eq_some_iff.1 hc
        refine ⟨c', hc', ?_⟩
        by_cases hj : i = j
        · simp [hj]
        · simp [hj, Ne.symm hj]
      have hkept : ∀ (j : Nat) (c : Coroutine), s.coroutines[j]? = some c →
          ∃ c', (s.coroutines.modify i fun c => { c with cancelled := true })[j]? = some c' ∧
            c'.kind = c.kind ∧ c'.pc = c.pc := fun j c hc => by
        rw [List.getElem?_modify, hc]
        refine ⟨_, rfl, ?_⟩
        by_cases hj : i = j
        · simp [hj]
        · simp [hj]
      refine ⟨fun j opens hlock => ?_, fun j hj => ?_, fun c hin hcancelled => ?_, fun j c hc hkind hlive => ?_,
        fun _ j c hc hkind hlive => ?_⟩
      · obtain ⟨c, hc, hpc⟩ := h.lock j opens hlock
        obtain ⟨c', hc', -, hpc'⟩ := hkept j c hc
        exact ⟨c', hc', hpc'.trans hpc⟩
      · obtain ⟨c, hc, hkind, -⟩ := h.task j (htask ▸ hj)
        obtain ⟨c', hc', hkind', -⟩ := hkept j c hc
        exact ⟨c', hc', hkind'.trans hkind, nofun⟩
      · obtain ⟨j, hj⟩ := List.mem_iff_getElem?.1 hin
        obtain ⟨c', hc', hkind, -, ⟨rfl, -⟩ | ⟨-, hsame⟩⟩ := hget j c hj
        · obtain ⟨c'', hc'', hkind'', -⟩ := h.task j htask
          rw [hc', Option.some.injEq] at hc''
          exact ⟨by rw [hkind, hc'', hkind''], rfl⟩
        · rw [hkind]
          exact ⟨(h.cancelled c' (List.mem_of_getElem? hc') (hsame ▸ hcancelled)).1, rfl⟩
      · obtain ⟨c', hc', hkind', hpc', -⟩ := hget j c hc
        exact (h.live j c' hc' (hkind' ▸ hkind) (hpc' ▸ hlive)).symm ▸ htask.symm
      · obtain ⟨c', hc', hkind', hpc', hor⟩ := hget j c hc
        have hlast := h.live j c' hc' (hkind' ▸ hkind) (hpc' ▸ hlive)
        rw [htask, Option.some.injEq] at hlast
        subst hlast
        rcases hor with ⟨-, hcancelled⟩ | ⟨hne, -⟩
        · exact .inr ⟨hcancelled, _, rfl⟩
        · exact absurd rfl hne

theorem Loops.closeStep (h : s.Loops) (hs : s.closeStep = some s') : s'.Loops := by
  -- only the position of `close` changes
  have hmoved : ∀ closing exited subs mmbusSubs, (∀ i c, s.coroutines[i]? = some c → c.kind = .reconnect → c.pc ≠ .done →
      ∀ ts, s.closing = .tasks ts (some i) → ∃ ts', closing = .tasks ts' (some i)) →
      Loops { s with closing := closing, exited := exited, subs := subs, mmbusSubs := mmbusSubs } := by
    intro closing exited subs mmbusSubs hkept
    refine ⟨h.lock, h.task, h.cancelled, h.live, fun hclosed i c hc hkind hlive => ?_⟩
    refine (h.awaited hclosed i c hc hkind hlive).imp_right ?_
    rintro ⟨hcancelled, ts, hclosing⟩
    exact ⟨hcancelled, hkept i c hc hkind hlive ts hclosing⟩
  unfold Hub.closeStep at hs
  split at hs
  · rename_i t ts reconnect hclosing
    split at hs <;> cases hs
    refine hmoved _ s.exited s.subs s.mmbusSubs fun i c _ _ _ ts' heq => ?_
    rw [hclosing] at heq
    cases heq
    exact ⟨ts, rfl⟩
  · rename_i i hclosing
    split at hs
    · cases hs
    · rename_i hdone
      cases hs
      refine hmoved _ s.exited s.subs s.mmbusSubs fun j c hc _ hlive ts' heq => ?_
      rw [hclosing] at heq
      cases heq
      rw [hc, Option.any_some, decide_eq_true_eq] at hdone
      exact absurd hlive hdone
  · rename_i hclosing
    cases hs
    refine hmoved _ s.exited s.subs s.mmbusSubs fun i c _ _ _ ts' heq => ?_
    rw [hclosing] at heq
    cases heq
  · rename_i position size hclosing
    have hnot : ∀ (closing : Closing) i (c : Coroutine), s.coroutines[i]? = some c → c.kind = .reconnect →
        c.pc ≠ .done → ∀ ts, s.closing = .tasks ts (some i) → ∃ ts', closing = .tasks ts' (some i) := fun _ i c _ _ _ ts' heq => by
      rw [hclosing] at heq
      cases heq
    split at hs
    · cases hs
      exact hmoved _ s.exited s.subs s.mmbusSubs (hnot _)
    · split at hs <;> cases hs
      · exact hmoved _ _ s.subs s.mmbusSubs (hnot _)
      · exact hmoved _ s.exited _ _ (hnot _)
  · cases hs

theorem awake_eq_some (h : s.awake i = some c) : s.coroutines[i]? = some c ∧ c.cancelled = false := by
  obtain ⟨hc, hawake⟩ := Option.filter_eq_some_iff.1 h
  exact ⟨hc, by simpa using hawake⟩

theorem Loops.not_holder (h : s.Loops) (hc : s.coroutines[i]? = some c) (hpc : c.pc ≠ .gather) (opens : List (String × Opening)) :
    s.startLock ≠ some (i, opens) := by
  intro hlock
  obtain ⟨c', hc', hpc'⟩ := h.lock i opens hlock
  rw [hc, Option.some.injEq] at hc'
  exact hpc (hc' ▸ hpc')

theorem Loops.holder_live (h : s.Loops) (hlock : s.startLock = some (i, opens)) (hc : s.coroutines[i]? = some c) :
    c.pc ≠ .done := by
  obtain ⟨c', hc', hpc⟩ := h.lock i opens hlock
  rw [Option.some.inj (hc.symm.trans hc'), hpc]
  exact nofun

theorem loops_quiet {a : Act} (ha : a.IsQuiet) (h : s.Loops) (hs : s.step a = some s') : s'.Loops := by
  cases ha with
  | subscribe =>
    cases hs
    have hspawn : (s.spawn .subscribe).Loops := h.spawn rfl (.inl ⟨rfl, rfl⟩) rfl rfl rfl
    have hc : (s.spawn .subscribe).coroutines[s.coroutines.length]? = some ⟨.subscribe, .created, false⟩ :=
      List.getElem?_concat_length
    exact hspawn.start hc rfl (by simp) (hspawn.not_holder hc (by simp)) (by simp)
  | run i =>
    simp only [step] at hs
    split at hs
    · rename_i hawake
      cases hs
      obtain ⟨hc, -⟩ := awake_eq_some hawake
      exact h.reconnectLoop hc rfl (by simp) (h.not_holder hc (by simp))
    · cases hs
  | acquire i =>
    simp only [step] at hs
    split at hs
    · rename_i hawake
      split at hs
      · rename_i hfree
        cases hs
        exact h.enter (awake_eq_some hawake).1 rfl (by simp) hfree
      · cases hs
    · cases hs
  | wake i =>
    simp only [step] at hs
    split at hs
    · rename_i hawake
      cases hs
      obtain ⟨hc, -⟩ := awake_eq_some hawake
      split
      · exact h.endReconnect hc rfl (by simp) (h.not_holder hc (by simp))
      · rename_i hopen
        exact h.start hc rfl (by simp) (h.not_holder hc (by simp)) fun _ => Bool.eq_false_iff.2 hopen
    · cases hs
  | strayEnds | leave =>
    simp only [step] at hs
    split at hs
    · cases hs
      exact h.congr rfl rfl rfl rfl fun _ opens hlock => ⟨opens, hlock⟩
    · cases hs
  | disconnect =>
    cases hs
    exact h.congr rfl rfl rfl rfl fun _ opens hlock => ⟨opens, hlock⟩

/-- The gather of a coroutine is left behind, and the coroutine ends. -/
theorem Loops.abandon (h : s.Loops) (xs : List (String × Opening)) (hc : s.coroutines[i]? = some c) (hlive : c.pc ≠ .done) :
    (c.kind = .subscribe → ((s.abandon xs).setPc i .done).Loops) ∧
      (c.kind = .reconnect → ((s.abandon xs).endReconnect i).Loops) := by
  have hleft : (s.abandon xs).Loops := h.congr rfl rfl rfl rfl nofun
  refine ⟨fun hkind => ?_, fun hkind => hleft.endReconnect hc hkind hlive fun _ => nofun⟩
  have hnot : c.kind ≠ .reconnect := by
    rw [hkind]
    exact nofun
  exact hleft.move hc rfl rfl rfl nofun (.inl ⟨rfl, fun hk => absurd hk hnot⟩) fun _ hdone => absurd rfl hdone

theorem Loops.cancel (h : s.Loops) (hs : s.step (.cancel i) = some s') : s'.Loops := by
  have hkind : ∀ {kind pc}, s.coroutines[i]? = some ⟨kind, pc, true⟩ → kind = .reconnect ∧ s.closed = true := fun hc =>
    h.cancelled _ (List.mem_of_getElem? hc) rfl
  simp only [step] at hs
  split at hs
  · rename_i hc
    cases hs
    have hclosed : s.closed ≠ false := ne_false_of_eq_true (hkind hc).2
    refine h.move hc rfl rfl rfl (fun j opens hlock => .inr ⟨?_, hlock⟩) (.inl ⟨rfl, fun _ hopen => absurd hopen hclosed⟩)
      fun _ hdone => absurd rfl hdone
    rintro rfl
    exact h.not_holder hc (by simp) opens hlock
  · rename_i hc
    cases hs
    exact h.endReconnect hc (hkind hc).1 (by simp) (h.not_holder hc (by simp))
  · rename_i hc
    cases hs
    exact h.endReconnect hc (hkind hc).1 (by simp) (h.not_holder hc (by simp))
  · rename_i hc
    obtain ⟨x, -, rfl⟩ := Option.map_eq_some_iff.1 hs
    exact (h.abandon x.2 hc (by simp)).2 (hkind hc).1
  · cases hs

theorem step_loops {a : Act} (h : s.Loops) (hs : s.step a = some s') : s'.Loops := by
  -- the coroutines, the task and the holder of the lock are as they were
  have hkept : ∀ {s' : Hub}, s'.coroutines = s.coroutines → s'.reconnectTask = s.reconnectTask → s'.closed = s.closed →
      s'.closing = s.closing → s'.startLock = s.startLock → s'.Loops :=
    fun hcoroutines htask hclosed hclosing hlock =>
      h.congr hcoroutines htask hclosed hclosing fun _ opens hlock' => ⟨opens, hlock ▸ hlock'⟩
  cases a with
  | subscribe => exact loops_quiet .subscribe h hs
  | run i => exact loops_quiet (.run i) h hs
  | acquire i => exact loops_quiet (.acquire i) h hs
  | wake i => exact loops_quiet (.wake i) h hs
  | strayEnds => exact loops_quiet .strayEnds h hs
  | leave n => exact loops_quiet (.leave n) h hs
  | disconnect n => exact loops_quiet (.disconnect n) h hs
  | opened j | offline j =>
    obtain ⟨⟨i, kind, opens⟩, hawaited, rfl⟩ := Option.map_eq_some_iff.1 hs
    refine h.congr rfl rfl rfl rfl fun i' opens' hlock' => ?_
    cases hlock'
    exact ⟨opens, (awaited_eq_some hawaited).1⟩
  | raises j =>
    obtain ⟨⟨i, kind, opens⟩, hawaited, rfl⟩ := Option.map_eq_some_iff.1 hs
    obtain ⟨hlock, ⟨c, hawake, rfl⟩, -⟩ := awaited_eq_some hawaited
    obtain ⟨hc, -⟩ := awake_eq_some hawake
    have hloops := h.abandon (opens.eraseIdx j) hc (h.holder_live hlock hc)
    cases hkind : c.kind with
    | subscribe => exact hloops.1 hkind
    | reconnect => exact hloops.2 hkind
  | resume =>
    simp only [step] at hs
    split at hs
    · rename_i i opens hlock
      split at hs
      · rename_i c hawake
        split at hs
        · cases hs
        · cases hs
          exact h.finishStart hlock (awake_eq_some hawake).1
      · cases hs
    · cases hs
  | cancel i => exact h.cancel hs
  | strayOpens =>
    simp only [step] at hs
    split at hs
    · cases hs
      exact hkept rfl rfl rfl rfl rfl
    · cases hs
  | fanoutEnds t failed =>
    simp only [step] at hs
    split at hs
    · cases hs
      split <;> exact hkept rfl rfl rfl rfl rfl
    · cases hs
  | fanoutCancelled t =>
    simp only [step] at hs
    split at hs
    · cases hs
      exact hkept rfl rfl rfl rfl rfl
    · cases hs
  | close =>
    cases hs
    exact h.close
  | closeStep => exact h.closeStep hs

theorem loops_create (peers : List String) : (create peers).Loops := ⟨nofun, nofun, nofun, fun _ _ => nofun, nofun⟩

/-! ### Missing peers are tried -/

/-- A call of `start_subscriptions` is under way, or the reconnect loop has not ended, and it has not been cancelled. -/
def Tried (s : Hub) : Prop := ∃ c ∈ s.coroutines, c.cancelled = false ∧ c.pc ≠ .done

/-- Once a subscriber has come to the open channel, somebody tries the missing peers. -/
def Retried (s : Hub) : Prop := s.closed = false → s.missingPeers ≠ [] → s.coroutines ≠ [] → s.Tried

theorem Retried.congr (h : s.Retried) (hclosed : s'.closed = s.closed) (hmissing : s'.missingPeers = s.missingPeers)
    (hcoroutines : s'.coroutines = s.coroutines) : s'.Retried := by
  unfold Retried Tried
  rw [hclosed, hmissing, hcoroutines]
  exact h

end Mmbus.Cast.Hub
