import Mmbus.BridgeStart

/-!
# The Python handle of a bridge

`PyBridge` keeps the state of a bridge behind a mutex, and Python threads call its methods.  A thread needs the GIL
for everything but the parts inside of `allow_threads`, and it keeps the GIL while it waits for the mutex.  A step is
what happens between two waits for the GIL or for the mutex.

`start` keeps the mutex while `Bridge::start` runs without the GIL.  A call that begins meanwhile takes the GIL, waits
for the mutex, and the two threads wait for each other for good (`deadlock_iff`).
-/

namespace Mmbus.Bridge

open Transition

/-- The `timeout` of `shutdown`.  `Duration::from_secs_f64` panics for a number that is negative or too large, or for
none. -/
inductive Timeout
  | none
  | bounded
  | invalid
  deriving DecidableEq

/-- The methods of the handle -/
inductive PyCall
  | start
  | shutdown (timeout : Timeout)
  | wait
  | isRunning
  | originId
  deriving DecidableEq

/-- What a method returns or raises -/
inductive PyOutcome
  | ok
  | running (b : Bool)
  | originId (id : Option UInt64)
  | bridgeError (e : BridgeError)
  /-- `Bridge has already been shut down; construct a new one to restart` -/
  | alreadyShutDown
  /-- `Bridge.shutdown() timed out; threads detached` -/
  | timedOut
  | interrupted
  | panic

/-- The state behind the mutex; a running bridge by its number -/
inductive PyState
  | configured (cfg : StartConfig)
  | running (b : Nat)
  | shutdown
  | transitioning

/-- Where a Python thread is -/
inductive PyPc
  /-- Outside of the methods -/
  | idle
  /-- With the GIL, in `self.state.lock()` -/
  | locking (call : PyCall)
  /-- With the mutex, in `Bridge::start` -/
  | starting (cfg : StartConfig)
  /-- With the mutex and the result of `Bridge::start`, before the GIL -/
  | started (cfg : StartConfig) (result : Except Stop StartedBridge)
  /-- In `join_with_deadline` -/
  | joining (b : Nat) (timeout : Timeout)
  /-- After `join_with_deadline`, before the GIL -/
  | joined (timeout : Timeout) (outcome : PyOutcome)
  /-- With the GIL, in the drop of the bridge after a panic -/
  | dropping (b : Nat)
  /-- In the sleep of `wait` -/
  | sleeping

inductive BridgeStatus
  | running
  | stopping
  | stopped
  deriving DecidableEq

structure PyBridge where
  state : PyState
  /-- The mutex of `state` is poisoned. -/
  poisoned : Bool
  /-- The thread that holds the mutex over a wait -/
  lock : Option Nat
  gil : Option Nat
  threads : Nat → PyPc
  /-- The bridges that have been started -/
  bridges : List (StartedBridge × BridgeStatus)
  /-- The calls that are over -/
  ended : List (PyCall × PyOutcome)

namespace PyBridge

/-- A handle after `new`, `from_toml` or `from_path` -/
def create (cfg : StartConfig) : PyBridge := ⟨.configured cfg, false, none, none, fun _ => .idle, [], []⟩

variable (s : PyBridge)

def setPc (t : Nat) (pc : PyPc) : PyBridge := { s with threads := Function.update s.threads t pc }

/-- `allow_threads` -/
def allowThreads (t : Nat) (pc : PyPc) : PyBridge := { s.setPc t pc with gil := none }

/-- The call of the thread is over. -/
def finish (t : Nat) (call : PyCall) (outcome : PyOutcome) : PyBridge :=
  { s.allowThreads t .idle with ended := s.ended ++ [(call, outcome)] }

def setStatus (b : Nat) (status : BridgeStatus) : PyBridge :=
  { s with bridges := s.bridges.modify b fun x => (x.1, status) }

/-- `unreachable!` with the mutex -/
def unreachable (t : Nat) (call : PyCall) : PyBridge := { s with poisoned := true }.finish t call .panic

/-- What a method does with the mutex -/
def locked (t : Nat) : PyCall → PyBridge
  | .start =>
    match s.state with
    | .configured cfg => { s.allowThreads t (.starting cfg) with state := .transitioning, lock := some t }
    | .running _ => s.finish t .start .ok
    | .shutdown => s.finish t .start .alreadyShutDown
    | .transitioning => s.unreachable t .start
  | .shutdown timeout =>
    let left := { s with state := .shutdown }
    match s.state with
    | .running b =>
      -- the deadline is computed after the bridge has been taken
      if timeout = .invalid then (left.setStatus b .stopping).setPc t (.dropping b)
      else (left.setStatus b .stopping).allowThreads t (.joining b timeout)
    | .configured _ | .shutdown => left.finish t (.shutdown timeout) .ok
    | .transitioning => left.unreachable t (.shutdown timeout)
  | .wait =>
    match s.state with
    | .running _ => s.allowThreads t .sleeping
    | _ => s.finish t .wait .ok
  | .isRunning =>
    match s.state with
    | .running _ => s.finish t .isRunning (.running true)
    | _ => s.finish t .isRunning (.running false)
  | .originId =>
    match s.state with
    | .running b => s.finish t .originId (.originId (s.bridges[b]?.map fun x => x.1.originId))
    | _ => s.finish t .originId (.originId none)

inductive Act
  /-- A thread takes the GIL and calls a method. -/
  | call (t : Nat) (call : PyCall)
  /-- It gets the mutex. -/
  | lock (t : Nat)
  /-- `Bridge::start` is over. -/
  | startReturns (t : Nat) (env : Env)
  /-- `join_with_deadline` is over, or the drop. -/
  | joinEnds (t : Nat) (timedOut : Bool)
  /-- The thread has the GIL again after `allow_threads`. -/
  | regain (t : Nat)
  /-- The sleep of `wait` is over, and the thread has the GIL. -/
  | wake (t : Nat) (interrupted : Bool)
  /-- `Bridge::shutdown` is over. -/
  | bridgeStops (b : Nat)

/-- The state after `allow_threads` in `start`, with the GIL -/
def afterStart (t : Nat) (cfg : StartConfig) : Except Stop StartedBridge → PyBridge
  | .ok bridge =>
    { s with
      state := .running s.bridges.length
      lock := none
      bridges := s.bridges ++ [(bridge, BridgeStatus.running)] }.finish t .start .ok
  | .error (.error e) => { s with state := .configured cfg, lock := none }.finish t .start (.bridgeError e)
  | .error (.panic _) => { s with poisoned := true, lock := none }.finish t .start .panic

variable (q : Quic)

def step : Act → Option PyBridge
  | .call t call =>
    match s.threads t, s.gil with
    | .idle, none => some { s.setPc t (.locking call) with gil := some t }
    | _, _ => none
  | .lock t =>
    match s.threads t, s.lock with
    | .locking call, none => some (if s.poisoned then s.finish t call .panic else s.locked t call)
    | _, _ => none
  | .startReturns t env =>
    match s.threads t with
    | .starting cfg => some (s.setPc t (.started cfg (cfg.start q env)))
    | _ => none
  | .joinEnds t timedOut =>
    match s.threads t with
    | .joining b timeout =>
      if timedOut then
        if timeout = .bounded then some (s.setPc t (.joined timeout .timedOut)) else none
      else if s.bridges[b]?.any (fun x => x.2 = .stopped) then some (s.setPc t (.joined timeout .ok)) else none
    | .dropping b =>
      if s.bridges[b]?.any (fun x => x.2 = .stopped) then some (s.finish t (.shutdown .invalid) .panic) else none
    | _ => none
  | .regain t =>
    match s.threads t, s.gil with
    | .started cfg result, none => some (s.afterStart t cfg result)
    | .joined timeout outcome, none => some (s.finish t (.shutdown timeout) outcome)
    | _, _ => none
  | .wake t interrupted =>
    match s.threads t, s.gil with
    | .sleeping, none =>
      some (if interrupted then s.finish t .wait .interrupted else { s.setPc t (.locking .wait) with gil := some t })
    | _, _ => none
  | .bridgeStops b => if s.bridges[b]?.any (fun x => x.2 = .stopping) then some (s.setStatus b .stopped) else none

end PyBridge

/-! ### What the threads hold -/

/-- The thread has the GIL. -/
def PyPc.HasGil : PyPc → Prop
  | .locking _ | .dropping _ => True
  | _ => False

/-- The thread has the mutex. -/
def PyPc.HasLock : PyPc → Prop
  | .starting _ | .started _ _ => True
  | _ => False

/-- The bridge that the thread knows has been started. -/
def PyPc.Late : PyPc → Prop
  | .joining _ _ | .joined _ _ | .dropping _ | .sleeping => True
  | _ => False

/-- The bridge that the thread has taken -/
def PyPc.taken : PyPc → Option Nat
  | .joining b _ | .dropping b => some b
  | _ => none

/-- The configuration with which the thread starts a bridge -/
def PyPc.config : PyPc → Option StartConfig
  | .starting cfg | .started cfg _ => some cfg
  | _ => none

/-- The call of the thread does not end in a panic. -/
def PyPc.Calm : PyPc → Prop
  | .locking (.shutdown .invalid) | .started _ (.error (.panic _)) | .joined _ .panic | .dropping _ => False
  | _ => True

/-- What a thread at `pc` tells about the handle -/
structure PyPc.Fits (cfg : StartConfig) (s : PyBridge) (t : Nat) (pc : PyPc) : Prop where
  gil : s.gil = some t ↔ pc.HasGil
  lock : s.lock = some t ↔ pc.HasLock
  late : pc.Late → s.bridges ≠ []
  taken : ∀ b, pc.taken = some b → ∃ x, s.bridges[b]? = some x ∧ x.2 ≠ .running
  config : ∀ cfg', pc.config = some cfg' → cfg' = cfg

namespace PyBridge

/-- The state goes with the bridges that have been started. -/
structure Sound (cfg : StartConfig) (s : PyBridge) : Prop where
  held : s.lock ≠ none → s.state = .transitioning ∧ s.poisoned = false ∧ s.bridges = []
  poisoned : s.poisoned = true → s.state = .transitioning ∧ s.bridges = []
  transitioning : s.state = .transitioning → s.lock ≠ none ∨ s.poisoned = true
  configured : ∀ cfg', s.state = .configured cfg' → cfg' = cfg ∧ s.bridges = []
  running : ∀ b, s.state = .running b → b = 0 ∧ ∃ bridge, s.bridges = [(bridge, .running)]
  shutdown : s.state = .shutdown → s.bridges.length ≤ 1 ∧ ∀ x ∈ s.bridges, x.2 ≠ .running

structure Inv (cfg : StartConfig) (s : PyBridge) : Prop where
  threads : ∀ t, (s.threads t).Fits cfg s t
  sound : s.Sound cfg

variable {q : Quic} {cfg : StartConfig} {s s' : PyBridge} {t : Nat} {pc : PyPc} {a : Act}

/-- The threads and the GIL do not matter for the state. -/
theorem Sound.of_eq (h : s.Sound cfg) (hstate : s'.state = s.state) (hlock : s'.lock = s.lock)
    (hpoisoned : s'.poisoned = s.poisoned) (hbridges : s'.bridges = s.bridges) : s'.Sound cfg := by
  refine ⟨?_, ?_, ?_, ?_, ?_, ?_⟩
  · rw [hlock, hstate, hpoisoned, hbridges]
    exact h.held
  · rw [hpoisoned, hstate, hbridges]
    exact h.poisoned
  · rw [hstate, hlock, hpoisoned]
    exact h.transitioning
  · rw [hstate, hbridges]
    exact h.configured
  · rw [hstate, hbridges]
    exact h.running
  · rw [hstate, hbridges]
    exact h.shutdown

/-- A bridge that is no longer running stays so. -/
def Leaves (s s' : PyBridge) : Prop :=
  (s.bridges ≠ [] → s'.bridges ≠ []) ∧ ∀ (b : Nat) (x : StartedBridge × BridgeStatus),
  s.bridges[b]? = some x → x.2 ≠ .running → ∃ x', s'.bridges[b]? = some x' ∧ x'.2 ≠ .running

theorem leaves_of_eq (h : s'.bridges = s.bridges) : Leaves s s' := by
  unfold Leaves
  rw [h]
  exact ⟨id, fun b x hx hne => ⟨x, hx, hne⟩⟩

theorem leaves_setStatus (b : Nat) {status : BridgeStatus} (hstatus : status ≠ .running)
    (h : s'.bridges = (s.setStatus b status).bridges) : Leaves s s' := by
  unfold Leaves
  rw [h, setStatus]
  refine ⟨fun hne hnil => hne ?_, fun b' x hx hne => ?_⟩
  · have hlen := congrArg List.length hnil
    rw [List.length_modify, List.length_nil] at hlen
    exact List.length_eq_zero_iff.1 hlen
  · rw [List.getElem?_modify, hx]
    by_cases hb : b = b'
    · exact ⟨(x.1, status), by simp [hb], hstatus⟩
    · exact ⟨x, by simp [hb], hne⟩

/-- What a thread tells stays true while it holds what it held. -/
theorem fits_mono (h : pc.Fits cfg s t) (hgil : s'.gil = some t ↔ s.gil = some t)
    (hlock : s'.lock = some t ↔ s.lock = some t)
    (hleaves : Leaves s s') : pc.Fits cfg s' t where
  gil := hgil.trans h.gil
  lock := hlock.trans h.lock
  late hlate := hleaves.1 (h.late hlate)
  taken b hb := by
    obtain ⟨x, hx, hne⟩ := h.taken b hb
    exact hleaves.2 b x hx hne
  config := h.config

/-- One thread goes on, and the others hold what they held. -/
theorem Inv.goto (h : s.Inv cfg) (pc : PyPc) (hthreads : s'.threads = Function.update s.threads t pc)
    (hpc : pc.Fits cfg s' t)
    (hgil : ∀ u ≠ t, (s'.gil = some u ↔ s.gil = some u)) (hlock : ∀ u ≠ t, (s'.lock = some u ↔ s.lock = some u))
    (hleaves : Leaves s s') (hsound : s'.Sound cfg) : s'.Inv cfg := by
  refine ⟨fun u => ?_, hsound⟩
  rw [hthreads]
  by_cases hu : u = t
  · rw [hu, Function.update_self]
    exact hpc
  · rw [Function.update_of_ne hu]
    exact fits_mono (h.threads u) (hgil u hu) (hlock u hu) hleaves

/-- A thread outside of the methods holds nothing. -/
theorem fits_idle (hgil : s.gil ≠ some t) (hlock : s.lock ≠ some t) : PyPc.idle.Fits cfg s t where
  gil := iff_of_false hgil id
  lock := iff_of_false hlock id
  late := False.elim
  taken := nofun
  config := nofun

theorem inv_create : (create cfg).Inv cfg where
  threads t := fits_idle nofun nofun
  sound := by
    refine ⟨fun h => absurd rfl h, fun h => ?_, fun h => ?_, fun cfg' h => ?_, fun b h => ?_, fun h => ?_⟩
    · cases h
    · cases h
    · cases h
      exact ⟨rfl, rfl⟩
    · cases h
    · cases h

theorem holder_iff {u : Nat} (hu : u ≠ t) {o o' : Option Nat} (ho : o = none ∨ o = some t)
    (ho' : o' = none ∨ o' = some t) :
    o = some u ↔ o' = some u := by
  have hno {o : Option Nat} (ho : o = none ∨ o = some t) : o ≠ some u := by
    rintro rfl
    rcases ho with h | h
    · cases h
    · exact hu (Option.some.inj h)
  exact iff_of_false (hno ho) (hno ho')

/-- The call of the thread is over. -/
theorem Inv.finish {call : PyCall} {outcome : PyOutcome} (h : s.Inv cfg) (hthreads : s'.threads = s.threads)
    (hgil : s.gil = none ∨ s.gil = some t) (hlock : s'.lock = none) (hlock' : s.lock = none ∨ s.lock = some t)
    (hleaves : Leaves s s') (hsound : s'.Sound cfg) : (s'.finish t call outcome).Inv cfg := by
  refine h.goto (t := t) .idle ?_ (fits_idle nofun ?_) (fun u hu => holder_iff hu (.inl rfl) hgil)
    (fun u hu => holder_iff hu (.inl hlock) hlock') hleaves
    (hsound.of_eq rfl rfl rfl rfl)
  · rw [← hthreads]
    rfl
  · change s'.lock ≠ some t
    rw [hlock]
    exact nofun

/-- A bridge that has been taken belongs to a handle that is shut down. -/
theorem Sound.shutdown_of_taken (h : s.Sound cfg) {b : Nat} {x : StartedBridge × BridgeStatus}
    (hx : s.bridges[b]? = some x)
    (hne : x.2 ≠ .running) : s.state = .shutdown ∧ s.lock = none ∧ s.poisoned = false := by
  have hsome : s.bridges ≠ [] := by
    intro hnil
    rw [hnil] at hx
    cases hx
  have hfree : s.lock = none := by
    by_contra hlock
    exact hsome (h.held hlock).2.2
  have hclean : s.poisoned = false := Bool.eq_false_iff.2 fun hpoisoned => hsome (h.poisoned hpoisoned).2
  refine ⟨?_, hfree, hclean⟩
  cases hstate : s.state with
  | configured cfg' => exact absurd (h.configured cfg' hstate).2 hsome
  | running b' =>
    obtain ⟨-, bridge, hbridges⟩ := h.running b' hstate
    rw [hbridges] at hx
    rw [List.mem_singleton.1 (List.mem_of_getElem? hx)] at hne
    exact absurd rfl hne
  | shutdown => rfl
  | transitioning =>
    rcases h.transitioning hstate with hlock | hpoisoned
    · exact absurd hfree hlock
    · rw [hclean] at hpoisoned
      cases hpoisoned

theorem Sound.free_of_some (h : s.Sound cfg) (hsome : s.bridges ≠ []) : s.lock = none := by
  by_contra hlock
  exact hsome (h.held hlock).2.2

theorem Sound.of_shutdown (hstate : s.state = .shutdown) (hfree : s.lock = none) (hclean : s.poisoned = false)
    (hlen : s.bridges.length ≤ 1) (hall : ∀ x ∈ s.bridges, x.2 ≠ .running) : s.Sound cfg := by
  refine ⟨fun h => absurd hfree h, fun h => ?_, fun h => ?_, fun cfg' h => ?_, fun b h => ?_, fun _ => ⟨hlen, hall⟩⟩
  · rw [hclean] at h
    cases h
  · rw [hstate] at h
    cases h
  · rw [hstate] at h
    cases h
  · rw [hstate] at h
    cases h

theorem Inv.lock (h : s.Inv cfg) {call : PyCall} (hpc : s.threads t = .locking call) (hfree : s.lock = none)
    (hclean : s.poisoned = false) : (s.locked t call).Inv cfg := by
  have hgil : s.gil = some t := (h.threads t).gil.2 (by rw [hpc]; trivial)
  have hsame : Leaves s s := leaves_of_eq rfl
  have hback {call : PyCall} {outcome : PyOutcome} : (s.finish t call outcome).Inv cfg :=
    h.finish rfl (.inr hgil) hfree (.inl hfree) hsame h.sound
  have hmoving : s.state ≠ .transitioning := by
    intro hstate
    rcases h.sound.transitioning hstate with hlock | hpoisoned
    · exact hlock hfree
    · rw [hclean] at hpoisoned
      cases hpoisoned
  cases call with
  | start =>
    unfold locked
    cases hstate : s.state with
    | configured cfg' =>
      obtain ⟨rfl, hnil⟩ := h.sound.configured cfg' hstate
      refine h.goto (.starting cfg') rfl ?_ (fun u hu => holder_iff hu (.inl rfl) (.inr hgil))
        (fun u hu => holder_iff hu (.inr rfl) (.inl hfree)) (leaves_of_eq rfl) ?_
      · refine ⟨iff_of_false nofun id, iff_of_true rfl trivial, False.elim, nofun, fun cfg'' heq => ?_⟩
        exact (Option.some.inj heq).symm
      · refine ⟨fun _ => ⟨rfl, hclean, hnil⟩, fun hpoisoned => ?_, fun _ => .inl nofun, nofun, nofun, nofun⟩
        exact absurd (hclean.symm.trans hpoisoned) Bool.false_ne_true
    | running b => exact hback
    | shutdown => exact hback
    | transitioning => exact absurd hstate hmoving
  | shutdown timeout =>
    unfold locked
    cases hstate : s.state with
    | configured cfg' =>
      have hnil := (h.sound.configured cfg' hstate).2
      refine h.finish rfl (.inr hgil) hfree (.inl hfree) (leaves_of_eq rfl) (.of_shutdown rfl hfree hclean ?_ ?_)
      · exact Nat.le_of_lt (hnil ▸ Nat.zero_lt_one)
      · intro x hx
        have hx' : x ∈ s.bridges := hx
        rw [hnil] at hx'
        cases hx'
    | running b =>
      obtain ⟨rfl, bridge, hbridges⟩ := h.sound.running b hstate
      have htaken : ({ s with state := .shutdown } : PyBridge).setStatus 0 .stopping =
          { s with state := .shutdown, bridges := [(bridge, .stopping)] } := by
        rw [setStatus, hbridges]
        rfl
      have hleaves : Leaves s { s with state := .shutdown, bridges := [(bridge, .stopping)] } :=
        leaves_setStatus 0 (nofun : BridgeStatus.stopping ≠ .running) (congrArg bridges htaken).symm
      have hsound : Sound cfg { s with state := .shutdown, bridges := [(bridge, .stopping)] } := by
        refine .of_shutdown rfl hfree hclean (Nat.le_refl 1) fun x hx => ?_
        rw [List.mem_singleton.1 hx]
        exact nofun
      have htaken' (b : Nat) (hb : b = 0) : ∃ x, [(bridge, BridgeStatus.stopping)][b]? = some x ∧ x.2 ≠ .running := by
        subst hb
        exact ⟨(bridge, .stopping), rfl, nofun⟩
      have hno : s.lock ≠ some t := by
        rw [hfree]
        exact nofun
      dsimp only
      rw [htaken]
      split
      · refine h.goto (.dropping 0) rfl ?_ (fun u hu => Iff.rfl) (fun u hu => Iff.rfl) hleaves
          (hsound.of_eq rfl rfl rfl rfl)
        exact ⟨iff_of_true hgil trivial, iff_of_false hno id, fun _ => nofun,
          fun b hb => htaken' b (Option.some.inj hb).symm, nofun⟩
      · refine h.goto (.joining 0 timeout) rfl ?_ (fun u hu => holder_iff hu (.inl rfl) (.inr hgil)) (fun u hu => Iff.rfl)
          hleaves (hsound.of_eq rfl rfl rfl rfl)
        exact ⟨iff_of_false nofun id, iff_of_false hno id, fun _ => nofun,
          fun b hb => htaken' b (Option.some.inj hb).symm, nofun⟩
    | shutdown =>
      obtain ⟨hlen, hall⟩ := h.sound.shutdown hstate
      exact h.finish rfl (.inr hgil) hfree (.inl hfree) (leaves_of_eq rfl) (.of_shutdown rfl hfree hclean hlen hall)
    | transitioning => exact absurd hstate hmoving
  | wait =>
    unfold locked
    cases hstate : s.state with
    | running b =>
      obtain ⟨-, bridge, hbridges⟩ := h.sound.running b hstate
      refine h.goto .sleeping rfl ?_ (fun u hu => holder_iff hu (.inl rfl) (.inr hgil)) (fun u hu => Iff.rfl)
        (leaves_of_eq rfl) (h.sound.of_eq rfl rfl rfl rfl)
      refine ⟨iff_of_false nofun id, iff_of_false ?_ id, fun _ hnil => ?_, nofun, nofun⟩
      · change s.lock ≠ some t
        rw [hfree]
        exact nofun
      · have hnil' : s.bridges = [] := hnil
        rw [hbridges] at hnil'
        cases hnil'
    | configured cfg' | shutdown | transitioning => exact hback
  | isRunning | originId =>
    unfold locked
    cases hstate : s.state with
    | configured cfg' | running b | shutdown | transitioning => exact hback

theorem Inv.afterStart (h : s.Inv cfg) {cfg' : StartConfig} {result : Except Stop StartedBridge}
    (hpc : s.threads t = .started cfg' result) (hgil : s.gil = none) : (s.afterStart t cfg' result).Inv cfg := by
  have hlock : s.lock = some t := (h.threads t).lock.2 (by rw [hpc]; trivial)
  have hcfg : cfg' = cfg := (h.threads t).config cfg' (by rw [hpc]; rfl)
  obtain ⟨hstate, hclean, hnil⟩ := h.sound.held (by rw [hlock]; exact nofun)
  unfold PyBridge.afterStart
  split
  · rename_i bridge
    refine h.finish rfl (.inl hgil) rfl (.inr hlock) ⟨fun hne => absurd hnil hne, fun b x hx => ?_⟩ ?_
    · rw [hnil] at hx
      cases hx
    · rw [hnil]
      refine ⟨nofun, fun hpoisoned => ?_, nofun, nofun, fun b hb => ?_, nofun⟩
      · exact absurd (hclean.symm.trans hpoisoned) Bool.false_ne_true
      · cases hb
        exact ⟨rfl, bridge, rfl⟩
  · refine h.finish rfl (.inl hgil) rfl (.inr hlock) (leaves_of_eq rfl) ?_
    refine ⟨nofun, fun hpoisoned => ?_, nofun, fun cfg'' hb => ?_, nofun, nofun⟩
    · exact absurd (hclean.symm.trans hpoisoned) Bool.false_ne_true
    · cases hb
      exact ⟨hcfg, hnil⟩
  · refine h.finish rfl (.inl hgil) rfl (.inr hlock) (leaves_of_eq rfl) ?_
    refine ⟨nofun, fun _ => ⟨hstate, hnil⟩, fun _ => .inr rfl, fun cfg'' hb => ?_, fun b hb => ?_, fun hb => ?_⟩
    · exact absurd (hstate.symm.trans hb) nofun
    · exact absurd (hstate.symm.trans hb) nofun
    · exact absurd (hstate.symm.trans hb) nofun

theorem Inv.step (h : s.Inv cfg) (hs : s.step q a = some s') : s'.Inv cfg := by
  cases a with
  | call t call =>
    simp only [PyBridge.step] at hs
    split at hs
    · rename_i hpc hgil
      cases hs
      have hidle := h.threads t
      rw [hpc] at hidle
      refine h.goto (.locking call) rfl ?_ (fun u hu => holder_iff hu (.inr rfl) (.inl hgil)) (fun u hu => Iff.rfl)
        (leaves_of_eq rfl) (h.sound.of_eq rfl rfl rfl rfl)
      exact ⟨iff_of_true rfl trivial, hidle.lock, False.elim, nofun, nofun⟩
    · cases hs
  | lock t =>
    simp only [PyBridge.step] at hs
    split at hs
    · rename_i call hpc hfree
      cases hs
      split
      · have hgil : s.gil = some t := (h.threads t).gil.2 (by rw [hpc]; trivial)
        exact h.finish rfl (.inr hgil) hfree (.inl hfree) (leaves_of_eq rfl) h.sound
      · rename_i hclean
        exact h.lock hpc hfree (Bool.eq_false_iff.2 hclean)
    · cases hs
  | startReturns t env =>
    simp only [PyBridge.step] at hs
    split at hs
    · rename_i cfg' hpc
      cases hs
      have hstarting := h.threads t
      rw [hpc] at hstarting
      refine h.goto (.started cfg' (cfg'.start q env)) rfl ?_ (fun u hu => Iff.rfl) (fun u hu => Iff.rfl)
        (leaves_of_eq rfl) (h.sound.of_eq rfl rfl rfl rfl)
      exact ⟨hstarting.gil, hstarting.lock, False.elim, nofun, hstarting.config⟩
    · cases hs
  | joinEnds t timedOut =>
    have hjoined {b : Nat} {timeout : Timeout} {outcome : PyOutcome} (hpc : s.threads t = .joining b timeout) :
        (s.setPc t (.joined timeout outcome)).Inv cfg := by
      have hjoining := h.threads t
      rw [hpc] at hjoining
      refine h.goto _ rfl ?_ (fun u hu => Iff.rfl) (fun u hu => Iff.rfl) (leaves_of_eq rfl) (h.sound.of_eq rfl rfl rfl rfl)
      exact ⟨hjoining.gil, hjoining.lock, hjoining.late, nofun, nofun⟩
    simp only [PyBridge.step] at hs
    split at hs
    · rename_i b timeout hpc
      split at hs
      · split at hs
        · cases hs
          exact hjoined hpc
        · cases hs
      · split at hs
        · cases hs
          exact hjoined hpc
        · cases hs
    · rename_i b hpc
      split at hs
      · cases hs
        have hgil : s.gil = some t := (h.threads t).gil.2 (by rw [hpc]; trivial)
        have hfree := h.sound.free_of_some ((h.threads t).late (by rw [hpc]; trivial))
        exact h.finish rfl (.inr hgil) hfree (.inl hfree) (leaves_of_eq rfl) h.sound
      · cases hs
    · cases hs
  | regain t =>
    simp only [PyBridge.step] at hs
    split at hs
    · rename_i cfg' result hpc hgil
      cases hs
      exact h.afterStart hpc hgil
    · rename_i timeout outcome hpc hgil
      cases hs
      have hfree := h.sound.free_of_some ((h.threads t).late (by rw [hpc]; trivial))
      exact h.finish rfl (.inl hgil) hfree (.inl hfree) (leaves_of_eq rfl) h.sound
    · cases hs
  | wake t interrupted =>
    simp only [PyBridge.step] at hs
    split at hs
    · rename_i hpc hgil
      cases hs
      have hsleeping := h.threads t
      rw [hpc] at hsleeping
      have hfree := h.sound.free_of_some (hsleeping.late trivial)
      split
      · exact h.finish rfl (.inl hgil) hfree (.inl hfree) (leaves_of_eq rfl) h.sound
      · refine h.goto (.locking .wait) rfl ?_ (fun u hu => holder_iff hu (.inr rfl) (.inl hgil)) (fun u hu => Iff.rfl)
          (leaves_of_eq rfl) (h.sound.of_eq rfl rfl rfl rfl)
        exact ⟨iff_of_true rfl trivial, hsleeping.lock, False.elim, nofun, nofun⟩
    · cases hs
  | bridgeStops b =>
    simp only [PyBridge.step] at hs
    split at hs
    · rename_i hany
      cases hs
      obtain ⟨x, hx, hstopping⟩ := (Option.any_eq_true ..).1 hany
      have hne : x.2 ≠ .running := by
        rw [of_decide_eq_true hstopping]
        exact nofun
      obtain ⟨hstate, hfree, hclean⟩ := h.sound.shutdown_of_taken hx hne
      obtain ⟨hlen, hall⟩ := h.sound.shutdown hstate
      have hleaves : Leaves s (s.setStatus b .stopped) := leaves_setStatus b (nofun : BridgeStatus.stopped ≠ .running) rfl
      refine ⟨fun u => fits_mono (h.threads u) Iff.rfl Iff.rfl hleaves, .of_shutdown hstate hfree hclean ?_ fun y hy => ?_⟩
      · exact (List.length_modify ..).trans_le hlen
      · obtain ⟨n, hn⟩ := List.mem_iff_getElem?.1 hy
        rw [setStatus, List.getElem?_modify] at hn
        obtain ⟨z, hz, rfl⟩ := Option.map_eq_some_iff.1 hn
        split
        · exact nofun
        · exact hall z (List.mem_of_getElem? hz)
    · cases hs

theorem inv_run {acts : List Act} (hr : run (step · q) (create cfg) acts = some s) : s.Inv cfg :=
  run_invariant (Inv cfg) (fun _ _ _ => Inv.step) inv_create hr

/-! ### Two threads that wait for each other -/

/-- A thread with the mutex waits for the GIL, now or after `Bridge::start`, and one with the GIL for the mutex. -/
def Stuck (s : PyBridge) : Prop := s.lock ≠ none ∧ s.gil ≠ none

/-- No call begins while a `start` has the mutex. -/
def Undisturbed (s : PyBridge) : Act → Prop
  | .call _ _ => s.lock = none
  | _ => True

def Act.isCall : Act → Bool
  | .call _ _ => true
  | _ => false

/-- What is stuck stays so, and no call ends any more. -/
theorem Inv.stuck_step (h : s.Inv cfg) (hstuck : s.Stuck) (hs : s.step q a = some s') :
    s'.Stuck ∧ s'.ended = s.ended := by
  obtain ⟨hlock, hgil⟩ := hstuck
  have hnil := (h.sound.held hlock).2.2
  cases a with
  | call t call =>
    simp only [PyBridge.step] at hs
    split at hs
    · rename_i hpc hfree
      exact absurd hfree hgil
    · cases hs
  | lock t =>
    simp only [PyBridge.step] at hs
    split at hs
    · rename_i call hpc hfree
      exact absurd hfree hlock
    · cases hs
  | startReturns t env =>
    simp only [PyBridge.step] at hs
    split at hs
    · cases hs
      exact ⟨⟨hlock, hgil⟩, rfl⟩
    · cases hs
  | joinEnds t timedOut =>
    have hlate : ¬(s.threads t).Late := fun hlate => (h.threads t).late hlate hnil
    simp only [PyBridge.step] at hs
    split at hs
    · rename_i b timeout hpc
      exact absurd (by rw [hpc]; trivial) hlate
    · rename_i b hpc
      exact absurd (by rw [hpc]; trivial) hlate
    · cases hs
  | regain t =>
    simp only [PyBridge.step] at hs
    split at hs
    · rename_i cfg' result hpc hfree
      exact absurd hfree hgil
    · rename_i timeout outcome hpc hfree
      exact absurd hfree hgil
    · cases hs
  | wake t interrupted =>
    simp only [PyBridge.step] at hs
    split at hs
    · rename_i hpc hfree
      exact absurd hfree hgil
    · cases hs
  | bridgeStops b =>
    simp only [PyBridge.step] at hs
    rw [hnil] at hs
    cases hs

theorem not_stuck_iff : ¬s.Stuck ↔ s.lock = none ∨ s.gil = none := by
  rw [Stuck, not_and_or, not_not, not_not]

theorem locked_free {call : PyCall} (hfree : s.lock = none) :
    (s.locked t call).lock = none ∨ (s.locked t call).gil = none := by
  cases call with
  | start =>
    unfold locked
    cases hstate : s.state with
    | configured cfg' | running b | shutdown | transitioning => exact .inr rfl
  | shutdown timeout =>
    unfold locked
    cases hstate : s.state with
    | running b =>
      dsimp only
      split
      · exact .inl hfree
      · exact .inr rfl
    | configured cfg' | shutdown | transitioning => exact .inr rfl
  | wait | isRunning | originId =>
    unfold locked
    cases hstate : s.state with
    | configured cfg' | running b | shutdown | transitioning => exact .inr rfl

theorem afterStart_free {cfg' : StartConfig} {result : Except Stop StartedBridge} :
    (s.afterStart t cfg' result).gil = none := by
  unfold PyBridge.afterStart
  split <;> rfl

theorem Inv.stuck_iff (h : s.Inv cfg) (hno : ¬s.Stuck) (hs : s.step q a = some s') :
    s'.Inv cfg ∧ (¬s'.Stuck ↔ s.Undisturbed a) := by
  refine ⟨h.step hs, ?_⟩
  rw [not_stuck_iff] at hno ⊢
  cases a with
  | call t call =>
    simp only [PyBridge.step] at hs
    split at hs
    · cases hs
      exact ⟨fun hfree => hfree.resolve_right nofun, Or.inl⟩
    · cases hs
  | lock t =>
    simp only [PyBridge.step] at hs
    split at hs
    · rename_i call hpc hfree
      cases hs
      refine iff_of_true ?_ trivial
      split
      · exact .inr rfl
      · exact locked_free hfree
    · cases hs
  | startReturns t env =>
    simp only [PyBridge.step] at hs
    split at hs
    · cases hs
      exact iff_of_true hno trivial
    · cases hs
  | joinEnds t timedOut =>
    refine iff_of_true ?_ trivial
    simp only [PyBridge.step] at hs
    split at hs
    · split at hs
      · split at hs
        · cases hs
          exact hno
        · cases hs
      · split at hs
        · cases hs
          exact hno
        · cases hs
    · split at hs
      · cases hs
        exact .inr rfl
      · cases hs
    · cases hs
  | regain t =>
    refine iff_of_true (.inr ?_) trivial
    simp only [PyBridge.step] at hs
    split at hs
    · cases hs
      exact afterStart_free
    · cases hs
      rfl
    · cases hs
  | wake t interrupted =>
    refine iff_of_true ?_ trivial
    simp only [PyBridge.step] at hs
    split at hs
    · rename_i hpc hgil
      cases hs
      split
      · exact .inr rfl
      · exact .inl (h.sound.free_of_some ((h.threads t).late (by rw [hpc]; trivial)))
    · cases hs
  | bridgeStops b =>
    simp only [PyBridge.step] at hs
    split at hs
    · cases hs
      exact iff_of_true hno trivial
    · cases hs

/-! ### How calls end -/

/-- A state that is reached without a further call -/
def Leads (q : Quic) (s s' : PyBridge) : Prop :=
  ∃ acts : List Act, (∀ a ∈ acts, a.isCall = false) ∧ run (step · q) s acts = some s'

theorem Leads.refl (q : Quic) (s : PyBridge) : Leads q s s := ⟨[], nofun, rfl⟩

theorem leads_step (ha : a.isCall = false) (hs : s.step q a = some s') : Leads q s s' := by
  refine ⟨[a], fun b hb => ?_, run_cons.2 ⟨s', hs, rfl⟩⟩
  rw [List.mem_singleton.1 hb]
  exact ha

theorem Leads.trans {s'' : PyBridge} (h : Leads q s s') (h' : Leads q s' s'') : Leads q s s'' := by
  obtain ⟨acts, hcalls, hrun⟩ := h
  obtain ⟨acts', hcalls', hrun'⟩ := h'
  refine ⟨acts ++ acts', fun a ha => ?_, run_append.2 ⟨s', hrun, hrun'⟩⟩
  exact (List.mem_append.1 ha).elim (hcalls a) (hcalls' a)

theorem Inv.leads (h : s.Inv cfg) (hleads : Leads q s s') : s'.Inv cfg := by
  obtain ⟨acts, -, hrun⟩ := hleads
  exact run_invariant (Inv cfg) (fun _ _ _ => Inv.step) h hrun

/-- A bridge that has been taken stops. -/
theorem leads_stopped {b : Nat} {x : StartedBridge × BridgeStatus} (hx : s.bridges[b]? = some x) (hne : x.2 ≠ .running) :
    ∃ s', Leads q s s' ∧ s'.threads = s.threads ∧ s'.gil = s.gil ∧
      s'.bridges[b]?.any (fun x => x.2 = .stopped) = true := by
  obtain ⟨bridge, status⟩ := x
  cases status with
  | running => exact absurd rfl hne
  | stopping =>
    refine ⟨s.setStatus b .stopped, leads_step (a := .bridgeStops b) rfl ?_, rfl, rfl, ?_⟩
    · simp only [step, hx, Option.any_some, decide_true, if_true]
    · rw [setStatus, List.getElem?_modify, hx]
      simp
  | stopped => exact ⟨s, .refl q s, rfl, rfl, by rw [hx]; rfl⟩

theorem afterStart_threads {cfg' : StartConfig} {result : Except Stop StartedBridge} :
    (s.afterStart t cfg' result).threads = Function.update s.threads t .idle := by
  unfold PyBridge.afterStart
  split <;> rfl

/-- A thread with the mutex and the result of `Bridge::start` ends its call. -/
theorem leads_afterStart {cfg' : StartConfig} {result : Except Stop StartedBridge}
    (hpc : s.threads t = .started cfg' result)
    (hgil : s.gil = none) : Leads q s (s.afterStart t cfg' result) := by
  refine leads_step (a := .regain t) rfl ?_
  rw [step, hpc, hgil]

theorem leads_joined {timeout : Timeout} {outcome : PyOutcome} (hpc : s.threads t = .joined timeout outcome)
    (hgil : s.gil = none) : Leads q s (s.finish t (.shutdown timeout) outcome) := by
  refine leads_step (a := .regain t) rfl ?_
  rw [step, hpc, hgil]

/-- A thread that waits neither for the mutex nor for a thread with the GIL can end its call. -/
theorem Inv.leads_idle (q : Quic) (h : s.Inv cfg) (hpc : ∀ call, s.threads t ≠ .locking call)
    (hgil : s.gil = none ∨ s.gil = some t) :
    ∃ s', Leads q s s' ∧ s'.threads = Function.update s.threads t .idle ∧ (s.gil = some t → s'.gil = none) := by
  have hthread := h.threads t
  have hfree (hno : ¬(s.threads t).HasGil) : s.gil = none :=
    hgil.resolve_right fun hsome => hno (hthread.gil.1 hsome)
  cases hnow : s.threads t with
  | idle =>
    rw [hnow] at hthread
    refine ⟨s, .refl q s, ?_, fun hsome => (hthread.gil.1 hsome).elim⟩
    rw [← hnow, Function.update_eq_self]
  | locking call => exact absurd hnow (hpc call)
  | starting cfg' =>
    have hnone := hfree (by rw [hnow]; exact id)
    have hstep : s.step q (.startReturns t {}) = some (s.setPc t (.started cfg' (cfg'.start q {}))) := by
      rw [PyBridge.step, hnow]
    refine ⟨_, (leads_step rfl hstep).trans (leads_afterStart (Function.update_self ..) hnone), ?_, fun _ => afterStart_free⟩
    rw [afterStart_threads, setPc, Function.update_idem]
  | started cfg' result =>
    have hnone := hfree (by rw [hnow]; exact id)
    exact ⟨_, leads_afterStart hnow hnone, afterStart_threads, fun _ => afterStart_free⟩
  | joining b timeout =>
    have hnone := hfree (by rw [hnow]; exact id)
    obtain ⟨x, hx, hne⟩ := hthread.taken b (by rw [hnow]; rfl)
    obtain ⟨s₁, hleads, hthreads, hgil₁, hstopped⟩ := leads_stopped (q := q) hx hne
    have hstep : s₁.step q (.joinEnds t false) = some (s₁.setPc t (.joined timeout .ok)) := by
      rw [PyBridge.step, hthreads, hnow]
      exact if_pos hstopped
    refine ⟨_, (hleads.trans (leads_step rfl hstep)).trans (leads_joined (Function.update_self ..) (hgil₁.trans hnone)), ?_,
      fun _ => rfl⟩
    rw [PyBridge.finish, allowThreads, setPc, setPc, hthreads, Function.update_idem]
  | joined timeout outcome =>
    have hnone := hfree (by rw [hnow]; exact id)
    exact ⟨_, leads_joined hnow hnone, rfl, fun _ => rfl⟩
  | dropping b =>
    obtain ⟨x, hx, hne⟩ := hthread.taken b (by rw [hnow]; rfl)
    obtain ⟨s₁, hleads, hthreads, -, hstopped⟩ := leads_stopped (q := q) hx hne
    have hstep : s₁.step q (.joinEnds t false) = some (s₁.finish t (.shutdown .invalid) .panic) := by
      rw [PyBridge.step, hthreads, hnow]
      exact if_pos hstopped
    refine ⟨_, hleads.trans (leads_step rfl hstep), ?_, fun _ => rfl⟩
    rw [PyBridge.finish, allowThreads, setPc, hthreads]
  | sleeping =>
    have hnone := hfree (by rw [hnow]; exact id)
    refine ⟨s.finish t .wait .interrupted, leads_step (a := .wake t true) rfl ?_, rfl, fun _ => rfl⟩
    rw [PyBridge.step, hnow, hnone]
    rfl

/-- What a method does with the mutex leaves the other threads alone. -/
theorem locked_threads (s : PyBridge) (t : Nat) (call : PyCall) :
    ∃ pc, (s.locked t call).threads = Function.update s.threads t pc ∧
    (∀ call, pc ≠ .locking call) ∧ ((s.locked t call).gil = none ∨ (s.locked t call).gil = s.gil) := by
  have hidle : ∀ call, PyPc.idle ≠ .locking call := nofun
  cases call with
  | start =>
    unfold locked
    cases hstate : s.state with
    | configured cfg' => exact ⟨.starting cfg', rfl, nofun, .inl rfl⟩
    | running b | shutdown | transitioning => exact ⟨.idle, rfl, hidle, .inl rfl⟩
  | shutdown timeout =>
    unfold locked
    cases hstate : s.state with
    | running b =>
      dsimp only
      split
      · exact ⟨.dropping b, rfl, nofun, .inr rfl⟩
      · exact ⟨.joining b timeout, rfl, nofun, .inl rfl⟩
    | configured cfg' | shutdown | transitioning => exact ⟨.idle, rfl, hidle, .inl rfl⟩
  | wait =>
    unfold locked
    cases hstate : s.state with
    | running b => exact ⟨.sleeping, rfl, nofun, .inl rfl⟩
    | configured cfg' | shutdown | transitioning => exact ⟨.idle, rfl, hidle, .inl rfl⟩
  | isRunning | originId =>
    unfold locked
    cases hstate : s.state with
    | configured cfg' | running b | shutdown | transitioning => exact ⟨.idle, rfl, hidle, .inl rfl⟩

/-- A thread with the GIL ends its call or its part of it, if the mutex is free. -/
theorem Inv.leads_free (q : Quic) (h : s.Inv cfg) (hfree : s.lock = none) (hgil : s.gil = some t) :
    ∃ s', Leads q s s' ∧ s'.gil = none ∧ ∃ pc, s'.threads = Function.update s.threads t pc ∧ ∀ call, pc ≠ .locking call := by
  cases hnow : s.threads t with
  | locking call =>
    obtain ⟨s₁, pc, hstep, hthreads, hpc, hgil₁⟩ : ∃ s₁ pc, s.step q (.lock t) = some s₁ ∧
        s₁.threads = Function.update s.threads t pc ∧ (∀ call, pc ≠ .locking call) ∧ (s₁.gil = none ∨ s₁.gil = s.gil) := by
      rw [PyBridge.step, hnow, hfree]
      by_cases hpoisoned : s.poisoned = true
      · exact ⟨s.finish t call .panic, .idle, congrArg some (if_pos hpoisoned), rfl, nofun, .inl rfl⟩
      · obtain ⟨pc, hpc⟩ := locked_threads s t call
        exact ⟨s.locked t call, pc, congrArg some (if_neg hpoisoned), hpc⟩
    rcases hgil₁ with hnone | hsame
    · exact ⟨s₁, leads_step rfl hstep, hnone, pc, hthreads, hpc⟩
    · have hkept : s₁.gil = some t := hsame.trans hgil
      obtain ⟨s₂, hleads, hthreads₂, hnone⟩ := (h.step hstep).leads_idle q (t := t)
        (fun call => by rw [hthreads, Function.update_self]; exact hpc call) (.inr hkept)
      refine ⟨s₂, (leads_step rfl hstep).trans hleads, hnone hkept, .idle, ?_, nofun⟩
      rw [hthreads₂, hthreads, Function.update_idem]
  | idle | starting cfg' | started cfg' result | joining b timeout | joined timeout outcome | dropping b | sleeping =>
    obtain ⟨s₁, hleads, hthreads, hnone⟩ := h.leads_idle q (t := t) (by rw [hnow]; exact nofun) (.inr hgil)
    exact ⟨s₁, hleads, hnone hgil, .idle, hthreads, nofun⟩

/-- Every call can end if not two threads wait for each other. -/
theorem Inv.can_end (q : Quic) (h : s.Inv cfg) (hno : ¬s.Stuck) (t : Nat) :
    ∃ s', Leads q s s' ∧ s'.threads t = .idle := by
  cases hgil : s.gil with
  | none =>
    have hpc : ∀ call, s.threads t ≠ .locking call := by
      intro call hpc
      have hheld := (h.threads t).gil.2 (by rw [hpc]; trivial)
      rw [hgil] at hheld
      cases hheld
    obtain ⟨s', hleads, hthreads, -⟩ := h.leads_idle q hpc (.inl hgil)
    exact ⟨s', hleads, by rw [hthreads, Function.update_self]⟩
  | some u =>
    have hfree : s.lock = none := (not_stuck_iff.1 hno).resolve_right (by rw [hgil]; exact nofun)
    obtain ⟨s₁, hleads, hnone, pc, hthreads, hpc⟩ := h.leads_free q hfree hgil
    have hinv := h.leads hleads
    have hpc₁ : ∀ call, s₁.threads t ≠ .locking call := by
      intro call hlocking
      have hheld := (hinv.threads t).gil.2 (by rw [hlocking]; trivial)
      rw [hnone] at hheld
      cases hheld
    obtain ⟨s₂, hleads₂, hthreads₂, -⟩ := hinv.leads_idle q hpc₁ (.inl hnone)
    exact ⟨s₂, hleads.trans hleads₂, by rw [hthreads₂, Function.update_self]⟩

/-- In a run two threads wait for each other if and only if a call begins while a `start` has the mutex; then no call
ends any more.  Otherwise every call can end, without a further call. -/
theorem deadlock_iff {acts : List Act} (hr : run (step · q) (create cfg) acts = some s) :
    (s.Stuck ↔ ¬Meets (step · q) Undisturbed (create cfg) acts) ∧
    (s.Stuck → ∀ acts' s', run (step · q) s acts' = some s' → s'.ended = s.ended) ∧
    (¬s.Stuck → ∀ t, ∃ s', Leads q s s' ∧ s'.threads t = .idle) := by
  have hI := inv_run hr
  have hforever {acts' : List Act} {s' : PyBridge} {s : PyBridge} (hI : s.Inv cfg) (hstuck : s.Stuck)
      (hr' : run (step · q) s acts' = some s') : s'.Stuck ∧ s'.ended = s.ended := by
    obtain ⟨-, hend⟩ : s'.Inv cfg ∧ s'.Stuck ∧ s'.ended = s.ended := by
      refine run_invariant (fun s' => s'.Inv cfg ∧ s'.Stuck ∧ s'.ended = s.ended) (fun s₁ a s₂ h hs => ?_) ⟨hI, hstuck, rfl⟩ hr'
      obtain ⟨hstuck', hended⟩ := h.1.stuck_step h.2.1 hs
      exact ⟨h.1.step hs, hstuck', hended.trans h.2.2⟩
    exact hend
  refine ⟨?_, fun hstuck acts' s' hr' => (hforever hI hstuck hr').2, fun hno t => hI.can_end q hno t⟩
  have halways := always_iff (Inv cfg) (fun s => ¬s.Stuck) Undisturbed (fun _ _ _ h hno hs => h.stuck_iff hno hs)
    inv_create (fun hstuck => hstuck.1 rfl) hr
  rw [← halways]
  constructor
  · exact fun hstuck hall => hall acts [] s (List.append_nil _).symm hr hstuck
  · intro hnot
    by_contra hno
    refine hnot fun bs cs s₁ heq hbs hstuck => hno ?_
    subst heq
    obtain ⟨s₂, hbs', hcs⟩ := run_append.1 hr
    obtain rfl : s₁ = s₂ := Option.some.inj (hbs.symm.trans hbs')
    exact (hforever (inv_run hbs) hstuck hcs).1

/-- One thread starts the bridge, and another one asks whether it is running before it does. -/
def askedMeanwhile : List Act := [.call 0 .start, .lock 0, .call 1 .isRunning]

theorem deadlock_iff_askedMeanwhile :
    ∃ s, run (step · sampleQuic) (create (dialing "10.0.0.2:4443" 4096)) askedMeanwhile = some s ∧ s.Stuck ∧
      ∀ acts' s', run (step · sampleQuic) s acts' = some s' → s'.ended = [] := by
  obtain ⟨s, hr, hs⟩ := Option.map_eq_some_iff.1 (show (run (step · sampleQuic)
    (create (dialing "10.0.0.2:4443" 4096)) askedMeanwhile).map (fun s => (s.lock, s.gil, s.ended.length)) =
      some (some 0, some 1, 0) by decide +kernel)
  obtain ⟨hlock, hrest⟩ := Prod.mk.inj hs
  obtain ⟨hgil, hended⟩ := Prod.mk.inj hrest
  have hstuck : s.Stuck := ⟨by rw [hlock]; exact nofun, by rw [hgil]; exact nofun⟩
  refine ⟨s, hr, hstuck, fun acts' s' hr' => ?_⟩
  rw [(deadlock_iff hr).2.1 hstuck acts' s' hr']
  exact List.length_eq_zero_iff.1 hended

/-! ### Panics -/

/-- No panic has been seen, and none is coming. -/
structure Calm (s : PyBridge) : Prop where
  poisoned : s.poisoned = false
  ended : ∀ e ∈ s.ended, e.2 ≠ .panic
  threads : ∀ t, (s.threads t).Calm

/-- No `shutdown` with a timeout that is no duration -/
def Act.Valid : Act → Prop
  | .call _ (.shutdown .invalid) => False
  | _ => True

theorem calm_create : (create cfg).Calm := ⟨rfl, nofun, fun _ => trivial⟩

theorem Calm.goto (h : s.Calm) (pc : PyPc) (hthreads : s'.threads = Function.update s.threads t pc) (hpc : pc.Calm)
    (hpoisoned : s'.poisoned = s.poisoned) (hended : s'.ended = s.ended) : s'.Calm := by
  refine ⟨hpoisoned.trans h.poisoned, hended ▸ h.ended, fun u => ?_⟩
  rw [hthreads]
  by_cases hu : u = t
  · rw [hu, Function.update_self]
    exact hpc
  · rw [Function.update_of_ne hu]
    exact h.threads u

theorem Calm.finish {call : PyCall} {outcome : PyOutcome} (h : s.Calm) (hthreads : s'.threads = s.threads)
    (hpoisoned : s'.poisoned = s.poisoned) (hended : s'.ended = s.ended) (houtcome : outcome ≠ .panic) :
    (s'.finish t call outcome).Calm := by
  refine ⟨hpoisoned.trans h.poisoned, fun e he => ?_, fun u => ?_⟩
  · rcases List.mem_append.1 he with hold | hnew
    · exact h.ended e (hended ▸ hold)
    · rw [List.mem_singleton.1 hnew]
      exact houtcome
  · change (Function.update s'.threads t .idle u).Calm
    by_cases hu : u = t
    · rw [hu, Function.update_self]
      trivial
    · rw [Function.update_of_ne hu, hthreads]
      exact h.threads u

theorem Calm.lock (h : s.Calm) (hI : s.Inv cfg) {call : PyCall} (hpc : s.threads t = .locking call)
    (hfree : s.lock = none) :
    (s.locked t call).Calm := by
  have hvalid := h.threads t
  rw [hpc] at hvalid
  have hmoving : s.state ≠ .transitioning := by
    intro hstate
    rcases hI.sound.transitioning hstate with hlock | hpoisoned
    · exact hlock hfree
    · exact absurd (h.poisoned.symm.trans hpoisoned) Bool.false_ne_true
  cases call with
  | start =>
    unfold locked
    cases hstate : s.state with
    | configured cfg' => exact h.goto (.starting cfg') rfl trivial rfl rfl
    | running b => exact h.finish rfl rfl rfl nofun
    | shutdown => exact h.finish rfl rfl rfl nofun
    | transitioning => exact absurd hstate hmoving
  | shutdown timeout =>
    unfold locked
    cases hstate : s.state with
    | running b =>
      dsimp only
      split
      · rename_i hinvalid
        rw [hinvalid] at hvalid
        exact hvalid.elim
      · exact h.goto (.joining b timeout) rfl trivial rfl rfl
    | configured cfg' => exact h.finish rfl rfl rfl nofun
    | shutdown => exact h.finish rfl rfl rfl nofun
    | transitioning => exact absurd hstate hmoving
  | wait =>
    unfold locked
    cases hstate : s.state with
    | running b => exact h.goto .sleeping rfl trivial rfl rfl
    | configured cfg' | shutdown | transitioning => exact h.finish rfl rfl rfl nofun
  | isRunning | originId =>
    unfold locked
    cases hstate : s.state with
    | configured cfg' | running b | shutdown | transitioning => exact h.finish rfl rfl rfl nofun

theorem Calm.step (h : s.Calm) (hI : s.Inv cfg) (hcalm : ∀ env p, cfg.start q env ≠ .error (.panic p))
    (hvalid : a.Valid)
    (hs : s.step q a = some s') : s'.Calm := by
  cases a with
  | call t call =>
    simp only [PyBridge.step] at hs
    split at hs
    · cases hs
      refine h.goto (.locking call) rfl ?_ rfl rfl
      cases call with
      | shutdown timeout =>
        cases timeout with
        | invalid => exact hvalid.elim
        | none | bounded => trivial
      | start | wait | isRunning | originId => trivial
    · cases hs
  | lock t =>
    simp only [PyBridge.step] at hs
    split at hs
    · rename_i call hpc hfree
      cases hs
      rw [if_neg (Bool.eq_false_iff.1 h.poisoned)]
      exact h.lock hI hpc hfree
    · cases hs
  | startReturns t env =>
    simp only [PyBridge.step] at hs
    split at hs
    · rename_i cfg' hpc
      cases hs
      obtain rfl : cfg' = cfg := (hI.threads t).config cfg' (by rw [hpc]; rfl)
      refine h.goto (.started cfg' (cfg'.start q env)) rfl ?_ rfl rfl
      cases hresult : cfg'.start q env with
      | ok bridge => trivial
      | error stop =>
        cases stop with
        | error e => trivial
        | panic p => exact absurd hresult (hcalm env p)
    · cases hs
  | joinEnds t timedOut =>
    simp only [PyBridge.step] at hs
    split at hs
    · split at hs
      · split at hs
        · cases hs
          exact h.goto _ rfl trivial rfl rfl
        · cases hs
      · split at hs
        · cases hs
          exact h.goto _ rfl trivial rfl rfl
        · cases hs
    · rename_i b hpc
      have hno := h.threads t
      rw [hpc] at hno
      exact hno.elim
    · cases hs
  | regain t =>
    have hno := h.threads t
    simp only [PyBridge.step] at hs
    split at hs
    · rename_i cfg' result hpc hgil
      rw [hpc] at hno
      cases hs
      unfold PyBridge.afterStart
      split
      · exact h.finish rfl rfl rfl nofun
      · exact h.finish rfl rfl rfl nofun
      · exact hno.elim
    · rename_i timeout outcome hpc hgil
      rw [hpc] at hno
      cases hs
      refine h.finish rfl rfl rfl ?_
      rintro rfl
      exact hno
    · cases hs
  | wake t interrupted =>
    simp only [PyBridge.step] at hs
    split at hs
    · cases hs
      split
      · exact h.finish rfl rfl rfl nofun
      · exact h.goto (.locking .wait) rfl trivial rfl rfl
    · cases hs
  | bridgeStops b =>
    simp only [PyBridge.step] at hs
    split at hs
    · cases hs
      exact ⟨h.poisoned, h.ended, h.threads⟩
    · cases hs

/-- A thread starts the bridge. -/
def startsBridge : List Act := [.call 0 .start, .lock 0, .startReturns 0 {}]

/-- No call on the handle of a validated configuration panics, whatever the threads do, if and only if the queues of
its peers have a capacity that fits, or the start is refused; `shutdown` is given a duration. -/
theorem calls_panic_iff (hq : q.Documented) (hvalid : cfg.validate = .ok ()) :
    (∀ acts s, (∀ t, Act.call t (.shutdown .invalid) ∉ acts) → run (step · q) (create cfg) acts = some s →
      ∀ e ∈ s.ended, e.2 ≠ .panic) ↔ cfg.Refused q ∨ cfg.peers = [] ∨ cfg.Fits := by
  constructor
  · intro hall
    by_contra hno
    obtain ⟨hrefused, hrest⟩ := not_or.1 hno
    obtain ⟨hpeers, hfits⟩ := not_or.1 hrest
    obtain ⟨p, hp⟩ := StartConfig.start_of_not_fits hq hvalid hrefused hpeers hfits
    obtain ⟨s, hr, hpc, hgil, hended⟩ : ∃ s, run (step · q) (create cfg) startsBridge = some s ∧
        s.threads 0 = .started cfg (cfg.start q {}) ∧ s.gil = none ∧ s.ended = [] := ⟨_, rfl, rfl, rfl, rfl⟩
    have hregain : s.step q (.regain 0) = some (s.afterStart 0 cfg (cfg.start q {})) := by
      rw [step, hpc, hgil]
    refine hall (startsBridge ++ [.regain 0]) _ (fun t ht => ?_) (run_append.2 ⟨s, hr, run_cons.2 ⟨_, hregain, rfl⟩⟩)
      (.start, .panic) ?_ rfl
    · simp [startsBridge] at ht
    · rw [hp, afterStart, finish, allowThreads, setPc, hended]
      exact List.mem_singleton_self _
  · intro hfits acts s hacts hr
    obtain ⟨-, hcalm⟩ : s.Inv cfg ∧ s.Calm := by
      refine run_invariant_of (fun s => s.Inv cfg ∧ s.Calm) Act.Valid (fun s a s' h ha hs => ?_) (fun a ha => ?_)
        ⟨inv_create, calm_create⟩ hr
      · exact ⟨h.1.step hs, h.2.step h.1 (fun env p => StartConfig.calm_start hq hvalid hfits p) ha hs⟩
      · cases a with
        | call t call =>
          cases call with
          | shutdown timeout =>
            cases timeout with
            | invalid => exact hacts t ha
            | none | bounded => trivial
          | start | wait | isRunning | originId => trivial
        | lock t | startReturns t env | joinEnds t timedOut | regain t | wake t interrupted | bridgeStops b => trivial
    exact hcalm.ended

/-- Queues without capacity, and queues of the usual one -/
theorem calls_panic_iff_dialing :
    (∃ acts s, run (step · sampleQuic) (create (dialing "10.0.0.2:4443" 0)) acts = some s ∧ ∃ e ∈ s.ended, e.2 = .panic) ∧
    ∀ acts s, (∀ t, Act.call t (.shutdown .invalid) ∉ acts) →
      run (step · sampleQuic) (create (dialing "10.0.0.2:4443" 4096)) acts = some s → ∀ e ∈ s.ended, e.2 ≠ .panic := by
  constructor
  · by_contra hno
    have hrefused : ¬(dialing "10.0.0.2:4443" 0).Refused sampleQuic := fun h => Bool.noConfusion h.1
    have hfits : (dialing "10.0.0.2:4443" 0).Refused sampleQuic ∨ (dialing "10.0.0.2:4443" 0).peers = [] ∨
        (dialing "10.0.0.2:4443" 0).Fits :=
      (calls_panic_iff sampleQuic_documented (by decide +kernel)).1
        fun acts s _ hr e he hpanic => hno ⟨acts, s, hr, e, he, hpanic⟩
    rcases hfits with h | h | h
    · exact hrefused h
    · cases h
    · exact absurd h.1 (Nat.lt_irrefl 0)
  · exact (calls_panic_iff sampleQuic_documented (by decide +kernel)).2 (.inr (.inr ⟨by decide, by decide⟩))

end PyBridge

end Mmbus.Bridge
