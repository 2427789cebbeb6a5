import Mmbus.Wakeup

/-!
# `recv` on an event loop

The coroutines that await `recv` of one `AsyncSubscription` on an asyncio loop, over the accesses of the publisher and
of every subscriber (`Mmbus.Bus`).  A coroutine runs until it awaits, so that the calls on the subscription follow one
another, while everybody else goes on between any two of their accesses.  The loop keeps one reader for a descriptor:
`add_reader` replaces the one that is there, and `remove_reader` removes it, whoever has registered it.

`recv_woken`: a suspended `recv` whose subscription nobody else has used since is woken, and no cancellation loses a
message; but a `recv` whose readers another one has replaced or removed is never woken again.
-/

namespace Mmbus

open RingBuffer Transition

/-- The future that a suspended `recv` awaits -/
inductive Future
  | pending
  | result
  | eof
  | cancelled
  deriving DecidableEq

/-- What the thread of the loop is in: nothing, so that it takes the next callback, a call of a coroutine's `recv` on
the subscription, or the callback `on_data` of a coroutine -/
inductive LoopPc
  | select
  | tryRecv (t : Nat)
  | armWakeup (t : Nat)
  | onData (t : Nat)
  deriving DecidableEq

structure EventLoop where
  bus : Bus
  /-- The subscriber behind the `AsyncSubscription` -/
  me : Nat
  pc : LoopPc
  /-- The future of each coroutine that is suspended in `recv` -/
  futs : Nat → Option Future
  /-- The coroutine whose `on_data` is registered for the eventfd -/
  wfd : Option Nat
  /-- The coroutine whose `on_disconnect` is registered for the handshake socket -/
  sfd : Option Nat
  /-- The messages returned so far, each with its coroutine -/
  returned : List (Nat × Bytes)
  /-- The coroutine whose `recv` has run last -/
  active : Option Nat

namespace EventLoop

/-- The steps: one of the publisher or of another subscriber, a call of `recv`, the next access of the loop's thread in
a call on the subscription, what follows such a call, a callback, a cancellation, and a coroutine that is resumed. -/
inductive Act
  | bus (a : Mmbus.Act)
  | recv (t : Nat)
  | go
  | next
  | onData (t : Nat)
  | onDisconnect (t : Nat)
  | cancel (t : Nat)
  | resume (t : Nat)

variable (s : EventLoop)

def sub : Subscriber := s.bus.subs s.me

/-- A step of the subscriber -/
def access (choice : Choice) : Option EventLoop :=
  (s.bus.step (.sub s.me choice)).map fun bus => { s with bus := bus }

/-- The coroutine `t` begins a call on the subscription. -/
def begin (t : Nat) (call : Call) (pc : LoopPc) : Option EventLoop :=
  { s with pc := pc, active := some t }.access (.call call)

/-- `fut.set_result` and `fut.set_exception`, unless the future is done -/
def resolve (t : Nat) (fut : Future) : EventLoop :=
  if s.futs t = some .pending then { s with futs := Function.update s.futs t (some fut) } else s

/-- The `finally` after the `await`: both readers are removed. -/
def unregister (t : Nat) : EventLoop :=
  { s with futs := Function.update s.futs t none, wfd := none, sfd := none, active := some t }

/-- The subscriber's own accesses are made by the loop's thread. -/
def own (me : Nat) : Mmbus.Act → Bool
  | .sub i _ => i == me
  | _ => false

/-- One step of the system -/
def step : Act → Option EventLoop
  | .bus a => if own s.me a then none else (s.bus.step a).map fun bus => { s with bus := bus }
  | .recv t => if s.pc = .select ∧ s.futs t = none then s.begin t .tryReceive (.tryRecv t) else none
  | .go => if s.pc = .select then none else s.access .go
  | .next =>
    match s.pc, s.sub.pc with
    | .tryRecv t, .ready .message =>
      some { s with pc := .select, returned := s.returned ++ s.sub.delivered.getLast?.toList.map fun data => (t, data) }
    | .tryRecv t, .ready .nothing => s.begin t .armWakeup (.armWakeup t)
    | .armWakeup t, .ready .readable => s.begin t .tryReceive (.tryRecv t)
    | .armWakeup t, .ready .armed =>
      some { s with pc := .select, futs := Function.update s.futs t (some .pending), wfd := some t, sfd := some t }
    | .onData t, .ready _ => some ({ s with pc := .select }.resolve t .result)
    | _, _ => none
  | .onData t =>
    if s.pc = .select ∧ s.wfd = some t ∧ 0 < s.sub.efd then
      { s with pc := .onData t }.access (.call .drainWakeup)
    else none
  | .onDisconnect t =>
    if s.pc = .select ∧ s.sfd = some t ∧ s.sub.hup = true then some (s.resolve t .eof) else none
  | .cancel t =>
    if s.pc = .select ∧ s.futs t ≠ none then
      some { s with futs := Function.update s.futs t (some .cancelled) }
    else none
  | .resume t =>
    if s.pc = .select then
      match s.futs t with
      | some .result => (s.unregister t).begin t .tryReceive (.tryRecv t)
      | some .eof | some .cancelled => some (s.unregister t)
      | some .pending | none => none
    else none

/-- The `AsyncSubscription` has just been made for the subscriber `me`. -/
def start (bus : Bus) (me : Nat) : EventLoop := ⟨bus, me, .select, fun _ => none, none, none, [], none⟩

/-- The step of the bus in a step of the system -/
def busAct : Act → Option Mmbus.Act
  | .bus a => some a
  | .recv _ => some (.sub s.me (.call .tryReceive))
  | .go => some (.sub s.me .go)
  | .next =>
    match s.pc, s.sub.pc with
    | .tryRecv _, .ready .nothing => some (.sub s.me (.call .armWakeup))
    | .armWakeup _, .ready .readable => some (.sub s.me (.call .tryReceive))
    | _, _ => none
  | .onData _ => some (.sub s.me (.call .drainWakeup))
  | .resume t => if s.futs t = some .result then some (.sub s.me (.call .tryReceive)) else none
  | .onDisconnect _ | .cancel _ => none

/-- The steps of the bus in a run of the system -/
def trace (s : EventLoop) : List Act → List Mmbus.Act
  | [] => []
  | a :: as =>
    (s.busAct a).toList ++ match s.step a with
      | some s' => trace s' as
      | none => []

variable {s s' : EventLoop}

/-! ### What a step does -/

/-- Where the subscriber is while the thread of the loop is in a call -/
inductive Inside : LoopPc → SubscriberPc → Prop
  | select {last} : Inside .select (.ready last)
  | receiving {t pc} : Inside (.tryRecv t) (.receiving .tryReceive pc)
  | message {t} : Inside (.tryRecv t) (.ready .message)
  | nothing {t} : Inside (.tryRecv t) (.ready .nothing)
  | setFlag {t} : Inside (.armWakeup t) (.setFlag .armWakeup)
  | recheck {t} : Inside (.armWakeup t) (.recheck .armWakeup)
  | unflag {t} : Inside (.armWakeup t) (.unflag .armWakeup)
  | readable {t} : Inside (.armWakeup t) (.ready .readable)
  | armed {t} : Inside (.armWakeup t) (.ready .armed)
  | drain {t} : Inside (.onData t) (.drain .drainWakeup)
  | drained {t} : Inside (.onData t) (.ready .readable)
  | undrained {t} : Inside (.onData t) (.ready .nothing)

/-- The effect of a step -/
inductive Effect (s : EventLoop) : Act → EventLoop → Prop
  | bus {a bus} (other : own s.me a = false) (step : s.bus.step a = some bus) : Effect s (.bus a) { s with bus := bus }
  | recv {t bus} (pc : s.pc = .select) (fut : s.futs t = none)
      (step : s.bus.step (.sub s.me (.call .tryReceive)) = some bus) :
      Effect s (.recv t) { s with bus := bus, pc := .tryRecv t, active := some t }
  | go {bus} (pc : s.pc ≠ .select) (step : s.bus.step (.sub s.me .go) = some bus) : Effect s .go { s with bus := bus }
  | message {t} (pc : s.pc = .tryRecv t) (sub : s.sub.pc = .ready .message) :
      Effect s .next { s with
        pc := .select, returned := s.returned ++ s.sub.delivered.getLast?.toList.map fun data => (t, data) }
  | nothing {t bus} (pc : s.pc = .tryRecv t) (sub : s.sub.pc = .ready .nothing)
      (step : s.bus.step (.sub s.me (.call .armWakeup)) = some bus) :
      Effect s .next { s with bus := bus, pc := .armWakeup t, active := some t }
  | readable {t bus} (pc : s.pc = .armWakeup t) (sub : s.sub.pc = .ready .readable)
      (step : s.bus.step (.sub s.me (.call .tryReceive)) = some bus) :
      Effect s .next { s with bus := bus, pc := .tryRecv t, active := some t }
  | armed {t} (pc : s.pc = .armWakeup t) (sub : s.sub.pc = .ready .armed) :
      Effect s .next { s with
        pc := .select, futs := Function.update s.futs t (some .pending), wfd := some t, sfd := some t }
  | drained {t last} (pc : s.pc = .onData t) (sub : s.sub.pc = .ready last) :
      Effect s .next ({ s with pc := .select }.resolve t .result)
  | onData {t bus} (pc : s.pc = .select) (wfd : s.wfd = some t) (efd : 0 < s.sub.efd)
      (step : s.bus.step (.sub s.me (.call .drainWakeup)) = some bus) :
      Effect s (.onData t) { s with bus := bus, pc := .onData t }
  | onDisconnect {t} (pc : s.pc = .select) (sfd : s.sfd = some t) (hup : s.sub.hup = true) :
      Effect s (.onDisconnect t) (s.resolve t .eof)
  | cancel {t} (pc : s.pc = .select) (fut : s.futs t ≠ none) :
      Effect s (.cancel t) { s with futs := Function.update s.futs t (some .cancelled) }
  | retry {t bus} (pc : s.pc = .select) (fut : s.futs t = some .result)
      (step : s.bus.step (.sub s.me (.call .tryReceive)) = some bus) :
      Effect s (.resume t) { s.unregister t with bus := bus, pc := .tryRecv t }
  | ended {t} (pc : s.pc = .select) (fut : s.futs t = some .eof ∨ s.futs t = some .cancelled) :
      Effect s (.resume t) (s.unregister t)

theorem step_cases {a : Act} (hs : s.step a = some s') : Effect s a s' := by
  cases a with
  | bus a =>
    simp only [step] at hs
    split at hs
    · cases hs
    · rename_i hown
      obtain ⟨bus, hbus, rfl⟩ := Option.map_eq_some_iff.1 hs
      exact .bus (by simpa using hown) hbus
  | recv t =>
    simp only [step, begin, access] at hs
    split at hs
    · rename_i hc
      obtain ⟨bus, hbus, rfl⟩ := Option.map_eq_some_iff.1 hs
      exact .recv hc.1 hc.2 hbus
    · cases hs
  | go =>
    simp only [step, access] at hs
    split at hs
    · cases hs
    · rename_i hpc
      obtain ⟨bus, hbus, rfl⟩ := Option.map_eq_some_iff.1 hs
      exact .go hpc hbus
  | next =>
    simp only [step, begin, access] at hs
    split at hs
    · cases hs
      exact .message ‹_› ‹_›
    · obtain ⟨bus, hbus, rfl⟩ := Option.map_eq_some_iff.1 hs
      exact .nothing ‹_› ‹_› hbus
    · obtain ⟨bus, hbus, rfl⟩ := Option.map_eq_some_iff.1 hs
      exact .readable ‹_› ‹_› hbus
    · cases hs
      exact .armed ‹_› ‹_›
    · cases hs
      exact .drained ‹_› ‹_›
    · cases hs
  | onData t =>
    simp only [step, access] at hs
    split at hs
    · rename_i hc
      obtain ⟨bus, hbus, rfl⟩ := Option.map_eq_some_iff.1 hs
      exact .onData hc.1 hc.2.1 hc.2.2 hbus
    · cases hs
  | onDisconnect t =>
    simp only [step] at hs
    split at hs
    · rename_i hc
      cases hs
      exact .onDisconnect hc.1 hc.2.1 hc.2.2
    · cases hs
  | cancel t =>
    simp only [step] at hs
    split at hs
    · rename_i hc
      cases hs
      exact .cancel hc.1 hc.2
    · cases hs
  | resume t =>
    simp only [step, begin, access] at hs
    split at hs
    · rename_i hpc
      split at hs
      · obtain ⟨bus, hbus, rfl⟩ := Option.map_eq_some_iff.1 hs
        exact .retry hpc ‹_› hbus
      · cases hs
        exact .ended hpc (.inl ‹_›)
      · cases hs
        exact .ended hpc (.inr ‹_›)
      · cases hs
      · cases hs
    · cases hs

@[simp] theorem resolve_bus (t : Nat) (fut : Future) : (s.resolve t fut).bus = s.bus := by
  unfold resolve
  split <;> rfl

@[simp] theorem resolve_me (t : Nat) (fut : Future) : (s.resolve t fut).me = s.me := by
  unfold resolve
  split <;> rfl

@[simp] theorem resolve_pc (t : Nat) (fut : Future) : (s.resolve t fut).pc = s.pc := by
  unfold resolve
  split <;> rfl

@[simp] theorem resolve_wfd (t : Nat) (fut : Future) : (s.resolve t fut).wfd = s.wfd := by
  unfold resolve
  split <;> rfl

@[simp] theorem resolve_sfd (t : Nat) (fut : Future) : (s.resolve t fut).sfd = s.sfd := by
  unfold resolve
  split <;> rfl

@[simp] theorem resolve_returned (t : Nat) (fut : Future) : (s.resolve t fut).returned = s.returned := by
  unfold resolve
  split <;> rfl

@[simp] theorem resolve_active (t : Nat) (fut : Future) : (s.resolve t fut).active = s.active := by
  unfold resolve
  split <;> rfl

/-- Only the future of `t` can change, and it does not stay pending. -/
theorem pending_resolve {t u : Nat} {fut : Future} (hfut : fut ≠ .pending) :
    (s.resolve t fut).futs u = some .pending ↔ u ≠ t ∧ s.futs u = some .pending := by
  unfold resolve
  by_cases hu : u = t
  · subst hu
    split
    · simp [hfut]
    · rename_i hdone
      simp [hdone]
  · split <;> simp [hu]

/-- What a step does to the bus -/
theorem bus_of_step {a : Act} (hs : s.step a = some s') :
    run Bus.step s.bus (s.busAct a).toList = some s'.bus ∧ s'.me = s.me := by
  have single : ∀ {b bus}, s.bus.step b = some bus → run Bus.step s.bus [b] = some bus := fun h =>
    run_cons.2 ⟨_, h, rfl⟩
  cases step_cases hs with
  | bus other hbus => exact ⟨single hbus, rfl⟩
  | recv pc fut hbus => exact ⟨single hbus, rfl⟩
  | go pc hbus => exact ⟨single hbus, rfl⟩
  | message pc sub => exact ⟨by simp [busAct, pc, sub], rfl⟩
  | nothing pc sub hbus => exact ⟨by simpa only [busAct, pc, sub, Option.toList_some] using single hbus, rfl⟩
  | readable pc sub hbus => exact ⟨by simpa only [busAct, pc, sub, Option.toList_some] using single hbus, rfl⟩
  | armed pc sub => exact ⟨by simp [busAct, pc, sub], rfl⟩
  | drained pc sub => exact ⟨by simp [busAct, pc], by simp⟩
  | onData pc wfd efd hbus => exact ⟨single hbus, rfl⟩
  | onDisconnect pc sfd hup => exact ⟨by simp [busAct], by simp⟩
  | cancel pc fut => exact ⟨rfl, rfl⟩
  | retry pc fut hbus => exact ⟨by simpa only [busAct, fut, if_true, Option.toList_some] using single hbus, rfl⟩
  | ended pc fut =>
    refine ⟨?_, rfl⟩
    rcases fut with h | h <;> simp [busAct, h, unregister]

/-- A run of the system is a run of its bus. -/
theorem run_trace {as : List Act} (h : run step s as = some s') :
    run Bus.step s.bus (trace s as) = some s'.bus ∧ s'.me = s.me := by
  induction as generalizing s with
  | nil =>
    cases h
    exact ⟨rfl, rfl⟩
  | cons a as ih =>
    obtain ⟨s₁, h₁, h₂⟩ := run_cons.1 h
    obtain ⟨hbus, hme⟩ := bus_of_step h₁
    obtain ⟨hrest, hme'⟩ := ih h₂
    refine ⟨?_, hme'.trans hme⟩
    simp only [trace, h₁]
    exact run_append.2 ⟨_, hbus, hrest⟩

/-! ### The calls on the subscription -/

/-- An access in a call keeps to the call, and delivers a message only as the call returns it. -/
theorem inside_go {pc : LoopPc} {sub sub' : Subscriber} {r r' : RingBuffer} {listening : Bool} (h : Inside pc sub.pc)
    (hs : sub.go r listening = some (r', sub')) :
    Inside pc sub'.pc ∧ sub'.alive = sub.alive ∧
      (sub'.delivered = sub.delivered ∧ sub'.pc ≠ .ready .message ∨
        ∃ out, sub'.pc = .ready .message ∧ sub'.delivered = sub.delivered ++ [out]) := by
  generalize hpc : sub.pc = place at h
  cases h with
  | receiving =>
    simp only [Subscriber.go, hpc] at hs
    split at hs
    · rename_i r₁ pc₁ _
      cases hs
      unfold Subscriber.afterReceive
      split
      · exact ⟨.message, rfl, .inr ⟨_, rfl, rfl⟩⟩
      · exact ⟨.nothing, rfl, .inl ⟨rfl, by simp⟩⟩
      · exact ⟨.receiving, rfl, .inl ⟨rfl, by simp⟩⟩
    · cases hs
  | setFlag =>
    simp only [Subscriber.go, hpc] at hs
    cases hs
    exact ⟨.recheck, rfl, .inl ⟨rfl, by simp⟩⟩
  | recheck =>
    simp only [Subscriber.go, hpc, if_true] at hs
    split at hs
    · cases hs
      exact ⟨.unflag, rfl, .inl ⟨rfl, by simp⟩⟩
    · cases hs
      exact ⟨.armed, rfl, .inl ⟨rfl, by simp⟩⟩
  | unflag =>
    simp only [Subscriber.go, hpc] at hs
    cases hs
    exact ⟨.readable, rfl, .inl ⟨rfl, by simp [Subscriber.afterWait]⟩⟩
  | drain =>
    simp only [Subscriber.go, hpc, if_true, reduceCtorEq, or_true] at hs
    split at hs
    · cases hs
      exact ⟨.drained, rfl, .inl ⟨rfl, by simp⟩⟩
    · cases hs
      exact ⟨.undrained, rfl, .inl ⟨rfl, by simp⟩⟩
  | _ =>
    simp only [Subscriber.go, hpc] at hs
    cases hs

/-- The subscriber after one of its own steps -/
theorem sub_of_step {bus bus' : Bus} {me : Nat} {choice : Choice} (hs : bus.step (.sub me choice) = some bus') :
    ∃ r, (bus.subs me).step bus.chan.ring bus.listening choice = some (r, bus'.subs me) := by
  simp only [Bus.step] at hs
  split at hs
  · rename_i r sub hsub
    cases hs
    exact ⟨r, by simpa using hsub⟩
  · cases hs

/-- The subscriber after it has begun a call -/
theorem sub_of_call {bus bus' : Bus} {me : Nat} {call : Call} (hs : bus.step (.sub me (.call call)) = some bus') :
    bus'.subs me = { bus.subs me with pc := (bus.subs me).beginCall call } := by
  obtain ⟨r, hsub⟩ := sub_of_step hs
  obtain ⟨-, ⟨hgo, -⟩ | ⟨-, hd⟩⟩ := Subscriber.step_cases hsub
  · cases hgo
  · generalize bus'.subs me = sub at hd ⊢
    cases hd
    rfl

/-- The steps of the others leave the subscriber where it is. -/
theorem sub_of_other {bus bus' : Bus} {me : Nat} {a : Mmbus.Act} (hinv : bus.Inv) (hown : own me a = false)
    (hs : bus.step a = some bus') :
    (bus'.subs me).pc = (bus.subs me).pc ∧ (bus'.subs me).alive = (bus.subs me).alive ∧
      (bus'.subs me).delivered = (bus.subs me).delivered := by
  rcases Bus.step_cases hinv.fits hs with ⟨i, choice, r, sub, rfl, -, rfl⟩ | ⟨-, he⟩
  · have hne : me ≠ i := by
      rintro rfl
      simp [own] at hown
    simp [Function.update_of_ne hne]
  · obtain ⟨efd, hup, acceptedAt, heq⟩ := he.subs me
    rw [heq]
    exact ⟨rfl, rfl, rfl⟩

/-! ### Every run -/

/-- The message of a call that has returned, before the coroutine has it -/
def inHand (s : EventLoop) : List Bytes :=
  match s.pc, s.sub.pc with
  | .tryRecv _, .ready .message => s.sub.delivered.getLast?.toList
  | _, _ => []

theorem inHand_of_ne (h : s.sub.pc ≠ .ready .message) : s.inHand = [] := by
  unfold inHand
  split
  · contradiction
  · rfl

/-- The invariant, where `base` has been delivered before the `AsyncSubscription` was made. -/
structure Inv (base : List Bytes) (s : EventLoop) : Prop where
  inv : s.bus.Inv
  alive : s.sub.alive = true
  inside : Inside s.pc s.sub.pc
  /-- A coroutine that runs is not suspended. -/
  running : ∀ t, s.pc = .tryRecv t ∨ s.pc = .armWakeup t → s.futs t = none ∧ s.active = some t
  /-- The two readers are registered and removed together. -/
  readers : s.sfd = s.wfd
  callback : ∀ t, s.pc = .onData t → s.wfd = some t
  /-- Who has been left alone since it fell asleep has its readers and its flag. -/
  asleep : ∀ t, s.futs t = some .pending → s.active = some t →
    s.wfd = some t ∧ (s.pc = .select ∧ s.sub.pc = .ready .armed ∨ s.pc = .onData t)
  delivered : base ++ s.returned.map Prod.snd ++ s.inHand = s.sub.delivered

namespace Inv

variable {base : List Bytes}

theorem start {bus : Bus} {me : Nat} (hinv : bus.Inv) (halive : (bus.subs me).alive = true)
    (hpc : (bus.subs me).pc = .ready .connected) : Inv (bus.subs me).delivered (.start bus me) where
  inv := hinv
  alive := halive
  inside := by
    show Inside .select (bus.subs me).pc
    rw [hpc]
    exact .select
  running t h := by rcases h with h | h <;> cases h
  readers := rfl
  callback t h := by cases h
  asleep t h := by cases h
  delivered := by simp [inHand, EventLoop.start, sub]

/-- No call is in progress when the loop takes its next callback. -/
theorem ready (h : s.Inv base) (hpc : s.pc = .select) : ∃ last, s.sub.pc = .ready last := by
  have hinside := h.inside
  rw [hpc] at hinside
  generalize s.sub.pc = place at hinside
  cases hinside
  exact ⟨_, rfl⟩

theorem bus (h : s.Inv base) {a : Mmbus.Act} {bus : Bus} (hown : own s.me a = false) (hs : s.bus.step a = some bus) :
    Inv base { s with bus := bus } := by
  obtain ⟨hpc, halive, hdelivered⟩ := sub_of_other h.inv hown hs
  have hhand : inHand { s with bus := bus } = s.inHand := by
    simp only [inHand, sub, hpc, hdelivered]
  refine ⟨h.inv.step hs, halive.trans h.alive, ?_, h.running, h.readers, h.callback, fun t hfut hactive => ?_, ?_⟩
  · simpa only [sub, hpc] using h.inside
  · simpa only [sub, hpc] using h.asleep t hfut hactive
  · rw [hhand]
    exact h.delivered.trans hdelivered.symm

/-- A coroutine that is not suspended begins a call. -/
theorem begins (h : s.Inv base) {t : Nat} {call : Call} {pc : LoopPc} {bus : Bus} {futs : Nat → Option Future}
    {wfd sfd : Option Nat} (hcall : pc = .tryRecv t ∧ call = .tryReceive ∨ pc = .armWakeup t ∧ call = .armWakeup)
    (hfut : futs t = none) (hreaders : sfd = wfd) (hhand : s.inHand = [])
    (hs : s.bus.step (.sub s.me (.call call)) = some bus) :
    Inv base { s with bus := bus, pc := pc, futs := futs, wfd := wfd, sfd := sfd, active := some t } := by
  have hsub := sub_of_call hs
  have hready : (bus.subs s.me).pc ≠ .ready .message := by
    rw [hsub]
    rcases hcall with ⟨-, rfl⟩ | ⟨-, rfl⟩ <;> simp [Subscriber.beginCall]
  refine ⟨h.inv.step hs, ?_, ?_, fun u hu => ?_, hreaders, fun u hu => ?_, fun u hu hactive => ?_, ?_⟩
  · simpa only [sub, hsub] using h.alive
  · rcases hcall with ⟨rfl, rfl⟩ | ⟨rfl, rfl⟩ <;> simp only [sub, hsub, Subscriber.beginCall]
    · exact .receiving
    · exact .setFlag
  · rcases hcall with ⟨rfl, -⟩ | ⟨rfl, -⟩
    all_goals
      rcases hu with hu | hu <;> cases hu
      exact ⟨hfut, rfl⟩
  · rcases hcall with ⟨rfl, -⟩ | ⟨rfl, -⟩ <;> cases hu
  · cases hactive
    exact absurd (hfut.symm.trans hu) (by simp)
  · have hnone : inHand { s with
        bus := bus, pc := pc, futs := futs, wfd := wfd, sfd := sfd, active := some t } = [] := inHand_of_ne hready
    rw [hnone, List.append_nil]
    have hdelivered := h.delivered
    rw [hhand, List.append_nil] at hdelivered
    rw [hdelivered]
    simp only [sub, hsub]

theorem go (h : s.Inv base) {bus : Bus} (hpc : s.pc ≠ .select) (hs : s.bus.step (.sub s.me .go) = some bus) :
    Inv base { s with bus := bus } := by
  obtain ⟨r, hsub⟩ := sub_of_step hs
  obtain ⟨-, ⟨-, hgo⟩ | ⟨-, hd⟩⟩ := Subscriber.step_cases hsub
  · obtain ⟨hinside, halive, hdelivered⟩ := inside_go h.inside hgo
    -- a call that is still to make an access has returned nothing
    have hhand : s.inHand = [] := inHand_of_ne fun hready => by
      simp only [Subscriber.go, show (s.bus.subs s.me).pc = _ from hready] at hgo
      cases hgo
    have hbefore := h.delivered
    rw [hhand, List.append_nil] at hbefore
    refine ⟨h.inv.step hs, halive.trans h.alive, hinside, h.running, h.readers, h.callback,
      fun t hfut hactive => ?_, ?_⟩
    · obtain ⟨hwfd, ⟨hselect, -⟩ | hdata⟩ := h.asleep t hfut hactive
      · exact absurd hselect hpc
      · exact ⟨hwfd, .inr hdata⟩
    · rcases hdelivered with ⟨hsame, hne⟩ | ⟨out, hready, hout⟩
      · have hnone : inHand { s with bus := bus } = [] := inHand_of_ne hne
        rw [hnone, List.append_nil, hbefore]
        exact hsame.symm
      · have hcall : ∃ t, s.pc = .tryRecv t := by
          rw [hready] at hinside
          cases hp : s.pc <;> rw [hp] at hinside <;> cases hinside
          · exact absurd hp hpc
          · exact ⟨_, rfl⟩
        obtain ⟨t, hcall⟩ := hcall
        simp only [inHand, hcall, sub, hready, hout, List.getLast?_concat, Option.toList_some]
        rw [hbefore]
        rfl
  · generalize bus.subs s.me = sub at hd
    cases hd

/-- While a coroutine runs, nobody else is left alone in its sleep. -/
theorem not_running (h : s.Inv base) {t u : Nat} (hpc : s.pc = .tryRecv t ∨ s.pc = .armWakeup t)
    (hfut : s.futs u = some .pending) : s.active ≠ some u := by
  intro hactive
  obtain ⟨hnone, hrun⟩ := h.running t hpc
  rw [hrun] at hactive
  cases hactive
  rw [hnone] at hfut
  cases hfut

theorem message (h : s.Inv base) {t : Nat} (hpc : s.pc = .tryRecv t) (hsub : s.sub.pc = .ready .message) :
    Inv base { s with
      pc := .select, returned := s.returned ++ s.sub.delivered.getLast?.toList.map fun data => (t, data) } := by
  refine ⟨h.inv, h.alive, ?_, fun u hu => ?_, h.readers, fun u hu => ?_, fun u hu hactive => ?_, ?_⟩
  · show Inside .select s.sub.pc
    rw [hsub]
    exact .select
  · rcases hu with hu | hu <;> cases hu
  · cases hu
  · exact absurd hactive (h.not_running (.inl hpc) hu)
  · have hdelivered := h.delivered
    simp only [inHand, hpc, hsub] at hdelivered ⊢
    simpa [sub, Function.comp_def] using hdelivered

theorem armed (h : s.Inv base) {t : Nat} (hpc : s.pc = .armWakeup t) (hsub : s.sub.pc = .ready .armed) :
    Inv base { s with
      pc := .select, futs := Function.update s.futs t (some .pending), wfd := some t, sfd := some t } := by
  refine ⟨h.inv, h.alive, ?_, fun u hu => ?_, rfl, fun u hu => ?_, fun u hu hactive => ?_, ?_⟩
  · show Inside .select s.sub.pc
    rw [hsub]
    exact .select
  · rcases hu with hu | hu <;> cases hu
  · cases hu
  · have hu : t = u := Option.some.inj ((h.running t (.inr hpc)).2.symm.trans hactive)
    exact ⟨congrArg some hu, .inl ⟨rfl, hsub⟩⟩
  · have hdelivered := h.delivered
    simpa only [inHand, hpc, sub] using hdelivered

/-- The loop takes its next callback. -/
theorem resolve (h : s.Inv base) {t : Nat} {fut : Future} (hfut : fut ≠ .pending)
    (hpc : s.pc = .select ∨ s.pc = .onData t) (hsub : ∃ last, s.sub.pc = .ready last) :
    Inv base ({ s with pc := .select }.resolve t fut) := by
  have hhand : s.inHand = [] := by
    rcases hpc with hpc | hpc <;> simp only [inHand, hpc]
  refine ⟨by simpa using h.inv, by simpa [sub] using h.alive, ?_, fun u hu => ?_, by simpa using h.readers,
    fun u hu => ?_, fun u hu hactive => ?_, ?_⟩
  · obtain ⟨last, hlast⟩ := hsub
    simp only [sub] at hlast
    simp only [resolve_pc, sub, resolve_bus, resolve_me, hlast]
    exact .select
  · rcases hu with hu | hu <;> simp at hu
  · simp at hu
  · obtain ⟨hne, hu⟩ := (pending_resolve hfut).1 hu
    simp only [resolve_active] at hactive
    obtain ⟨hwfd, ⟨hselect, harmed⟩ | hdata⟩ := h.asleep u hu hactive
    · simp only [sub] at harmed
      exact ⟨by simpa using hwfd, .inl ⟨by simp, by simpa [sub] using harmed⟩⟩
    · rcases hpc with hpc | hpc
      · rw [hpc] at hdata
        cases hdata
      · rw [hpc] at hdata
        cases hdata
        exact absurd rfl hne
  · have hdelivered := h.delivered
    rw [hhand] at hdelivered
    simpa [inHand, sub] using hdelivered

theorem onData (h : s.Inv base) {t : Nat} {bus : Bus} (hpc : s.pc = .select) (hwfd : s.wfd = some t)
    (hs : s.bus.step (.sub s.me (.call .drainWakeup)) = some bus) :
    Inv base { s with bus := bus, pc := .onData t } := by
  have hsub := sub_of_call hs
  refine ⟨h.inv.step hs, ?_, ?_, fun u hu => ?_, h.readers, fun u hu => ?_, fun u hu hactive => ?_, ?_⟩
  · simpa only [sub, hsub] using h.alive
  · simp only [sub, hsub, Subscriber.beginCall]
    exact .drain
  · rcases hu with hu | hu <;> cases hu
  · cases hu
    exact hwfd
  · have hown := (h.asleep u hu hactive).1
    have hu : t = u := Option.some.inj (hwfd.symm.trans hown)
    exact ⟨hown, .inr (congrArg _ hu)⟩
  · have hdelivered := h.delivered
    simp only [inHand, hpc] at hdelivered ⊢
    simpa only [sub, hsub] using hdelivered

theorem cancel (h : s.Inv base) {t : Nat} (hpc : s.pc = .select) :
    Inv base { s with futs := Function.update s.futs t (some .cancelled) } := by
  refine ⟨h.inv, h.alive, h.inside, fun u hu => ?_, h.readers, h.callback, fun u hu hactive => ?_, h.delivered⟩
  · rcases hu with hu | hu <;> exact absurd (hpc.symm.trans hu) (by simp)
  · by_cases hut : u = t
    · subst hut
      simp at hu
    · exact h.asleep u (by simpa [hut] using hu) hactive

/-- A `recv` ends with an exception. -/
theorem unregister (h : s.Inv base) {t : Nat} (hpc : s.pc = .select) : Inv base (s.unregister t) := by
  refine ⟨h.inv, h.alive, h.inside, fun u hu => ?_, rfl, fun u hu => ?_, fun u hu hactive => ?_, h.delivered⟩
  · rcases hu with hu | hu <;> exact absurd (hpc.symm.trans hu) (by simp)
  · exact absurd (hpc.symm.trans hu) (by simp)
  · cases hactive
    simp [EventLoop.unregister] at hu

theorem step {a : Act} (h : s.Inv base) (hs : s.step a = some s') : s'.Inv base := by
  have hand (hpc : s.pc = .select) : s.inHand = [] := by simp only [inHand, hpc]
  cases step_cases hs with
  | bus other hbus => exact h.bus other hbus
  | recv pc fut hbus => exact h.begins (.inl ⟨rfl, rfl⟩) fut h.readers (hand pc) hbus
  | go pc hbus => exact h.go pc hbus
  | message pc sub => exact h.message pc sub
  | nothing pc sub hbus =>
    exact h.begins (.inr ⟨rfl, rfl⟩) (h.running _ (.inl pc)).1 h.readers (inHand_of_ne (by simp [sub])) hbus
  | readable pc sub hbus =>
    exact h.begins (.inl ⟨rfl, rfl⟩) (h.running _ (.inr pc)).1 h.readers (inHand_of_ne (by simp [sub])) hbus
  | armed pc sub => exact h.armed pc sub
  | drained pc sub => exact h.resolve (by simp) (.inr pc) ⟨_, sub⟩
  | onData pc wfd efd hbus => exact h.onData pc wfd hbus
  | onDisconnect pc sfd hup =>
    rename_i t
    have hselect : Inv base ({ s with pc := .select }.resolve t .eof) := h.resolve (by simp) (.inl pc) (h.ready pc)
    rwa [← pc] at hselect
  | cancel pc fut => exact h.cancel pc
  | retry pc fut hbus =>
    exact h.begins (.inl ⟨rfl, rfl⟩) (Function.update_self ..) rfl (hand pc) hbus
  | ended pc fut => exact h.unregister pc

theorem run {as : List Act} (h : s.Inv base) (hrun : Transition.run EventLoop.step s as = some s') : s'.Inv base :=
  run_invariant (Inv base) (fun _ _ _ h hs => h.step hs) h hrun

/-! ### A `recv` without its readers -/

/-- Nobody but the coroutine itself registers its readers, and nobody but its own callbacks and its cancellation
touches its future. -/
theorem stranded_step (h : s.Inv base) {a : Act} {t : Nat} (ha : a ≠ .cancel t) (hs : s.step a = some s')
    (hfut : s.futs t = some .pending) (hwfd : s.wfd ≠ some t) : s'.futs t = some .pending ∧ s'.wfd ≠ some t := by
  cases step_cases hs with
  | armed pc sub =>
    rename_i u
    have hne : t ≠ u := by
      rintro rfl
      exact absurd ((h.running t (.inr pc)).1.symm.trans hfut) (by simp)
    exact ⟨by simpa [hne] using hfut, by simpa using hne.symm⟩
  | drained pc sub =>
    rename_i u last
    have hne : t ≠ u := by
      rintro rfl
      exact hwfd (h.callback t pc)
    exact ⟨(pending_resolve (by simp)).2 ⟨hne, hfut⟩, by simpa using hwfd⟩
  | onDisconnect pc sfd hup =>
    rename_i u
    have hne : t ≠ u := by
      rintro rfl
      exact hwfd (h.readers.symm.trans sfd)
    exact ⟨(pending_resolve (by simp)).2 ⟨hne, hfut⟩, by simpa using hwfd⟩
  | cancel pc fut =>
    rename_i u
    have hne : t ≠ u := by
      rintro rfl
      exact ha rfl
    exact ⟨by simpa [hne] using hfut, hwfd⟩
  | retry pc fut hbus =>
    rename_i u bus
    have hne : t ≠ u := by
      rintro rfl
      exact absurd (fut.symm.trans hfut) (by simp)
    exact ⟨by simpa [EventLoop.unregister, hne] using hfut, by simp [EventLoop.unregister]⟩
  | ended pc fut =>
    rename_i u
    have hne : t ≠ u := by
      rintro rfl
      rcases fut with fut | fut <;> exact absurd (fut.symm.trans hfut) (by simp)
    exact ⟨by simpa [EventLoop.unregister, hne] using hfut, by simp [EventLoop.unregister]⟩
  | _ => exact ⟨hfut, hwfd⟩

theorem stranded_run (h : s.Inv base) {as : List Act} {t : Nat} (has : .cancel t ∉ as)
    (hrun : Transition.run EventLoop.step s as = some s') (hfut : s.futs t = some .pending) (hwfd : s.wfd ≠ some t) :
    s'.futs t = some .pending :=
  (run_invariant_of (fun s => s.Inv base ∧ s.futs t = some .pending ∧ s.wfd ≠ some t) (· ≠ .cancel t)
    (fun _ _ _ h ha hs => ⟨h.1.step hs, h.1.stranded_step ha hs h.2.1 h.2.2⟩)
    (fun (a : Act) ha (heq : a = .cancel t) => has (heq ▸ ha)) ⟨h, hfut, hwfd⟩ hrun).2.1

/-! ### A `recv` with its readers -/

/-- A call on a connected subscriber can begin. -/
theorem exists_call (bus : Bus) (me : Nat) {last : Outcome} (halive : (bus.subs me).alive = true)
    (hpc : (bus.subs me).pc = .ready last) (call : Call) :
    ∃ bus', bus.step (.sub me (.call call)) = some bus' := by
  simp [Bus.step, Subscriber.step, halive, hpc]

/-- `drain_wakeup` takes one unit of the eventfd. -/
theorem exists_drain (bus : Bus) (me : Nat) (halive : (bus.subs me).alive = true)
    (hpc : (bus.subs me).pc = .drain .drainWakeup) (hefd : 0 < (bus.subs me).efd) :
    ∃ bus', bus.step (.sub me .go) = some bus' ∧
      bus'.subs me = { bus.subs me with pc := .ready .readable, efd := (bus.subs me).efd - 1 } := by
  simp [Bus.step, Subscriber.step, Subscriber.go, halive, hpc, hefd]

/-- A readable eventfd brings the `recv` back to the ring. -/
theorem back_to_ring (h : s.Inv base) {t : Nat} (hpc : s.pc = .select) (hfut : s.futs t = some .pending)
    (hwfd : s.wfd = some t) (hefd : 0 < s.sub.efd) :
    ∃ s', Transition.run EventLoop.step s [.onData t, .go, .next, .resume t] = some s' ∧ s'.pc = .tryRecv t := by
  obtain ⟨last, hlast⟩ := h.ready hpc
  obtain ⟨bus₁, hbus₁⟩ := exists_call s.bus s.me h.alive hlast .drainWakeup
  have hsub₁ := sub_of_call hbus₁
  obtain ⟨bus₂, hbus₂, hsub₂⟩ := exists_drain bus₁ s.me (by rw [hsub₁]; exact h.alive)
    (by rw [hsub₁]; rfl) (by rw [hsub₁]; exact hefd)
  obtain ⟨bus₃, hbus₃⟩ := exists_call bus₂ s.me (by rw [hsub₂, hsub₁]; exact h.alive)
    (show (bus₂.subs s.me).pc = .ready .readable by rw [hsub₂]) .tryReceive
  have hfirst : s.step (.onData t) = some { s with bus := bus₁, pc := .onData t } := by
    simp [EventLoop.step, access, hpc, hwfd, hefd, hbus₁]
  have hsecond : EventLoop.step { s with bus := bus₁, pc := .onData t } .go =
      some { s with bus := bus₂, pc := .onData t } := by
    simp [EventLoop.step, access, hbus₂]
  have hthird : EventLoop.step { s with bus := bus₂, pc := .onData t } .next =
      some { s with bus := bus₂, pc := .select, futs := Function.update s.futs t (some .result) } := by
    simp [EventLoop.step, sub, hsub₂, EventLoop.resolve, hfut]
  refine ⟨_, run_cons.2 ⟨_, hfirst, run_cons.2 ⟨_, hsecond, run_cons.2 ⟨_, hthird, run_cons.2
    ⟨{ s with bus := bus₃, pc := .tryRecv t, futs := Function.update s.futs t none, wfd := none, sfd := none,
              active := some t }, ?_, rfl⟩⟩⟩⟩, rfl⟩
  simp [EventLoop.step, EventLoop.unregister, begin, access, hbus₃]

/-- The hang-up of the publisher ends the `recv`. -/
theorem ends_of_hup (h : s.Inv base) {t : Nat} (hpc : s.pc = .select) (hfut : s.futs t = some .pending)
    (hwfd : s.wfd = some t) (hhup : s.sub.hup = true) :
    ∃ s', Transition.run EventLoop.step s [.onDisconnect t, .resume t] = some s' ∧ s'.futs t = none := by
  have hsfd := h.readers.trans hwfd
  have hfirst : s.step (.onDisconnect t) = some (s.resolve t .eof) := by
    simp [EventLoop.step, hpc, hsfd, hhup]
  have hsecond : (s.resolve t .eof).step (.resume t) = some ((s.resolve t .eof).unregister t) := by
    simp [EventLoop.step, hpc, EventLoop.resolve, hfut]
  refine ⟨_, run_cons.2 ⟨_, hfirst, run_cons.2 ⟨_, hsecond, rfl⟩⟩, ?_⟩
  simp [EventLoop.unregister]

end Inv

/-- The `recv` of the coroutine `t` has its readers registered, and is woken already or will be by the publisher's call
in progress once there is a message unread. -/
structure Attended (s : EventLoop) (t : Nat) : Prop where
  wfd : s.wfd = some t
  sfd : s.sfd = some t
  woken : s.bus.Accepted s.me → s.sub.cursor < s.bus.chan.ring.tail →
    s.pc = .onData t ∨ 0 < s.sub.efd ∨ s.bus.Firing s.me ∨ s.bus.Flagged s.me ∧ s.bus.Ahead s.me

theorem Inv.attended {base : List Bytes} (h : s.Inv base) (hwake : s.bus.NoLostWakeup) {t : Nat}
    (hfut : s.futs t = some .pending) (hactive : s.active = some t) : s.Attended t := by
  obtain ⟨hwfd, hasleep⟩ := h.asleep t hfut hactive
  refine ⟨hwfd, h.readers.trans hwfd, fun hacc hlt => ?_⟩
  rcases hasleep with ⟨-, harmed⟩ | hdata
  · exact .inr (hwake s.me h.alive hacc (by rw [show (s.bus.subs s.me).pc = _ from harmed]; rfl) hlt)
  · exact .inl hdata

/-- Coroutines that await `recv` of one `AsyncSubscription` and are cancelled at any time.  Every message that the ring
has given is returned.  A suspended `recv` is attended to as long as no other one has run since, and goes back to the
ring when the eventfd is readable and ends when the publisher hangs up as long as its readers are registered; without
them it sleeps for ever. -/
theorem recv_woken {r : RingBuffer} {backpressure : BackpressurePolicy} (hr : r.Started) {before : List Mmbus.Act}
    {bus : Bus} (hbus : run Bus.step (.init r backpressure) before = some bus) {me : Nat}
    (halive : (bus.subs me).alive = true) (hconnected : (bus.subs me).pc = .ready .connected) {acts : List Act}
    (hrun : run step (start bus me) acts = some s) :
    (s.pc = .select → s.sub.delivered = (bus.subs me).delivered ++ s.returned.map Prod.snd) ∧
      (Meets Bus.step Bus.WakesOwner (.init r backpressure) (before ++ trace (start bus me) acts) →
        ∀ t, s.futs t = some .pending → s.active = some t → s.Attended t) ∧
      (∀ t, s.pc = .select → s.futs t = some .pending → s.wfd = some t →
        (0 < s.sub.efd → ∃ s', run step s [.onData t, .go, .next, .resume t] = some s' ∧ s'.pc = .tryRecv t) ∧
        (s.sub.hup = true → ∃ s', run step s [.onDisconnect t, .resume t] = some s' ∧ s'.futs t = none)) ∧
      ∀ t, s.futs t = some .pending → s.wfd ≠ some t → ∀ acts' s', .cancel t ∉ acts' → run step s acts' = some s' →
        s'.futs t = some .pending := by
  have hbase : bus.Inv := run_invariant Bus.Inv (fun _ _ _ h hs => h.step hs) (Bus.Inv.init hr) hbus
  have hinv := (Inv.start hbase halive hconnected).run hrun
  have hall : run Bus.step (.init r backpressure) (before ++ trace (start bus me) acts) = some s.bus :=
    run_append.2 ⟨bus, hbus, (run_trace hrun).1⟩
  refine ⟨fun hpc => ?_, fun hmeets t => hinv.attended (Bus.noLostWakeup hr hmeets hall),
    fun t hpc hfut hwfd => ⟨hinv.back_to_ring hpc hfut hwfd, hinv.ends_of_hup hpc hfut hwfd⟩,
    fun t hfut hwfd acts' s' hacts hrun' => hinv.stranded_run hacts hrun' hfut hwfd⟩
  have hdelivered := hinv.delivered
  simp only [inHand, hpc, List.append_nil] at hdelivered
  exact hdelivered.symm

/-- The subscriber 0 has connected. -/
def connects : List Mmbus.Act := Bus.connectActs 0 ++ List.replicate 3 (.sub 0 .go)

def connected : Bus :=
  (run Bus.step (.init (create 2 4 1) .error) connects).getD (.init (create 2 4 1) .error)

theorem run_connects : run Bus.step (.init (create 2 4 1) .error) connects = some connected := by
  obtain ⟨bus, hbus⟩ := Option.isSome_iff_exists.1
    (show (run Bus.step (.init (create 2 4 1) .error) connects).isSome = true by decide)
  rw [connected, hbus]
  rfl

/-- The coroutine `t` calls `recv` and is suspended. -/
def suspends (t : Nat) : List Act := [.recv t, .go, .next, .go, .go, .next]

/-- A message comes while the coroutine 0 is suspended. -/
def oneCoroutine : List Act :=
  .bus (.begin (.waitForSubscribers 1)) :: List.replicate 3 (.bus .publisher) ++ suspends 0 ++
    .bus (.begin (.publish [7])) :: List.replicate 11 (.bus .publisher)

/-- The coroutine 1 replaces the readers of the coroutine 0, and takes the message. -/
def twoCoroutines : List Act :=
  .bus (.begin (.waitForSubscribers 1)) :: List.replicate 3 (.bus .publisher) ++ suspends 0 ++ suspends 1 ++
    .bus (.begin (.publish [7])) :: List.replicate 11 (.bus .publisher) ++
    [.onData 1, .go, .next, .resume 1] ++ List.replicate 6 .go ++ [.next]

theorem recv_woken_coroutines :
    (∃ s, run step (start connected 0) oneCoroutine = some s ∧ s.Attended 0 ∧ s.sub.cursor < s.bus.chan.ring.tail) ∧
      ∃ s, run step (start connected 0) twoCoroutines = some s ∧ s.returned = [(1, [7])] ∧
        ∀ acts' s', .cancel 0 ∉ acts' → run step s acts' = some s' → s'.futs 0 = some .pending := by
  obtain ⟨s, hrun, hs⟩ := Option.map_eq_some_iff.1
    (show (run step (start connected 0) oneCoroutine).map
        (fun s => (s.futs 0, s.active, s.sub.cursor, s.bus.chan.ring.tail)) =
      some (some .pending, some 0, 0, 1) by decide)
  obtain ⟨s', hrun', hs'⟩ := Option.map_eq_some_iff.1
    (show (run step (start connected 0) twoCoroutines).map (fun s => (s.futs 0, s.wfd, s.returned)) =
      some (some .pending, none, [(1, [7])]) by decide)
  simp only [Prod.mk.injEq] at hs hs'
  obtain ⟨-, hattended, -⟩ := recv_woken (Bus.started_create (by decide)) run_connects (by decide) (by decide) hrun
  obtain ⟨-, -, -, hstranded⟩ := recv_woken (Bus.started_create (by decide)) run_connects (by decide) (by decide) hrun'
  refine ⟨⟨s, hrun, hattended ?_ 0 hs.1 hs.2.1, by omega⟩, s', hrun', hs'.2.2, hstranded 0 hs'.1 (by simp [hs'])⟩
  exact Bus.meets_wakesOwner_of_alone (Bus.started_create (by decide)) (by decide) (by decide)

end EventLoop

end Mmbus
