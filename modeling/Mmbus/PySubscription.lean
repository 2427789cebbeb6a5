import Mmbus.AsyncReceive
import Mmbus.Lib.BorrowFlag

/-!
# A subscription that threads share

One `Subscription` object and the threads of a process that call its methods, over the accesses of the publisher and of
every subscriber (`Mmbus.Bus`).  The methods that receive borrow the object exclusively and keep the borrow while they wait
without the GIL; a call that comes meanwhile, be it for a getter, is refused with a `RuntimeError`.

`received_once`: however the threads take turns, the calls hand out each message of the ring once and in its order.
-/

namespace Mmbus

open BorrowFlag RingBuffer Transition

namespace PySubscription

inductive Method
  | recv
  | recvTimeout
  | tryRecv
  | recvBatch (n : Nat)
  | lag
  | cursor
  deriving DecidableEq

/-- `&self` or `&mut self` -/
def Method.borrow : Method → Borrow
  | lag | cursor => .shared
  | recv | recvTimeout | tryRecv | recvBatch _ => .exclusive

/-- The call on the subscription that the method begins with -/
def Method.first : Method → Option Mmbus.Call
  | recv => some (.receive false)
  | recvTimeout => some (.receive true)
  | tryRecv => some .tryReceive
  | recvBatch n => if n = 0 then none else some (.receive true)
  | lag | cursor => none

/-- How a call ends; `None` is no message. -/
inductive Result
  | messages (got : List Bytes)
  | number (n : Nat)
  | eof
  | borrowed
  deriving DecidableEq

def Result.messages? : Result → List Bytes
  | messages got => got
  | _ => []

/-- A call in progress, with the messages it has already -/
structure Call where
  thread : Nat
  method : Method
  got : List Bytes

/-- A call that has ended -/
structure Record where
  thread : Nat
  method : Method
  result : Result

end PySubscription

open PySubscription

structure PySubscription where
  bus : Bus
  /-- The subscriber behind the object -/
  me : Nat
  flag : Flag
  calls : List PySubscription.Call
  ended : List Record

namespace PySubscription

/-- The steps: one of the publisher or of another subscriber, a call of a method, the next access of a call, and what
follows when its call on the subscription has returned. -/
inductive Act
  | bus (a : Mmbus.Act)
  | begin (thread : Nat) (method : Method)
  | go (thread : Nat) (choice : Choice)
  | next (thread : Nat)

/-- What can happen in a receive call -/
def waits : Choice → Bool
  | .go | .timeout | .pollWake | .pollHup => true
  | _ => false

variable (s : PySubscription)

def sub : Subscriber := s.bus.subs s.me

def access (choice : Choice) : Option PySubscription :=
  (s.bus.step (.sub s.me choice)).map fun bus => { s with bus := bus }

def record (thread : Nat) (method : Method) (result : Result) : PySubscription :=
  { s with ended := s.ended ++ [⟨thread, method, result⟩] }

/-- A method that makes no call on the subscription -/
def body : Method → Result
  | .lag => .number (s.bus.chan.ring.tail - s.sub.cursor)
  | .cursor => .number s.sub.cursor
  | _ => .messages []

def callOf (thread : Nat) : Option Call := s.calls.find? fun c => c.thread == thread

/-- The call ends, and gives its borrow back. -/
def finish (c : Call) (result : Result) : PySubscription :=
  { s with
    flag := s.flag.giveBack
    calls := s.calls.eraseP fun c' => c'.thread == c.thread }.record c.thread c.method result

/-- The method wants a further message when it has got `got`. -/
def wantsMore (method : Method) (got : List Bytes) : Bool :=
  match method with
  | .recvBatch n => got.length < n
  | _ => false

def setGot (thread : Nat) (got : List Bytes) : PySubscription :=
  { s with calls := s.calls.map fun c => if c.thread = thread then { c with got := got } else c }

/-- The call begins, with its first call on the subscription. -/
def enter (thread : Nat) (method : Method) (flag : Flag) : PySubscription :=
  { s with flag := flag, calls := s.calls ++ [⟨thread, method, []⟩] }

/-- The call has received a message. -/
def receive (c : Call) : Option PySubscription :=
  let got := c.got ++ s.sub.delivered.getLast?.toList
  if wantsMore c.method got then (s.setGot c.thread got).access (.call .tryReceive)
  else some (s.finish c (.messages got))

/-- One step -/
def step : Act → Option PySubscription
  | .bus a => if EventLoop.own s.me a then none else (s.bus.step a).map fun bus => { s with bus := bus }
  | .begin thread method =>
    if (s.callOf thread).isSome then none
    else
      match s.flag.tryBorrow method.borrow, method.first with
      | none, _ => some (s.record thread method .borrowed)
      | some flag, some call => (s.enter thread method flag).access (.call call)
      -- the borrow is given back before anybody else has the GIL
      | some _, none => some (s.record thread method (s.body method))
  | .go thread choice => if (s.callOf thread).isSome ∧ waits choice then s.access choice else none
  | .next thread =>
    match s.callOf thread, s.sub.pc with
    | some c, .ready .message => s.receive c
    | some c, .ready .eof => some (s.finish c .eof)
    | some c, .ready _ => some (s.finish c (.messages c.got))
    | _, _ => none

/-- The object has just been made for the subscriber `me`. -/
def new (bus : Bus) (me : Nat) : PySubscription := ⟨bus, me, .shared 0, [], []⟩

variable {s s' : PySubscription}

/-! ### The calls on the subscription -/

/-- Where the subscriber is during a call -/
inductive During : Mmbus.Call → SubscriberPc → Prop
  | receiving {call pc} : During call (.receiving call pc)
  | setFlag {timed} : During (.receive timed) (.setFlag (.receive timed))
  | recheck {timed} : During (.receive timed) (.recheck (.receive timed))
  | unflag {timed} : During (.receive timed) (.unflag (.receive timed))
  | poll {timed} : During (.receive timed) (.poll (.receive timed))
  | drain {timed} : During (.receive timed) (.drain (.receive timed))
  | checkGeneration {timed} : During (.receive timed) (.checkGeneration (.receive timed))
  | clearFlag {timed outcome} (waited : outcome = .readable ∨ outcome = .timedOut ∨ outcome = .eof) :
      During (.receive timed) (.clearFlag (.receive timed) outcome)

/-- How a call ends without a message -/
def Ends : Mmbus.Call → Outcome → Prop
  | .receive timed, outcome => outcome = .eof ∨ timed = true ∧ outcome = .timedOut
  | _, outcome => outcome = .nothing

theorem not_ends_message {call : Mmbus.Call} : ¬Ends call .message := by
  cases call <;> simp [Ends]

/-- What a step of a call comes to: the call goes on, returns a message, or ends without one. -/
def Proceeds (call : Mmbus.Call) (sub sub' : Subscriber) : Prop :=
  (During call sub'.pc ∧ sub'.delivered = sub.delivered) ∨
    (∃ out, sub'.pc = .ready .message ∧ sub'.delivered = sub.delivered ++ [out]) ∨
    ∃ outcome, sub'.pc = .ready outcome ∧ Ends call outcome ∧ sub'.delivered = sub.delivered

theorem proceeds_afterWait {timed : Bool} {outcome : Outcome} {sub sub' : Subscriber}
    (hwaited : outcome = .readable ∨ outcome = .timedOut ∨ outcome = .eof)
    (hpc : sub'.pc = sub.afterWait (.receive timed) outcome) (hdelivered : sub'.delivered = sub.delivered) :
    Proceeds (.receive timed) sub sub' := by
  rcases hwaited with rfl | rfl | rfl
  · refine .inl ⟨?_, hdelivered⟩
    rw [hpc]
    cases timed <;> exact .receiving
  · cases timed with
    | false =>
      refine .inl ⟨?_, hdelivered⟩
      rw [hpc]
      exact .receiving
    | true => exact .inr (.inr ⟨.timedOut, hpc, .inr ⟨rfl, rfl⟩, hdelivered⟩)
  · refine .inr (.inr ⟨.eof, ?_, .inl rfl, hdelivered⟩)
    rw [hpc]
    cases timed <;> rfl

theorem proceeds_afterReceive {call : Mmbus.Call} (hcall : call = .tryReceive ∨ ∃ timed, call = .receive timed)
    (sub : Subscriber) (pc : ReceivePc) : Proceeds call sub (sub.afterReceive call pc) := by
  unfold Subscriber.afterReceive
  split
  · exact .inr (.inl ⟨_, rfl, rfl⟩)
  · rcases hcall with rfl | ⟨timed, rfl⟩
    · exact .inr (.inr ⟨.nothing, rfl, rfl, rfl⟩)
    · exact .inl ⟨.setFlag, rfl⟩
  · exact .inl ⟨.receiving, rfl⟩

theorem proceeds_go {call : Mmbus.Call} {sub sub' : Subscriber} {r r' : RingBuffer} {listening : Bool}
    (hcall : call = .tryReceive ∨ ∃ timed, call = .receive timed) (h : During call sub.pc)
    (hs : sub.go r listening = some (r', sub')) : Proceeds call sub sub' := by
  generalize hpc : sub.pc = place at h
  cases h with
  | receiving =>
    simp only [Subscriber.go, hpc] at hs
    split at hs
    · cases hs
      exact proceeds_afterReceive hcall sub _
    · cases hs
  | setFlag =>
    simp only [Subscriber.go, hpc] at hs
    cases hs
    exact .inl ⟨.recheck, rfl⟩
  | recheck =>
    simp only [Subscriber.go, hpc, reduceCtorEq, if_false] at hs
    split at hs <;> cases hs
    · exact .inl ⟨.unflag, rfl⟩
    · exact .inl ⟨.poll, rfl⟩
  | unflag =>
    simp only [Subscriber.go, hpc] at hs
    cases hs
    exact proceeds_afterWait (.inl rfl) rfl rfl
  | poll =>
    simp only [Subscriber.go, hpc] at hs
    cases hs
  | drain =>
    simp only [Subscriber.go, hpc, reduceCtorEq, if_false, or_self] at hs
    split at hs <;> cases hs
    · exact .inl ⟨.checkGeneration, rfl⟩
    · exact .inl ⟨.clearFlag (.inr (.inl rfl)), rfl⟩
  | checkGeneration =>
    simp only [Subscriber.go, hpc, reduceCtorEq, if_false] at hs
    split at hs <;> cases hs
    · exact .inl ⟨.clearFlag (.inl rfl), rfl⟩
    · exact .inl ⟨.clearFlag (.inr (.inr rfl)), rfl⟩
  | clearFlag hwaited =>
    simp only [Subscriber.go, hpc] at hs
    cases hs
    exact proceeds_afterWait hwaited rfl rfl

/-- A step of a call -/
theorem proceeds_step {call : Mmbus.Call} {sub sub' : Subscriber} {r r' : RingBuffer} {listening : Bool}
    {choice : Choice} (hcall : call = .tryReceive ∨ ∃ timed, call = .receive timed) (h : During call sub.pc)
    (hwaits : waits choice = true) (hs : sub.step r listening choice = some (r', sub')) : Proceeds call sub sub' := by
  obtain ⟨-, ⟨-, hgo⟩ | ⟨-, hd⟩⟩ := Subscriber.step_cases hs
  · exact proceeds_go hcall h hgo
  · cases hd with
    | deadline hpc =>
      rw [hpc] at h
      cases h
      exact .inr (.inr ⟨.timedOut, rfl, .inr ⟨rfl, rfl⟩, rfl⟩)
    | timeout hpc htimed =>
      rw [hpc] at h
      cases h
      exact .inl ⟨.clearFlag (.inr (.inl rfl)), rfl⟩
    | pollWake hpc hready =>
      rw [hpc] at h
      cases h
      exact .inl ⟨.drain, rfl⟩
    | pollHup hpc hready =>
      rw [hpc] at h
      cases h
      exact .inl ⟨.clearFlag (.inr (.inr rfl)), rfl⟩
    | connect | call | noRing | noSocket | drop | kill => cases hwaits

/-- Between two calls nothing happens. -/
theorem stuck_of_ready {sub sub' : Subscriber} {r r' : RingBuffer} {listening : Bool} {choice : Choice} {last : Outcome}
    (hpc : sub.pc = .ready last) (hwaits : waits choice = true) (hs : sub.step r listening choice = some (r', sub')) :
    False := by
  obtain ⟨-, ⟨-, hgo⟩ | ⟨-, hd⟩⟩ := Subscriber.step_cases hs
  · simp only [Subscriber.go, hpc] at hgo
    cases hgo
  · cases hd with
    | deadline hpc' | timeout hpc' | pollWake hpc' | pollHup hpc' =>
      rw [hpc] at hpc'
      cases hpc'
    | connect | call | noRing | noSocket | drop | kill => cases hwaits

theorem during_beginCall {call : Mmbus.Call} (hcall : call = .tryReceive ∨ ∃ timed, call = .receive timed)
    (sub : Subscriber) : During call (sub.beginCall call) := by
  rcases hcall with rfl | ⟨timed, rfl⟩ <;> exact .receiving

/-! ### What a step does -/

/-- The effect of a step -/
inductive Effect (s : PySubscription) : Act → PySubscription → Prop
  | bus {a bus} (other : EventLoop.own s.me a = false) (step : s.bus.step a = some bus) :
      Effect s (.bus a) { s with bus := bus }
  | refused {thread method} (free : s.callOf thread = none) (borrow : s.flag.tryBorrow method.borrow = none) :
      Effect s (.begin thread method) (s.record thread method .borrowed)
  | plain {thread method flag} (free : s.callOf thread = none) (borrow : s.flag.tryBorrow method.borrow = some flag)
      (first : method.first = none) : Effect s (.begin thread method) (s.record thread method (s.body method))
  | begun {thread method flag call bus} (free : s.callOf thread = none)
      (borrow : s.flag.tryBorrow method.borrow = some flag) (first : method.first = some call)
      (step : s.bus.step (.sub s.me (.call call)) = some bus) :
      Effect s (.begin thread method) { s.enter thread method flag with bus := bus }
  | go {thread c choice bus} (call : s.callOf thread = some c) (waits : waits choice = true)
      (step : s.bus.step (.sub s.me choice) = some bus) : Effect s (.go thread choice) { s with bus := bus }
  | more {thread c bus} (call : s.callOf thread = some c) (sub : s.sub.pc = .ready .message)
      (more : wantsMore c.method (c.got ++ s.sub.delivered.getLast?.toList) = true)
      (step : s.bus.step (.sub s.me (.call .tryReceive)) = some bus) :
      Effect s (.next thread) { s.setGot c.thread (c.got ++ s.sub.delivered.getLast?.toList) with bus := bus }
  | enough {thread c} (call : s.callOf thread = some c) (sub : s.sub.pc = .ready .message)
      (enough : wantsMore c.method (c.got ++ s.sub.delivered.getLast?.toList) = false) :
      Effect s (.next thread) (s.finish c (.messages (c.got ++ s.sub.delivered.getLast?.toList)))
  | eof {thread c} (call : s.callOf thread = some c) (sub : s.sub.pc = .ready .eof) :
      Effect s (.next thread) (s.finish c .eof)
  | none {thread c outcome} (call : s.callOf thread = some c) (sub : s.sub.pc = .ready outcome)
      (other : outcome ≠ .message ∧ outcome ≠ .eof) : Effect s (.next thread) (s.finish c (.messages c.got))

theorem step_cases {a : Act} (hs : s.step a = some s') : Effect s a s' := by
  cases a with
  | bus a =>
    simp only [step] at hs
    split at hs
    · cases hs
    · rename_i hown
      obtain ⟨bus, hbus, rfl⟩ := Option.map_eq_some_iff.1 hs
      exact .bus (by simpa using hown) hbus
  | begin thread method =>
    simp only [step] at hs
    split at hs
    · cases hs
    · rename_i hfree
      have hfree' : s.callOf thread = none := by simpa using hfree
      split at hs
      · cases hs
        exact .refused hfree' ‹_›
      · obtain ⟨bus, hbus, rfl⟩ := Option.map_eq_some_iff.1 hs
        exact .begun hfree' ‹_› ‹_› hbus
      · cases hs
        exact .plain hfree' ‹_› ‹_›
  | go thread choice =>
    simp only [step] at hs
    split at hs
    · rename_i hc
      obtain ⟨c, hcall⟩ := Option.isSome_iff_exists.1 hc.1
      obtain ⟨bus, hbus, rfl⟩ := Option.map_eq_some_iff.1 hs
      exact .go hcall hc.2 hbus
    · cases hs
  | next thread =>
    simp only [step] at hs
    split at hs
    · rename_i c hcall hsub
      simp only [receive] at hs
      split at hs
      · rename_i hmore
        obtain ⟨bus, hbus, rfl⟩ := Option.map_eq_some_iff.1 hs
        exact .more hcall hsub hmore hbus
      · rename_i hmore
        cases hs
        exact .enough hcall hsub (by simpa using hmore)
    · cases hs
      exact .eof ‹_› ‹_›
    · rename_i c outcome hmessage heof hcall hsub
      cases hs
      exact .none hcall hsub ⟨hmessage, heof⟩
    · cases hs

/-- The steps of the bus in a step of the system -/
def busSteps (s : PySubscription) : Act → List Mmbus.Act
  | .bus a => [a]
  | .begin _ method =>
    match s.flag.tryBorrow method.borrow, method.first with
    | some _, some call => [.sub s.me (.call call)]
    | _, _ => []
  | .go _ choice => [.sub s.me choice]
  | .next thread =>
    match s.callOf thread, s.sub.pc with
    | some c, .ready .message =>
      if wantsMore c.method (c.got ++ s.sub.delivered.getLast?.toList) then [.sub s.me (.call .tryReceive)] else []
    | _, _ => []

/-- What a step does to the bus -/
theorem bus_of_step {a : Act} (hs : s.step a = some s') : run Bus.step s.bus (s.busSteps a) = some s'.bus := by
  have single : ∀ {b bus}, s.bus.step b = some bus → run Bus.step s.bus [b] = some bus := fun h =>
    run_cons.2 ⟨_, h, rfl⟩
  cases step_cases hs with
  | bus other hbus => exact single hbus
  | refused free borrow => simp [busSteps, borrow, record]
  | plain free borrow first => simp [busSteps, first, record]
  | begun free borrow first hbus => simpa only [busSteps, borrow, first] using single hbus
  | go call waits hbus => exact single hbus
  | more call sub more hbus => simpa only [busSteps, call, sub, more, if_true] using single hbus
  | enough call sub enough => simp [busSteps, call, sub, enough, finish, record]
  | eof call sub => simp [busSteps, call, sub, finish, record]
  | none call sub other =>
    simp only [busSteps, call, sub]
    split
    · rename_i heq
      exact absurd (by simpa using heq) other.1
    · rfl

/-! ### Every run -/

/-- How many messages a call returns at most -/
def Method.limit : Method → Nat
  | recv | recvTimeout | tryRecv => 1
  | recvBatch n => n
  | lag | cursor => 0

/-- What a call of the method can return -/
def Method.Returns : Method → Result → Prop
  | _, .borrowed => True
  | .recv, .messages got => got.length = 1
  | .recvTimeout, .messages got | .tryRecv, .messages got => got.length ≤ 1
  | .recvBatch n, .messages got => got.length ≤ n
  | .recv, .eof | .recvTimeout, .eof | .recvBatch _, .eof => True
  | .lag, .number _ | .cursor, .number _ => True
  | _, _ => False

/-- Where the subscriber is while the call `c` is in progress -/
inductive Inside (c : Call) (sub : Subscriber) : Prop
  | first {call} (first : c.method.first = some call) (got : c.got = []) (during : During call sub.pc)
  | batch {n} (method : c.method = .recvBatch n) (during : During .tryReceive sub.pc)
  | message (pc : sub.pc = .ready .message) (delivered : sub.delivered ≠ [])
  | ended {call outcome} (first : c.method.first = some call) (got : c.got = []) (pc : sub.pc = .ready outcome)
      (ends : Ends call outcome)
  | drained {n} (method : c.method = .recvBatch n) (pc : sub.pc = .ready .nothing)

theorem Inside.of_eq {c : Call} {sub sub' : Subscriber} (h : Inside c sub) (hpc : sub'.pc = sub.pc)
    (hdelivered : sub'.delivered = sub.delivered) : Inside c sub' := by
  cases h with
  | first hfirst hgot hduring => exact .first hfirst hgot (hpc ▸ hduring)
  | batch hmethod hduring => exact .batch hmethod (hpc ▸ hduring)
  | message hmessage hne => exact .message (hpc.trans hmessage) (hdelivered ▸ hne)
  | ended hfirst hgot hready hends => exact .ended hfirst hgot (hpc.trans hready) hends
  | drained hmethod hready => exact .drained hmethod (hpc.trans hready)

/-- The message of a call that has returned, before the caller has it -/
def inHand (s : PySubscription) : List Bytes :=
  match s.calls, s.sub.pc with
  | _ :: _, .ready .message => s.sub.delivered.getLast?.toList
  | _, _ => []

/-- The messages that the calls have, in the order in which the subscription gave them -/
def handed (s : PySubscription) : List Bytes :=
  s.ended.flatMap (fun r => r.result.messages?) ++ s.calls.flatMap Call.got ++ s.inHand

/-- The invariant, where `base` has been delivered before the object was made -/
structure Inv (base : List Bytes) (s : PySubscription) : Prop where
  inv : s.bus.Inv
  counts : Counts s.flag (s.calls.map fun c => c.method.borrow)
  exclusive : ∀ c ∈ s.calls, c.method.borrow = .exclusive
  idle : s.calls = [] → ∃ last, s.sub.pc = .ready last
  inside : ∀ c ∈ s.calls, Inside c s.sub
  room : ∀ c ∈ s.calls, c.got.length < c.method.limit
  delivered : base ++ s.handed = s.sub.delivered
  returns : ∀ r ∈ s.ended, r.method.Returns r.result

theorem first_cases {method : Method} {call : Mmbus.Call} (h : method.first = some call) :
    method.borrow = .exclusive ∧ 0 < method.limit ∧ (call = .tryReceive ∨ ∃ timed, call = .receive timed) := by
  cases method with
  | recv | recvTimeout | tryRecv =>
    cases h
    simp [Method.borrow, Method.limit]
  | recvBatch n =>
    simp only [Method.first] at h
    split at h
    · cases h
    · cases h
      refine ⟨rfl, Nat.pos_of_ne_zero ‹_›, .inr ⟨true, rfl⟩⟩
  | lag | cursor => cases h

namespace Inv

variable {base : List Bytes} {c : Call}

theorem new {bus : Bus} {me : Nat} (hinv : bus.Inv) (hpc : (bus.subs me).pc = .ready .connected) :
    Inv (bus.subs me).delivered (.new bus me) where
  inv := hinv
  counts := counts_nil
  exclusive := fun _ h => by cases h
  idle := fun _ => ⟨_, hpc⟩
  inside := fun _ h => by cases h
  room := fun _ h => by cases h
  delivered := List.append_nil _
  returns := fun _ h => by cases h

/-- There is one call in progress at a time. -/
theorem single (h : Inv base s) (hc : c ∈ s.calls) : s.calls = [c] := by
  have hcounts := h.counts
  cases hflag : s.flag with
  | shared n =>
    rw [hflag] at hcounts
    have hshared : (s.calls.map fun c => c.method.borrow) = List.replicate n .shared := hcounts
    have hmem : c.method.borrow ∈ s.calls.map fun c => c.method.borrow := List.mem_map_of_mem hc
    rw [hshared] at hmem
    have heq := (List.mem_replicate.1 hmem).2
    rw [h.exclusive c hc] at heq
    cases heq
  | exclusive =>
    rw [hflag] at hcounts
    have hone : s.calls.map (fun c => c.method.borrow) = [.exclusive] := hcounts
    obtain ⟨c', hcalls, -⟩ := List.map_eq_singleton_iff.1 hone
    rw [hcalls, List.mem_singleton] at hc
    rw [hcalls, hc]

/-- A call is refused exactly when one is in progress. -/
theorem refused_iff (h : Inv base s) (method : Method) : s.flag.tryBorrow method.borrow = none ↔ s.calls ≠ [] := by
  rw [tryBorrow_eq_none h.counts]
  constructor
  · rintro ⟨o, ho, -⟩ hnil
    rw [hnil] at ho
    cases ho
  · intro hne
    obtain ⟨c, hc⟩ := List.exists_mem_of_ne_nil _ hne
    refine ⟨.exclusive, ?_, ?_⟩
    · exact List.mem_map.2 ⟨c, hc, h.exclusive c hc⟩
    · cases method.borrow <;> rfl

/-- The subscription goes on in the call `c`: the call proceeds, or it has a message. -/
theorem proceed {bus : Bus} (h : Inv base s) (hc : c ∈ s.calls) (hinv : bus.Inv) (hnot : s.sub.pc ≠ .ready .message)
    (hsub : Inside c (bus.subs s.me) ∧ (bus.subs s.me).delivered = s.sub.delivered ∧
        (bus.subs s.me).pc ≠ .ready .message ∨
      ∃ out, (bus.subs s.me).pc = .ready .message ∧ (bus.subs s.me).delivered = s.sub.delivered ++ [out]) :
    Inv base { s with bus := bus } := by
  have hcalls := h.single hc
  have hhand : s.inHand = [] := by
    unfold inHand
    split
    · contradiction
    · rfl
  have hdelivered := h.delivered
  rw [handed, hhand, List.append_nil] at hdelivered
  refine ⟨hinv, h.counts, h.exclusive, fun hnil => ?_, fun c' hc' => ?_, h.room, ?_, h.returns⟩
  · have hnil' : s.calls = [] := hnil
    rw [hnil'] at hc
    cases hc
  · have hmem : c' ∈ s.calls := hc'
    rw [hcalls, List.mem_singleton] at hmem
    rw [hmem]
    rcases hsub with ⟨hinside, -, -⟩ | ⟨out, hpc, hout⟩
    · exact hinside
    · refine .message hpc ?_
      change (bus.subs s.me).delivered ≠ []
      rw [hout]
      simp
  · rcases hsub with ⟨-, hsame, hpc⟩ | ⟨out, hpc, hout⟩
    · have hhand' : ({ s with bus := bus } : PySubscription).inHand = [] := by
        unfold inHand
        split
        · contradiction
        · rfl
      rw [handed, hhand', List.append_nil]
      exact hdelivered.trans hsame.symm
    · have hhand' : ({ s with bus := bus } : PySubscription).inHand = [out] := by
        simp only [inHand, hcalls, sub, hpc, hout, List.getLast?_concat, Option.toList_some]
      rw [handed, hhand', ← List.append_assoc, hdelivered]
      exact hout.symm

/-- The call ends with what it has got and with the message in hand. -/
theorem finish {result : Result} {last : Outcome} (h : Inv base s) (hc : c ∈ s.calls) (hpc : s.sub.pc = .ready last)
    (hreturns : c.method.Returns result) (hmessages : result.messages? = c.got ++ s.inHand) :
    Inv base (s.finish c result) := by
  have hcalls := h.single hc
  have hnil : (s.finish c result).calls = [] := by
    simp only [PySubscription.finish, record, hcalls]
    exact List.eraseP_cons_of_pos (by simp)
  have hcounts : Counts s.flag ([] ++ c.method.borrow :: []) := by
    have := h.counts
    rwa [hcalls] at this
  have hdelivered := h.delivered
  rw [handed, hcalls] at hdelivered
  refine ⟨h.inv, ?_, fun c' hc' => ?_, fun _ => ⟨last, hpc⟩, fun c' hc' => ?_, fun c' hc' => ?_, ?_, fun r hr => ?_⟩
  · rw [hnil]
    exact hcounts.giveBack
  · rw [hnil] at hc'
    cases hc'
  · rw [hnil] at hc'
    cases hc'
  · rw [hnil] at hc'
    cases hc'
  · have hhand : (s.finish c result).inHand = [] := by
      unfold inHand
      rw [hnil]
    have hended : (s.finish c result).ended = s.ended ++ [⟨c.thread, c.method, result⟩] := rfl
    have hsub : (s.finish c result).sub = s.sub := rfl
    rw [handed, hhand, hnil, hended, List.flatMap_append, hsub]
    simpa [hmessages] using hdelivered
  · rcases List.mem_append.1 hr with hr | hr
    · exact h.returns r hr
    · obtain rfl := List.mem_singleton.1 hr
      exact hreturns

/-- A call that is over at once, or refused -/
theorem record {thread : Nat} {method : Method} {result : Result} (h : Inv base s) (hreturns : method.Returns result)
    (hmessages : result.messages? = []) : Inv base (s.record thread method result) := by
  refine ⟨h.inv, h.counts, h.exclusive, h.idle, h.inside, h.room, ?_, fun r hr => ?_⟩
  · have hhanded : (s.record thread method result).handed = s.handed := by
      have hended : (s.record thread method result).ended = s.ended ++ [⟨thread, method, result⟩] := rfl
      have hhand : (s.record thread method result).inHand = s.inHand := rfl
      have hcalls : (s.record thread method result).calls = s.calls := rfl
      rw [handed, hhand, hcalls, hended, List.flatMap_append, List.flatMap_singleton, hmessages, List.append_nil]
      rfl
    rw [hhanded]
    exact h.delivered
  · rcases List.mem_append.1 hr with hr | hr
    · exact h.returns r hr
    · obtain rfl := List.mem_singleton.1 hr
      exact hreturns

theorem returns_body {method : Method} (hfirst : method.first = none) (s : PySubscription) :
    method.Returns (s.body method) ∧ (s.body method).messages? = [] := by
  cases method with
  | recv | recvTimeout | tryRecv => cases hfirst
  | recvBatch n => exact ⟨Nat.zero_le _, rfl⟩
  | lag | cursor => exact ⟨trivial, rfl⟩

/-- An access of the call in progress -/
theorem go {bus : Bus} {choice : Choice} (h : Inv base s) (hc : c ∈ s.calls) (hwaits : waits choice = true)
    (hs : s.bus.step (.sub s.me choice) = some bus) : Inv base { s with bus := bus } := by
  obtain ⟨r, hsub⟩ := EventLoop.sub_of_step hs
  have hinv : bus.Inv := h.inv.step hs
  have hnot {call : Mmbus.Call} (hduring : During call s.sub.pc) : s.sub.pc ≠ .ready .message := by
    intro hpc
    rw [hpc] at hduring
    cases hduring
  have hnot' {call : Mmbus.Call} (hduring : During call (bus.subs s.me).pc) : (bus.subs s.me).pc ≠ .ready .message := by
    intro hpc
    rw [hpc] at hduring
    cases hduring
  cases h.inside c hc with
  | message hpc => exact (stuck_of_ready hpc hwaits hsub).elim
  | ended hfirst hgot hpc => exact (stuck_of_ready hpc hwaits hsub).elim
  | drained hmethod hpc => exact (stuck_of_ready hpc hwaits hsub).elim
  | first hfirst hgot hduring =>
    refine h.proceed hc hinv (hnot hduring) ?_
    rcases proceeds_step (first_cases hfirst).2.2 hduring hwaits hsub with
      ⟨hduring', hsame⟩ | ⟨out, hmessage⟩ | ⟨outcome, hpc, hends, hsame⟩
    · exact .inl ⟨.first hfirst hgot hduring', hsame, hnot' hduring'⟩
    · exact .inr ⟨out, hmessage⟩
    · refine .inl ⟨.ended hfirst hgot hpc hends, hsame, ?_⟩
      rw [hpc]
      rintro heq
      cases heq
      exact not_ends_message hends
  | batch hmethod hduring =>
    refine h.proceed hc hinv (hnot hduring) ?_
    rcases proceeds_step (.inl rfl) hduring hwaits hsub with
      ⟨hduring', hsame⟩ | ⟨out, hmessage⟩ | ⟨outcome, hpc, hends, hsame⟩
    · exact .inl ⟨.batch hmethod hduring', hsame, hnot' hduring'⟩
    · exact .inr ⟨out, hmessage⟩
    · obtain rfl : outcome = .nothing := hends
      refine .inl ⟨.drained hmethod hpc, hsame, ?_⟩
      rw [hpc]
      simp

theorem inHand_of_message (hc : c ∈ s.calls) (hpc : s.sub.pc = .ready .message) :
    s.inHand = s.sub.delivered.getLast?.toList := by
  unfold inHand
  cases hcalls : s.calls with
  | nil =>
    rw [hcalls] at hc
    cases hc
  | cons c' calls => rw [hpc]

/-- A step of the publisher or of another subscriber -/
theorem bus {a : Mmbus.Act} {bus : Bus} (h : Inv base s) (hown : EventLoop.own s.me a = false)
    (hs : s.bus.step a = some bus) : Inv base { s with bus := bus } := by
  obtain ⟨hpc, -, hdelivered⟩ := EventLoop.sub_of_other h.inv hown hs
  have hhanded : ({ s with bus := bus } : PySubscription).handed = s.handed := by
    simp only [handed, inHand, sub, hpc, hdelivered]
  refine ⟨h.inv.step hs, h.counts, h.exclusive, fun hnil => ?_, fun c hc => ?_, h.room, ?_, h.returns⟩
  · obtain ⟨last, hlast⟩ := h.idle hnil
    exact ⟨last, hpc.trans hlast⟩
  · exact (h.inside c hc).of_eq hpc hdelivered
  · rw [hhanded]
    exact h.delivered.trans hdelivered.symm

/-- A call begins when there is none. -/
theorem enter {thread : Nat} {method : Method} {flag : Flag} {call : Mmbus.Call} {bus : Bus} (h : Inv base s)
    (hborrow : s.flag.tryBorrow method.borrow = some flag) (hfirst : method.first = some call)
    (hs : s.bus.step (.sub s.me (.call call)) = some bus) : Inv base { s.enter thread method flag with bus := bus } := by
  obtain ⟨hexclusive, hlimit, hcall⟩ := first_cases hfirst
  have hnil : s.calls = [] := by
    by_contra hne
    rw [(h.refused_iff method).2 hne] at hborrow
    cases hborrow
  have hcalls : ({ s.enter thread method flag with bus := bus } : PySubscription).calls = [⟨thread, method, []⟩] := by
    simp only [PySubscription.enter, hnil, List.nil_append]
  have hsub := EventLoop.sub_of_call hs
  have hduring : During call (bus.subs s.me).pc := by
    rw [hsub]
    exact during_beginCall hcall _
  have hcounts := h.counts.borrow hborrow
  rw [hnil] at hcounts
  refine ⟨h.inv.step hs, ?_, fun c hc => ?_, fun hempty => ?_, fun c hc => ?_, fun c hc => ?_, ?_, h.returns⟩
  · rw [hcalls]
    exact hcounts
  · rw [hcalls, List.mem_singleton] at hc
    rw [hc]
    exact hexclusive
  · rw [hcalls] at hempty
    cases hempty
  · rw [hcalls, List.mem_singleton] at hc
    rw [hc]
    exact .first hfirst rfl hduring
  · rw [hcalls, List.mem_singleton] at hc
    rw [hc]
    exact hlimit
  · have hdelivered : (bus.subs s.me).delivered = s.sub.delivered := by
      rw [hsub]
      rfl
    have hhand : s.inHand = [] := by
      unfold inHand
      rw [hnil]
    have hhand' : ({ s.enter thread method flag with bus := bus } : PySubscription).inHand = [] := by
      unfold inHand
      split
      · rename_i hpc
        have hpc' : (bus.subs s.me).pc = .ready .message := hpc
        rw [hpc'] at hduring
        cases hduring
      · rfl
    have hbefore := h.delivered
    rw [handed, hhand, hnil] at hbefore
    rw [handed, hhand', hcalls]
    change base ++ (s.ended.flatMap (fun r => r.result.messages?) ++ [] ++ []) = (bus.subs s.me).delivered
    rw [hdelivered]
    exact hbefore

/-- A batch that goes on -/
theorem more {bus : Bus} {got : List Bytes} (h : Inv base s) (hc : c ∈ s.calls) (hgot : got = c.got ++ s.inHand)
    (hmore : wantsMore c.method got = true) (hs : s.bus.step (.sub s.me (.call .tryReceive)) = some bus) :
    Inv base { s.setGot c.thread got with bus := bus } := by
  obtain ⟨n, hmethod, hlength⟩ : ∃ n, c.method = .recvBatch n ∧ got.length < n := by
    cases hmethod : c.method with
    | recvBatch n =>
      rw [hmethod] at hmore
      exact ⟨n, rfl, of_decide_eq_true hmore⟩
    | recv | recvTimeout | tryRecv | lag | cursor =>
      rw [hmethod] at hmore
      cases hmore
  have hcalls := h.single hc
  have hcalls' : ({ s.setGot c.thread got with bus := bus } : PySubscription).calls = [{ c with got := got }] := by
    simp only [setGot, hcalls, List.map_cons, List.map_nil, if_true]
  have hsub := EventLoop.sub_of_call hs
  have hduring : During .tryReceive (bus.subs s.me).pc := by
    rw [hsub]
    exact during_beginCall (.inl rfl) _
  have hhand' : ({ s.setGot c.thread got with bus := bus } : PySubscription).inHand = [] := by
    unfold inHand
    split
    · rename_i hmessage
      have hmessage' : (bus.subs s.me).pc = .ready .message := hmessage
      rw [hmessage'] at hduring
      cases hduring
    · rfl
  refine ⟨h.inv.step hs, ?_, fun c' hc' => ?_, fun hempty => ?_, fun c' hc' => ?_, fun c' hc' => ?_, ?_, h.returns⟩
  · have hcounts := h.counts
    rw [hcalls] at hcounts
    rw [hcalls']
    exact hcounts
  · rw [hcalls', List.mem_singleton] at hc'
    rw [hc']
    exact h.exclusive c hc
  · rw [hcalls'] at hempty
    cases hempty
  · rw [hcalls', List.mem_singleton] at hc'
    rw [hc']
    exact .batch hmethod hduring
  · rw [hcalls', List.mem_singleton] at hc'
    rw [hc', hmethod]
    exact hlength
  · have hdelivered : (bus.subs s.me).delivered = s.sub.delivered := by
      rw [hsub]
      rfl
    have hbefore := h.delivered
    rw [handed, hcalls] at hbefore
    rw [handed, hhand', hcalls']
    change base ++ (s.ended.flatMap (fun r => r.result.messages?) ++ (got ++ []) ++ []) = (bus.subs s.me).delivered
    rw [hdelivered, ← hbefore, hgot]
    simp

theorem inHand_of_other {outcome : Outcome} (hpc : s.sub.pc = .ready outcome) (hother : outcome ≠ .message) :
    s.inHand = [] := by
  unfold inHand
  split
  · rename_i hmessage
    rw [hpc] at hmessage
    cases hmessage
    exact absurd rfl hother
  · rfl

/-- What a call returns when it has got its last message -/
theorem returns_enough (h : Inv base s) (hc : c ∈ s.calls) (hpc : s.sub.pc = .ready .message) :
    c.method.Returns (.messages (c.got ++ s.sub.delivered.getLast?.toList)) := by
  have hroom := h.room c hc
  have hlast : s.sub.delivered.getLast?.toList.length = 1 := by
    have hne : s.sub.delivered ≠ [] := by
      cases h.inside c hc with
      | message _ hne => exact hne
      | first _ _ hduring | batch _ hduring =>
        rw [hpc] at hduring
        cases hduring
      | ended _ _ hready hends =>
        rw [hpc] at hready
        cases hready
        exact (not_ends_message hends).elim
      | drained _ hready =>
        rw [hpc] at hready
        cases hready
    rw [List.getLast?_eq_getLast_of_ne_nil hne, Option.toList_some, List.length_singleton]
  have hlength : (c.got ++ s.sub.delivered.getLast?.toList).length = c.got.length + 1 := by
    rw [List.length_append, hlast]
  cases hmethod : c.method <;> rw [hmethod] at hroom <;> simp only [Method.limit, Method.Returns] at hroom ⊢ <;> omega

/-- Without a message a call returns what it has, or nothing and an error. -/
theorem returns_other {outcome : Outcome} (h : Inv base s) (hc : c ∈ s.calls) (hpc : s.sub.pc = .ready outcome)
    (hother : outcome ≠ .message) :
    (outcome = .eof → c.got = [] ∧ c.method.Returns .eof) ∧
      (outcome ≠ .eof → c.method.Returns (.messages c.got)) := by
  have hroom := h.room c hc
  cases h.inside c hc with
  | message hmessage =>
    rw [hpc] at hmessage
    cases hmessage
    exact absurd rfl hother
  | first _ _ hduring | batch _ hduring =>
    rw [hpc] at hduring
    cases hduring
  | ended hfirst hgot hready hends =>
    rw [hpc] at hready
    cases hready
    rw [hgot]
    cases hmethod : c.method with
    | recv =>
      rw [hmethod] at hfirst
      cases hfirst
      rcases hends with rfl | ⟨hfalse, -⟩
      · exact ⟨fun _ => ⟨rfl, trivial⟩, fun hne => absurd rfl hne⟩
      · cases hfalse
    | recvTimeout => exact ⟨fun _ => ⟨rfl, trivial⟩, fun _ => Nat.zero_le _⟩
    | tryRecv =>
      rw [hmethod] at hfirst
      cases hfirst
      obtain rfl : outcome = .nothing := hends
      exact ⟨fun heof => absurd heof (by simp), fun _ => Nat.zero_le _⟩
    | recvBatch n => exact ⟨fun _ => ⟨rfl, trivial⟩, fun _ => Nat.zero_le _⟩
    | lag | cursor =>
      rw [hmethod] at hfirst
      cases hfirst
  | drained hmethod hready =>
    rw [hpc] at hready
    cases hready
    rw [hmethod] at hroom ⊢
    exact ⟨fun heof => absurd heof (by simp), fun _ => Nat.le_of_lt hroom⟩

theorem step {a : Act} (h : Inv base s) (hs : s.step a = some s') : Inv base s' := by
  have hmem {thread : Nat} {c : Call} (hcall : s.callOf thread = some c) : c ∈ s.calls :=
    List.mem_of_find?_eq_some hcall
  cases step_cases hs with
  | bus hown hbus => exact h.bus hown hbus
  | refused hfree hborrow => exact h.record trivial rfl
  | plain hfree hborrow hfirst =>
    obtain ⟨hreturns, hmessages⟩ := returns_body hfirst s
    exact h.record hreturns hmessages
  | begun hfree hborrow hfirst hbus => exact h.enter hborrow hfirst hbus
  | go hcall hwaits hbus => exact h.go (hmem hcall) hwaits hbus
  | more hcall hpc hmore hbus =>
    refine h.more (hmem hcall) ?_ hmore hbus
    rw [inHand_of_message (hmem hcall) hpc]
  | enough hcall hpc henough =>
    refine h.finish (hmem hcall) hpc (h.returns_enough (hmem hcall) hpc) ?_
    rw [inHand_of_message (hmem hcall) hpc]
    rfl
  | eof hcall hpc =>
    obtain ⟨hgot, hreturns⟩ := (h.returns_other (hmem hcall) hpc (by simp)).1 rfl
    refine h.finish (hmem hcall) hpc hreturns ?_
    rw [hgot, inHand_of_other hpc (by simp)]
    rfl
  | none hcall hpc hother =>
    refine h.finish (hmem hcall) hpc ((h.returns_other (hmem hcall) hpc hother.1).2 hother.2) ?_
    rw [inHand_of_other hpc hother.1, List.append_nil]
    rfl

/-- A call is refused exactly when one is in progress. -/
theorem begin_refused_iff {thread : Nat} {method : Method} (h : Inv base s)
    (hs : s.step (.begin thread method) = some s') : s' = s.record thread method .borrowed ↔ s.calls ≠ [] := by
  rw [← h.refused_iff method]
  cases step_cases hs with
  | refused hfree hborrow => exact iff_of_true rfl hborrow
  | plain hfree hborrow hfirst =>
    refine iff_of_false (fun heq => ?_) (by rw [hborrow]; simp)
    have hended := congrArg PySubscription.ended heq
    have hresult : s.body method = .borrowed := by simpa [PySubscription.record] using hended
    cases method <;> cases hresult
  | begun hfree hborrow hfirst hbus =>
    refine iff_of_false (fun heq => ?_) (by rw [hborrow]; simp)
    have hcalls := congrArg (fun s : PySubscription => s.calls.length) heq
    simp [PySubscription.record, PySubscription.enter] at hcalls

theorem run {as : List Act} (h : Inv base s) (hrun : Transition.run PySubscription.step s as = some s') : Inv base s' :=
  run_invariant (Inv base) (fun _ _ _ h hs => h.step hs) h hrun

theorem calls_length (h : Inv base s) : s.calls.length ≤ 1 := by
  cases hcalls : s.calls with
  | nil => exact Nat.zero_le _
  | cons c calls =>
    have hc : c ∈ s.calls := by
      rw [hcalls]
      exact List.mem_cons_self ..
    rw [← hcalls, h.single hc]
    exact le_rfl

end Inv

/-- However the threads take turns in the methods of one subscription, and whatever the publisher and the other
subscribers do meanwhile, the calls have what the ring has given since the object was made, each message once and in its
order, without a gap where nobody overtakes a reader; each call returns as many messages as its method says, and it is
refused exactly when another one is in progress. -/
theorem received_once {r : RingBuffer} {backpressure : BackpressurePolicy} (hr : r.Started) {before : List Mmbus.Act}
    {bus : Bus} (hbus : Transition.run Bus.step (.init r backpressure) before = some bus) {me : Nat}
    (hconnected : (bus.subs me).pc = .ready .connected) {acts : List Act}
    (hrun : Transition.run step (new bus me) acts = some s) :
    (bus.subs me).delivered ++ s.handed = s.sub.delivered ∧
      (backpressure = .error → (∀ a ∈ before ++ innerSteps step busSteps (new bus me) acts, Bus.NowOnly a = true) →
        s.sub.Stream s.bus.chan.log) ∧
      s.calls.length ≤ 1 ∧ (∀ call ∈ s.ended, call.method.Returns call.result) ∧
      ∀ thread method s', s.step (.begin thread method) = some s' →
        (s' = s.record thread method .borrowed ↔ s.calls ≠ []) := by
  have hbase : bus.Inv := run_invariant Bus.Inv (fun _ _ _ h hs => h.step hs) (Bus.Inv.init hr) hbus
  have hinv := (Inv.new hbase hconnected).run hrun
  have htrace : Transition.run Bus.step bus (innerSteps step busSteps (new bus me) acts) = some s.bus :=
    run_innerSteps PySubscription.bus (fun _ _ _ hs => bus_of_step hs) hrun
  have hall : Transition.run Bus.step (.init r backpressure)
      (before ++ innerSteps step busSteps (new bus me) acts) = some s.bus := run_append.2 ⟨bus, hbus, htrace⟩
  refine ⟨hinv.delivered, fun hpolicy hnow => ?_, hinv.calls_length, hinv.returns,
    fun thread method s' hs => hinv.begin_refused_iff hs⟩
  subst hpolicy
  exact ((Bus.Delivery.run hr hnow hall).1.tracked s.me).stream

/-- The thread 0 waits in `recv`, two other threads are refused, and a message comes. -/
def threeThreads : List Act :=
  .bus (.begin (.waitForSubscribers 1)) :: List.replicate 3 (.bus .publisher) ++
    .begin 0 .recv :: List.replicate 3 (.go 0 .go) ++ [.begin 1 (.recvBatch 2), .begin 2 .lag] ++
    .bus (.begin (.publish [7])) :: List.replicate 11 (.bus .publisher) ++
    .go 0 .pollWake :: List.replicate 9 (.go 0 .go) ++ [.next 0]

theorem received_once_threads : ∃ s, Transition.run step (new EventLoop.connected 0) threeThreads = some s ∧
    s.ended.map Record.result = [.borrowed, .borrowed, .messages [[7]]] ∧ s.sub.Stream s.bus.chan.log := by
  obtain ⟨s, hrun, hs⟩ := Option.map_eq_some_iff.1
    (show (Transition.run step (new EventLoop.connected 0) threeThreads).map (fun s => s.ended.map Record.result) =
      some [.borrowed, .borrowed, .messages [[7]]] by decide)
  refine ⟨s, hrun, hs, ?_⟩
  exact (received_once (Bus.started_create (by decide)) EventLoop.run_connects (by decide) hrun).2.1 rfl (by decide)

end PySubscription

end Mmbus
