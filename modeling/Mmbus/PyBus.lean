import Mmbus.Lib.BorrowFlag
import Mmbus.Lib.Transition
import Mathlib.Data.List.Nodup

/-!
# The bus object of Python threads

One `_RustBus` object and the threads that call its methods.  A call borrows the object, `&mut self` exclusively and
`&self` as one of several, and is refused with a `RuntimeError` when the borrow is not free.  A method with
`allow_threads` keeps its borrow while other threads run; the others keep the GIL to their end, so that each of them is
one step.  Of a topic there is only who publishes it: the object (`Bus::publishers`), somebody else, or nobody.

`subscribe_alone`: a call that waits in `subscribe` for its publisher keeps the object from making one, so that only
somebody else can end the wait before its timeout.
-/

namespace Mmbus

open BorrowFlag Transition

namespace PyBus

/-- The methods; `subscribe` is also `subscribe_with_history` and `subscribe_from`. -/
inductive Method
  | publish
  | publishMany
  | topic
  | subscribe
  | waitForSubscribers
  | stats
  | slowSubscribers
  | cleanTopic
  deriving DecidableEq

/-- `&self` or `&mut self` -/
def Method.borrow : Method → Borrow
  | subscribe | stats | slowSubscribers => .shared
  | publish | publishMany | topic | waitForSubscribers | cleanTopic => .exclusive

/-- The method runs the bus under `allow_threads`. -/
def Method.allowThreads : Method → Bool
  | publish | subscribe | waitForSubscribers => true
  | publishMany | topic | stats | slowSubscribers | cleanTopic => false

/-- How a call ends -/
inductive Ending
  | done
  | connected
  | timeout
  | alreadyPublishing
  | borrowed
  deriving DecidableEq

/-- Where a call without the GIL is -/
inductive Stage
  | begun
  | waiting
  | returned (ending : Ending)
  deriving DecidableEq

structure Call where
  thread : Nat
  method : Method
  topic : String
  stage : Stage
  deriving DecidableEq

/-- A call that has ended -/
structure Record where
  thread : Nat
  method : Method
  topic : String
  ending : Ending
  deriving DecidableEq

end PyBus

open PyBus

structure PyBus where
  flag : Flag
  /-- The topics in `Bus::publishers` -/
  publishers : List String
  /-- The topics whose producer lock is held by a `TopicPublisher`, another bus object or another process -/
  elsewhere : String → Bool
  /-- The calls that go on without the GIL -/
  calls : List Call
  ended : List Record

namespace PyBus

/-- The steps: a call with the GIL, up to `allow_threads` or its end, what a call does without the GIL, its end with the
GIL again, and somebody else who begins or ends to publish a topic. -/
inductive Act
  | begin (thread : Nat) (method : Method) (topic : String)
  | go (thread : Nat)
  | arrive (thread : Nat)
  | expire (thread : Nat)
  | finish (thread : Nat)
  | claim (topic : String)
  | release (topic : String)

variable (s : PyBus)

/-- The publisher of the object for the topic, made if there is none; `none` is `AlreadyPublishing`. -/
def createPublisher (topic : String) : Option PyBus :=
  if topic ∈ s.publishers then some s
  else if s.elsewhere topic then none
  else some { s with publishers := s.publishers ++ [topic] }

/-- `Bus::take_publisher` -/
def takePublisher (topic : String) : PyBus × Ending :=
  if topic ∈ s.publishers then
    ({ s with
      publishers := s.publishers.erase topic, elsewhere := Function.update s.elsewhere topic true }, .done)
  else if s.elsewhere topic then (s, .alreadyPublishing)
  else ({ s with elsewhere := Function.update s.elsewhere topic true }, .done)

/-- `Bus::clean_topic` -/
def cleanTopic (topic : String) : PyBus × Ending :=
  ({ s with publishers := s.publishers.erase topic }, if s.elsewhere topic then .alreadyPublishing else .done)

/-- A method that keeps the GIL -/
def body (topic : String) : Method → PyBus × Ending
  | .publishMany =>
    match s.createPublisher topic with
    | some s => (s, .done)
    | none => (s, .alreadyPublishing)
  | .topic => s.takePublisher topic
  | .cleanTopic => s.cleanTopic topic
  | _ => (s, .done)

/-- A call in progress comes to another stage. -/
def setStage (thread : Nat) (stage : Stage) : PyBus :=
  { s with calls := s.calls.map fun c => if c.thread = thread then { c with stage := stage } else c }

def record (thread : Nat) (method : Method) (topic : String) (ending : Ending) : PyBus :=
  { s with ended := s.ended ++ [⟨thread, method, topic, ending⟩] }

/-- A call that needs the publisher of the object comes to the stage `stage` with it. -/
def withPublisher (c : Call) (stage : Stage) : PyBus :=
  match s.createPublisher c.topic with
  | some s => s.setStage c.thread stage
  | none => s.setStage c.thread (.returned .alreadyPublishing)

/-- What the call does first when the GIL is released -/
def enter (c : Call) : PyBus :=
  match c.method with
  | .subscribe => s.setStage c.thread .waiting
  | .waitForSubscribers => s.withPublisher c .waiting
  | _ => s.withPublisher c (.returned .done)

/-- What the call waits for has come: a publisher, or the subscribers. -/
def arrive (c : Call) : Option PyBus :=
  match c.method with
  | .subscribe =>
    if c.topic ∈ s.publishers ∨ s.elsewhere c.topic = true then
      some (s.setStage c.thread (.returned .connected))
    else none
  | _ => some (s.setStage c.thread (.returned .done))

def callOf (thread : Nat) : Option Call := s.calls.find? fun c => c.thread == thread

/-- One step -/
def step : Act → Option PyBus
  | .begin thread method topic =>
    if s.callOf thread ≠ none then none
    else
      match s.flag.tryBorrow method.borrow with
      | none => some (s.record thread method topic .borrowed)
      | some flag =>
        if method.allowThreads then
          some { s with flag := flag, calls := s.calls ++ [⟨thread, method, topic, .begun⟩] }
        else
          -- the borrow is given back before anybody else has the GIL
          some ((s.body topic method).1.record thread method topic (s.body topic method).2)
  | .go thread =>
    match s.callOf thread with
    | some c => if c.stage = .begun then some (s.enter c) else none
    | none => none
  | .arrive thread =>
    match s.callOf thread with
    | some c => if c.stage = .waiting then s.arrive c else none
    | none => none
  | .expire thread =>
    match s.callOf thread with
    | some c => if c.stage = .waiting then some (s.setStage thread (.returned .timeout)) else none
    | none => none
  | .finish thread =>
    match s.callOf thread with
    | some c =>
      match c.stage with
      | .returned ending =>
        some ({ s with
          flag := s.flag.giveBack
          calls := s.calls.eraseP fun c => c.thread == thread }.record thread c.method c.topic ending)
      | _ => none
    | none => none
  | .claim topic =>
    if topic ∈ s.publishers ∨ s.elsewhere topic = true then none
    else some { s with elsewhere := Function.update s.elsewhere topic true }
  | .release topic => some { s with elsewhere := Function.update s.elsewhere topic false }

/-- A new object -/
def new (elsewhere : String → Bool) : PyBus := ⟨.shared 0, [], elsewhere, [], []⟩

variable {s s' : PyBus} {topic : String} {method : Method} {thread : Nat} {c : Call}

/-! ### What the calls leave alone -/

/-- Making a publisher concerns `Bus::publishers` only. -/
theorem createPublisher_rest (h : s.createPublisher topic = some s') : s'.flag = s.flag ∧ s'.elsewhere = s.elsewhere ∧
    s'.calls = s.calls ∧ s'.ended = s.ended := by
  unfold createPublisher at h
  split at h
  · cases h
    exact ⟨rfl, rfl, rfl, rfl⟩
  · split at h
    · cases h
    · cases h
      exact ⟨rfl, rfl, rfl, rfl⟩

/-- A method that keeps the GIL concerns the publishers only, and no borrow is refused in it. -/
theorem body_rest (s : PyBus) (topic : String) (method : Method) : (s.body topic method).1.flag = s.flag ∧
    (s.body topic method).1.calls = s.calls ∧ (s.body topic method).1.ended = s.ended ∧
    (s.body topic method).2 ≠ .borrowed := by
  cases method with
  | publishMany =>
    simp only [body]
    split
    · obtain ⟨hflag, -, hcalls, hended⟩ := createPublisher_rest ‹_›
      exact ⟨hflag, hcalls, hended, by simp⟩
    · exact ⟨rfl, rfl, rfl, by simp⟩
  | topic =>
    simp only [body, takePublisher]
    split
    · exact ⟨rfl, rfl, rfl, by simp⟩
    · split <;> exact ⟨rfl, rfl, rfl, by simp⟩
  | cleanTopic =>
    refine ⟨rfl, rfl, rfl, ?_⟩
    simp only [body, cleanTopic]
    split <;> simp
  | _ => exact ⟨rfl, rfl, rfl, by simp [body]⟩

/-- A method that only reads the object -/
theorem body_of_shared (h : method.borrow = .shared) (s : PyBus) (topic : String) : (s.body topic method).1 = s := by
  cases method <;> first | rfl | cases h

/-- What a call does without the GIL leaves the borrows as they are and brings the call to another stage. -/
structure Moves (s : PyBus) (thread : Nat) (stage : Stage) (s' : PyBus) : Prop where
  flag : s'.flag = s.flag
  elsewhere : s'.elsewhere = s.elsewhere
  calls : s'.calls = s.calls.map fun c => if c.thread = thread then { c with stage := stage } else c
  ended : s'.ended = s.ended

theorem moves_setStage (s : PyBus) (thread : Nat) (stage : Stage) : Moves s thread stage (s.setStage thread stage) :=
  ⟨rfl, rfl, rfl, rfl⟩

theorem moves_withPublisher (s : PyBus) (c : Call) (stage : Stage) :
    ∃ stage', Moves s c.thread stage' (s.withPublisher c stage) := by
  unfold withPublisher
  split
  · obtain ⟨hflag, helsewhere, hcalls, hended⟩ := createPublisher_rest ‹_›
    refine ⟨stage, hflag, helsewhere, ?_, hended⟩
    simp only [setStage, hcalls]
  · exact ⟨_, moves_setStage ..⟩

theorem moves_enter (s : PyBus) (c : Call) : ∃ stage, Moves s c.thread stage (s.enter c) := by
  unfold enter
  split
  · exact ⟨_, moves_setStage ..⟩
  · exact moves_withPublisher ..
  · exact moves_withPublisher ..

theorem moves_arrive (h : s.arrive c = some s') : ∃ stage, Moves s c.thread stage s' := by
  unfold arrive at h
  split at h
  · split at h
    · cases h
      exact ⟨_, moves_setStage ..⟩
    · cases h
  · cases h
    exact ⟨_, moves_setStage ..⟩

/-! ### The calls and the flag -/

theorem callOf_eq_some (h : s.callOf thread = some c) : c ∈ s.calls ∧ c.thread = thread :=
  ⟨List.mem_of_find?_eq_some h, by simpa using List.find?_some h⟩

/-- The flag stands for the calls in progress, of which a thread has one at most. -/
structure Inv (s : PyBus) : Prop where
  counts : Counts s.flag (s.calls.map fun c => c.method.borrow)
  threads : (s.calls.map Call.thread).Nodup
  releases : ∀ c ∈ s.calls, c.method.allowThreads = true

theorem inv_new (elsewhere : String → Bool) : (new elsewhere).Inv :=
  ⟨counts_nil, List.nodup_nil, fun _ h => by cases h⟩

theorem Inv.of_eq (h : s.Inv) (hflag : s'.flag = s.flag) (hcalls : s'.calls = s.calls) : s'.Inv := by
  refine ⟨?_, ?_, ?_⟩
  · rw [hflag, hcalls]
    exact h.counts
  · rw [hcalls]
    exact h.threads
  · rw [hcalls]
    exact h.releases

theorem Inv.moves {stage : Stage} (h : s.Inv) (hm : Moves s thread stage s') : s'.Inv := by
  have hborrows : (s'.calls.map fun c => c.method.borrow) = s.calls.map fun c => c.method.borrow := by
    rw [hm.calls, List.map_map]
    refine List.map_congr_left fun c _ => ?_
    simp only [Function.comp]
    split <;> rfl
  have hthreads : s'.calls.map Call.thread = s.calls.map Call.thread := by
    rw [hm.calls, List.map_map]
    refine List.map_congr_left fun c _ => ?_
    simp only [Function.comp]
    split <;> rfl
  refine ⟨?_, ?_, fun c hc => ?_⟩
  · rw [hm.flag, hborrows]
    exact h.counts
  · rw [hthreads]
    exact h.threads
  · rw [hm.calls] at hc
    obtain ⟨c₀, hc₀, rfl⟩ := List.mem_map.1 hc
    split <;> exact h.releases c₀ hc₀

/-- A thread is in one call at a time. -/
theorem Inv.unique (h : s.Inv) {c c' : Call} (hc : c ∈ s.calls) (hc' : c' ∈ s.calls) (heq : c'.thread = c.thread) :
    c' = c := List.inj_on_of_nodup_map h.threads hc' hc heq

theorem Inv.step {a : Act} (h : s.Inv) (hs : s.step a = some s') : s'.Inv := by
  cases a with
  | begin thread method topic =>
    simp only [PyBus.step] at hs
    split at hs
    · cases hs
    · rename_i hfree
      split at hs
      · cases hs
        exact h.of_eq rfl rfl
      · rename_i flag hflag
        split at hs
        · rename_i hallow
          cases hs
          refine ⟨?_, ?_, fun c hc => ?_⟩
          · simpa using h.counts.borrow hflag
          · have hnone := List.find?_eq_none.1 (not_not.1 hfree)
            simp only [List.map_append, List.map_cons, List.map_nil]
            refine List.nodup_append.2 ⟨h.threads, by simp, fun t ht t' ht' => ?_⟩
            obtain ⟨c, hc, rfl⟩ := List.mem_map.1 ht
            cases List.mem_singleton.1 ht'
            simpa using hnone c hc
          · rcases List.mem_append.1 hc with hc | hc
            · exact h.releases c hc
            · cases List.mem_singleton.1 hc
              exact hallow
        · cases hs
          obtain ⟨hflag', hcalls, -⟩ := body_rest s topic method
          exact h.of_eq hflag' hcalls
  | go thread =>
    simp only [PyBus.step] at hs
    split at hs
    · split at hs
      · cases hs
        obtain ⟨stage, hm⟩ := moves_enter s ‹_›
        exact h.moves hm
      · cases hs
    · cases hs
  | arrive thread =>
    simp only [PyBus.step] at hs
    split at hs
    · split at hs
      · obtain ⟨stage, hm⟩ := moves_arrive hs
        exact h.moves hm
      · cases hs
    · cases hs
  | expire thread =>
    simp only [PyBus.step] at hs
    split at hs
    · split at hs
      · cases hs
        exact h.moves (moves_setStage ..)
      · cases hs
    · cases hs
  | finish thread =>
    simp only [PyBus.step] at hs
    split at hs
    · rename_i c hc
      split at hs
      · cases hs
        obtain ⟨hmem, hthread⟩ := callOf_eq_some hc
        obtain ⟨c', front, back, -, -, hcalls, herase⟩ :=
          List.exists_of_eraseP (p := fun c => c.thread == thread) hmem (by simpa using hthread)
        refine ⟨?_, ?_, fun c hc => h.releases c (List.mem_of_mem_eraseP hc)⟩
        · have hcounts := h.counts
          rw [hcalls, List.map_append, List.map_cons] at hcounts
          simp only [record, herase, List.map_append]
          exact hcounts.giveBack
        · exact h.threads.sublist (List.eraseP_sublist.map _)
      · cases hs
    · cases hs
  | claim topic =>
    simp only [PyBus.step] at hs
    split at hs
    · cases hs
    · cases hs
      exact h.of_eq rfl rfl
  | release topic =>
    simp only [PyBus.step] at hs
    cases hs
    exact h.of_eq rfl rfl

theorem Inv.run {acts : List Act} (h : s.Inv) (hrun : Transition.run PyBus.step s acts = some s') : s'.Inv :=
  run_invariant Inv (fun _ _ _ h hs => h.step hs) h hrun

/-- A call is refused exactly when another one is in progress that its borrow does not go together with. -/
theorem Inv.refused_iff (h : s.Inv) (hs : s.step (.begin thread method topic) = some s') :
    s'.ended = s.ended ++ [⟨thread, method, topic, .borrowed⟩] ↔
      ∃ c ∈ s.calls, method.borrow.Compatible c.method.borrow = false := by
  have hnone := tryBorrow_eq_none (b := method.borrow) h.counts
  simp only [List.mem_map, exists_exists_and_eq_and] at hnone
  rw [← hnone]
  simp only [PyBus.step] at hs
  split at hs
  · cases hs
  · split at hs
    · rename_i hrefused
      cases hs
      exact ⟨fun _ => hrefused, fun _ => rfl⟩
    · rename_i flag hflag
      rw [hflag]
      refine ⟨fun hended => ?_, fun hno => by cases hno⟩
      split at hs
      · cases hs
        simp at hended
      · cases hs
        obtain ⟨-, -, hsame, hne⟩ := body_rest s topic method
        simp only [record, hsame, List.append_cancel_left_eq, List.cons.injEq, Record.mk.injEq] at hended
        exact absurd hended.1.2.2.2 hne

/-! ### While a call waits in `subscribe` -/

/-- The thread is in `subscribe` for the topic, and has not been connected. -/
def Subscribes (s : PyBus) (thread : Nat) (topic : String) : Prop :=
  ∃ c ∈ s.calls, c.thread = thread ∧ c.method = .subscribe ∧ c.topic = topic ∧ c.stage ≠ .returned .connected

/-- Nobody publishes the topic, the publishers of the object are still `publishers`, and of the calls that have ended
since `ended` no one has borrowed the object exclusively. -/
structure Alone (publishers : List String) (ended : List Record) (thread : Nat) (topic : String) (s : PyBus) :
    Prop where
  inv : s.Inv
  publishers : s.publishers = publishers
  unpublished : topic ∉ s.publishers ∧ s.elsewhere topic = false
  subscribes : s.Subscribes thread topic
  ended : ∃ since, s.ended = ended ++ since ∧ ∀ r ∈ since, r.method.borrow = .exclusive → r.ending = .borrowed

variable {publishers : List String} {ended : List Record}

/-- Another call comes to another stage, or the call itself to one that is not the connection. -/
theorem Subscribes.moves {other : Nat} {stage : Stage} (h : s.Subscribes thread topic) (hm : Moves s other stage s')
    (hne : thread = other → stage ≠ .returned .connected) : s'.Subscribes thread topic := by
  obtain ⟨c, hc, hthread, hmethod, htopic, hstage⟩ := h
  refine ⟨if c.thread = other then { c with stage := stage } else c, ?_, ?_⟩
  · rw [hm.calls]
    exact List.mem_map_of_mem hc
  · split
    · exact ⟨hthread, hmethod, htopic, hne (hthread ▸ ‹_›)⟩
    · exact ⟨hthread, hmethod, htopic, hstage⟩

namespace Alone

/-- All calls in progress are in `subscribe`. -/
theorem method_eq (h : Alone publishers ended thread topic s) {c : Call} (hc : c ∈ s.calls) :
    c.method = .subscribe := by
  obtain ⟨c₀, hc₀, -, hmethod, -⟩ := h.subscribes
  have hshared : Borrow.shared ∈ s.calls.map fun c => c.method.borrow :=
    List.mem_map.2 ⟨c₀, hc₀, by rw [hmethod]; rfl⟩
  have hborrow := h.inv.counts.eq_shared hshared _ (List.mem_map_of_mem hc)
  have hallow := h.inv.releases c hc
  cases hm : c.method <;> rw [hm] at hborrow hallow <;>
    first | rfl | exact absurd hborrow (by decide) | exact absurd hallow (by decide)

theorem moves {other : Nat} {stage : Stage} (h : Alone publishers ended thread topic s) (hm : Moves s other stage s')
    (hpublishers : s'.publishers = s.publishers) (hne : thread = other → stage ≠ .returned .connected) :
    Alone publishers ended thread topic s' := by
  refine ⟨h.inv.moves hm, hpublishers.trans h.publishers, ?_, h.subscribes.moves hm hne, ?_⟩
  · rw [hpublishers, hm.elsewhere]
    exact h.unpublished
  · rw [hm.ended]
    exact h.ended

/-- A call has ended. -/
theorem record (h : Alone publishers ended thread topic s) {other : Nat} {method : Method} {name : String} {e : Ending}
    (he : method.borrow = .exclusive → e = .borrowed) :
    Alone publishers ended thread topic (s.record other method name e) := by
  obtain ⟨since, hended, hsince⟩ := h.ended
  refine ⟨h.inv.of_eq rfl rfl, h.publishers, h.unpublished, h.subscribes, since ++ [⟨other, method, name, e⟩], ?_, ?_⟩
  · simp only [PyBus.record, hended, List.append_assoc]
  · intro r hr
    rcases List.mem_append.1 hr with hr | hr
    · exact hsince r hr
    · cases List.mem_singleton.1 hr
      exact he

theorem begin (h : Alone publishers ended thread topic s) {other : Nat} {method : Method} {name : String}
    (hs : s.step (.begin other method name) = some s') : Alone publishers ended thread topic s' := by
  have hinv := h.inv.step hs
  simp only [PyBus.step] at hs
  split at hs
  · cases hs
  · split at hs
    · cases hs
      exact h.record fun _ => rfl
    · rename_i flag hflag
      split at hs
      · cases hs
        obtain ⟨c, hc, hcall⟩ := h.subscribes
        exact ⟨hinv, h.publishers, h.unpublished, ⟨c, List.mem_append_left _ hc, hcall⟩, h.ended⟩
      · cases hs
        -- beside the waiting call only a shared borrow is free
        have hshared : method.borrow = .shared := by
          by_contra hne
          obtain ⟨c, hc, -, hmethod, -⟩ := h.subscribes
          have hrefused := (tryBorrow_eq_none h.inv.counts).2 ⟨_, List.mem_map_of_mem hc, show
            method.borrow.Compatible c.method.borrow = false by
              rw [hmethod]
              cases hb : method.borrow with
              | shared => exact absurd hb hne
              | exclusive => rfl⟩
          rw [hflag] at hrefused
          cases hrefused
        rw [body_of_shared hshared]
        exact h.record fun hexclusive => by rw [hshared] at hexclusive; cases hexclusive

theorem step {a : Act} (h : Alone publishers ended thread topic s) (hfinish : a ≠ .finish thread)
    (hclaim : a ≠ .claim topic) (hs : s.step a = some s') : Alone publishers ended thread topic s' := by
  have hinv := h.inv.step hs
  cases a with
  | begin other method name => exact h.begin hs
  | go other =>
    simp only [PyBus.step] at hs
    split at hs
    · rename_i c hc
      split at hs
      · cases hs
        have hmethod := h.method_eq (callOf_eq_some hc).1
        have henter : s.enter c = s.setStage c.thread .waiting := by simp only [enter, hmethod]
        rw [henter]
        exact h.moves (moves_setStage ..) rfl fun _ => by simp
      · cases hs
    · cases hs
  | arrive other =>
    simp only [PyBus.step] at hs
    split at hs
    · rename_i c hc
      split at hs
      · obtain ⟨hmem, hthread⟩ := callOf_eq_some hc
        simp only [arrive, h.method_eq hmem] at hs
        split at hs
        · rename_i hpublished
          cases hs
          -- it is the publisher of another call that has come
          refine h.moves (moves_setStage ..) rfl fun heq => absurd hpublished ?_
          obtain ⟨c₀, hc₀, hthread₀, -, htopic, -⟩ := h.subscribes
          obtain rfl := h.inv.unique hc₀ hmem (heq.symm.trans hthread₀.symm)
          rw [htopic]
          simp [h.unpublished.1, h.unpublished.2]
        · cases hs
      · cases hs
    · cases hs
  | expire other =>
    simp only [PyBus.step] at hs
    split at hs
    · split at hs
      · cases hs
        exact h.moves (moves_setStage ..) rfl fun _ => by simp
      · cases hs
    · cases hs
  | finish other =>
    simp only [PyBus.step] at hs
    split at hs
    · rename_i c hc
      split at hs
      · rename_i ending _
        cases hs
        have hne : other ≠ thread := fun heq => hfinish (heq ▸ rfl)
        obtain ⟨c₀, hc₀, hthread, hcall⟩ := h.subscribes
        obtain ⟨since, hended, hsince⟩ := h.ended
        refine ⟨hinv, h.publishers, h.unpublished, ⟨c₀, ?_, hthread, hcall⟩,
          since ++ [⟨other, c.method, c.topic, ending⟩], ?_, fun r hr => ?_⟩
        · exact (List.mem_eraseP_of_neg (by simpa [hthread] using hne.symm)).2 hc₀
        · simp only [PyBus.record, hended, List.append_assoc]
        · rcases List.mem_append.1 hr with hr | hr
          · exact hsince r hr
          · cases List.mem_singleton.1 hr
            simp [h.method_eq (callOf_eq_some hc).1, Method.borrow]
      · cases hs
    · cases hs
  | claim name =>
    simp only [PyBus.step] at hs
    split at hs
    · cases hs
    · cases hs
      have hne : topic ≠ name := fun heq => hclaim (heq ▸ rfl)
      exact ⟨hinv, h.publishers, by simpa [hne] using h.unpublished, h.subscribes, h.ended⟩
  | release name =>
    simp only [PyBus.step] at hs
    cases hs
    refine ⟨hinv, h.publishers, ⟨h.unpublished.1, ?_⟩, h.subscribes, h.ended⟩
    by_cases heq : topic = name
    · simp [heq]
    · simpa [heq] using h.unpublished.2

end Alone

/-- In every run of threads that call the methods of one bus object.  A call is refused exactly when a call is in
progress whose borrow does not go together with its own.  While a thread is in `subscribe` for a topic that nobody
publishes, and until somebody else begins to, no call on the object makes or gives away a publisher, each one with
`&mut self` that begins is refused, and the thread is not connected. -/
theorem subscribe_alone {elsewhere : String → Bool} {acts : List Act} (hrun : run step (new elsewhere) acts = some s) :
    (∀ thread method topic s', s.step (.begin thread method topic) = some s' →
      (s'.ended = s.ended ++ [⟨thread, method, topic, .borrowed⟩] ↔
        ∃ c ∈ s.calls, method.borrow.Compatible c.method.borrow = false)) ∧
      ∀ thread topic, s.Subscribes thread topic → topic ∉ s.publishers → s.elsewhere topic = false →
        ∀ acts' s', .finish thread ∉ acts' → .claim topic ∉ acts' → run step s acts' = some s' →
          s'.publishers = s.publishers ∧ s'.Subscribes thread topic ∧
            ∃ since, s'.ended = s.ended ++ since ∧
              ∀ r ∈ since, r.method.borrow = .exclusive → r.ending = .borrowed := by
  have hinv := (inv_new elsewhere).run hrun
  refine ⟨fun thread method topic s' hs => hinv.refused_iff hs,
    fun thread topic hsub hown helsewhere acts' s' hfinish hclaim hrun' => ?_⟩
  have hstart : Alone s.publishers s.ended thread topic s :=
    ⟨hinv, rfl, ⟨hown, helsewhere⟩, hsub, [], (List.append_nil _).symm, fun r hr => by cases hr⟩
  have hend := run_invariant_of (Alone s.publishers s.ended thread topic)
    (fun a => a ≠ .finish thread ∧ a ≠ .claim topic) (fun _ _ _ h ha hs => h.step ha.1 ha.2 hs)
    (fun (a : Act) ha => ⟨fun (heq : a = .finish thread) => hfinish (heq ▸ ha),
      fun (heq : a = .claim topic) => hclaim (heq ▸ ha)⟩) hstart hrun'
  exact ⟨hend.publishers, hend.subscribes, hend.ended⟩

/-- The thread 0 waits in `subscribe`, and the call of `publish` that would end its wait is refused. -/
theorem subscribe_alone_publish : ∃ s, run step (new fun _ => false) [.begin 0 .subscribe "ch", .go 0] = some s ∧
    (∀ s', s.step (.begin 1 .publish "ch") = some s' → s'.ended = s.ended ++ [⟨1, .publish, "ch", .borrowed⟩]) ∧
    ∀ acts' s', .finish 0 ∉ acts' → .claim "ch" ∉ acts' → run step s acts' = some s' → s'.Subscribes 0 "ch" := by
  obtain ⟨s, hrun, hs⟩ := Option.map_eq_some_iff.1
    (show (run step (new fun _ => false) [.begin 0 .subscribe "ch", .go 0]).map
        (fun s => (s.calls, s.publishers, s.elsewhere "ch")) =
      some ([⟨0, .subscribe, "ch", .waiting⟩], [], false) by decide)
  simp only [Prod.mk.injEq] at hs
  obtain ⟨hcalls, hpublishers, helsewhere⟩ := hs
  obtain ⟨hrefused, halone⟩ := subscribe_alone hrun
  refine ⟨s, hrun, fun s' hs' => (hrefused 1 .publish "ch" s' hs').2 ?_, fun acts' s' hfinish hclaim hrun' =>
    (halone 0 "ch" ?_ (by simp [hpublishers]) helsewhere acts' s' hfinish hclaim hrun').2.1⟩
  · rw [hcalls]
    exact ⟨_, List.mem_singleton_self _, rfl⟩
  · refine ⟨⟨0, .subscribe, "ch", .waiting⟩, ?_, rfl, rfl, rfl, by simp⟩
    rw [hcalls]
    exact List.mem_singleton_self _

end PyBus

end Mmbus
