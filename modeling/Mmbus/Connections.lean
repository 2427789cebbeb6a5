import Mmbus.Ownership
import Mathlib.Data.List.Nodup

/-!
# Connections and clients

What the publisher knows of its subscribers: a connection waits in the backlog, is accepted, and becomes a client or is
refused; a client is reaped when its cursor entry is free.  `Bus.Connections` is the invariant.  Its main use is that
a client carries the cursor index of its own subscriber, that a subscriber is accepted at most once, and that it sees
its socket closed only after its own end or after the publisher's.
-/

namespace Mmbus

open RingBuffer

/-- The connection that has been accepted and not yet become a client -/
def Phase.conn : Phase → List Nat
  | recvFd _ i => [i]
  | _ => []

def Phase.IsDropped : Phase → Bool
  | dropped => true
  | _ => false

/-- The subscriber has not connected its socket yet. -/
def SubscriberPc.Early : SubscriberPc → Bool
  | absent | readTail | claimAt _ | clearClaimed | connectSock => true
  | _ => false

/-- The effect of a step that is not a subscriber's on the connections -/
inductive ConnEffect (s s' : Bus) : Prop
  | keep (clients : s'.clients = s.clients) (backlog : s'.backlog = s.backlog) (conn : s'.phase.conn = s.phase.conn)
      (dropped : s.phase.IsDropped = true → s'.phase.IsDropped = true)
      (subs : ∀ i, ∃ efd, s'.subs i = { s.subs i with efd := efd })
  | accept {i rest} (backlog : s.backlog = i :: rest) (backlog' : s'.backlog = rest) (conn : s.phase.conn = [])
      (conn' : s'.phase.conn = [i]) (running : s.phase.IsDropped = false) (clients : s'.clients = s.clients)
      (subs : s'.subs = s.subs)
  | join {i} (conn : s.phase.conn = [i]) (conn' : s'.phase.conn = []) (running : s.phase.IsDropped = false)
      (sent : (s.subs i).sent = true) (backlog : s'.backlog = s.backlog)
      (clients : s'.clients = s.clients ++ [⟨(s.subs i).cursorIdx, i⟩])
      (subs : s'.subs = Function.update s.subs i { s.subs i with acceptedAt := some s.chan.ring.tail })
      (tail : s'.chan.ring.tail = s.chan.ring.tail)
  | refuse {i} (conn : s.phase.conn = [i]) (conn' : s'.phase.conn = []) (running : s.phase.IsDropped = false)
      (backlog : s'.backlog = s.backlog) (clients : s'.clients = s.clients) (subs : s'.subs = s.subs)
  | reap {k client} (at_k : s.clients[k]? = some client)
      (free : s.chan.ring.cursors client.cursorIdx = CURSOR_UNCLAIMED) (conn : s'.phase.conn = s.phase.conn)
      (running : s.phase.IsDropped = false) (backlog : s'.backlog = s.backlog)
      (clients : s'.clients = swapRemove s.clients k)
      (subs : s'.subs = Function.update s.subs client.sub { s.subs client.sub with hup := true })
  | close {i} (dropped : s.phase.IsDropped = true) (dropped' : s'.phase.IsDropped = true)
      (conn : s'.phase.conn = s.phase.conn) (backlog : s'.backlog = s.backlog) (clients : s'.clients = s.clients)
      (subs : s'.subs = Function.update s.subs i { s.subs i with hup := true })

namespace Bus

variable {s s' : Bus}

@[simp] theorem broadcastAt_backlog (result : CallResult) (i : Nat) :
    (s.broadcastAt result i).backlog = s.backlog := rfl

@[simp] theorem broadcastAt_conn (result : CallResult) (i : Nat) : (s.broadcastAt result i).phase.conn = [] := by
  unfold broadcastAt setPhase
  dsimp only
  split <;> rfl

private theorem keep_finishMany {chan : Channel} {result : CallResult} {count : Nat} (hconn : s.phase.conn = [])
    (hrun : s.phase.IsDropped = false) : ConnEffect s ({ s with chan := chan }.finishMany result count) := by
  rcases @finishMany_eq { s with chan := chan } result count with h | h <;> rw [h]
  · exact .keep rfl rfl (by rw [broadcastAt_conn, hconn]) (fun hd => by simp [hrun] at hd) fun i => ⟨_, rfl⟩
  · exact .keep rfl rfl hconn.symm (fun hd => by simp [hrun] at hd) fun i => ⟨_, rfl⟩

private theorem keep_nextItem {chan : Channel} {count : Nat} {items : List Bytes} (hconn : s.phase.conn = [])
    (hrun : s.phase.IsDropped = false) (hs : { s with chan := chan }.nextItem count items = some s') :
    ConnEffect s s' := by
  cases items with
  | nil =>
    cases hs
    exact keep_finishMany hconn hrun
  | cons data rest =>
    simp only [nextItem] at hs
    split at hs
    · cases hs
      exact keep_finishMany hconn hrun
    · split at hs
      · cases hs
        exact .keep rfl rfl hconn.symm (fun hd => by simp [hrun] at hd) fun i => ⟨_, rfl⟩
      · cases hs

theorem publisherStep_conn (hs : s.publisherStep = some s') : ConnEffect s s' := by
  unfold publisherStep at hs
  cases hphase : s.phase with
  | idle | dropped => simp [hphase] at hs
  | accept call =>
    have hconn : s.phase.conn = [] := by rw [hphase]; rfl
    have hrun : s.phase.IsDropped = false := by rw [hphase]; rfl
    simp only [hphase] at hs
    split at hs
    · rename_i i rest hback
      cases hs
      exact .accept hback rfl hconn rfl hrun rfl rfl
    · cases call with
      | publish data =>
        simp only [afterAccept] at hs
        split at hs
        · cases hs
          exact .keep rfl rfl hconn.symm (fun hd => by simp [hrun] at hd) fun i => ⟨_, rfl⟩
        · cases hs
      | publishMany items => exact keep_nextItem hconn hrun hs
      | waitForSubscribers minCount =>
        simp only [afterAccept, Option.some.injEq] at hs
        subst hs
        split
        · exact .keep rfl rfl hconn.symm (fun hd => by simp [hrun] at hd) fun i => ⟨_, rfl⟩
        · exact .keep rfl rfl rfl id fun i => ⟨_, rfl⟩
  | recvFd call i =>
    have hconn : s.phase.conn = [i] := by rw [hphase]; rfl
    have hrun : s.phase.IsDropped = false := by rw [hphase]; rfl
    simp only [hphase] at hs
    split at hs
    · rename_i hsent
      cases hs
      exact .join hconn rfl hrun hsent rfl rfl rfl rfl
    · split at hs
      · cases hs
        exact .refuse hconn rfl hrun rfl rfl rfl
      · cases hs
  | publishing pc =>
    have hconn : s.phase.conn = [] := by rw [hphase]; rfl
    have hrun : s.phase.IsDropped = false := by rw [hphase]; rfl
    simp only [hphase] at hs
    split at hs
    · cases hs
      exact .keep rfl rfl (by rw [broadcastAt_conn, hconn]) (fun hd => by simp [hrun] at hd) fun i => ⟨_, rfl⟩
    · cases hs
      exact .keep rfl rfl hconn.symm (fun hd => by simp [hrun] at hd) fun i => ⟨_, rfl⟩
    · cases hs
      exact .keep rfl rfl hconn.symm (fun hd => by simp [hrun] at hd) fun i => ⟨_, rfl⟩
    · cases hs
  | publishingMany rest count pc =>
    have hconn : s.phase.conn = [] := by rw [hphase]; rfl
    have hrun : s.phase.IsDropped = false := by rw [hphase]; rfl
    simp only [hphase] at hs
    split at hs
    · exact keep_nextItem hconn hrun hs
    · cases hs
      exact keep_finishMany hconn hrun
    · cases hs
      exact .keep rfl rfl hconn.symm (fun hd => by simp [hrun] at hd) fun i => ⟨_, rfl⟩
    · cases hs
  | probe result k =>
    have hconn : s.phase.conn = [] := by rw [hphase]; rfl
    have hrun : s.phase.IsDropped = false := by rw [hphase]; rfl
    simp only [hphase] at hs
    split at hs
    · rename_i client hk
      split at hs
      · rename_i hfree
        cases hs
        exact .reap hk (by simpa [cursorIsUnclaimed] using hfree) (by rw [broadcastAt_conn, hconn]) hrun rfl rfl rfl
      · cases hs
        exact .keep rfl rfl hconn.symm (fun hd => by simp [hrun] at hd) fun i => ⟨_, rfl⟩
    · cases hs
  | take result k =>
    have hconn : s.phase.conn = [] := by rw [hphase]; rfl
    have hrun : s.phase.IsDropped = false := by rw [hphase]; rfl
    simp only [hphase] at hs
    split at hs
    · simp only [Option.some.injEq] at hs
      subst hs
      split
      · exact .keep rfl rfl hconn.symm (fun hd => by simp [hrun] at hd) fun i => ⟨_, rfl⟩
      · exact .keep rfl rfl (by rw [broadcastAt_conn, hconn]) (fun hd => by simp [hrun] at hd) fun i => ⟨_, rfl⟩
    · cases hs
  | fire result k =>
    have hconn : s.phase.conn = [] := by rw [hphase]; rfl
    have hrun : s.phase.IsDropped = false := by rw [hphase]; rfl
    simp only [hphase] at hs
    split at hs
    · rename_i client hk
      cases hs
      refine .keep rfl rfl (by rw [broadcastAt_conn, hconn]) (fun hd => by simp [hrun] at hd) fun i => ?_
      by_cases hi : i = client.sub
      · subst hi
        exact ⟨_, Function.update_self ..⟩
      · exact ⟨_, Function.update_of_ne hi ..⟩
    · cases hs

theorem step_conn {a : Act} (ha : ∀ i choice, a ≠ .sub i choice) (hs : s.step a = some s') : ConnEffect s s' := by
  cases a with
  | sub i choice => exact absurd rfl (ha i choice)
  | begin call =>
    simp only [step] at hs
    split at hs
    · rename_i hphase
      cases hs
      have hconn : s.phase.conn = [] := by rw [hphase]; rfl
      have hrun : s.phase.IsDropped = false := by rw [hphase]; rfl
      unfold beginCall
      split
      · split <;> exact .keep rfl rfl hconn.symm (fun hd => by simp [hrun] at hd) fun i => ⟨_, rfl⟩
      · exact .keep rfl rfl hconn.symm (fun hd => by simp [hrun] at hd) fun i => ⟨_, rfl⟩
    · cases hs
  | publisher => exact publisherStep_conn hs
  | timeout =>
    simp only [step] at hs
    split at hs
    · rename_i hphase
      split at hs
      · cases hs
        exact .keep rfl rfl (by rw [hphase]; rfl) (fun hd => by simp [hphase, Phase.IsDropped] at hd)
          fun i => ⟨_, rfl⟩
      · cases hs
    · cases hs
  | drop =>
    simp only [step] at hs
    split at hs
    · rename_i hphase
      cases hs
      exact .keep rfl rfl (by rw [hphase]; rfl) (fun _ => rfl) fun i => ⟨_, rfl⟩
    · cases hs
  | closeSock i =>
    simp only [step] at hs
    split at hs
    · rename_i hphase
      have hdrop : s.phase.IsDropped = true := by rw [hphase]; rfl
      split at hs
      · cases hs
        exact @ConnEffect.close _ _ i hdrop hdrop rfl rfl rfl rfl
      · cases hs
    · cases hs

end Bus

/-! ### Steps of a subscriber -/

namespace Subscriber

variable {s s' : Subscriber} {r r' : RingBuffer} {listening : Bool} {choice : Choice}

theorem stage_of_not_early {pc : SubscriberPc} (h : pc.Early = false) : pc.stage ≠ .init ∧ pc.stage ≠ .claiming := by
  cases pc <;> first | (cases h; done) | exact ⟨by simp [SubscriberPc.stage], by simp [SubscriberPc.stage]⟩

/-- What a subscriber's step leaves to the publisher -/
theorem publisher_fields (hs : s.step r listening choice = some (r', s')) :
    s'.hup = s.hup ∧ s'.acceptedAt = s.acceptedAt := by
  cases step_effect hs <;> exact ⟨rfl, rfl⟩

theorem cursorIdx_step (h : s.pc.Early = false) (hs : s.step r listening choice = some (r', s')) :
    s'.cursorIdx = s.cursorIdx := by
  cases step_effect hs with
  | claim stage => exact absurd stage (stage_of_not_early h).2
  | _ => rfl

theorem stage_out_step (h : s.pc.stage = .out) (hs : s.step r listening choice = some (r', s')) :
    s'.pc.stage = .out := by
  cases step_effect hs with
  | keep stage => exact stage.trans h
  | giveUp _ stage' | release _ stage' => exact stage'
  | deliver at_store =>
    rw [at_store] at h
    cases h
  | readTail stage | claim stage | position stage | publish stage =>
    rw [h] at stage
    cases stage

theorem early_afterWait (call : Call) (outcome : Outcome) : (s.afterWait call outcome).Early = false := by
  unfold afterWait
  split <;> rfl

theorem early_afterReceive (call : Call) (pc : ReceivePc) : (s.afterReceive call pc).pc.Early = false := by
  unfold afterReceive
  split
  · rfl
  · split <;> rfl
  · rfl

/-- A connected socket stays connected. -/
theorem early_step (h : s.pc.Early = false) (hs : s.step r listening choice = some (r', s')) :
    s'.pc.Early = false := by
  obtain ⟨-, ⟨-, hgo⟩ | ⟨rfl, hd⟩⟩ := step_cases hs
  · unfold go at hgo
    split at hgo <;> rename_i hpc <;> rw [hpc] at h
    all_goals try (cases h; done)
    all_goals try (split at hgo)
    all_goals try (split at hgo)
    all_goals first
      | (cases hgo; done)
      | (cases hgo; first | rfl | exact early_afterWait .. | exact early_afterReceive ..)
  · cases hd with
    | connect hpc | noRing hpc =>
      rw [hpc] at h
      cases h
    | call =>
      rename_i call last hpc
      cases call <;> rfl
    | kill => exact h
    | _ => rfl

end Subscriber

/-! ### The invariant -/

structure Bus.Connections (s : Bus) : Prop where
  early : ∀ i, (s.subs i).pc.Early = true → i ∉ s.phase.conn ++ s.backlog ∧ (s.subs i).acceptedAt = none
  waiting : ∀ i, i ∈ s.phase.conn ++ s.backlog → (s.subs i).acceptedAt = none
  nodup : (s.phase.conn ++ s.backlog).Nodup
  client : ∀ c ∈ s.clients, (s.subs c.sub).acceptedAt ≠ none ∧ c.cursorIdx = (s.subs c.sub).cursorIdx
  accepted_le : ∀ i tail, (s.subs i).acceptedAt = some tail → tail ≤ s.chan.ring.tail
  closed : ∀ i, (s.subs i).hup = true → s.phase.IsDropped = true ∨ (s.subs i).pc.stage = .out

theorem mem_of_mem_swapRemove {α : Type*} {l : List α} {i : Nat} {x : α} (h : x ∈ swapRemove l i) : x ∈ l := by
  unfold swapRemove at h
  split at h
  · rename_i last hlast
    rcases List.mem_or_eq_of_mem_set (List.dropLast_subset _ h) with hmem | rfl
    · exact hmem
    · exact List.mem_of_getLast? hlast
  · exact h

/-- The last element takes the place of the removed one. -/
theorem getElem?_swapRemove {α : Type*} {l : List α} {i n : Nat} :
    (swapRemove l i)[n]? = if n + 1 < l.length then if n = i then l.getLast? else l[n]? else none := by
  unfold swapRemove
  split
  · rename_i last hlast
    rw [List.getElem?_dropLast, List.length_set, List.getElem?_set]
    by_cases hn : n + 1 < l.length
    · rw [if_pos hn, if_pos (by omega), hlast]
      by_cases hni : n = i
      · rw [if_pos hni, if_pos hni.symm, if_pos (by omega)]
      · rw [if_neg hni, if_neg (Ne.symm hni)]
    · rw [if_neg hn, if_neg (by omega)]
  · rename_i hnone
    rw [List.getLast?_eq_none_iff] at hnone
    simp [hnone]

namespace Bus.Connections

variable {s s' : Bus}

theorem init {r : RingBuffer} {backpressure : BackpressurePolicy} : (Bus.init r backpressure).Connections where
  early _ _ := ⟨List.not_mem_nil, rfl⟩
  waiting _ h := absurd h List.not_mem_nil
  nodup := List.nodup_nil
  client _ h := absurd h List.not_mem_nil
  accepted_le _ _ h := by cases h
  closed _ h := (Bool.false_ne_true h).elim

/-- The subscriber of a client is past its claim. -/
theorem client_not_early (h : s.Connections) {c : Client} (hc : c ∈ s.clients) :
    (s.subs c.sub).pc.Early = false := by
  cases he : (s.subs c.sub).pc.Early with
  | false => rfl
  | true => exact absurd (h.early _ he).2 (h.client c hc).1

/-- A step that accepts nobody -/
private theorem of_fields (h : s.Connections)
    (hsub : ∀ i, (s'.subs i).pc = (s.subs i).pc ∧ (s'.subs i).acceptedAt = (s.subs i).acceptedAt ∧
      (s'.subs i).cursorIdx = (s.subs i).cursorIdx)
    (hmem : ∀ i, i ∈ s'.phase.conn ++ s'.backlog → i ∈ s.phase.conn ++ s.backlog)
    (hnodup : (s'.phase.conn ++ s'.backlog).Nodup) (hclients : ∀ c, c ∈ s'.clients → c ∈ s.clients)
    (htail : s.chan.ring.tail ≤ s'.chan.ring.tail)
    (hclosed : ∀ i, (s'.subs i).hup = true → s'.phase.IsDropped = true ∨ (s.subs i).pc.stage = .out) :
    s'.Connections where
  early i hi := by
    rw [(hsub i).1] at hi
    rw [(hsub i).2.1]
    exact ⟨fun hm => (h.early i hi).1 (hmem i hm), (h.early i hi).2⟩
  waiting i hi := (hsub i).2.1 ▸ h.waiting i (hmem i hi)
  nodup := hnodup
  client c hc := by
    rw [(hsub _).2.1, (hsub _).2.2]
    exact h.client c (hclients c hc)
  accepted_le i tail ht := (h.accepted_le i tail ((hsub i).2.1 ▸ ht)).trans htail
  closed i hi := (hsub i).1 ▸ hclosed i hi

/-- The subscriber of a client whose entry is free has none any more. -/
theorem out_of_free (h : s.Connections) (hinv : s.Inv) {c : Client} (hc : c ∈ s.clients)
    (hfree : s.chan.ring.cursors c.cursorIdx = CURSOR_UNCLAIMED) : (s.subs c.sub).pc.stage = .out := by
  have hearly := Subscriber.stage_of_not_early (h.client_not_early hc)
  have hholds : ¬(s.subs c.sub).pc.stage.Holds = true := fun hh =>
    (hinv.sub c.sub).claimed hinv.publish.tail_le hh ((h.client c hc).2 ▸ hfree)
  cases hstage : (s.subs c.sub).pc.stage with
  | init => exact absurd hstage hearly.1
  | claiming => exact absurd hstage hearly.2
  | out => rfl
  | claimed | positioned | live => exact absurd (by rw [hstage]; rfl) hholds

/-- A socket that is closed stays closed; only a reaped client's, or any after the drop, is closed anew. -/
theorem hup_step (hc : ConnEffect s s') (i : Nat) :
    (s'.subs i).hup = (s.subs i).hup ∨ (s'.subs i).hup = true ∧ (s.phase.IsDropped = true ∨
      ∃ c ∈ s.clients, c.sub = i ∧ s.chan.ring.cursors c.cursorIdx = CURSOR_UNCLAIMED) := by
  cases hc with
  | keep _ _ _ _ subs =>
    obtain ⟨efd, heq⟩ := subs i
    exact .inl (by rw [heq])
  | accept _ _ _ _ _ _ subs => exact .inl (by rw [subs])
  | refuse _ _ _ _ _ subs => exact .inl (by rw [subs])
  | @join k _ _ _ _ _ _ subs =>
    rw [subs]
    by_cases hik : i = k
    · subst hik
      exact .inl (by rw [Function.update_self])
    · exact .inl (by rw [Function.update_of_ne hik])
  | @reap k client at_k free _ _ _ _ subs =>
    rw [subs]
    by_cases hik : i = client.sub
    · subst hik
      exact .inr ⟨by rw [Function.update_self], .inr ⟨client, List.mem_of_getElem? at_k, rfl, free⟩⟩
    · exact .inl (by rw [Function.update_of_ne hik])
  | @close k dropped _ _ _ _ subs =>
    rw [subs]
    by_cases hik : i = k
    · subst hik
      exact .inr ⟨by rw [Function.update_self], .inl dropped⟩
    · exact .inl (by rw [Function.update_of_ne hik])

theorem publisher (h : s.Connections) (hinv : s.Inv) (he : PublisherEffect s s') (hc : ConnEffect s s') :
    s'.Connections := by
  obtain ⟨-, -, -, -, -, htail⟩ := hinv.publisher_ring he
  -- closing the socket of `k`
  have hupdate : ∀ k, s'.subs = Function.update s.subs k { s.subs k with hup := true } → ∀ i,
      (s'.subs i).acceptedAt = (s.subs i).acceptedAt ∧ (i ≠ k → (s'.subs i).hup = (s.subs i).hup) := by
    intro k hsubs i
    rw [hsubs]
    by_cases hi : i = k
    · subst hi
      exact ⟨by rw [Function.update_self], fun h => absurd rfl h⟩
    · rw [Function.update_of_ne hi]
      exact ⟨rfl, fun _ => rfl⟩
  cases hc with
  | keep clients backlog conn dropped subs =>
    have hsub : ∀ i, (s'.subs i).acceptedAt = (s.subs i).acceptedAt ∧ (s'.subs i).hup = (s.subs i).hup := by
      intro i
      obtain ⟨efd, heq⟩ := subs i
      rw [heq]
      exact ⟨rfl, rfl⟩
    refine h.of_fields (fun i => ⟨(he.fields i).1, (hsub i).1, (he.fields i).2.2.2.1⟩) (fun i hi => ?_) ?_ (fun c hc => ?_) htail
      fun i hi => ?_
    · rwa [conn, backlog] at hi
    · rw [conn, backlog]
      exact h.nodup
    · rwa [clients] at hc
    · exact (h.closed i ((hsub i).2 ▸ hi)).imp_left dropped
  | @accept i rest backlog backlog' conn conn' running clients subs =>
    have hmem : s'.phase.conn ++ s'.backlog = s.phase.conn ++ s.backlog := by
      rw [conn, conn', backlog, backlog']
      rfl
    refine h.of_fields (fun i => ⟨(he.fields i).1, by rw [subs], (he.fields i).2.2.2.1⟩) (fun i hi => hmem ▸ hi) (hmem ▸ h.nodup)
      (fun c hc => by rwa [clients] at hc) htail fun i hi => ?_
    rw [subs] at hi
    exact .inr ((h.closed i hi).resolve_left (by simp [running]))
  | @refuse i conn conn' running backlog clients subs =>
    refine h.of_fields (fun i => ⟨(he.fields i).1, by rw [subs], (he.fields i).2.2.2.1⟩) (fun i hi => ?_) ?_
      (fun c hc => by rwa [clients] at hc) htail fun i hi => ?_
    · rw [conn', backlog] at hi
      exact List.mem_append_right _ hi
    · rw [conn', backlog]
      exact h.nodup.of_append_right
    · rw [subs] at hi
      exact .inr ((h.closed i hi).resolve_left (by simp [running]))
  | @reap k client at_k free conn running backlog clients subs =>
    have hsub := hupdate _ subs
    refine h.of_fields (fun i => ⟨(he.fields i).1, (hsub i).1, (he.fields i).2.2.2.1⟩) (fun i hi => by rwa [conn, backlog] at hi)
      (by rw [conn, backlog]; exact h.nodup) (fun c hc => ?_) htail fun i hi => .inr ?_
    · rw [clients] at hc
      exact mem_of_mem_swapRemove hc
    · by_cases hic : i = client.sub
      · subst hic
        exact h.out_of_free hinv (List.mem_of_getElem? at_k) free
      · exact (h.closed i ((hsub i).2 hic ▸ hi)).resolve_left (by simp [running])
  | @close k dropped dropped' conn backlog clients subs =>
    have hsub := hupdate _ subs
    exact h.of_fields (fun i => ⟨(he.fields i).1, (hsub i).1, (he.fields i).2.2.2.1⟩) (fun i hi => by rwa [conn, backlog] at hi)
      (by rw [conn, backlog]; exact h.nodup) (fun c hc => by rwa [clients] at hc) htail fun _ _ => .inl dropped'
  | @join i conn conn' running sent backlog clients subs tail =>
    have hnd : i ∉ s.backlog := by
      have hnodup := h.nodup
      rw [conn] at hnodup
      exact (List.nodup_cons.1 hnodup).1
    have hother : ∀ k, k ≠ i → s'.subs k = s.subs k := by
      intro k hk
      rw [subs, Function.update_of_ne hk]
    have hself : s'.subs i = { s.subs i with acceptedAt := some s.chan.ring.tail } := by
      rw [subs, Function.update_self]
    have hback : ∀ k, k ∈ s'.phase.conn ++ s'.backlog → k ∈ s.backlog := by
      intro k hk
      rwa [conn', backlog] at hk
    have hne : ∀ k, k ∈ s.backlog → k ≠ i := fun k hk heq => hnd (heq ▸ hk)
    refine ⟨fun k hk => ?_, fun k hk => ?_, ?_, fun c hc => ?_, fun k t ht => ?_, fun k hk => ?_⟩
    · rw [(he.fields k).1] at hk
      obtain ⟨hnot, hacc⟩ := h.early k hk
      have hki : k ≠ i := fun heq => hnot (by rw [conn, heq]; simp)
      rw [hother k hki]
      exact ⟨fun hm => hnot (List.mem_append_right _ (hback k hm)), hacc⟩
    · have hk' := hback k hk
      rw [hother k (hne k hk')]
      exact h.waiting k (List.mem_append_right _ hk')
    · rw [conn', backlog]
      exact h.nodup.of_append_right
    · rw [(he.fields c.sub).2.2.2.1]
      rw [clients] at hc
      rcases List.mem_append.1 hc with hc | hc
      · refine ⟨?_, (h.client c hc).2⟩
        by_cases hki : c.sub = i
        · rw [hki, hself]
          simp
        · rw [hother _ hki]
          exact (h.client c hc).1
      · obtain rfl := List.mem_singleton.1 hc
        exact ⟨by rw [hself]; simp, rfl⟩
    · by_cases hki : k = i
      · subst hki
        rw [hself] at ht
        cases ht
        exact htail
      · exact (h.accepted_le k t (hother k hki ▸ ht)).trans htail
    · rw [(he.fields k).1]
      have hk' : (s.subs k).hup = true := by
        by_cases hki : k = i
        · subst hki
          rwa [hself] at hk
        · rwa [hother k hki] at hk
      exact .inr ((h.closed k hk').resolve_left (by simp [running]))

theorem subscriber (h : s.Connections) {i : Nat} {choice : Choice} {ring : RingBuffer} {sub : Subscriber}
    (hs : (s.subs i).step s.chan.ring s.listening choice = some (ring, sub)) :
    Connections { s with
      chan := { s.chan with ring := ring }
      subs := Function.update s.subs i sub
      backlog := if (s.subs i).pc = .connectSock ∧ sub.pc = .sendFd then s.backlog ++ [i] else s.backlog } := by
  have htail : ring.tail = s.chan.ring.tail := by
    obtain ⟨cursors, flags, rfl, -, -⟩ := (Subscriber.step_effect hs).frame
    rfl
  obtain ⟨hhup, hacc⟩ := Subscriber.publisher_fields hs
  have hother : ∀ k, k ≠ i → Function.update s.subs i sub k = s.subs k := fun k hk => Function.update_of_ne hk ..
  have hself : Function.update s.subs i sub i = sub := Function.update_self ..
  -- only a subscriber that has just connected enters the backlog
  have hback : ∀ k, k ∈ s.phase.conn ++ (if (s.subs i).pc = .connectSock ∧ sub.pc = .sendFd then s.backlog ++ [i]
      else s.backlog) → k ∈ s.phase.conn ++ s.backlog ∨
        k = i ∧ (s.subs i).pc = .connectSock ∧ sub.pc = .sendFd := by
    intro k hk
    split at hk
    · rename_i hconn
      rw [← List.append_assoc, List.mem_append, List.mem_singleton] at hk
      exact hk.imp_right fun h => ⟨h, hconn⟩
    · exact .inl hk
  have hearly : (s.subs i).pc.Early = true → (s.subs i).acceptedAt = none := fun he => (h.early i he).2
  refine ⟨fun k hk => ?_, fun k hk => ?_, ?_, fun c hc => ?_, fun k tail ht => ?_, fun k hk => ?_⟩
  · simp only at hk ⊢
    by_cases hki : k = i
    · subst hki
      rw [hself] at hk ⊢
      have hk₀ : (s.subs k).pc.Early = true := by
        by_contra hne
        rw [Subscriber.early_step (by simpa using hne) hs] at hk
        cases hk
      refine ⟨fun hm => ?_, hacc.trans (hearly hk₀)⟩
      rcases hback k hm with hm | ⟨-, -, hpc⟩
      · exact (h.early k hk₀).1 hm
      · rw [hpc] at hk
        cases hk
    · rw [hother k hki] at hk ⊢
      refine ⟨fun hm => ?_, (h.early k hk).2⟩
      exact (hback k hm).elim (h.early k hk).1 fun hm => hki hm.1
  · simp only at hk ⊢
    rcases hback k hk with hm | ⟨rfl, hpc, -⟩
    · by_cases hki : k = i
      · subst hki
        rw [hself, hacc]
        exact h.waiting k hm
      · rw [hother k hki]
        exact h.waiting k hm
    · rw [hself, hacc]
      exact hearly (by rw [hpc]; rfl)
  · simp only
    split
    · rename_i hconn
      have hnot := (h.early i (by rw [hconn.1]; rfl)).1
      rw [← List.append_assoc]
      refine List.nodup_append.2 ⟨h.nodup, List.nodup_singleton i, fun a ha b hb => ?_⟩
      rw [List.mem_singleton.1 hb]
      exact fun heq => hnot (heq ▸ ha)
    · exact h.nodup
  · simp only at hc ⊢
    by_cases hki : c.sub = i
    · have hlate := h.client_not_early hc
      obtain ⟨hsome, hidx⟩ := h.client c hc
      rw [hki] at hlate hsome hidx ⊢
      rw [hself, hacc, Subscriber.cursorIdx_step hlate hs]
      exact ⟨hsome, hidx⟩
    · rw [hother _ hki]
      exact h.client c hc
  · simp only at ht ⊢
    rw [htail]
    by_cases hki : k = i
    · subst hki
      rw [hself, hacc] at ht
      exact h.accepted_le k tail ht
    · rw [hother k hki] at ht
      exact h.accepted_le k tail ht
  · simp only at hk ⊢
    by_cases hki : k = i
    · subst hki
      rw [hself, hhup] at hk
      rw [hself]
      exact (h.closed k hk).imp_right fun hout => Subscriber.stage_out_step hout hs
    · rw [hother k hki] at hk ⊢
      exact h.closed k hk

theorem step {a : Act} (h : s.Connections) (hinv : s.Inv) (hs : s.step a = some s') : s'.Connections := by
  rcases step_cases hinv.fits hs with ⟨i, choice, ring, sub, rfl, hsub, rfl⟩ | ⟨hne, he⟩
  · exact h.subscriber hsub
  · exact h.publisher hinv he (step_conn hne hs)

end Bus.Connections

end Mmbus
