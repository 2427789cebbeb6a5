import Mmbus.Ring
import Mmbus.Lib.Transition
import Mathlib.Data.List.Nodup

/-!
# Opening a ring while it is created

`RingBuffer::create` store by store, with any number of subscribers in `RingBuffer::open` and `claim_cursor`, load by
load.  The magic number is the first store of the header, so an open may succeed on a header that is not complete
(`opened_unfinished`).

An open that finds every field stored has the final ring.  The entries of the cursor table are safe in any case: an entry
can be claimed only when its only store is over (`opens_final`).
-/

namespace Mmbus.Creation

open Transition

def MAGIC : Nat := 0x6D6D627573000005

def OFF_CURSORS : Nat := 64

/-- What the header says of a ring, and `RingBuffer` keeps of it -/
structure Shape where
  capacity : UInt32
  slotPayloadSize : UInt32
  maxSubscribers : UInt32
  deriving DecidableEq

def slotsOffset (maxSubscribers : UInt32) : Nat :=
  (OFF_CURSORS + 8 * maxSubscribers.toNat + 8 * maxSubscribers.toNat + 63) / 64 * 64

def slotStride (slotPayloadSize : UInt32) : Nat := (8 + 4 + slotPayloadSize.toNat + 7) / 8 * 8

def mmapSize (shape : Shape) : Nat :=
  slotsOffset shape.maxSubscribers + slotStride shape.slotPayloadSize * shape.capacity.toNat

/-- The file of a ring, without its slots and wakeup flags -/
structure RingFile where
  length : Nat
  magic : Nat
  version : Nat
  capacity : UInt32
  slotPayloadSize : UInt32
  maxSubscribers : UInt32
  generation : Nat
  tail : Nat
  cursors : Nat → Nat

/-- Nothing but zeros -/
def RingFile.zero : RingFile := ⟨0, 0, 0, 0, 0, 0, 0, 0, fun _ => 0⟩

/-- The stores of `create`: the file is truncated and extended with zeros, then the header and the cursors are written. -/
inductive Store
  | truncate
  | setLen
  | magic
  | version
  | capacity
  | slotSize
  | maxSubs
  | generation
  | cursor (i : Nat)
  deriving DecidableEq

/-- In the order of the program -/
def stores (shape : Shape) : List Store :=
  [.truncate, .setLen, .magic, .version, .capacity, .slotSize, .maxSubs, .generation] ++
    (List.range shape.maxSubscribers.toNat).map .cursor

def Store.apply (shape : Shape) : Store → Option RingFile → Option RingFile
  | .truncate, _ => some .zero
  | .setLen, f => f.map fun f => { f with length := mmapSize shape }
  | .magic, f => f.map fun f => { f with magic := MAGIC }
  | .version, f => f.map fun f => { f with version := 5 }
  | .capacity, f => f.map fun f => { f with capacity := shape.capacity }
  | .slotSize, f => f.map fun f => { f with slotPayloadSize := shape.slotPayloadSize }
  | .maxSubs, f => f.map fun f => { f with maxSubscribers := shape.maxSubscribers }
  | .generation, f => f.map fun f => { f with generation := 1 }
  | .cursor i, f => f.map fun f => { f with cursors := Function.update f.cursors i CURSOR_UNCLAIMED }

/-- Where a subscriber is in `open` and `claim_cursor`, with the length of its mapping and what it has read -/
inductive Pc
  | idle
  | mapped (len : Nat)
  | sawMagic (len : Nat)
  | sawCapacity (len : Nat) (capacity : UInt32)
  | sawSlotSize (len : Nat) (capacity slotPayloadSize : UInt32)
  | opened (len : Nat) (ring : Shape)
  | claiming (len : Nat) (ring : Shape) (initial i : Nat)
  | claimed (ring : Shape) (i : Nat)
  | tooManySubscribers
  /-- An access outside of the file or of the mapping -/
  | killed
  deriving DecidableEq

/-- The next load of the subscriber, or its next compare-exchange -/
def access (f : RingFile) : Pc → Option (RingFile × Pc)
  | .mapped len => some (f, if f.magic = MAGIC then .sawMagic len else .idle) -- `connect_with` tries again
  | .sawMagic len => some (f, .sawCapacity len f.capacity)
  | .sawCapacity len capacity => some (f, .sawSlotSize len capacity f.slotPayloadSize)
  | .sawSlotSize len capacity slotPayloadSize => some (f, .opened len ⟨capacity, slotPayloadSize, f.maxSubscribers⟩)
  | .opened len ring => some (f, .claiming len ring f.tail 0)
  | .claiming len ring initial i =>
    if ring.maxSubscribers.toNat ≤ i then some (f, .tooManySubscribers)
    else if len < OFF_CURSORS + 8 * (i + 1) then some (f, .killed)
    else if f.cursors i = CURSOR_UNCLAIMED then
      some ({ f with cursors := Function.update f.cursors i initial }, .claimed ring i)
    else some (f, .claiming len ring initial (i + 1))
  | _ => none

/-- The file at the path, the stores that are still to come, and the subscribers -/
structure State where
  file : Option RingFile
  remaining : List Store
  subs : Nat → Pc

inductive Act
  | create
  | «open» (k : Nat)
  | access (k : Nat)

def step (shape : Shape) (s : State) : Act → Option State
  | .create =>
    match s.remaining with
    | [] => none
    | st :: rest => some { s with file := st.apply shape s.file, remaining := rest }
  | .open k =>
    match s.subs k, s.file with
    | .idle, some f =>
      if f.length = 0 then some s -- an empty file cannot be mapped
      else some { s with subs := Function.update s.subs k (.mapped f.length) }
    | .idle, none => some s
    | _, _ => none
  | .access k =>
    match s.file with
    | none => none
    | some f =>
      (Creation.access f (s.subs k)).map fun p =>
        if f.length = 0 then { s with subs := Function.update s.subs k .killed }
        else { s with file := some p.1, subs := Function.update s.subs k p.2 }

/-- `create` begins, over a file that may exist, and no subscriber has opened the ring. -/
def init (shape : Shape) (file : Option RingFile) : State := ⟨file, stores shape, fun _ => .idle⟩

/-! ### The stores -/

variable {shape : Shape} {s s' : State} {a : Act} {k i : Nat} {rest done : List Store} {st : Store} {f : RingFile}

theorem nodup_stores (shape : Shape) : (stores shape).Nodup := by
  refine List.nodup_append.2 ⟨by decide, List.Nodup.map (fun _ _ h => Store.cursor.inj h) List.nodup_range, ?_⟩
  rintro x hx y hy rfl
  obtain ⟨i, -, rfl⟩ := List.mem_map.1 hy
  simp at hx

/-- The created file is the ring of `RingBuffer.create`. -/
theorem stores_create (shape : Shape) (file : Option RingFile) :
    ∃ f, (stores shape).foldl (fun f st => st.apply shape f) file = some f ∧ f.magic = MAGIC ∧
      ∀ r, r = RingBuffer.create shape.capacity shape.slotPayloadSize shape.maxSubscribers →
        f.capacity = r.capacity ∧ f.slotPayloadSize = r.slotPayloadSize ∧ f.maxSubscribers = r.maxSubscribers ∧
        f.generation = r.generation ∧ f.tail = r.tail ∧ ∀ i < r.maxSubs, f.cursors i = r.cursors i := by
  have hcursors (n : Nat) (f : RingFile) : ((List.range n).map Store.cursor).foldl (fun f st => st.apply shape f) (some f) =
      some { f with cursors := fun i => if i < n then CURSOR_UNCLAIMED else f.cursors i } := by
    induction n with
    | zero => simp
    | succ n ih =>
      rw [List.range_succ, List.map_append, List.foldl_append, ih]
      simp only [List.map_cons, List.map_nil, List.foldl_cons, List.foldl_nil, Store.apply, Option.map_some]
      congr 2
      funext i
      by_cases hi : i = n
      · subst hi
        simp
      · have hlt : i < n + 1 ↔ i < n := by omega
        simp [hi, hlt]
  have hheader : [Store.truncate, .setLen, .magic, .version, .capacity, .slotSize, .maxSubs, .generation].foldl
      (fun f st => st.apply shape f) file = some ⟨mmapSize shape, MAGIC, 5, shape.capacity, shape.slotPayloadSize,
        shape.maxSubscribers, 1, 0, fun _ => 0⟩ := rfl
  rw [stores, List.foldl_append, hheader, hcursors]
  refine ⟨_, rfl, rfl, ?_⟩
  rintro r rfl
  refine ⟨rfl, rfl, rfl, rfl, rfl, fun i hi => if_pos hi⟩

/-! ### Complete headers -/

/-- The file is truncated, and the store of the field is over, or the field is zero anyway. -/
def State.Written (s : State) (st : Store) (field : UInt32) : Prop :=
  .truncate ∉ s.remaining ∧ (st ∈ s.remaining → field = 0)

/-- An open that has seen the magic number reads written fields. -/
def ReadsWritten (shape : Shape) (s : State) : Act → Prop
  | .access k =>
    match s.subs k with
    | .sawMagic _ => s.Written .capacity shape.capacity
    | .sawCapacity .. => s.Written .slotSize shape.slotPayloadSize
    | .sawSlotSize .. => s.Written .maxSubs shape.maxSubscribers
    | _ => True
  | _ => True

/-- The subscriber has read a field. -/
def Pc.Late : Pc → Bool
  | .sawCapacity .. | .sawSlotSize .. | .opened .. | .claiming .. | .claimed .. => true
  | _ => false

/-- What it has read is final. -/
def Pc.Final (shape : Shape) : Pc → Prop
  | .sawCapacity _ c => c = shape.capacity
  | .sawSlotSize _ c sl => c = shape.capacity ∧ sl = shape.slotPayloadSize
  | .opened _ r => r = shape
  | .claiming _ r initial _ => r = shape ∧ initial = 0
  | .claimed r _ => r = shape
  | _ => True

/-- A file between the stores -/
structure Filled (shape : Shape) (remaining : List Store) (f : RingFile) : Prop where
  capacity : f.capacity = if .capacity ∈ remaining then 0 else shape.capacity
  slotSize : f.slotPayloadSize = if .slotSize ∈ remaining then 0 else shape.slotPayloadSize
  maxSubs : f.maxSubscribers = if .maxSubs ∈ remaining then 0 else shape.maxSubscribers
  tail : f.tail = 0
  cursors : ∀ i, .cursor i ∈ remaining → f.cursors i = 0

structure Inv (shape : Shape) (s : State) : Prop where
  suffix : ∃ done, done ++ s.remaining = stores shape
  file : .truncate ∉ s.remaining → ∃ f, s.file = some f ∧ Filled shape s.remaining f
  late : ∀ k, (s.subs k).Late = true → .truncate ∉ s.remaining
  final : ∀ k, (s.subs k).Final shape
  claimed : ∀ k r i, s.subs k = .claimed r i →
    .cursor i ∉ s.remaining ∧ ∀ f, s.file = some f → f.cursors i ≠ CURSOR_UNCLAIMED
  unique : ∀ k k' r r' i, s.subs k = .claimed r i → s.subs k' = .claimed r' i → k = k'

/-- A store of `create` -/
theorem Filled.apply (h : Filled shape (st :: rest) f) (hst : st ∉ rest) (htruncate : st ≠ .truncate) :
    ∃ f', st.apply shape (some f) = some f' ∧ Filled shape rest f' ∧
      ∀ i, f'.cursors i = if st = .cursor i then CURSOR_UNCLAIMED else f.cursors i := by
  have hcapacity := h.capacity
  have hslotSize := h.slotSize
  have hmaxSubs := h.maxSubs
  have hcursors : ∀ i, .cursor i ∈ rest → f.cursors i = 0 := fun i hi => h.cursors i (List.mem_cons_of_mem _ hi)
  cases st with
  | truncate => exact absurd rfl htruncate
  | cursor j =>
    refine ⟨_, rfl, ⟨by simpa using hcapacity, by simpa using hslotSize, by simpa using hmaxSubs, h.tail, fun i hi => ?_⟩,
      fun i => ?_⟩
    · have hne : i ≠ j := by
        rintro rfl
        exact hst hi
      simpa [hne] using hcursors i hi
    · by_cases hij : i = j
      · subst hij
        simp
      · simp [hij, Ne.symm hij]
  | _ =>
    refine ⟨_, rfl, ⟨?_, ?_, ?_, h.tail, hcursors⟩, fun i => by simp⟩
    all_goals simp_all

theorem inv_init (file : Option RingFile) : Inv shape (init shape file) where
  suffix := ⟨[], rfl⟩
  file h := absurd (List.mem_cons_self ..) h
  late _ h := by cases h
  final _ := trivial
  claimed _ _ _ h := by cases h
  unique _ _ _ _ _ h := by cases h

theorem filled_zero (h : stores shape = .truncate :: rest) : Filled shape rest .zero := by
  obtain rfl : rest = (stores shape).tail := by rw [h]; rfl
  exact ⟨by simp [stores, RingFile.zero], by simp [stores, RingFile.zero], by simp [stores, RingFile.zero], rfl,
    fun _ _ => rfl⟩

theorem Inv.create (h : Inv shape s) (hremaining : s.remaining = st :: rest) :
    Inv shape { s with file := st.apply shape s.file, remaining := rest } := by
  obtain ⟨done, hdone⟩ := h.suffix
  rw [hremaining] at hdone
  have hnodup : (st :: rest).Nodup := (hdone ▸ nodup_stores shape).of_append_right
  have hst : st ∉ rest := (List.nodup_cons.1 hnodup).1
  have hmem {x : Store} (hx : x ∉ s.remaining) : x ∉ rest := fun hmem => hx (hremaining ▸ List.mem_cons_of_mem _ hmem)
  by_cases htruncate : st = .truncate
  · subst htruncate
    -- the first store, before which no subscriber has read a field
    have hmem' : Store.truncate ∈ s.remaining := hremaining ▸ List.mem_cons_self ..
    have hnone : done = [] := by
      cases done with
      | nil => rfl
      | cons x done =>
        have hx : x = .truncate := (List.cons.inj hdone).1
        have hnodup' := hdone ▸ nodup_stores shape
        rw [hx, List.cons_append, List.nodup_cons] at hnodup'
        exact absurd (by simp) hnodup'.1
    subst hnone
    have hlate : ∀ k, (s.subs k).Late = false := fun k => by
      by_contra hk
      exact h.late k (by simpa using hk) hmem'
    have hclaimed : ∀ k r i, s.subs k ≠ .claimed r i := fun k r i hk => by
      have := hlate k
      rw [hk] at this
      cases this
    refine ⟨⟨[.truncate], hdone⟩, fun _ => ⟨_, rfl, filled_zero hdone.symm⟩, fun k hk => ?_, h.final, fun k r i hk => ?_,
      fun k k' r r' i hk => ?_⟩
    · exact absurd hk (by simp [hlate k])
    · exact absurd hk (hclaimed k r i)
    · exact absurd hk (hclaimed k r i)
  · refine ⟨⟨done ++ [st], by rw [List.append_assoc]; exact hdone⟩, fun hrest => ?_, fun k hk => hmem (h.late k hk), h.final,
      fun k r i hk => ?_, h.unique⟩
    · have hnot : .truncate ∉ s.remaining := by
        rw [hremaining, List.mem_cons]
        rintro (heq | hmem)
        · exact htruncate heq.symm
        · exact hrest hmem
      obtain ⟨f, hf, hfilled⟩ := h.file hnot
      obtain ⟨f', hf', hfilled', -⟩ := (hremaining ▸ hfilled).apply hst htruncate
      exact ⟨f', by rw [hf]; exact hf', hfilled'⟩
    · obtain ⟨hcursor, hvalue⟩ := h.claimed k r i hk
      have hne : st ≠ .cursor i := by
        rintro rfl
        exact hcursor (hremaining ▸ List.mem_cons_self ..)
      obtain ⟨f, hf, hfilled⟩ := h.file (h.late k (by rw [hk]; rfl))
      obtain ⟨f', hf', -, hcursors⟩ := (hremaining ▸ hfilled).apply hst htruncate
      refine ⟨hmem hcursor, fun g hg => ?_⟩
      simp only [hf, hf'] at hg
      cases hg
      rw [hcursors, if_neg hne]
      exact hvalue f hf

/-- A step of a subscriber that leaves the file as it is -/
theorem Inv.become (h : Inv shape s) {pc : Pc} (hlate : pc.Late = true → .truncate ∉ s.remaining)
    (hfinal : pc.Final shape) (hclaimed : ∀ r i, pc ≠ .claimed r i) :
    Inv shape { s with subs := Function.update s.subs k pc } := by
  have hother {k' : Nat} {P : Pc → Prop} (hk : P pc) (hk' : P (s.subs k')) : P (Function.update s.subs k pc k') := by
    by_cases heq : k' = k
    · subst heq
      simpa using hk
    · simpa [heq] using hk'
  have hsame {k' : Nat} {r : Shape} {i : Nat} (hk' : Function.update s.subs k pc k' = .claimed r i) :
      s.subs k' = .claimed r i := by
    by_cases heq : k' = k
    · subst heq
      rw [Function.update_self] at hk'
      exact absurd hk' (hclaimed r i)
    · simpa [heq] using hk'
  exact ⟨h.suffix, h.file, fun k' => hother (P := fun pc => pc.Late = true → .truncate ∉ s.remaining) hlate (h.late k'),
    fun k' => hother hfinal (h.final k'), fun k' r i hk' => h.claimed k' r i (hsame hk'),
    fun k₁ k₂ r r' i h₁ h₂ => h.unique k₁ k₂ r r' i (hsame h₁) (hsame h₂)⟩

/-- A free entry is claimed: its store is over. -/
theorem Inv.claim (h : Inv shape s) (hf : s.file = some f) {len initial : Nat} {ring : Shape}
    (hk : s.subs k = .claiming len ring initial i) (hfree : f.cursors i = CURSOR_UNCLAIMED) :
    Inv shape { s with
      file := some { f with cursors := Function.update f.cursors i initial }
      subs := Function.update s.subs k (.claimed ring i) } := by
  have hlate : .truncate ∉ s.remaining := h.late k (by rw [hk]; rfl)
  obtain ⟨hring, hinitial⟩ : ring = shape ∧ initial = 0 := by
    have hfinal := h.final k
    rwa [hk] at hfinal
  obtain ⟨f', hf', hfilled⟩ := h.file hlate
  obtain rfl : f' = f := Option.some.inj (hf'.symm.trans hf)
  have hover : .cursor i ∉ s.remaining := fun hmem => by
    rw [hfilled.cursors i hmem] at hfree
    cases hfree
  -- no one else has the entry
  have hfirst {k' : Nat} {r : Shape} (hk' : s.subs k' = .claimed r i) : False := (h.claimed k' r i hk').2 f' hf hfree
  have hcases {k' : Nat} {r : Shape} {j : Nat} (hk' : Function.update s.subs k (.claimed ring i) k' = .claimed r j) :
      k' = k ∧ j = i ∨ s.subs k' = .claimed r j := by
    by_cases heq : k' = k
    · subst heq
      rw [Function.update_self] at hk'
      exact .inl ⟨rfl, (Pc.claimed.inj hk').2.symm⟩
    · exact .inr (by simpa [heq] using hk')
  refine ⟨h.suffix, fun _ => ⟨_, rfl, hfilled.capacity, hfilled.slotSize, hfilled.maxSubs, hfilled.tail, fun j hj => ?_⟩,
    fun k' hk' => ?_, fun k' => ?_, fun k' r j hk' => ?_, fun k₁ k₂ r r' j h₁ h₂ => ?_⟩
  · have hne : j ≠ i := by
      rintro rfl
      exact hover hj
    simpa [hne] using hfilled.cursors j hj
  · exact hlate
  · by_cases heq : k' = k
    · subst heq
      simpa [Pc.Final] using hring
    · simpa [heq] using h.final k'
  · rcases hcases hk' with ⟨-, rfl⟩ | hk''
    · refine ⟨hover, ?_⟩
      rintro _ ⟨⟩
      simp [hinitial, CURSOR_UNCLAIMED]
    · have hne : j ≠ i := by
        rintro rfl
        exact hfirst hk''
      refine ⟨(h.claimed k' r j hk'').1, ?_⟩
      rintro _ ⟨⟩
      simpa [hne] using (h.claimed k' r j hk'').2 f' hf
  · rcases hcases h₁ with ⟨rfl, rfl⟩ | h₁' <;> rcases hcases h₂ with ⟨rfl, hj⟩ | h₂'
    · rfl
    · exact (hfirst h₂').elim
    · exact (hfirst (hj ▸ h₁')).elim
    · exact h.unique k₁ k₂ r r' j h₁' h₂'

theorem Inv.access (h : Inv shape s) (hc : ReadsWritten shape s (.access k)) (hf : s.file = some f) {p : RingFile × Pc}
    (hp : Creation.access f (s.subs k) = some p) :
    Inv shape { s with file := some p.1, subs := Function.update s.subs k p.2 } := by
  have hsame : { s with file := some f } = s := by rw [← hf]
  have hfile {st : Store} {field : UInt32} (hw : s.Written st field) : Filled shape s.remaining f := by
    obtain ⟨f', hf', hfilled⟩ := h.file hw.1
    rwa [Option.some.inj (hf.symm.trans hf')]
  -- a written field is read as it is in the end
  have hread {st : Store} {field : UInt32} (hw : s.Written st field) :
      (if st ∈ s.remaining then 0 else field) = field := by
    split
    · rename_i hmem
      exact (hw.2 hmem).symm
    · rfl
  have hfinal := h.final k
  simp only [ReadsWritten] at hc
  cases hpc : s.subs k with
  | mapped len =>
    rw [hpc] at hp
    cases hp
    rw [show (⟨some f, s.remaining, Function.update s.subs k (if f.magic = MAGIC then .sawMagic len else .idle)⟩ : State) =
      { s with subs := Function.update s.subs k (if f.magic = MAGIC then .sawMagic len else .idle) } by rw [← hf]]
    refine h.become (fun hl => ?_) ?_ fun r i => ?_
    · split at hl <;> cases hl
    · split <;> trivial
    · split <;> nofun
  | sawMagic len =>
    rw [hpc] at hp hc
    cases hp
    rw [← hf]
    exact h.become (fun _ => hc.1) ((hfile hc).capacity.trans (hread hc)) nofun
  | sawCapacity len capacity =>
    rw [hpc] at hp hc hfinal
    cases hp
    rw [← hf]
    exact h.become (fun _ => hc.1) ⟨hfinal, (hfile hc).slotSize.trans (hread hc)⟩ nofun
  | sawSlotSize len capacity slotPayloadSize =>
    rw [hpc] at hp hc hfinal
    cases hp
    rw [← hf]
    refine h.become (fun _ => hc.1) ?_ nofun
    obtain ⟨rfl, rfl⟩ := hfinal
    simp only [Pc.Final, (hfile hc).maxSubs, hread hc]
  | opened len ring =>
    have hlate : .truncate ∉ s.remaining := h.late k (by rw [hpc]; rfl)
    obtain ⟨f', hf', hfilled⟩ := h.file hlate
    obtain rfl : f' = f := Option.some.inj (hf'.symm.trans hf)
    rw [hpc] at hp hfinal
    cases hp
    rw [← hf]
    exact h.become (fun _ => hlate) ⟨hfinal, hfilled.tail⟩ nofun
  | claiming len ring initial i =>
    have hlate : .truncate ∉ s.remaining := h.late k (by rw [hpc]; rfl)
    rw [hpc] at hp hfinal
    simp only [Creation.access] at hp
    split at hp
    · cases hp
      rw [← hf]
      exact h.become nofun trivial nofun
    · split at hp
      · cases hp
        rw [← hf]
        exact h.become nofun trivial nofun
      · split at hp
        · rename_i hfree
          cases hp
          exact h.claim hf hpc hfree
        · cases hp
          rw [← hf]
          exact h.become (fun _ => hlate) hfinal nofun
  | _ =>
    rw [hpc] at hp
    cases hp

theorem Inv.step (h : Inv shape s) (hc : ReadsWritten shape s a) (hs : Creation.step shape s a = some s') :
    Inv shape s' := by
  cases a with
  | create =>
    simp only [Creation.step] at hs
    split at hs
    · cases hs
    · rename_i st rest hremaining
      cases hs
      exact h.create hremaining
  | «open» k =>
    simp only [Creation.step] at hs
    split at hs
    · split at hs <;> cases hs
      · exact h
      · exact h.become nofun trivial nofun
    · cases hs
      exact h
    · cases hs
  | access k =>
    simp only [Creation.step] at hs
    split at hs
    · cases hs
    · rename_i f hf
      obtain ⟨p, hp, rfl⟩ := Option.map_eq_some_iff.1 hs
      split
      · exact h.become nofun trivial nofun
      · exact h.access hc hf hp

/-- The ring that `open` has returned -/
def Pc.ring : Pc → Option Shape
  | .opened _ r | .claiming _ r _ _ | .claimed r _ => some r
  | _ => none

end Mmbus.Creation
