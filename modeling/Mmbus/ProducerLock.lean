import Mmbus.Lib.Transition
import Mathlib.Logic.Function.Basic

/-!
# The producer lock

`acquire_producer_lock`, with `Publisher::create`, the drop of a publisher and `Bus::clean_topic` around it, as the steps
that each of them makes on the file system.  A lock belongs to an inode; removing the path of the lock file does not
release it.

A cleaner may remove the lock file that another process has opened but not locked yet, or one that was made after it has
removed its own: then a second publisher can lock a second inode (`two_live_publishers`).  As long as a lock file is
removed only while no other publisher uses it there is one live publisher at most (`one_live_publisher`).
-/

namespace Mmbus.Locking

open Transition

/-- What the lock is for -/
inductive Purpose
  | create
  | clean
  deriving DecidableEq

/-- Where an actor is: a call of `Publisher::create` with the publisher that it returns, or a call of `clean_topic` -/
inductive Phase
  | idle
  | entering (p : Purpose)
  | opening (p : Purpose)
  | locking (p : Purpose) (inode : Nat)
  | locked (p : Purpose) (inode : Nat)
  | live (inode : Nat)
  | dropping (inode : Nat)
  | closing (inode : Nat)
  deriving DecidableEq

/-- The directory of a topic, with the inode of its lock file and whether it has other files, the holder of the lock of
each inode, the processes whose set `IN_PROCESS_LOCKS` has the path, and the actors -/
structure Topic where
  dir : Bool
  lockFile : Option Nat
  others : Bool
  nextInode : Nat
  flock : Nat → Option Nat
  inProcess : Nat → Bool
  phase : Nat → Phase

namespace Topic

def become (s : Topic) (a : Nat) (p : Phase) : Topic := { s with phase := Function.update s.phase a p }

/-- Insert the path into the set of a process, or remove it. -/
def listed (s : Topic) (process : Nat) (b : Bool) : Topic := { s with inProcess := Function.update s.inProcess process b }

/-- Lock an inode, or unlock it. -/
def lock (s : Topic) (inode : Nat) (holder : Option Nat) : Topic := { s with flock := Function.update s.flock inode holder }

/-- There is nothing yet. -/
def init : Topic := ⟨false, none, false, 0, fun _ => none, fun _ => false, fun _ => .idle⟩

end Topic

inductive Act
  /-- `create_dir_all` of `Publisher::create` -/
  | createDir (a : Nat)
  /-- `dir.exists()` of `clean_topic` -/
  | dirExists (a : Nat)
  /-- `acquire_producer_lock`: the check of the process, the open, and the lock -/
  | insert (a : Nat)
  | openFile (a : Nat)
  | tryLock (a : Nat)
  /-- The rest of `Publisher::create`, which makes other files in the directory, or fails -/
  | finish (a : Nat)
  | fail (a : Nat)
  /-- `remove_dir_all`, which may find a file more than once, and stops at the first error -/
  | unlink (a : Nat)
  | unlinkOthers (a : Nat)
  | removeDir (a : Nat)
  /-- The publisher is dropped down to its lock. -/
  | drop (a : Nat)
  /-- The drop of the lock: the entry of the process goes first, then the file is closed. -/
  | release (a : Nat)
  | close (a : Nat)
  deriving DecidableEq

/-- The steps; `process a` is the process of the actor `a`. -/
def step (process : Nat → Nat) (s : Topic) : Act → Option Topic
  | .createDir a =>
    match s.phase a with
    | .idle => some ({ s with dir := true }.become a (.entering .create))
    | _ => none
  | .dirExists a =>
    match s.phase a with
    | .idle => if s.dir then some (s.become a (.entering .clean)) else some s
    | _ => none
  | .insert a =>
    match s.phase a with
    | .entering p =>
      if s.inProcess (process a) then some (s.become a .idle) -- `AlreadyPublishing`
      else some ((s.listed (process a) true).become a (.opening p))
    | _ => none
  | .openFile a =>
    match s.phase a with
    | .opening p =>
      if s.dir = false then some ((s.listed (process a) false).become a .idle)
      else
        match s.lockFile with
        | some inode => some (s.become a (.locking p inode))
        | none => some ({ s with lockFile := some s.nextInode, nextInode := s.nextInode + 1 }.become a
            (.locking p s.nextInode))
    | _ => none
  | .tryLock a =>
    match s.phase a with
    | .locking p inode =>
      match s.flock inode with
      | none => some ((s.lock inode (some a)).become a (.locked p inode))
      | some _ => some ((s.listed (process a) false).become a .idle) -- `AlreadyPublishing`
    | _ => none
  | .finish a =>
    match s.phase a with
    | .locked .create inode =>
      if s.dir then some ({ s with others := true }.become a (.live inode)) else some (s.become a (.dropping inode))
    | _ => none
  | .fail a =>
    match s.phase a with
    | .locked _ inode => some (s.become a (.dropping inode))
    | _ => none
  | .unlink a =>
    match s.phase a with
    | .locked .clean _ => some { s with lockFile := none }
    | _ => none
  | .unlinkOthers a =>
    match s.phase a with
    | .locked .clean _ => some { s with others := false }
    | _ => none
  | .removeDir a =>
    match s.phase a with
    | .locked .clean inode =>
      if s.lockFile = none ∧ s.others = false then some ({ s with dir := false }.become a (.dropping inode))
      else some (s.become a (.dropping inode)) -- the directory is not empty
    | _ => none
  | .drop a =>
    match s.phase a with
    | .live inode => some (s.become a (.dropping inode))
    | _ => none
  | .release a =>
    match s.phase a with
    | .dropping inode => some ((s.listed (process a) false).become a (.closing inode))
    | _ => none
  | .close a =>
    match s.phase a with
    | .closing inode => some ((s.lock inode none).become a .idle)
    | _ => none

/-! ### The lock file of a publisher -/

/-- A publisher that is being created has opened the inode, or a live one has it locked. -/
def Phase.Uses : Phase → Nat → Prop
  | .locking .create i, inode | .locked .create i, inode | .live i, inode => i = inode
  | _, _ => False

/-- The actor holds the lock of the inode. -/
def Phase.Holds : Phase → Nat → Prop
  | .locked _ i, inode | .live i, inode | .dropping i, inode | .closing i, inode => i = inode
  | _, _ => False

/-- A lock file is removed only while no publisher uses it. -/
def Unused (s : Topic) (act : Act) : Prop :=
  ∀ a inode, act = .unlink a → s.lockFile = some inode → ∀ b, ¬(s.phase b).Uses inode

/-- The lock file of every publisher is the one at the path, and holders hold their locks. -/
structure Inv (s : Topic) : Prop where
  linked : ∀ {a inode}, (s.phase a).Uses inode → s.lockFile = some inode
  held : ∀ {a inode}, (s.phase a).Holds inode → s.flock inode = some a

variable {process : Nat → Nat} {s s' : Topic} {a b inode i j : Nat} {p : Phase} {act : Act} {acts : List Act}

theorem inv_init : Inv .init := ⟨nofun, nofun⟩

theorem Inv.become (h : Inv s) (huses : ∀ {i}, p.Uses i → s.lockFile = some i)
    (hholds : ∀ {i}, p.Holds i → s.flock i = some a) : Inv (s.become a p) := by
  refine ⟨fun {b i} hb => ?_, fun {b i} hb => ?_⟩ <;> by_cases hba : b = a
  · subst hba
    exact huses (by simpa [Topic.become] using hb)
  · exact h.linked (a := b) (by simpa [Topic.become, hba] using hb)
  · subst hba
    exact hholds (by simpa [Topic.become] using hb)
  · exact h.held (a := b) (by simpa [Topic.become, hba] using hb)

theorem Inv.listed (h : Inv s) (k : Nat) (b : Bool) : Inv (s.listed k b) := ⟨h.linked, h.held⟩

/-- A free lock is taken. -/
theorem Inv.take (h : Inv s) (hfree : s.flock i = none) {q : Purpose} (ha : s.phase a = .locking q i) :
    Inv ((s.lock i (some a)).become a (.locked q i)) := by
  have hlock : Inv (s.lock i (some a)) := by
    refine ⟨h.linked, fun {b j} hb => ?_⟩
    have hheld := h.held (a := b) hb
    have hne : j ≠ i := by
      rintro rfl
      rw [hfree] at hheld
      cases hheld
    simpa [Topic.lock, hne] using hheld
  refine hlock.become (fun {j} huses => h.linked (a := a) ?_) fun {j} hholds => ?_
  · rw [ha]
    cases q
    · exact huses
    · exact huses.elim
  · obtain rfl : i = j := hholds
    simp [Topic.lock]

/-- A lock is given back. -/
theorem Inv.give (h : Inv s) (ha : s.phase a = .closing i) : Inv ((s.lock i none).become a .idle) := by
  have hmine : s.flock i = some a := h.held (by rw [ha]; rfl)
  refine ⟨fun {b j} hb => ?_, fun {b j} hb => ?_⟩ <;> by_cases hba : b = a
  · subst hba
    exact absurd hb (by simp [Topic.become, Phase.Uses])
  · exact h.linked (a := b) (by simpa [Topic.become, Topic.lock, hba] using hb)
  · subst hba
    exact absurd hb (by simp [Topic.become, Phase.Holds])
  · have hheld := h.held (a := b) (by simpa [Topic.become, Topic.lock, hba] using hb)
    have hne : j ≠ i := by
      rintro rfl
      rw [hmine] at hheld
      exact hba (Option.some.inj hheld).symm
    simpa [Topic.lock, Topic.become, hne] using hheld

theorem Inv.step (h : Inv s) (hunused : Unused s act) (hs : step process s act = some s') : Inv s' := by
  cases act with
  | createDir a =>
    simp only [Locking.step] at hs
    split at hs
    · cases hs
      exact Inv.become ⟨h.linked, h.held⟩ nofun nofun
    · cases hs
  | dirExists a =>
    simp only [Locking.step] at hs
    split at hs
    · split at hs <;> cases hs
      · exact h.become nofun nofun
      · exact h
    · cases hs
  | insert a =>
    simp only [Locking.step] at hs
    split at hs
    · split at hs <;> cases hs
      · exact h.become nofun nofun
      · exact (h.listed _ _).become nofun nofun
    · cases hs
  | openFile a =>
    simp only [Locking.step] at hs
    split at hs
    · rename_i q _
      split at hs
      · cases hs
        exact (h.listed _ _).become nofun nofun
      · split at hs <;> cases hs
        · rename_i inode hfile
          refine h.become (fun {i} huses => ?_) nofun
          cases q with
          | create => rw [hfile, show inode = i from huses]
          | clean => exact huses.elim
        · rename_i hfile
          -- no publisher uses a file that is not there
          have hnone : Inv { s with lockFile := some s.nextInode, nextInode := s.nextInode + 1 } := by
            refine ⟨fun {b i} hb => ?_, h.held⟩
            have hlinked := h.linked hb
            rw [hfile] at hlinked
            cases hlinked
          refine hnone.become (fun {i} huses => ?_) nofun
          cases q with
          | create => exact congrArg some huses
          | clean => exact huses.elim
    · cases hs
  | tryLock a =>
    simp only [Locking.step] at hs
    split at hs
    · rename_i q i ha
      split at hs <;> cases hs
      · rename_i hfree
        exact h.take hfree ha
      · exact (h.listed _ _).become nofun nofun
    · cases hs
  | finish a =>
    simp only [Locking.step] at hs
    split at hs
    · rename_i i ha
      have hlocked : s.flock i = some a := h.held (by rw [ha]; rfl)
      split at hs <;> cases hs
      · refine Inv.become ⟨h.linked, h.held⟩ (fun {j} huses => ?_) fun {j} hholds => ?_
        · exact h.linked (a := a) (by rw [ha]; exact huses)
        · rw [← show i = j from hholds]
          exact hlocked
      · exact h.become nofun fun {j} hholds => by rw [← show i = j from hholds]; exact hlocked
    · cases hs
  | fail a =>
    simp only [Locking.step] at hs
    split at hs
    · rename_i i ha
      cases hs
      exact h.become nofun fun {j} hholds => h.held (by rw [ha]; exact hholds)
    · cases hs
  | unlink a =>
    simp only [Locking.step] at hs
    split at hs
    · cases hs
      refine ⟨fun {b i} hb => ?_, h.held⟩
      exact absurd hb (hunused a i rfl (h.linked hb) b)
    · cases hs
  | unlinkOthers a =>
    simp only [Locking.step] at hs
    split at hs
    · cases hs
      exact ⟨h.linked, h.held⟩
    · cases hs
  | removeDir a =>
    simp only [Locking.step] at hs
    split at hs
    · rename_i i ha
      split at hs <;> cases hs
      · exact Inv.become ⟨h.linked, h.held⟩ nofun fun {j} hholds => h.held (by rw [ha]; exact hholds)
      · exact h.become nofun fun {j} hholds => h.held (by rw [ha]; exact hholds)
    · cases hs
  | drop a =>
    simp only [Locking.step] at hs
    split at hs
    · rename_i i ha
      cases hs
      exact h.become nofun fun {j} hholds => h.held (by rw [ha]; exact hholds)
    · cases hs
  | release a =>
    simp only [Locking.step] at hs
    split at hs
    · rename_i i ha
      cases hs
      exact (h.listed _ _).become nofun fun {j} hholds => h.held (a := a) (by rw [ha]; exact hholds)
    · cases hs
  | close a =>
    simp only [Locking.step] at hs
    split at hs
    · rename_i i ha
      cases hs
      exact h.give ha
    · cases hs

theorem inv_run (hunused : Meets (step process) Unused .init acts) (h : run (step process) .init acts = some s) :
    Inv s :=
  run_invariant_when Inv Unused (fun _ _ _ hi hc hs => hi.step hc hs) hunused inv_init h

/-- As long as a lock file is removed only while no publisher uses it, there is one live publisher at most. -/
theorem one_live_publisher (process : Nat → Nat) (acts : List Act) (hunused : Meets (step process) Unused .init acts)
    (h : run (step process) .init acts = some s) (ha : s.phase a = .live i) (hb : s.phase b = .live j) : a = b := by
  have hinv := inv_run hunused h
  have hi : s.lockFile = some i := hinv.linked (a := a) (by rw [ha]; rfl)
  have hj : s.lockFile = some j := hinv.linked (a := b) (by rw [hb]; rfl)
  obtain rfl : i = j := Option.some.inj (hi.symm.trans hj)
  have hheld : s.flock i = some a := hinv.held (by rw [ha]; rfl)
  have hheld' : s.flock i = some b := hinv.held (by rw [hb]; rfl)
  exact Option.some.inj (hheld.symm.trans hheld')

def Act.actor : Act → Nat
  | .createDir a | .dirExists a | .insert a | .openFile a | .tryLock a | .finish a | .fail a | .unlink a
  | .unlinkOthers a | .removeDir a | .drop a | .release a | .close a => a

/-- A step leaves the other actors where they are. -/
theorem phase_step (hs : step process s act = some s') (hb : b ≠ act.actor) : s'.phase b = s.phase b := by
  have become : ∀ (t : Topic) p, t.phase = s.phase → (t.become act.actor p).phase b = s.phase b := by
    intro t p ht
    exact (Function.update_of_ne hb ..).trans (congrFun ht b)
  cases act
  all_goals
    simp only [Locking.step] at hs
    repeat' split at hs
    all_goals first
      | (cases hs; done)
      | (cases hs; first | rfl | exact become _ _ rfl)

theorem idle_run (hacts : ∀ act ∈ acts, act.actor < 3) (h : run (step process) .init acts = some s) (hb : 3 ≤ b) :
    s.phase b = .idle := by
  refine run_invariant_of (fun s => s.phase b = .idle) (·.actor < 3) ?_ hacts rfl h
  intro s act s' hidle hact hs
  rw [phase_step hs (by omega), hidle]

/-- The first publisher is dropped, the topic is cleaned, and there is a new publisher when another one is refused. -/
def cleanedBetween : List Act :=
  [.createDir 2, .insert 2, .openFile 2, .tryLock 2, .finish 2, .drop 2, .release 2, .close 2,
    .dirExists 1, .insert 1, .openFile 1, .tryLock 1, .unlink 1, .unlinkOthers 1, .removeDir 1, .release 1, .close 1,
    .createDir 0, .insert 0, .openFile 0, .tryLock 0, .finish 0, .createDir 2, .insert 2, .openFile 2, .tryLock 2]

/-- Nobody but a cleaner is at work when the lock file is removed. -/
def Topic.CleansAlone (s : Topic) : Act → Bool
  | .unlink _ => [0, 1, 2].all fun b => s.phase b = .idle ∨ s.phase b = .locked .clean 0
  | _ => true

theorem one_live_publisher_cleanedBetween : ∃ s, run (step id) .init cleanedBetween = some s ∧ s.phase 0 = .live 1 ∧
    ∀ b j, s.phase b = .live j → 0 = b := by
  have hacts : ∀ act ∈ cleanedBetween, act.actor < 3 := by decide
  have halone : Meets (step id) (fun s act => s.CleansAlone act = true) .init cleanedBetween := by decide
  have hidle : Meets (step id) (fun s _ => ∀ b, 3 ≤ b → s.phase b = .idle) .init cleanedBetween := by
    refine Meets.of_split fun before act after s hsplit hs b hb => idle_run (fun a ha => hacts a ?_) hs hb
    rw [hsplit]
    exact List.mem_append_left _ ha
  have hmeets : Meets (step id) Unused .init cleanedBetween := by
    refine (halone.and hidle).mono ?_
    rintro t act ⟨halone, hidle⟩ a inode rfl - b huses
    have hquiet : t.phase b = .idle ∨ t.phase b = .locked .clean 0 := by
      by_cases hb : 3 ≤ b
      · exact .inl (hidle b hb)
      · have hmem : b ∈ [0, 1, 2] := by
          simp
          omega
        simpa using List.all_eq_true.1 halone b hmem
    rcases hquiet with h | h <;> rw [h] at huses <;> exact huses
  obtain ⟨s, hs, hphase⟩ := Option.map_eq_some_iff.1
    (show (run (step id) .init cleanedBetween).map (·.phase 0) = some (.live 1) by decide)
  exact ⟨s, hs, hphase, fun b j hb => one_live_publisher id _ hmeets hs hphase hb⟩

/-- Actor 0 has opened the lock file when actor 1 cleans the topic and makes a publisher of its own; then actor 0 locks the
file that is gone. -/
theorem two_live_publishers : ¬∀ (process : Nat → Nat) (acts : List Act) (s : Topic) (a b i j : Nat),
    run (step process) .init acts = some s → s.phase a = .live i → s.phase b = .live j → a = b := by
  intro h
  obtain ⟨s, hs, hphases⟩ := Option.map_eq_some_iff.1 (show (run (step id) .init [.createDir 0, .insert 0, .openFile 0,
    .dirExists 1, .insert 1, .openFile 1, .tryLock 1, .unlink 1, .unlinkOthers 1, .removeDir 1, .release 1, .close 1,
    .createDir 1, .insert 1, .openFile 1, .tryLock 1, .finish 1, .tryLock 0, .finish 0]).map
      (fun s => (s.phase 0, s.phase 1)) = some (.live 0, .live 1) by decide)
  obtain ⟨h₀, h₁⟩ := Prod.mk.inj hphases
  exact absurd (h id _ s 0 1 0 1 hs h₀ h₁) (by decide)

end Mmbus.Locking
