import Mathlib.Logic.Function.Basic
import Mathlib.Data.List.Basic

/-!
# Partial step functions and their runs

A system is a partial step function `step : σ → α → Option σ`: `step s a` is the state after the action `a`, or
`none` when `a` is not possible in `s`.  A run performs a list of actions.  The file has the induction rules by
which a property of one step becomes a property of every run: for all runs (`run_invariant`), for the runs
whose actions stay inside a sublanguage (`run_invariant_of`), and for the runs whose steps all meet a condition
on the state before the step (`run_invariant_when`).  The last parts are about a system whose steps are steps of another
one (`run_innerSteps`), and about machines that run on their own until they stop (`finish_stops`).
-/

namespace Transition

variable {σ α : Type*} {step : σ → α → Option σ}

/-- Perform the actions in order. -/
def run (step : σ → α → Option σ) : σ → List α → Option σ
  | s, [] => some s
  | s, a :: as => match step s a with
    | some s' => run step s' as
    | none => none

@[simp] theorem run_nil (s : σ) : run step s [] = some s := rfl

theorem run_cons {s : σ} {a : α} {as : List α} {s' : σ} :
    run step s (a :: as) = some s' ↔ ∃ s₁, step s a = some s₁ ∧ run step s₁ as = some s' := by
  cases h : step s a with
  | none => simp [run, h]
  | some s₁ => simp [run, h]

theorem run_append {s : σ} {as bs : List α} {s' : σ} :
    run step s (as ++ bs) = some s' ↔ ∃ s₁, run step s as = some s₁ ∧ run step s₁ bs = some s' := by
  induction as generalizing s with
  | nil => simp
  | cons a as ih =>
    simp only [List.cons_append, run_cons, ih]
    constructor
    · rintro ⟨s₁, h₁, s₂, h₂, h₃⟩
      exact ⟨s₂, ⟨s₁, h₁, h₂⟩, h₃⟩
    · rintro ⟨s₂, ⟨s₁, h₁, h₂⟩, h₃⟩
      exact ⟨s₁, h₁, s₂, h₂, h₃⟩

/-- What every step preserves holds after every run. -/
theorem run_invariant (I : σ → Prop) (hstep : ∀ s a s', I s → step s a = some s' → I s') {s s' : σ}
    {as : List α} (hs : I s) (hr : run step s as = some s') : I s' := by
  induction as generalizing s with
  | nil =>
    cases hr
    exact hs
  | cons a as ih =>
    obtain ⟨s₁, h₁, h₂⟩ := run_cons.1 hr
    exact ih (hstep s a s₁ hs h₁) h₂

/-- What the actions of a sublanguage preserve holds after every run inside it. -/
theorem run_invariant_of (I : σ → Prop) (L : α → Prop)
    (hstep : ∀ s a s', I s → L a → step s a = some s' → I s') {s s' : σ} {as : List α}
    (hL : ∀ a ∈ as, L a) (hs : I s) (hr : run step s as = some s') : I s' := by
  induction as generalizing s with
  | nil =>
    cases hr
    exact hs
  | cons a as ih =>
    obtain ⟨s₁, h₁, h₂⟩ := run_cons.1 hr
    have ha : L a := hL a (List.mem_cons_self ..)
    exact ih (fun b hb => hL b (List.mem_cons_of_mem _ hb)) (hstep s a s₁ hs ha h₁) h₂

/-! ### Conditions on the steps of a run -/

/-- Every step of the run is taken in a state in which the condition `C` holds of the action. -/
def Meets (step : σ → α → Option σ) (C : σ → α → Prop) : σ → List α → Prop
  | _, [] => True
  | s, a :: as => C s a ∧ ∀ s', step s a = some s' → Meets step C s' as

instance Meets.decidable (step : σ → α → Option σ) (C : σ → α → Prop) [∀ s a, Decidable (C s a)] :
    ∀ (s : σ) (as : List α), Decidable (Meets step C s as)
  | _, [] => .isTrue trivial
  | s, a :: as =>
    match h : step s a with
    | none => decidable_of_iff (C s a) (by simp [Meets, h])
    | some s₁ =>
      have : Decidable (Meets step C s₁ as) := Meets.decidable step C s₁ as
      decidable_of_iff (C s a ∧ Meets step C s₁ as) (by simp [Meets, h])

/-- A first step before a run that meets the condition -/
theorem run_meets_cons {C : σ → α → Prop} {P : σ → Prop} {s s₁ : σ} {a : α} {as : List α} (hC : C s a)
    (h : step s a = some s₁) (hrest : ∃ s', run step s₁ as = some s' ∧ Meets step C s₁ as ∧ P s') :
    ∃ s', run step s (a :: as) = some s' ∧ Meets step C s (a :: as) ∧ P s' := by
  obtain ⟨s', hrun, hmeets, hP⟩ := hrest
  refine ⟨s', run_cons.2 ⟨s₁, h, hrun⟩, ⟨hC, fun s₂ h₂ => ?_⟩, hP⟩
  obtain rfl : s₁ = s₂ := Option.some.inj (h.symm.trans h₂)
  exact hmeets

/-- What the steps that meet the condition preserve holds after every run whose steps all meet it. -/
theorem run_invariant_when (I : σ → Prop) (C : σ → α → Prop)
    (hstep : ∀ s a s', I s → C s a → step s a = some s' → I s') {s s' : σ} {as : List α}
    (hC : Meets step C s as) (hs : I s) (hr : run step s as = some s') : I s' := by
  induction as generalizing s with
  | nil =>
    cases hr
    exact hs
  | cons a as ih =>
    obtain ⟨s₁, h₁, h₂⟩ := run_cons.1 hr
    exact ih (hC.2 s₁ h₁) (hstep s a s₁ hs hC.1 h₁) h₂

theorem Meets.mono {C C' : σ → α → Prop} (h : ∀ s a, C s a → C' s a) {s : σ} {as : List α}
    (hC : Meets step C s as) : Meets step C' s as := by
  induction as generalizing s with
  | nil => trivial
  | cons a as ih => exact ⟨h s a hC.1, fun s₁ h₁ => ih (hC.2 s₁ h₁)⟩

/-- A condition that holds at every step of every beginning of the run -/
theorem Meets.of_split {C : σ → α → Prop} {s : σ} {as : List α}
    (h : ∀ bs a cs s₁, as = bs ++ a :: cs → run step s bs = some s₁ → C s₁ a) : Meets step C s as := by
  induction as generalizing s with
  | nil => trivial
  | cons a as ih =>
    refine ⟨h [] a as s rfl rfl, fun s₁ h₁ => ih fun bs b cs s₂ heq h₂ => ?_⟩
    subst heq
    exact h (a :: bs) b cs s₂ rfl (run_cons.2 ⟨s₁, h₁, h₂⟩)

theorem Meets.and {C C' : σ → α → Prop} {s : σ} {as : List α} (hC : Meets step C s as) (hC' : Meets step C' s as) :
    Meets step (fun s a => C s a ∧ C' s a) s as := by
  induction as generalizing s with
  | nil => trivial
  | cons a as ih => exact ⟨⟨hC.1, hC'.1⟩, fun s₁ h₁ => ih (hC.2 s₁ h₁) (hC'.2 s₁ h₁)⟩

/-- A run inside a sublanguage whose steps all meet a condition -/
theorem Meets.and_of_forall {C : σ → α → Prop} {L : α → Prop} {s : σ} {as : List α} (hC : Meets step C s as)
    (hL : ∀ a ∈ as, L a) : Meets step (fun s a => C s a ∧ L a) s as := by
  refine hC.and (Meets.of_split fun bs a cs s₁ has _ => hL a ?_)
  rw [has]
  exact List.mem_append_right _ (List.mem_cons_self ..)

theorem Meets.append_left {C : σ → α → Prop} {s : σ} {as bs : List α}
    (hC : Meets step C s (as ++ bs)) : Meets step C s as := by
  induction as generalizing s with
  | nil => trivial
  | cons a as ih => exact ⟨hC.1, fun s₁ h₁ => ih (hC.2 s₁ h₁)⟩

theorem Meets.append_right {C : σ → α → Prop} {s s₁ : σ} {as bs : List α} (hC : Meets step C s (as ++ bs))
    (hr : run step s as = some s₁) : Meets step C s₁ bs := by
  induction as generalizing s with
  | nil =>
    cases hr
    exact hC
  | cons a as ih =>
    obtain ⟨s₂, h₂, hr₂⟩ := run_cons.1 hr
    exact ih (hC.2 s₂ h₂) hr₂

/-- A quantity that no step lowers is kept along a run if and only if every step keeps it. -/
theorem run_kept_iff (I : σ → Prop) (μ : σ → Nat) (C : σ → α → Prop)
    (hstep : ∀ s a s', I s → step s a = some s' → I s' ∧ μ s ≤ μ s' ∧ (μ s' = μ s ↔ C s a)) {s s' : σ} {as : List α}
    (hs : I s) (hr : run step s as = some s') : μ s ≤ μ s' ∧ (μ s' = μ s ↔ Meets step C s as) := by
  induction as generalizing s with
  | nil =>
    cases hr
    exact ⟨Nat.le_refl _, fun _ => trivial, fun _ => rfl⟩
  | cons a as ih =>
    obtain ⟨s₁, h₁, h₂⟩ := run_cons.1 hr
    obtain ⟨hI, hle, hkept⟩ := hstep s a s₁ hs h₁
    obtain ⟨hle', hkept'⟩ := ih hI h₂
    refine ⟨Nat.le_trans hle hle', fun heq => ?_, fun hC => ?_⟩
    · refine ⟨hkept.1 (by omega), fun s₂ h => ?_⟩
      rw [h₁, Option.some.injEq] at h
      rw [← h]
      exact hkept'.1 (by omega)
    · rw [hkept'.2 (hC.2 s₁ h₁), hkept.2 hC.1]

/-- A property that a step keeps exactly if it meets the condition holds along a run if and only if every step meets it. -/
theorem always_iff (I P : σ → Prop) (C : σ → α → Prop)
    (hstep : ∀ s a s', I s → P s → step s a = some s' → I s' ∧ (P s' ↔ C s a)) {s s' : σ} {as : List α}
    (hs : I s) (hP : P s) (hr : run step s as = some s') :
    (∀ bs cs s₁, as = bs ++ cs → run step s bs = some s₁ → P s₁) ↔ Meets step C s as := by
  induction as generalizing s with
  | nil =>
    refine ⟨fun _ => trivial, fun _ bs cs s₁ heq h => ?_⟩
    obtain ⟨rfl, -⟩ := List.append_eq_nil_iff.1 heq.symm
    cases h
    exact hP
  | cons a as ih =>
    obtain ⟨s₁, h₁, h₂⟩ := run_cons.1 hr
    obtain ⟨hI, hiff⟩ := hstep s a s₁ hs hP h₁
    refine ⟨fun h => ?_, fun hC bs cs s₂ heq h => ?_⟩
    · have hP₁ : P s₁ := h [a] as s₁ rfl (run_cons.2 ⟨s₁, h₁, rfl⟩)
      refine ⟨hiff.1 hP₁, fun s₂ h₂' => ?_⟩
      rw [h₁, Option.some.injEq] at h₂'
      rw [← h₂']
      refine (ih hI hP₁ h₂).1 fun bs cs s₃ heq h₃ => h (a :: bs) cs s₃ (by rw [heq]; rfl) (run_cons.2 ⟨s₁, h₁, h₃⟩)
    · cases bs with
      | nil =>
        cases h
        exact hP
      | cons b bs =>
        obtain ⟨rfl, hrest⟩ := List.cons.inj heq
        obtain ⟨s₁', h₁', h'⟩ := run_cons.1 h
        rw [h₁, Option.some.injEq] at h₁'
        rw [← h₁'] at h'
        exact (ih hI (hiff.2 hC.1) h₂).2 (hC.2 s₁ h₁) bs cs s₂ hrest h'

/-- What the steps of a kind lower, and no step raises, has gone after enough steps of the kind. -/
theorem run_countdown (I : σ → Prop) (μ : σ → Nat) (ticks : α → Bool)
    (hstep : ∀ s a s', I s → step s a = some s' → I s' ∧ μ s' ≤ μ s - if ticks a then 1 else 0) {s s' : σ} {as : List α}
    (hs : I s) (hr : run step s as = some s') : I s' ∧ μ s' ≤ μ s - as.countP ticks := by
  induction as generalizing s with
  | nil =>
    cases hr
    exact ⟨hs, Nat.le_refl _⟩
  | cons a as ih =>
    obtain ⟨s₁, h₁, h₂⟩ := run_cons.1 hr
    obtain ⟨hI, hone⟩ := hstep s a s₁ hs h₁
    obtain ⟨hI', hrest⟩ := ih hI h₂
    refine ⟨hI', ?_⟩
    rw [List.countP_cons]
    omega

/-- What only the steps of a kind raise, each of them by one at most, is bounded by their number. -/
theorem run_countup (μ : σ → Nat) (ticks : α → Bool)
    (hstep : ∀ s a s', step s a = some s' → μ s' ≤ μ s + if ticks a then 1 else 0) {s s' : σ} {as : List α}
    (hr : run step s as = some s') : μ s' ≤ μ s + as.countP ticks := by
  induction as generalizing s with
  | nil =>
    cases hr
    exact Nat.le_refl _
  | cons a as ih =>
    obtain ⟨s₁, h₁, h₂⟩ := run_cons.1 hr
    have hone := hstep s a s₁ h₁
    have hrest := ih h₂
    rw [List.countP_cons]
    omega

/-! ### Runs inside of runs -/

/-- The steps of another system in a run: the action `a` in `s` takes the steps `inner s a`. -/
def innerSteps {β : Type*} (step : σ → α → Option σ) (inner : σ → α → List β) : σ → List α → List β
  | _, [] => []
  | s, a :: as => inner s a ++ match step s a with
    | some s' => innerSteps step inner s' as
    | none => []

/-- A run of the one system is a run of the other one. -/
theorem run_innerSteps {τ β : Type*} {step' : τ → β → Option τ} (f : σ → τ) {inner : σ → α → List β}
    (hstep : ∀ s a s', step s a = some s' → run step' (f s) (inner s a) = some (f s')) {s s' : σ} {as : List α}
    (hr : run step s as = some s') : run step' (f s) (innerSteps step inner s as) = some (f s') := by
  induction as generalizing s with
  | nil =>
    cases hr
    rfl
  | cons a as ih =>
    obtain ⟨s₁, h₁, h₂⟩ := run_cons.1 hr
    simp only [innerSteps, h₁]
    exact run_append.2 ⟨f s₁, hstep s a s₁ h₁, ih h₂⟩

/-! ### Machines that stop -/

/-- Run a machine until it stops, for at most `n` steps. -/
def finish (f : σ → Option σ) : (n : Nat) → σ → σ
  | 0, s => s
  | n + 1, s =>
    match f s with
    | some s' => finish f n s'
    | none => s

/-- A machine whose measure falls has stopped after as many steps, and what its steps preserve holds then. -/
theorem finish_stops {f : σ → Option σ} (I : σ → Prop) (μ : σ → Nat)
    (hstep : ∀ s s', I s → f s = some s' → I s' ∧ μ s' < μ s) {n : Nat} {s : σ} (hs : I s) (hn : μ s ≤ n) :
    I (finish f n s) ∧ f (finish f n s) = none := by
  induction n generalizing s with
  | zero =>
    refine ⟨hs, ?_⟩
    cases h : f s with
    | none => simp [finish, h]
    | some s' =>
      have := (hstep s s' hs h).2
      omega
  | succ n ih =>
    cases h : f s with
    | none => simp [finish, h, hs]
    | some s' =>
      obtain ⟨hs', hlt⟩ := hstep s s' hs h
      have := ih hs' (by omega)
      simpa only [finish, h] using this

end Transition
