import Mathlib.Logic.Basic

/-!
# Operations that may fail and keep what they have done

An attempt turns a state into a new one and says whether it succeeded; the state of a failed attempt is the one the
failure leaves behind.  `Ends f s Q E` says that `f` from `s` succeeds in a state with `Q`, or fails in one with `E`
(`E` false: it does not fail).  A chain of attempts is treated link by link (`Ends.andThen`): what the links that have
succeeded established is there when the next one fails.
-/

abbrev Attempt (ε σ : Type*) := σ → σ × Except ε Unit

namespace Attempt

variable {ε σ : Type*} {f g : Attempt ε σ} {s s' : σ} {Q Q' E E' : σ → Prop}

/-- `g` after `f`, unless `f` fails -/
def andThen (f g : Attempt ε σ) : Attempt ε σ := fun s =>
  match f s with
  | (s', .ok _) => g s'
  | (s', .error e) => (s', .error e)

/-- `f` from `s` succeeds with `Q` or fails with `E`. -/
def Ends (f : Attempt ε σ) (s : σ) (Q E : σ → Prop) : Prop :=
  match f s with
  | (s', .ok _) => Q s'
  | (s', .error _) => E s'

theorem Ends.mono (h : Ends f s Q E) (hQ : ∀ s', Q s' → Q' s') (hE : ∀ s', E s' → E' s') : Ends f s Q' E' := by
  unfold Ends at *
  split
  · rename_i heq
    rw [heq] at h
    exact hQ _ h
  · rename_i heq
    rw [heq] at h
    exact hE _ h

theorem Ends.congr (h : Ends g s Q E) (hfg : f s = g s) : Ends f s Q E := by
  unfold Ends at *
  rwa [hfg]

/-- What holds of the state left behind in either case -/
theorem Ends.of_fst (h : Q (f s).1) : Ends f s Q Q := by
  unfold Ends
  split
  · rename_i heq
    rwa [heq] at h
  · rename_i heq
    rwa [heq] at h

theorem Ends.andThen (h : Ends f s Q E) (hg : ∀ s', Q s' → Ends g s' Q' E) : Ends (f.andThen g) s Q' E := by
  unfold Ends at h
  simp only [Ends, Attempt.andThen]
  split at h
  · exact hg _ h
  · exact h

theorem Ends.cases (h : Ends f s Q E) : (∃ s', f s = (s', .ok ()) ∧ Q s') ∨ ∃ s' e, f s = (s', .error e) ∧ E s' := by
  unfold Ends at h
  split at h
  · rename_i s' _ heq
    exact .inl ⟨s', heq, h⟩
  · rename_i s' e heq
    exact .inr ⟨s', e, heq, h⟩

theorem andThen_of_ok {u : Unit} (h : f s = (s', .ok u)) : f.andThen g s = g s' := by
  simp only [andThen, h]

theorem andThen_of_error {e : ε} (h : f s = (s', .error e)) : f.andThen g s = (s', .error e) := by
  simp only [andThen, h]

theorem andThen_eq_ok : f.andThen g s = (s', .ok ()) ↔ ∃ s₁, f s = (s₁, .ok ()) ∧ g s₁ = (s', .ok ()) := by
  unfold andThen
  split
  · rename_i s₁ _ heq
    simp [heq]
  · rename_i s₁ e heq
    simp [heq]

theorem Ends.of_eq_ok (h : Ends f s Q E) (hs : f s = (s', .ok ())) : Q s' := by
  unfold Ends at h
  rwa [hs] at h

/-- What `f` achieves `g` achieves as well, and states related by `R` become states related by `R'`. -/
def Simulates {τ : Type*} (R R' : σ → τ → Prop) (f : Attempt ε σ) (g : Attempt ε τ) : Prop :=
  ∀ s t s', R s t → f s = (s', .ok ()) → ∃ t', g t = (t', .ok ()) ∧ R' s' t'

theorem Simulates.andThen {τ : Type*} {R R' T : σ → τ → Prop} {f₂ g₂ : Attempt ε τ} (hf : Simulates R R' f f₂)
    (hg : Simulates R' T g g₂) : Simulates R T (f.andThen g) (f₂.andThen g₂) := by
  intro s t s' hR hs
  obtain ⟨s₁, hs₁, hs⟩ := andThen_eq_ok.1 hs
  obtain ⟨t₁, ht₁, hR₁⟩ := hf s t s₁ hR hs₁
  obtain ⟨t', ht', hR'⟩ := hg s₁ t₁ s' hR₁ hs
  exact ⟨t', andThen_eq_ok.2 ⟨t₁, ht₁, ht'⟩, hR'⟩

/-- `g` does to the image of a state under `φ` what `f` does to the state. -/
def Lifts {τ : Type*} (φ : σ → τ) (f : Attempt ε σ) (g : Attempt ε τ) : Prop := ∀ s, g (φ s) = ((f s).map φ id)

theorem Lifts.andThen {τ : Type*} {φ : σ → τ} {f' g' : Attempt ε τ} (hf : Lifts φ f f') (hg : Lifts φ g g') :
    Lifts φ (f.andThen g) (f'.andThen g') := by
  intro s
  simp only [Attempt.andThen, hf s]
  rcases f s with ⟨s', _ | _⟩
  · rfl
  · exact hg s'

end Attempt
