import OsAllHw.Lib.Run

/-!
# Runs of two systems

Two step functions that take the same run: one that does just what the other
does (`runFrom_map`), or one that follows what the other answers
(`runFrom_simulates`).
-/

namespace Lib

variable {σ τ ε ε' α φ ψ : Type*} {step : σ → ε → Except φ σ}

/-- **Equal steps** make equal runs. -/
theorem runFrom_map {step' : σ → ε' → Except φ σ} {f : ε → ε'} {I : σ → Prop} {P : σ → ε → Prop}
    (hstep : ∀ s e, I s → P s e →
      step' s (f e) = step s e ∧ Outcome I (fun _ => True) (step s e))
    {es : List ε} : ∀ {s : σ}, I s → Along step P s es →
      runFrom step' s (es.map f) = runFrom step s es := by
  induction es with
  | nil => exact fun _ _ => rfl
  | cons e es ih =>
      intro s hs hes
      obtain ⟨heq, hnext⟩ := hstep s e hs hes.1
      have hrest := hes.2
      rw [List.map_cons, runFrom, runFrom, heq]
      cases hse : step s e with
      | error f => rfl
      | ok s' =>
          rw [hse] at hnext hrest
          exact ih hnext hrest

/-- The events of a run with what they returned, up to a fault. -/
def transcript (step : σ → ε → Except φ σ) (answer : σ → ε → α) : σ → List ε → List α
  | _, [] => []
  | s, e :: es =>
      match step s e with
      | .ok s' => answer s e :: transcript step answer s' es
      | .error _ => []

/-- **The simulation rule**: if every step is answered by a step of `step'`,
every run is by the run of its transcript. -/
theorem runFrom_simulates {answer : σ → ε → α} {step' : τ → α → Except ψ τ} {R : σ → τ → Prop}
    {F : φ → Prop} {P : σ → ε → Prop}
    (hstep : ∀ s t e, R s t → P s e →
      Outcome (fun s' => ∃ t', step' t (answer s e) = .ok t' ∧ R s' t') F (step s e))
    {es : List ε} : ∀ {s : σ} {t : τ}, R s t → Along step P s es →
      Outcome (fun s' => ∃ t', runFrom step' t (transcript step answer s es) = .ok t' ∧ R s' t') F
        (runFrom step s es) := by
  induction es with
  | nil => exact fun {_ t} h _ => ⟨t, rfl, h⟩
  | cons e es ih =>
      intro s t h hes
      have hnext := hstep s t e h hes.1
      have hrest := hes.2
      rw [runFrom, transcript]
      cases hse : step s e with
      | error f =>
          rw [hse] at hnext
          exact hnext
      | ok s' =>
          rw [hse] at hnext hrest
          obtain ⟨t', ht', hR⟩ := hnext
          simp only [runFrom, ht']
          exact ih hR hrest

end Lib
