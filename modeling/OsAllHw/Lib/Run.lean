import Mathlib

/-!
# Runs of a partial step function

`step s e` is what event `e` does in state `s`: a new state, or a fault
that ends the run. `Along P` holds of a list of events when each of them
meets `P` in the state it is made in. The invariant rule turns a fact about
one step into a fact about every run.
-/

namespace Lib

variable {σ ε φ : Type*} {step : σ → ε → Except φ σ}

/-! ## Computations that may fault -/

section Bind

universe u

variable {α β : Type u}

@[simp] theorem pure_eq_ok (a : α) : (pure a : Except φ α) = .ok a := rfl

@[simp] theorem ok_bind (a : α) (f : α → Except φ β) : (Except.ok a >>= f) = f a := rfl

@[simp] theorem error_bind (e : φ) (f : α → Except φ β) :
    ((Except.error e : Except φ α) >>= f) = .error e := rfl

theorem bind_eq_ok {x : Except φ α} {f : α → Except φ β} {b : β} :
    (x >>= f) = .ok b ↔ ∃ a, x = .ok a ∧ f a = .ok b := by
  cases x with
  | ok a => simp
  | error e => simp

end Bind

/-! ## Runs -/

/-- The events of a list, one after the other. -/
def runFrom (step : σ → ε → Except φ σ) : σ → List ε → Except φ σ
  | s, [] => .ok s
  | s, e :: es =>
      match step s e with
      | .ok s' => runFrom step s' es
      | .error f => .error f

/-- Each event meets `P` in the state it is made in. -/
def Along (step : σ → ε → Except φ σ) (P : σ → ε → Prop) : σ → List ε → Prop
  | _, [] => True
  | s, e :: es => P s e ∧
      match step s e with
      | .ok s' => Along step P s' es
      | .error _ => True

instance Along.decidable (step : σ → ε → Except φ σ) (P : σ → ε → Prop)
    [∀ s e, Decidable (P s e)] : ∀ s es, Decidable (Along step P s es)
  | _, [] => .isTrue trivial
  | s, e :: es =>
      haveI : Decidable (match step s e with
          | .ok s' => Along step P s' es
          | .error _ => True) :=
        match step s e with
        | .ok s' => Along.decidable step P s' es
        | .error _ => .isTrue trivial
      inferInstanceAs (Decidable (_ ∧ _))

/-- Either a state with `I`, or a fault with `F`. -/
def Outcome (I : σ → Prop) (F : φ → Prop) : Except φ σ → Prop
  | .ok s => I s
  | .error f => F f

instance (I : σ → Prop) (F : φ → Prop) [DecidablePred I] [DecidablePred F] :
    (x : Except φ σ) → Decidable (Outcome I F x)
  | .ok s => inferInstanceAs (Decidable (I s))
  | .error f => inferInstanceAs (Decidable (F f))

theorem Outcome.exists_ok {I : σ → Prop} {x : Except φ σ} (h : Outcome I (fun _ => False) x) :
    ∃ s, x = .ok s ∧ I s := by
  cases x with
  | ok s => exact ⟨s, rfl, h⟩
  | error f => exact h.elim

theorem Outcome.eq_error {x : Except φ σ} {f : φ}
    (h : Outcome (fun _ => False) (fun g => g = f) x) : x = .error f := by
  cases x with
  | ok s => exact h.elim
  | error g => exact congrArg Except.error h

theorem Outcome.imp {I I' : σ → Prop} {F F' : φ → Prop} {x : Except φ σ}
    (hI : ∀ s, I s → I' s) (hF : ∀ f, F f → F' f) (h : Outcome I F x) : Outcome I' F' x := by
  cases x with
  | ok s => exact hI s h
  | error f => exact hF f h

theorem Along.imp {P Q : σ → ε → Prop} (hPQ : ∀ s e, P s e → Q s e) {es : List ε} :
    ∀ {s : σ}, Along step P s es → Along step Q s es := by
  induction es with
  | nil => exact fun _ => trivial
  | cons e es ih =>
      intro s h
      refine ⟨hPQ s e h.1, ?_⟩
      have hrest := h.2
      cases hse : step s e with
      | ok s' =>
          rw [hse] at hrest
          exact ih hrest
      | error f => trivial

theorem Along.of_forall {P : σ → ε → Prop} (hP : ∀ s e, P s e) (es : List ε) :
    ∀ s : σ, Along step P s es := by
  induction es with
  | nil => exact fun _ => trivial
  | cons e es ih =>
      intro s
      refine ⟨hP s e, ?_⟩
      cases step s e with
      | ok s' => exact ih s'
      | error f => trivial

theorem Along.and {P Q : σ → ε → Prop} {es : List ε} :
    ∀ {s : σ}, Along step P s es → Along step Q s es →
      Along step (fun s e => P s e ∧ Q s e) s es := by
  induction es with
  | nil => exact fun _ _ => trivial
  | cons e es ih =>
      intro s hP hQ
      have hP' := hP.2
      have hQ' := hQ.2
      refine ⟨⟨hP.1, hQ.1⟩, ?_⟩
      cases hse : step s e with
      | ok s' =>
          rw [hse] at hP' hQ'
          exact ih hP' hQ'
      | error f => trivial

/-- **The invariant rule.** What every admissible step preserves holds at
the end of every admissible run. -/
theorem runFrom_outcome {I : σ → Prop} {F : φ → Prop} {P : σ → ε → Prop}
    (hstep : ∀ s e, I s → P s e → Outcome I F (step s e)) {es : List ε} :
    ∀ {s : σ}, I s → Along step P s es → Outcome I F (runFrom step s es) := by
  induction es with
  | nil => exact fun hs _ => hs
  | cons e es ih =>
      intro s hs hP
      have h1 := hstep s e hs hP.1
      have hrest := hP.2
      rw [runFrom]
      cases hse : step s e with
      | ok s' =>
          rw [hse] at h1 hrest
          exact ih h1 hrest
      | error f =>
          rw [hse] at h1
          exact h1

/-- **The invariant rule, along the way.** What an invariant gives for every
admissible step holds of each step of an admissible run. -/
theorem Along.of_invariant {I : σ → Prop} {P Q : σ → ε → Prop}
    (hstep : ∀ s e, I s → P s e → Outcome I (fun _ => True) (step s e))
    (hQ : ∀ s e, I s → P s e → Q s e) {es : List ε} :
    ∀ {s : σ}, I s → Along step P s es → Along step Q s es := by
  induction es with
  | nil => exact fun _ _ => trivial
  | cons e es ih =>
      intro s hs hP
      refine ⟨hQ s e hs hP.1, ?_⟩
      have hnext := hstep s e hs hP.1
      have hrest := hP.2
      cases hse : step s e with
      | ok s' =>
          rw [hse] at hnext hrest
          exact ih hnext hrest
      | error f => trivial

end Lib
