import OsAllHw.Lib.Exec

/-!
# Runs that end

`p.Within n`: whatever its calls return, `p` makes at most `n` of them. A loop
that takes no more input, whose interruptions use something up and whose calls
do not make more of it, has runs of bounded length (`Loop.length_le`); so has
any step function with a measure (`runFrom_length`).

`Holds.of_exec` turns what is known of the complete executions of a program
into what holds at its end.
-/

namespace Lib

namespace Prog

variable {Op : Type} {Resp : Op → Type} {α β : Type}

/-- At most `n` calls. -/
def Within : Nat → Prog Op Resp α → Prop
  | _, ret _ => True
  | 0, call _ _ => False
  | n + 1, call _ next => ∀ r, (next r).Within n

theorem Within.mono {m n : Nat} {p : Prog Op Resp α} (h : p.Within m) (hmn : m ≤ n) :
    p.Within n := by
  induction m generalizing n p with
  | zero =>
      cases p with
      | ret a => cases n <;> trivial
      | call op next => exact h.elim
  | succ m ih =>
      cases p with
      | ret a => cases n <;> trivial
      | call op next =>
          cases n with
          | zero => omega
          | succ n =>
              intro r
              exact ih (h r) (by omega)

theorem Within.bind {m n : Nat} {p : Prog Op Resp α} {f : α → Prog Op Resp β}
    (hp : p.Within m) (hf : ∀ a, (f a).Within n) : (p >>= f).Within (m + n) := by
  induction m generalizing p with
  | zero =>
      cases p with
      | ret a => exact (hf a).mono (by omega)
      | call op next => exact hp.elim
  | succ m ih =>
      cases p with
      | ret a => exact (hf a).mono (by omega)
      | call op next =>
          show (Prog.call op fun r => next r >>= f).Within (m + 1 + n)
          rw [Nat.add_right_comm]
          intro r
          exact ih (hp r)

theorem Within.ret (n : Nat) (a : α) : (Prog.ret a : Prog Op Resp α).Within n := by
  cases n <;> trivial

theorem Within.perform (op : Op) : (Prog.perform op : Prog Op Resp (Resp op)).Within 1 :=
  fun _ => trivial

theorem Within.when {n : Nat} {p : Prog Op Resp Unit} {c : Prop} [Decidable c]
    (hp : p.Within n) : (Prog.when c p).Within n := by
  unfold Prog.when
  split
  · exact hp
  · exact .ret n ()

end Prog

section

open Relation

variable {Op : Type} {Resp : Op → Type} {σ ι ρ ε φ α : Type}

/-- Calls that ask for nothing. -/
theorem Holds.of_all {R : Rules Op Resp σ} {p : Prog Op Resp α} {s : σ}
    (hpre : p.All fun op => ∀ s, R.pre op s) : Holds R p (fun _ _ => True) s := by
  induction p generalizing s with
  | ret a => trivial
  | call op next ih => exact fun s' _ => ⟨hpre.1 s', fun r s'' _ => ih r (hpre.2 r)⟩

/-- **What the complete executions lead to** holds at the end. -/
theorem Holds.of_exec {R : Rules Op Resp σ} {p : Prog Op Resp α} {Q : α → σ → Prop} {s : σ}
    (hp : Holds R p (fun _ _ => True) s) (h : ∀ t a s', Exec R p s t a s' → Q a s') :
    Holds R p Q s := by
  induction p generalizing s with
  | ret a => exact h [] a s (.ret a s)
  | call op next ih =>
      intro s' hs'
      obtain ⟨hpre, hnext⟩ := hp s' hs'
      refine ⟨hpre, fun r s'' hr => ih r (hnext r s'' hr) fun t a s₃ ht => ?_⟩
      exact h (⟨op, r⟩ :: t) a s₃ (.star hs' (.call hr ht))

/-- Executions under rules that allow more. -/
theorem Exec.mono {R R' : Rules Op Resp σ} {p : Prog Op Resp α} {s s' : σ}
    {t : List (Done Op Resp)} {a : α} (h : Exec R p s t a s')
    (henv : ∀ op s s', R.env op s s' → R'.env op s s')
    (hstep : ∀ op s r s', R.step op s r s' → R'.step op s r s') : Exec R' p s t a s' := by
  induction h with
  | ret a s => exact .ret a s
  | env he _ ih => exact .env (henv _ _ _ he) ih
  | call hs _ ih => exact .call (hstep _ _ _ _ hs) ih

/-- **The length of a run**: each event lowers the measure `μ`, but for what it
adds to `ν` and what it gains. -/
theorem runFrom_length {step : σ → ε → Except φ σ} {I : σ → Prop} {P : σ → ε → Prop}
    (μ ν : σ → Nat) (gain : ε → Nat)
    (hstep : ∀ s e s', I s → P s e → step s e = .ok s' →
      I s' ∧ μ s' + 1 + ν s ≤ μ s + ν s' + gain e)
    {s s' : σ} {es : List ε} (hs : I s) (hes : Along step P s es)
    (hrun : runFrom step s es = .ok s') :
    es.length + μ s' + ν s ≤ μ s + ν s' + (es.map gain).sum := by
  induction es generalizing s with
  | nil =>
      cases hrun
      simp
  | cons e es ih =>
      have hrest := hes.2
      rw [runFrom] at hrun
      cases hse : step s e with
      | error f =>
          rw [hse] at hrun
          cases hrun
      | ok s₁ =>
          rw [hse] at hrun hrest
          obtain ⟨hs₁, hle⟩ := hstep s e s₁ hs hes.1 hse
          have hlater := ih hs₁ hrest hrun
          rw [List.length_cons, List.map_cons, List.sum_cons]
          omega

/-- What holds of each event of a list, wherever it is made. -/
theorem Along.of_mem {step : σ → ε → Except φ σ} {P : ε → Prop} {es : List ε}
    (h : ∀ e ∈ es, P e) : ∀ s : σ, Along step (fun _ e => P e) s es := by
  induction es with
  | nil => exact fun _ => trivial
  | cons e es ih =>
      intro s
      refine ⟨h e (by simp), ?_⟩
      cases step s e with
      | ok s' => exact ih (fun e' he' => h e' (by simp [he'])) s'
      | error f => trivial

variable {L : Loop Op Resp σ ι ρ ε} {c c' : Loop.Config Op Resp σ}

/-- **The length of a run**, from the calls left and a measure of what the
interruptions use up. -/
theorem Loop.length_le (μ : σ → Nat) (hstop : ∀ s, L.running s = false)
    (hcall : ∀ op s r a s', L.perform op s r = some (a, s') → μ s' ≤ μ s)
    (hinterrupt : ∀ o s e s', L.interrupt o s e = some s' → μ s' < μ s)
    {es : List (Loop.Event ι ρ ε)} {n : Nat} (hwithin : c.prog.Within n)
    (hrun : runFrom L.step c es = .ok c') : es.length ≤ n + μ c.state := by
  induction es generalizing c n with
  | nil => exact Nat.zero_le _
  | cons e es ih =>
      rw [runFrom] at hrun
      cases hstep : L.step c e with
      | error f =>
          rw [hstep] at hrun
          cases hrun
      | ok c₁ =>
          rw [hstep] at hrun
          obtain ⟨s, p⟩ := c
          rw [List.length_cons]
          cases e with
          | input i =>
              cases p with
              | ret a =>
                  simp only [Loop.step, hstop] at hstep
                  cases hstep
              | call op next => cases hstep
          | statement r =>
              cases p with
              | ret a => cases hstep
              | call op next =>
                  obtain ⟨a, s', hperform, rfl⟩ := Loop.step_statement hstep
                  have hμ := hcall op s r a s' hperform
                  cases n with
                  | zero => exact hwithin.elim
                  | succ n =>
                      have hrest := ih (hwithin a) hrun
                      show es.length + 1 ≤ n + 1 + μ s
                      have hrest' : es.length ≤ n + μ s' := hrest
                      omega
          | interrupt e =>
              obtain ⟨s', hi, rfl⟩ := Loop.step_interrupt hstep
              have hμ := hinterrupt _ s e s' hi
              have hrest : es.length ≤ n + μ s' := ih (c := ⟨s', p⟩) hwithin hrun
              show es.length + 1 ≤ n + μ s
              omega

end

end Lib
