import OsAllHw.Lib.Prog

/-!
# Complete executions

`Exec R p s t a s'`: under the rules `R` the program `p` can run from `s` to
its end, with whatever the environment does before its calls; it returns `a`
and leaves `s'`, and `t` lists its calls with what each of them returned.

`Exec.ret_iff`, `Exec.call_iff` and `Exec.bind_iff` take an execution apart
along the program; `May.ret` and `May.call` put one together.
-/

namespace Lib

open Relation

variable {Op : Type} {Resp : Op → Type} {σ α β γ : Type} {R : Rules Op Resp σ}

/-- A call, and what it returned. -/
abbrev Done (Op : Type) (Resp : Op → Type) := (op : Op) × Resp op

inductive Exec (R : Rules Op Resp σ) {α : Type} :
    Prog Op Resp α → σ → List (Done Op Resp) → α → σ → Prop where
  | ret (a s) : Exec R (.ret a) s [] a s
  | env {op next s s' t a s''} : R.env op s s' → Exec R (.call op next) s' t a s'' →
      Exec R (.call op next) s t a s''
  | call {op next s r s' t a s''} : R.step op s r s' → Exec R (next r) s' t a s'' →
      Exec R (.call op next) s (⟨op, r⟩ :: t) a s''

variable {s s' s'' : σ} {t : List (Done Op Resp)} {a : α} {b : β}

theorem Exec.ret_iff {a' : α} : Exec R (.ret a) s t a' s' ↔ t = [] ∧ a' = a ∧ s' = s := by
  constructor
  · intro h
    cases h
    exact ⟨rfl, rfl, rfl⟩
  · rintro ⟨rfl, rfl, rfl⟩
    exact .ret _ _

theorem Exec.star {op : Op} {next : Resp op → Prog Op Resp α}
    (henv : ReflTransGen (R.env op) s s') (h : Exec R (.call op next) s' t a s'') :
    Exec R (.call op next) s t a s'' := by
  induction henv using ReflTransGen.head_induction_on with
  | refl => exact h
  | head he _ ih => exact .env he ih

/-- **The first call.** -/
theorem Exec.call_iff {op : Op} {next : Resp op → Prog Op Resp α} :
    Exec R (.call op next) s t a s'' ↔
      ∃ s₁ r s₂ t', ReflTransGen (R.env op) s s₁ ∧ R.step op s₁ r s₂ ∧ t = ⟨op, r⟩ :: t' ∧
        Exec R (next r) s₂ t' a s'' := by
  constructor
  · intro h
    generalize hp : Prog.call op next = p at h
    induction h with
    | ret a s => cases hp
    | env he _ ih =>
        cases hp
        obtain ⟨s₁, r, s₂, t', henv, hstep, ht, hnext⟩ := ih rfl
        exact ⟨s₁, r, s₂, t', .head he henv, hstep, ht, hnext⟩
    | call hstep hnext _ =>
        cases hp
        exact ⟨_, _, _, _, .refl, hstep, rfl, hnext⟩
  · rintro ⟨s₁, r, s₂, t', henv, hstep, rfl, hnext⟩
    exact .star henv (.call hstep hnext)

/-- **Two programs after each other.** -/
theorem Exec.bind_iff {p : Prog Op Resp α} {f : α → Prog Op Resp β} :
    Exec R (p >>= f) s t b s'' ↔
      ∃ t₁ t₂ a s', t = t₁ ++ t₂ ∧ Exec R p s t₁ a s' ∧ Exec R (f a) s' t₂ b s'' := by
  induction p generalizing s t with
  | ret a =>
      rw [Prog.ret_bind]
      constructor
      · exact fun h => ⟨[], t, a, s, rfl, .ret a s, h⟩
      · rintro ⟨t₁, t₂, a', s', rfl, hret, h⟩
        obtain ⟨rfl, rfl, rfl⟩ := Exec.ret_iff.mp hret
        exact h
  | call op next ih =>
      rw [Prog.call_bind]
      constructor
      · intro h
        obtain ⟨s₁, r, s₂, t', henv, hstep, rfl, hnext⟩ := Exec.call_iff.mp h
        obtain ⟨t₁, t₂, a, s', rfl, h₁, h₂⟩ := (ih r).mp hnext
        exact ⟨⟨op, r⟩ :: t₁, t₂, a, s', rfl,
          Exec.call_iff.mpr ⟨s₁, r, s₂, t₁, henv, hstep, rfl, h₁⟩, h₂⟩
      · rintro ⟨t₁, t₂, a, s', rfl, h₁, h₂⟩
        obtain ⟨s₁, r, s₂, t', henv, hstep, rfl, hnext⟩ := Exec.call_iff.mp h₁
        exact Exec.call_iff.mpr ⟨s₁, r, s₂, t' ++ t₂, henv, hstep, rfl,
          (ih r).mpr ⟨t', t₂, a, s', rfl, hnext, h₂⟩⟩

/-- A single call. -/
theorem Exec.perform_iff {op : Op} {r : Resp op} :
    Exec R (.perform op) s t r s'' ↔
      ∃ s₁, ReflTransGen (R.env op) s s₁ ∧ R.step op s₁ r s'' ∧ t = [⟨op, r⟩] := by
  rw [Prog.perform, Exec.call_iff]
  constructor
  · rintro ⟨s₁, r', s₂, t', henv, hstep, rfl, hret⟩
    obtain ⟨rfl, rfl, rfl⟩ := Exec.ret_iff.mp hret
    exact ⟨s₁, henv, hstep, rfl⟩
  · rintro ⟨s₁, henv, hstep, rfl⟩
    exact ⟨s₁, r, s'', [], henv, hstep, rfl, .ret _ _⟩

theorem Exec.when_iff {p : Prog Op Resp Unit} {c : Prop} [Decidable c] :
    Exec R (Prog.when c p) s t () s' ↔ c ∧ Exec R p s t () s' ∨ ¬c ∧ t = [] ∧ s' = s := by
  unfold Prog.when
  by_cases hc : c
  · simp [hc]
  · simp [hc, Exec.ret_iff]

/-- **The frame rule.** A program of calls that leave `f` alone does, and makes
no other calls. -/
theorem Prog.All.exec {p : Prog Op Resp α} {C : Op → Prop} {f : σ → γ} (hp : p.All C)
    (henv : ∀ op, C op → ∀ s s', R.env op s s' → f s' = f s)
    (hstep : ∀ op, C op → ∀ s r s', R.step op s r s' → f s' = f s)
    (h : Exec R p s t a s') : f s' = f s ∧ ∀ x ∈ t, C x.1 := by
  induction h with
  | ret a s => exact ⟨rfl, by simp⟩
  | env he _ ih =>
      obtain ⟨hf, hcalls⟩ := ih hp
      exact ⟨hf.trans (henv _ hp.1 _ _ he), hcalls⟩
  | call hs _ ih =>
      obtain ⟨hf, hcalls⟩ := ih (hp.2 _)
      exact ⟨hf.trans (hstep _ hp.1 _ _ _ hs), List.forall_mem_cons.mpr ⟨hp.1, hcalls⟩⟩

/-- A program of calls in `C` makes no others. -/
theorem Prog.All.calls {p : Prog Op Resp α} {C : Op → Prop} (hp : p.All C)
    (h : Exec R p s t a s') : ∀ x ∈ t, C x.1 :=
  (hp.exec (f := fun _ => ()) (fun _ _ _ _ _ => rfl) (fun _ _ _ _ _ _ => rfl) h).2

/-- Some execution of `p` from `s` ends as `Q` says. -/
def May (R : Rules Op Resp σ) (p : Prog Op Resp α) (s : σ)
    (Q : List (Done Op Resp) → α → σ → Prop) : Prop :=
  ∃ t a s', Exec R p s t a s' ∧ Q t a s'

theorem May.ret {Q : List (Done Op Resp) → α → σ → Prop} (h : Q [] a s) : May R (.ret a) s Q :=
  ⟨[], a, s, .ret a s, h⟩

/-- It can make its first call at once. -/
theorem May.call {op : Op} {next : Resp op → Prog Op Resp α} {r : Resp op}
    {Q : List (Done Op Resp) → α → σ → Prop} (hr : R.step op s r s')
    (h : May R (next r) s' fun t => Q (⟨op, r⟩ :: t)) : May R (.call op next) s Q := by
  obtain ⟨t, a, s'', hexec, hQ⟩ := h
  exact ⟨_, a, s'', .call hr hexec, hQ⟩

theorem May.mono {p : Prog Op Resp α} {Q Q' : List (Done Op Resp) → α → σ → Prop}
    (h : May R p s Q) (hQ : ∀ t a s', Q t a s' → Q' t a s') : May R p s Q' := by
  obtain ⟨t, a, s', hexec, hq⟩ := h
  exact ⟨t, a, s', hexec, hQ t a s' hq⟩

/-- A program run on replies, where `perform` says what a call does; nothing if
the replies do not fit. -/
def Prog.follow {I : Type} (perform : (op : Op) → σ → I → Option (Resp op × σ)) :
    Prog Op Resp α → σ → List I → Option (List (Done Op Resp) × α × σ)
  | .ret a, s, [] => some ([], a, s)
  | .call op next, s, i :: is => do
      let (r, s') ← perform op s i
      let (t, a, s'') ← (next r).follow perform s' is
      return (⟨op, r⟩ :: t, a, s'')
  | _, _, _ => none

theorem Exec.of_follow {I : Type} {perform : (op : Op) → σ → I → Option (Resp op × σ)}
    {p : Prog Op Resp α} {is : List I}
    (hR : ∀ op s i r s', perform op s i = some (r, s') → R.step op s r s')
    (h : p.follow perform s is = some (t, a, s'')) : Exec R p s t a s'' := by
  induction p generalizing s is t with
  | ret b =>
      cases is with
      | nil =>
          cases h
          exact .ret _ _
      | cons i is => cases h
  | call op next ih =>
      cases is with
      | nil => cases h
      | cons i is =>
          simp only [Prog.follow, Option.bind_eq_bind, Option.bind_eq_some_iff,
            Option.pure_def, Option.some.injEq] at h
          obtain ⟨⟨r, s₁⟩, hstep, ⟨t', b, s₂⟩, hnext, heq⟩ := h
          cases heq
          exact .call (hR _ _ _ _ _ hstep) (ih r hnext)

/-- What the environment keeps before a call. -/
theorem star_eq {op : Op} {f : σ → γ} (henv : ∀ s s', R.env op s s' → f s' = f s)
    (h : ReflTransGen (R.env op) s s') : f s' = f s := by
  induction h with
  | refl => rfl
  | tail _ he ih => exact (henv _ _ he).trans ih

end Lib
