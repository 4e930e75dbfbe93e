import Mathlib
import OsAllHw.Lib.Run

/-!
# Programs with interruptions

A program is a tree of calls: `call op next` performs `op` and goes on with
`next` of what it returned. `perform` says what a call does to the state,
given what the environment replies; the program stands before each of its
calls for a while, and there the state may be changed from outside.

`Rules` collect what a proof needs to know: what a call can do, what can
happen while the program stands before it, and what has to hold then.
`Holds` is the weakest precondition under those rules. The loop that runs one
program after another keeps it (`Holds.step`), which turns a proof about one
program into a fact about every run.
-/

namespace Lib

inductive Prog (Op : Type) (Resp : Op → Type) (α : Type) where
  | ret (a : α)
  | call (op : Op) (next : Resp op → Prog Op Resp α)

namespace Prog

variable {Op : Type} {Resp : Op → Type} {α β : Type}

def bind : Prog Op Resp α → (α → Prog Op Resp β) → Prog Op Resp β
  | ret a, f => f a
  | call op next, f => call op fun r => bind (next r) f

instance : Monad (Prog Op Resp) where
  pure := ret
  bind := bind

/-- A single call. -/
def perform (op : Op) : Prog Op Resp (Resp op) := call op ret

/-- `p` where `c` holds. -/
def when (c : Prop) [Decidable c] (p : Prog Op Resp Unit) : Prog Op Resp Unit :=
  if c then p else ret ()

@[simp] theorem pure_eq (a : α) : (pure a : Prog Op Resp α) = ret a := rfl

@[simp] theorem ret_bind (a : α) (f : α → Prog Op Resp β) : (ret a >>= f) = f a := rfl

@[simp] theorem call_bind (op : Op) (next : Resp op → Prog Op Resp α)
    (f : α → Prog Op Resp β) : (call op next >>= f) = call op fun r => next r >>= f := rfl

@[simp] theorem perform_bind (op : Op) (f : Resp op → Prog Op Resp β) :
    (perform op >>= f) = call op f := rfl

/-- `p`, run where `step` answers each call; nothing where it answers none. -/
def run {σ : Type} (step : (op : Op) → σ → Option (Resp op × σ)) :
    Prog Op Resp α → σ → Option (α × σ)
  | ret a, s => some (a, s)
  | call op next, s => do
      let (r, s) ← step op s
      (next r).run step s

theorem run_perform {σ : Type} {step : (op : Op) → σ → Option (Resp op × σ)} {op : Op}
    {s s' : σ} {r : Resp op} (h : step op s = some (r, s')) :
    (perform op : Prog Op Resp (Resp op)).run step s = some (r, s') := by
  simp [perform, run, h]

theorem run_perform_bind {σ : Type} {step : (op : Op) → σ → Option (Resp op × σ)} {op : Op}
    {s s' : σ} {r : Resp op} {f : Resp op → Prog Op Resp β} (h : step op s = some (r, s')) :
    (perform op >>= f).run step s = (f r).run step s' := by
  simp [run, h]

/-- The call the program stands before. -/
def head : Prog Op Resp α → Option Op
  | ret _ => none
  | call op _ => some op

/-- Every call of the program is one of `P`. -/
def All (P : Op → Prop) : Prog Op Resp α → Prop
  | ret _ => True
  | call op next => P op ∧ ∀ r, (next r).All P

theorem All.mono {P Q : Op → Prop} {p : Prog Op Resp α} (hp : p.All P)
    (h : ∀ op, P op → Q op) : p.All Q := by
  induction p with
  | ret a => trivial
  | call op next ih => exact ⟨h op hp.1, fun r => ih r (hp.2 r)⟩

theorem All.perform {P : Op → Prop} {op : Op} (h : P op) :
    (Prog.perform op : Prog Op Resp (Resp op)).All P :=
  ⟨h, fun _ => trivial⟩

theorem All.perform_bind {P : Op → Prop} {op : Op} {f : Resp op → Prog Op Resp β} (h : P op)
    (hf : ∀ r, (f r).All P) : (Prog.perform op >>= f).All P :=
  ⟨h, hf⟩

theorem All.bind {P : Op → Prop} {p : Prog Op Resp α} {f : α → Prog Op Resp β}
    (hp : p.All P) (hf : ∀ a, (f a).All P) : (p >>= f).All P := by
  induction p with
  | ret a => exact hf a
  | call op next ih => exact ⟨hp.1, fun r => ih r (hp.2 r)⟩

theorem All.when {P : Op → Prop} {p : Prog Op Resp Unit} {c : Prop} [Decidable c]
    (hp : c → p.All P) : (Prog.when c p).All P := by
  unfold Prog.when
  split
  · exact hp ‹c›
  · trivial

end Prog

/-! ## Rules and what holds under them -/

structure Rules (Op : Type) (Resp : Op → Type) (σ : Type) where
  /-- What performing a call can return and lead to. -/
  step : (op : Op) → σ → Resp op → σ → Prop
  /-- What can happen to the state while the program stands before a call. -/
  env : Op → σ → σ → Prop
  /-- What has to hold whenever it stands there. -/
  pre : Op → σ → Prop

section Holds

open Relation

variable {Op : Type} {Resp : Op → Type} {σ α β : Type} (R : Rules Op Resp σ)

/-- From `s`, whatever the environment does, `pre` holds before every call
and `Q` at the end. -/
def Holds : Prog Op Resp α → (α → σ → Prop) → σ → Prop
  | .ret a, Q, s => Q a s
  | .call op next, Q, s => ∀ s', ReflTransGen (R.env op) s s' →
      R.pre op s' ∧ ∀ r s'', R.step op s' r s'' → Holds (next r) Q s''

variable {R} {Q Q' : α → σ → Prop} {s s' : σ}

@[simp] theorem Holds.ret_iff {a : α} : Holds R (.ret a) Q s ↔ Q a s := Iff.rfl

theorem Holds.bind {p : Prog Op Resp α} {f : α → Prog Op Resp β} {Q' : β → σ → Prop}
    (hp : Holds R p Q s) (hf : ∀ a s', Q a s' → Holds R (f a) Q' s') :
    Holds R (p >>= f) Q' s := by
  induction p generalizing s with
  | ret a => exact hf a s hp
  | call op next ih =>
      intro s' hs'
      obtain ⟨hpre, hstep⟩ := hp s' hs'
      exact ⟨hpre, fun r s'' hr => ih r (hstep r s'' hr)⟩

theorem Holds.mono {p : Prog Op Resp α} (hp : Holds R p Q s)
    (hQ : ∀ a s', Q a s' → Q' a s') : Holds R p Q' s := by
  induction p generalizing s with
  | ret a => exact hQ a s hp
  | call op next ih =>
      intro s' hs'
      obtain ⟨hpre, hstep⟩ := hp s' hs'
      exact ⟨hpre, fun r s'' hr => ih r (hstep r s'' hr)⟩

theorem Holds.when {p : Prog Op Resp Unit} {c : Prop} [Decidable c] {Q : Unit → σ → Prop}
    (hp : c → Holds R p Q s) (hn : ¬c → Q () s) : Holds R (Prog.when c p) Q s := by
  unfold Prog.when
  split
  · exact hp ‹c›
  · exact hn ‹¬c›

/-- What has to hold before a call does. -/
theorem Holds.pre {op : Op} {next : Resp op → Prog Op Resp α}
    (h : Holds R (.call op next) Q s) : R.pre op s :=
  (h s .refl).1

/-- A call can be performed. -/
theorem Holds.call {op : Op} {next : Resp op → Prog Op Resp α} {r : Resp op}
    (h : Holds R (.call op next) Q s) (hr : R.step op s r s') : Holds R (next r) Q s' :=
  (h s .refl).2 r s' hr

/-- The environment can act while the program stands before a call. -/
theorem Holds.env {op : Op} {next : Resp op → Prog Op Resp α}
    (h : Holds R (.call op next) Q s) (he : R.env op s s') : Holds R (.call op next) Q s' :=
  fun s'' hs'' => h s'' (.head he hs'')

/-- One call with assertions: `P` is stable before it, gives `pre`, and
leads to `Q`. -/
def Edge (R : Rules Op Resp σ) (P : σ → Prop) (op : Op) (Q : Resp op → σ → Prop) : Prop :=
  ∀ s, P s → R.pre op s ∧ ∀ r s', R.step op s r s' → Q r s'

/-- `P` outlasts whatever the environment does before `op`. -/
def Stable (R : Rules Op Resp σ) (op : Op) (P : σ → Prop) : Prop :=
  ∀ s s', R.env op s s' → P s → P s'

theorem Stable.star {op : Op} {P : σ → Prop} (h : Stable R op P)
    (hs : ReflTransGen (R.env op) s s') (hP : P s) : P s' := by
  induction hs with
  | refl => exact hP
  | tail _ he ih => exact h _ _ he ih

/-- **The rule for a call.** -/
theorem Edge.holds {op : Op} {P : σ → Prop} {Q₁ : Resp op → σ → Prop}
    {next : Resp op → Prog Op Resp α} (h : Edge R P op Q₁) (hstable : Stable R op P)
    (hP : P s) (hnext : ∀ r s', Q₁ r s' → Holds R (next r) Q s') :
    Holds R (.call op next) Q s := by
  intro s' hs'
  obtain ⟨hpre, hstep⟩ := h s' (hstable.star hs' hP)
  exact ⟨hpre, fun r s'' hr => hnext r s'' (hstep r s'' hr)⟩

/-- A program of calls that all keep `P` keeps it. -/
theorem Prog.All.holds {p : Prog Op Resp α} {C : Op → Prop} {P : σ → Prop} (hp : p.All C)
    (hstable : ∀ op, C op → Stable R op P) (hedge : ∀ op, C op → Edge R P op fun _ => P)
    (hP : P s) : Holds R p (fun _ => P) s := by
  induction p generalizing s with
  | ret a => exact hP
  | call op next ih =>
      exact (hedge op hp.1).holds (hstable op hp.1) hP fun r s' hs' => ih r (hp.2 r) hs'

end Holds

/-! ## The loop -/

section Loop

variable {Op : Type} {Resp : Op → Type} {σ ι ρ ε φ : Type}

/-- An interruptible program that is run once for each input: `perform` is
what a call does under a reply, `interrupt` what an interruption does while
the program stands before a call, or between two inputs. -/
structure Loop (Op : Type) (Resp : Op → Type) (σ ι ρ ε : Type) where
  body : ι → Prog Op Resp Unit
  /-- Whether the loop takes another input. -/
  running : σ → Bool
  perform : (op : Op) → σ → ρ → Option (Resp op × σ)
  interrupt : Option Op → σ → ε → Option σ

structure Loop.Config (Op : Type) (Resp : Op → Type) (σ : Type) where
  state : σ
  prog : Prog Op Resp Unit

inductive Loop.Event (ι ρ ε : Type) where
  | input (i : ι)
  | statement (r : ρ)
  | interrupt (e : ε)

inductive Loop.Disabled where
  | disabled
  deriving DecidableEq

variable (L : Loop Op Resp σ ι ρ ε)

def Loop.step (c : Loop.Config Op Resp σ) :
    Loop.Event ι ρ ε → Except Loop.Disabled (Loop.Config Op Resp σ)
  | .input i =>
      match c.prog with
      | .ret _ => if L.running c.state then .ok ⟨c.state, L.body i⟩ else .error .disabled
      | .call _ _ => .error .disabled
  | .statement r =>
      match c.prog with
      | .ret _ => .error .disabled
      | .call op next =>
          match L.perform op c.state r with
          | some (a, s) => .ok ⟨s, next a⟩
          | none => .error .disabled
  | .interrupt e =>
      match L.interrupt c.prog.head c.state e with
      | some s => .ok ⟨s, c.prog⟩
      | none => .error .disabled

def Loop.init (s : σ) : Loop.Config Op Resp σ := ⟨s, .ret ()⟩

def Loop.run (s : σ) (es : List (Loop.Event ι ρ ε)) :
    Except Loop.Disabled (Loop.Config Op Resp σ) :=
  runFrom L.step (Loop.init s) es

/-- The event meets what is asked of replies (`ok`) and interruptions (`calm`). -/
def Loop.Meets (ok : Op → σ → ρ → Prop) (calm : Option Op → σ → ε → Prop)
    (c : Loop.Config Op Resp σ) : Loop.Event ι ρ ε → Prop
  | .input _ => True
  | .statement r => ∀ op, c.prog.head = some op → ok op c.state r
  | .interrupt e => calm c.prog.head c.state e

/-- The rules of a loop whose events meet `ok` and `calm`. -/
def Loop.rules (ok : Op → σ → ρ → Prop) (calm : Option Op → σ → ε → Prop)
    (pre : Op → σ → Prop) : Rules Op Resp σ where
  step op s a s' := ∃ r, ok op s r ∧ L.perform op s r = some (a, s')
  env op s s' := ∃ e, calm (some op) s e ∧ L.interrupt (some op) s e = some s'
  pre := pre

/-- `I` between two inputs, and what is left of the program leads back to it. -/
def Loop.Sound (R : Rules Op Resp σ) (I : σ → Prop) (c : Loop.Config Op Resp σ) : Prop :=
  Holds R c.prog (fun _ => I) c.state

instance (ok : Op → σ → ρ → Prop) (calm : Option Op → σ → ε → Prop)
    [∀ op s r, Decidable (ok op s r)] [∀ o s e, Decidable (calm o s e)]
    (c : Loop.Config Op Resp σ) :
    (e : Loop.Event ι ρ ε) → Decidable (Loop.Meets ok calm c e)
  | .input _ => .isTrue trivial
  | .statement r => inferInstanceAs (Decidable (∀ op ∈ c.prog.head, ok op c.state r))
  | .interrupt e => inferInstanceAs (Decidable (calm c.prog.head c.state e))

/-- What can be compared of where a run ended: the next call and the state. -/
def Loop.view (x : Except Loop.Disabled (Loop.Config Op Resp σ)) : Option (Option Op × σ) :=
  match x with
  | .ok c => some (c.prog.head, c.state)
  | .error _ => none

theorem Loop.exists_of_view {x : Except Loop.Disabled (Loop.Config Op Resp σ)}
    {v : Option Op × σ} (h : Loop.view x = some v) :
    ∃ c, x = .ok c ∧ c.prog.head = v.1 ∧ c.state = v.2 := by
  cases x with
  | ok c =>
      cases h
      exact ⟨c, rfl, rfl, rfl⟩
  | error f => cases h

theorem Loop.eq_of_view {x : Except Loop.Disabled (Loop.Config Op Resp σ)} {s : σ}
    (h : Loop.view x = some (none, s)) : x = .ok (Loop.init s) := by
  obtain ⟨⟨s', p⟩, rfl, hhead, rfl⟩ := Loop.exists_of_view h
  cases p with
  | ret a => rfl
  | call op next => cases hhead

variable {L} {I : σ → Prop} {c c' : Loop.Config Op Resp σ} {ok : Op → σ → ρ → Prop}
  {calm : Option Op → σ → ε → Prop} {need : Op → σ → Prop}

theorem Loop.step_statement {s : σ} {op : Op} {next : Resp op → Prog Op Resp Unit} {r : ρ}
    (h : L.step ⟨s, .call op next⟩ (.statement r) = .ok c') :
    ∃ a s', L.perform op s r = some (a, s') ∧ c' = ⟨s', next a⟩ := by
  simp only [Loop.step] at h
  cases hp : L.perform op s r with
  | none =>
      rw [hp] at h
      cases h
  | some x =>
      obtain ⟨a, s'⟩ := x
      rw [hp] at h
      cases h
      exact ⟨a, s', rfl, rfl⟩

theorem Loop.step_interrupt {e : ε} (h : L.step c (.interrupt e) = .ok c') :
    ∃ s', L.interrupt c.prog.head c.state e = some s' ∧ c' = ⟨s', c.prog⟩ := by
  simp only [Loop.step] at h
  cases hi : L.interrupt c.prog.head c.state e with
  | none =>
      rw [hi] at h
      cases h
  | some s' =>
      rw [hi] at h
      cases h
      exact ⟨s', rfl, rfl⟩

theorem Loop.Sound.step
    (hbody : ∀ i s, I s → L.running s = true →
      Holds (L.rules ok calm need) (L.body i) (fun _ => I) s)
    (hidle : ∀ e s s', I s → calm none s e → L.interrupt none s e = some s' → I s')
    (h : Loop.Sound (L.rules ok calm need) I c) {e : Loop.Event ι ρ ε}
    (he : Loop.Meets ok calm c e) (hs : L.step c e = .ok c') :
    Loop.Sound (L.rules ok calm need) I c' := by
  obtain ⟨s, p⟩ := c
  cases e with
  | input i =>
      cases p with
      | ret a =>
          simp only [Loop.step] at hs
          split at hs
          · rename_i hrun
            cases hs
            exact hbody i s h hrun
          · cases hs
      | call op next => cases hs
  | statement r =>
      cases p with
      | ret a => cases hs
      | call op next =>
          obtain ⟨a, s', hp, rfl⟩ := Loop.step_statement hs
          exact Holds.call h ⟨r, he op rfl, hp⟩
  | interrupt e =>
      obtain ⟨s', hi, rfl⟩ := Loop.step_interrupt hs
      cases p with
      | ret a => exact hidle e s s' h he hi
      | call op next => exact Holds.env h ⟨e, he, hi⟩

theorem Loop.Sound.outcome
    (hbody : ∀ i s, I s → L.running s = true →
      Holds (L.rules ok calm need) (L.body i) (fun _ => I) s)
    (hidle : ∀ e s s', I s → calm none s e → L.interrupt none s e = some s' → I s')
    (h : Loop.Sound (L.rules ok calm need) I c) {e : Loop.Event ι ρ ε}
    (he : Loop.Meets ok calm c e) :
    Outcome (Loop.Sound (L.rules ok calm need) I) (fun _ => True) (L.step c e) := by
  cases hs : L.step c e with
  | ok c' => exact h.step hbody hidle he hs
  | error f => trivial

/-- **The loop rule.** What every body keeps holds along every run whose
events meet what the bodies rely on. -/
theorem Loop.run_sound
    (hbody : ∀ i s, I s → L.running s = true →
      Holds (L.rules ok calm need) (L.body i) (fun _ => I) s)
    (hidle : ∀ e s s', I s → calm none s e → L.interrupt none s e = some s' → I s')
    {es : List (Loop.Event ι ρ ε)} (h : Loop.Sound (L.rules ok calm need) I c)
    (hmeets : Along L.step (Loop.Meets ok calm) c es) (hrun : runFrom L.step c es = .ok c') :
    Loop.Sound (L.rules ok calm need) I c' := by
  have key : Outcome (Loop.Sound (L.rules ok calm need) I) (fun _ => True)
      (runFrom L.step c es) :=
    runFrom_outcome (fun _ _ hc he => hc.outcome hbody hidle he) h hmeets
  rw [hrun] at key
  exact key

/-- What the bodies' rules give for each event holds of every event of a run. -/
theorem Loop.along_sound
    (hbody : ∀ i s, I s → L.running s = true →
      Holds (L.rules ok calm need) (L.body i) (fun _ => I) s)
    (hidle : ∀ e s s', I s → calm none s e → L.interrupt none s e = some s' → I s')
    {P Q : Loop.Config Op Resp σ → Loop.Event ι ρ ε → Prop}
    (hP : ∀ c e, P c e → Loop.Meets ok calm c e)
    (hQ : ∀ c e, Loop.Sound (L.rules ok calm need) I c → P c e → Q c e)
    {es : List (Loop.Event ι ρ ε)} (h : Loop.Sound (L.rules ok calm need) I c)
    (hes : Along L.step P c es) : Along L.step Q c es :=
  Along.of_invariant (fun c e hc he => hc.outcome hbody hidle (hP c e he)) hQ h hes

variable {R : Rules Op Resp σ}

/-- What has to hold before a call does in every state the loop reaches. -/
theorem Loop.Sound.pre (h : Loop.Sound R I c) {op : Op} (hop : c.prog.head = some op) :
    R.pre op c.state := by
  obtain ⟨s, p⟩ := c
  cases p with
  | ret a => cases hop
  | call op' next =>
      obtain rfl : op' = op := by simpa [Prog.head] using hop
      exact Holds.pre h

/-- Between two inputs the invariant holds. -/
theorem Loop.Sound.idle (h : Loop.Sound R I c) (hidle : c.prog.head = none) : I c.state := by
  obtain ⟨s, p⟩ := c
  cases p with
  | ret a => exact h
  | call op next => cases hidle

end Loop

end Lib
