import OsAllHw.Shell.Calls
import OsAllHw.Shell.Executions

/-!
# fg, bg and kill taken apart

An execution of a job command is an error message, or it is that of what the
command does to the one job it looked up.
-/

namespace OsAllHw.Shell

open Lib

/-! ## The jobs looked up -/

/-- The job `fg` looks up. -/
def fgJob (args : List Text) (jobs : JobsList) : Option JobEntry :=
  if args.length = 1 then jobs.getLastJob
  else if args.length = 2 ∧ atoi (args.getD 1 []) ≠ 0 then
    jobs.getJobById (atoi (args.getD 1 []))
  else none

/-- `bg` looks up `e`. -/
inductive BgJob (jobs : JobsList) (e : JobEntry) : List Text → Prop where
  | last {name} (hjob : jobs.getLastStoppedJob = some e) : BgJob jobs e [name]
  | byId {name word} (hjob : jobs.getJobById (atoi word) = some e)
      (hstopped : e.isStopped = true) : BgJob jobs e [name, word]

/-- `n` can be read for the word after `-`: a long word is not there any more. -/
def MayRead (word : Text) (n : Int) : Prop := word.length < 16 → n = atoi word

/-- `kill` looks up `e`, for this signal. -/
inductive KillJob (jobs : JobsList) (e : JobEntry) : Int → List Text → Prop where
  | byId {name signal word signum} (hjob : jobs.getJobById (atoi word) = some e)
      (hsignal : MayRead signal signum) : KillJob jobs e signum [name, '-' :: signal, word]

theorem fgJob_mem {args : List Text} {jobs : JobsList} {e : JobEntry}
    (h : fgJob args jobs = some e) : e ∈ jobs.jobsList := by
  unfold fgJob at h
  split at h
  · exact List.mem_of_getLast? h
  · split at h
    · exact (JobsList.getJobById_some h).1
    · cases h

section

variable {w w' : World} {t : Calls}

/-! ## Errors -/

/-- A look at the variables, or at freed memory. -/
inductive Looks : Op → Prop where
  | get : Looks .get
  | freedText : Looks .freedText

/-- An error message and nothing else, but for some looks. -/
structure Refuses (w : World) (t : Calls) (w' : World) : Prop where
  wrote : ∃ msg, Wrote msg t
  calls : ∀ x ∈ t, Looks x.1 ∨ ∃ msg, x.1 = .error msg
  jobs : w'.shell.jobs = w.shell.jobs

theorem refuses_error {msg : Text} (h : Executed (call (.error msg)) w t () w') :
    Refuses w t w' := by
  obtain ⟨-, hjobs, rfl⟩ := executed_error h
  exact ⟨⟨msg, by simp [Wrote]⟩, by simp, hjobs⟩

/-- Some looks before it. -/
theorem Refuses.after {w₁ : World} {t₀ : Calls} (h : Refuses w₁ t w')
    (ht₀ : ∀ x ∈ t₀, Looks x.1) (hjobs : w₁.shell.jobs = w.shell.jobs) :
    Refuses w (t₀ ++ t) w' where
  wrote := h.wrote.imp fun _ => List.mem_append_right _
  calls x hx := (List.mem_append.mp hx).elim (fun hx => .inl (ht₀ x hx)) (h.calls x)
  jobs := h.jobs.trans hjobs

theorem Refuses.get {w₁ : World} (h : Refuses w₁ t w') (hw₁ : Undisturbed .get w w₁) :
    Refuses w (⟨.get, w₁.shell⟩ :: t) w' := by
  have hlooks : ∀ x ∈ ([⟨.get, w₁.shell⟩] : Calls), Looks x.1 := by simp [Looks.get]
  exact h.after hlooks (hw₁.jobs rfl)

/-! ## Steps they share -/

/-- A change of a job's flag. -/
def SetsFlag (op : Op) : Prop := ∃ jobId b, op = .setIsStopped jobId b

/-- **A signal and what follows it.** -/
theorem signal_does {pid signum : Int} {p : Code Unit} (h : Executed (do
      if (← call (.kill pid signum)) = -1 then error "smash error: kill failed" else p)
        w t () w') :
    (t = [⟨.kill pid signum, -1⟩, ⟨.error "smash error: kill failed".toList, ()⟩] ∧
      w'.shell.jobs = w.shell.jobs) ∨
    ∃ w₁ t', t = ⟨.kill pid signum, 0⟩ :: t' ∧ w₁.shell.jobs = w.shell.jobs ∧
      Executed p w₁ t' () w' := by
  obtain ⟨w₁, r, n, w₂, t', hw₁, hkill, rfl, hrest⟩ := executed_call h
  obtain ⟨n', hn', heq⟩ := Option.map_eq_some_iff.mp hkill
  cases heq
  split at hrest
  · rename_i hn
    obtain ⟨-, hjobs, rfl⟩ := executed_error hrest
    exact .inl ⟨by rw [hn], hjobs.trans (hw₁.jobs rfl)⟩
  · rename_i hn
    have hzero : n = 0 := by
      cases r <;> cases hn' <;> first | rfl | exact absurd rfl hn
    exact .inr ⟨w₁, t', by rw [hzero], hw₁.jobs rfl, hrest⟩

/-- **`fg` from the lookup on**: the job leaves the list and takes the
foreground before a signal is sent. -/
theorem bringForward_starts {e : JobEntry} (h : Executed (bringForward e) w t () w') :
    ∃ w₁ t', t = ⟨.removeJobById e.jobId, ()⟩ :: ⟨.setForeground e.cmd true, ()⟩ ::
        ⟨.setCommand e.cmd, ()⟩ :: t' ∧
      w₁.shell.jobs = w.shell.jobs.removeJobById e.jobId ∧
      Executed (do
        if e.isStopped then
          if (← call (.kill e.pid sigcont)) = -1 then error "smash error: kill failed"
          else awaitJob e
        else awaitJob e) w₁ t' () w' := by
  obtain ⟨w₁, r₁, a₁, w₁', t₁, hw₁, hp₁, rfl, h₁⟩ := executed_call h
  cases hp₁
  obtain ⟨w₂, r₂, a₂, w₂', t₂, hw₂, hp₂, rfl, h₂⟩ := executed_call h₁
  cases hp₂
  obtain ⟨w₃, r₃, a₃, w₃', t₃, hw₃, hp₃, rfl, h₃⟩ := executed_call h₂
  cases hp₃
  have hjobs : w₃.shell.jobs = w.shell.jobs.removeJobById e.jobId :=
    (hw₃.jobs rfl).trans ((hw₂.jobs rfl).trans
      (congrArg (fun j => j.removeJobById e.jobId) (hw₁.jobs rfl)))
  refine ⟨_, t₃, rfl, ?_, h₃⟩
  exact hjobs

/-! ## The commands -/

/-- **The word for the signal.** -/
theorem readSignal_does {word : Text} {n : Int} (h : Executed (readSignal word) w t n w') :
    MayRead word n ∧ (∀ x ∈ t, Looks x.1) ∧ w'.shell.jobs = w.shell.jobs := by
  unfold readSignal at h
  split at h
  · obtain ⟨rfl, rfl, rfl⟩ := Exec.ret_iff.mp h
    exact ⟨fun _ => rfl, by simp, rfl⟩
  · rename_i hlong
    obtain ⟨w₁, r, text, w₂, t', hw₁, hp, rfl, hret⟩ := executed_call h
    obtain ⟨rfl, -, rfl⟩ := Exec.ret_iff.mp hret
    simp only [perform] at hp
    split at hp <;> cases hp
    exact ⟨fun hshort => absurd hshort hlong, by simp [Looks.freedText], hw₁.jobs rfl⟩

/-- **`kill`.** -/
theorem killCommand_does {args : List Text} (h : Executed (killCommand args) w t () w') :
    Refuses w t w' ∨ ∃ w₁ e signum p t₀ t', KillJob w.shell.jobs e signum args ∧
      w₁.shell.jobs = w.shell.jobs ∧ t = t₀ ++ t' ∧ (∀ x ∈ t₀, Looks x.1) ∧ p.All SetsFlag ∧
      Executed (do
        if (← call (.kill e.pid signum)) = -1 then error "smash error: kill failed" else p)
          w₁ t' () w' := by
  simp only [killCommand] at h
  split at h
  · exact .inl (refuses_error h)
  rename_i hlen
  obtain ⟨name, arg, word, rfl⟩ := List.length_eq_three.mp (not_not.mp hlen)
  split at h
  · exact .inl (refuses_error h)
  rename_i hhead
  obtain ⟨signal, rfl⟩ := List.head?_eq_some_iff.mp (not_not.mp hhead)
  obtain ⟨t₁, t₂, n, w₁, rfl, hread, h₁⟩ := Exec.bind_iff.mp h
  obtain ⟨-, ht₁, hjobs₁⟩ := readSignal_does hread
  split at h₁
  · exact .inl ((refuses_error h₁).after ht₁ hjobs₁)
  obtain ⟨w₂, t₃, hw₂, rfl, h₂⟩ := executed_get h₁
  have hjobs₂ : w₂.shell.jobs = w.shell.jobs := (hw₂.jobs rfl).trans hjobs₁
  split at h₂
  · exact .inl (((refuses_error h₂).get hw₂).after ht₁ hjobs₁)
  rename_i e hjob
  obtain ⟨t₄, t₅, signum, w₃, rfl, hread', h₃⟩ := Exec.bind_iff.mp h₂
  obtain ⟨hsignal, ht₄, hjobs₃⟩ := readSignal_does hread'
  refine .inr ⟨w₃, e, signum, _, t₁ ++ ⟨.get, w₂.shell⟩ :: t₄, t₅, .byId (hjobs₂ ▸ hjob) hsignal,
    hjobs₃.trans hjobs₂, by simp, ?_, ?_, h₃⟩
  · intro x hx
    obtain hx | hx := List.mem_append.mp hx
    · exact ht₁ x hx
    · obtain rfl | hx := List.mem_cons.mp hx
      · exact .get
      · exact ht₄ x hx
  split
  · exact .perform ⟨_, _, rfl⟩
  split
  · exact .perform ⟨_, _, rfl⟩
  · trivial

/-- **`bg`.** -/
theorem backgroundCommand_does {args : List Text}
    (h : Executed (backgroundCommand args) w t () w') :
    Refuses w t w' ∨ ∃ w₁ e t', BgJob w.shell.jobs e args ∧ w₁.shell.jobs = w.shell.jobs ∧
      t = ⟨.get, w₁.shell⟩ :: t' ∧ Executed (resume e) w₁ t' () w' := by
  obtain ⟨w₁, t₁, hw₁, rfl, h₁⟩ := executed_get h
  rw [← hw₁.jobs rfl]
  split at h₁
  · rename_i hlen
    obtain ⟨name, rfl⟩ := List.length_eq_one_iff.mp hlen
    split at h₁
    · exact .inl ((refuses_error h₁).get hw₁)
    · rename_i e hjob
      exact .inr ⟨w₁, e, t₁, .last hjob, rfl, rfl, h₁⟩
  split at h₁
  · rename_i hlen
    obtain ⟨name, word, rfl⟩ := List.length_eq_two.mp hlen
    split at h₁
    · exact .inl ((refuses_error h₁).get hw₁)
    split at h₁
    · exact .inl ((refuses_error h₁).get hw₁)
    rename_i e hjob
    split at h₁
    · exact .inl ((refuses_error h₁).get hw₁)
    · rename_i hstopped
      exact .inr ⟨w₁, e, t₁, .byId hjob (by simpa using hstopped), rfl, rfl, h₁⟩
  · exact .inl ((refuses_error h₁).get hw₁)

/-- **`fg`.** -/
theorem foregroundCommand_does {args : List Text}
    (h : Executed (foregroundCommand args) w t () w') :
    (fgJob args w.shell.jobs = none ∧ Refuses w t w') ∨
    ∃ w₁ e t', fgJob args w.shell.jobs = some e ∧ w₁.shell.jobs = w.shell.jobs ∧
      t = ⟨.get, w₁.shell⟩ :: t' ∧ Executed (bringForward e) w₁ t' () w' := by
  obtain ⟨w₁, t₁, hw₁, rfl, h₁⟩ := executed_get h
  rw [← hw₁.jobs rfl]
  unfold fgJob
  split at h₁
  · rename_i hone
    rw [if_pos hone]
    split at h₁
    · rename_i hnone
      exact .inl ⟨hnone, (refuses_error h₁).get hw₁⟩
    · rename_i e hsome
      exact .inr ⟨w₁, e, t₁, hsome, rfl, rfl, h₁⟩
  rename_i hone
  rw [if_neg hone]
  split at h₁
  · rename_i htwo
    split at h₁
    · rename_i hzero
      rw [if_neg fun hc => hc.2 hzero]
      exact .inl ⟨rfl, (refuses_error h₁).get hw₁⟩
    rename_i hzero
    rw [if_pos ⟨htwo, hzero⟩]
    split at h₁
    · rename_i hnone
      exact .inl ⟨hnone, (refuses_error h₁).get hw₁⟩
    · rename_i e hsome
      exact .inr ⟨w₁, e, t₁, hsome, rfl, rfl, h₁⟩
  · rename_i htwo
    rw [if_neg fun hc => htwo hc.1]
    exact .inl ⟨rfl, (refuses_error h₁).get hw₁⟩

end

end OsAllHw.Shell
