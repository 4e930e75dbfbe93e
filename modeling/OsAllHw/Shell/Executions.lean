import OsAllHw.Lib.Exec
import OsAllHw.Shell.Model

/-!
# Executions of a command

A command of the shell executed to its end, with the messages it wrote among
its calls. Children and signals act in between: what they leave alone is said
here once, for interruptions and for calls.
-/

namespace OsAllHw.Shell

open Lib

/-- Every call, whatever it is answered, and every interruption. -/
def shellRules : Rules Op Resp World where
  step op w a w' := ∃ r, perform op w r = some (a, w')
  env op w w' := ∃ e, interrupt (some op) w e = some w'
  pre _ _ := True

abbrev Calls := List (Done Op Resp)

/-- `p`, executed from `w`, returned `a` and left `w'`. -/
abbrev Executed {α : Type} (p : Code α) (w : World) (t : Calls) (a : α) (w' : World) : Prop :=
  Exec shellRules p w t a w'

/-- An execution without interruptions, from the replies to its calls. -/
theorem executed_of_follow {α : Type} {p : Code α} {w w' : World} {t : Calls} {a : α}
    {rs : List Reply} (h : p.follow perform w rs = some (t, a, w')) : Executed p w t a w' :=
  Exec.of_follow (fun _ _ i _ _ hp => ⟨i, hp⟩) h

/-- What a call returns can be compared. -/
instance : (op : Op) → DecidableEq (Resp op)
  | .get => inferInstanceAs (DecidableEq ShellVars)
  | .getCommand => inferInstanceAs (DecidableEq (Option Nat))
  | .newCommand .. => inferInstanceAs (DecidableEq Nat)
  | .strayAmpersand => inferInstanceAs (DecidableEq Bool)
  | .freedText => inferInstanceAs (DecidableEq Text)
  | .fork _ => inferInstanceAs (DecidableEq Int)
  | .waitpid .. => inferInstanceAs (DecidableEq Waited)
  | .kill .. => inferInstanceAs (DecidableEq Int)
  | .dup _ => inferInstanceAs (DecidableEq Int)
  | .dup2 .. => inferInstanceAs (DecidableEq Int)
  | .close _ => inferInstanceAs (DecidableEq Int)
  | .openFile _ => inferInstanceAs (DecidableEq Int)
  | .pipe => inferInstanceAs (DecidableEq (Option (Int × Int)))
  | .copyOut _ => inferInstanceAs (DecidableEq Copied)
  | .getcwd => inferInstanceAs (DecidableEq Text)
  | .chdir _ => inferInstanceAs (DecidableEq Int)
  | .deleteCommand _ | .setForeground .. | .setCommand _ | .setPid .. | .setPrompt _
  | .setPrevPwd _ | .setRun _ | .error _ | .crash | .removeFinishedJobs | .addJob ..
  | .addJobWithId .. | .removeJobById _ | .setIsStopped .. | .clearJobs | .addToTimesList ..
  | .alarm _ => inferInstanceAs (DecidableEq Unit)

/-- The message was written. -/
def Wrote (msg : Text) (t : Calls) : Prop := ⟨.error msg, ()⟩ ∈ t

/-! ## What is left alone -/

/-- The directories, and the descriptor table with the open files. -/
def World.surroundings (w : World) : (Text × Text) × List (Option Nat) × Nat :=
  ((w.cwd, w.shell.prevPwd), w.fds, w.files)

theorem discard_surroundings (w : World) (cmds : List Nat) :
    (w.discard cmds).surroundings = w.surroundings := by
  induction cmds generalizing w with
  | nil => rfl
  | cons cmd cmds ih => exact ih _

theorem removeFinishedJobs_surroundings {w w' : World} {reaped : List (Int × Int)}
    (h : w.removeFinishedJobs reaped = some w') : w'.surroundings = w.surroundings := by
  unfold World.removeFinishedJobs at h
  split at h
  · obtain ⟨⟨jobs, erased⟩, -, rfl⟩ := Option.map_eq_some_iff.mp h
    exact discard_surroundings (w.onJobs fun _ => jobs) (erased.map JobEntry.cmd)
  · cases h

/-- **Interruptions** leave the surroundings alone, and the jobs too unless the
shell waits: only there can the alarm handler get at them. -/
theorem interrupt_frame {op : Option Op} {w w' : World} {e : Interrupt}
    (h : interrupt op w e = some w') :
    w'.surroundings = w.surroundings ∧ (waiting op = false → w'.shell.jobs = w.shell.jobs) := by
  unfold interrupt at h
  split at h
  · cases h
  cases e with
  | child pid status =>
      simp only [World.changeChild] at h
      split at h
      · cases h
        exact ⟨rfl, fun _ => rfl⟩
      · cases h
  | tick seconds =>
      cases h
      exact ⟨rfl, fun _ => rfl⟩
  | ctrlC =>
      cases h
      exact ⟨rfl, fun _ => rfl⟩
  | ctrlZ killOk =>
      cases h
      unfold ctrlZHandler
      split
      · exact ⟨rfl, fun _ => rfl⟩
      · split <;> exact ⟨rfl, fun _ => rfl⟩
  | alarm reaped exist killOk =>
      simp only at h
      split at h
      · rename_i hwait
        refine ⟨?_, fun hno => absurd hwait.1 (by simp [hno])⟩
        unfold alarmHandler at h
        split at h
        · obtain ⟨w₁, hw₁, rfl⟩ := Option.map_eq_some_iff.mp h
          have hsame : w₁.surroundings = w.surroundings := removeFinishedJobs_surroundings hw₁
          exact hsame
        · cases h
          rfl
      · cases h

/-- The calls that change the directories or the descriptors. -/
inductive Outward : Op → Prop where
  | setPrevPwd (pwd) : Outward (.setPrevPwd pwd)
  | dup (fd) : Outward (.dup fd)
  | dup2 (oldFd newFd) : Outward (.dup2 oldFd newFd)
  | close (fd) : Outward (.close fd)
  | openFile (path) : Outward (.openFile path)
  | pipe : Outward .pipe
  | chdir (path) : Outward (.chdir path)

theorem perform_surroundings {op : Op} {w w' : World} {r : Reply} {a : Resp op}
    (hop : ¬Outward op) (h : perform op w r = some (a, w')) :
    w'.surroundings = w.surroundings := by
  cases op with
  | setPrevPwd pwd => exact absurd (.setPrevPwd pwd) hop
  | dup fd => exact absurd (.dup fd) hop
  | dup2 oldFd newFd => exact absurd (.dup2 oldFd newFd) hop
  | close fd => exact absurd (.close fd) hop
  | openFile path => exact absurd (.openFile path) hop
  | pipe => exact absurd .pipe hop
  | chdir path => exact absurd (.chdir path) hop
  | crash => cases h
  | strayAmpersand =>
      simp only [perform] at h
      split at h <;> cases h <;> rfl
  | freedText =>
      simp only [perform] at h
      split at h <;> cases h
      rfl
  | removeFinishedJobs =>
      cases r with
      | finished reaped =>
          obtain ⟨w₁, hw₁, hw'⟩ := Option.map_eq_some_iff.mp h
          cases hw'
          exact removeFinishedJobs_surroundings hw₁
      | _ => cases h
  | fork cmd =>
      cases r with
      | pid p =>
          simp only [perform, World.fork] at h
          split at h <;> cases h
          rfl
      | failed =>
          cases h
          rfl
      | _ => cases h
  | waitpid pid untraced =>
      cases r with
      | failed =>
          simp only [perform, World.waitpid] at h
          cases h
          cases untraced <;> rfl
      | ended q =>
          simp only [perform, World.waitpid] at h
          split at h <;> cases h
          cases untraced <;> rfl
      | stopped q =>
          simp only [perform, World.waitpid] at h
          split at h <;> cases h
          cases untraced <;> rfl
      | _ => cases h
  | kill pid signum =>
      obtain ⟨n, -, hw'⟩ := Option.map_eq_some_iff.mp h
      cases hw'
      rfl
  | copyOut fd =>
      cases r with
      | copied how =>
          cases h
          rfl
      | _ => cases h
  | _ =>
      cases h
      rfl

/-! ## Taking an execution apart -/

section

variable {α : Type} {w w' : World} {t : Calls} {b : α}

/-- What interruptions before `op` leave alone. -/
structure Undisturbed (op : Op) (w w₁ : World) : Prop where
  surroundings : w₁.surroundings = w.surroundings
  jobs : waiting (some op) = false → w₁.shell.jobs = w.shell.jobs

theorem undisturbed {op : Op} {w₁ : World}
    (h : Relation.ReflTransGen (shellRules.env op) w w₁) : Undisturbed op w w₁ where
  surroundings := star_eq (R := shellRules) (fun _ _ ⟨_, he⟩ => (interrupt_frame he).1) h
  jobs hno := star_eq (R := shellRules) (f := fun w => w.shell.jobs)
    (fun _ _ ⟨_, he⟩ => (interrupt_frame he).2 hno) h

/-- **The first call** of a command. -/
theorem executed_call {op : Op} {k : Resp op → Code α} (h : Executed (call op >>= k) w t b w') :
    ∃ w₁ r a w₂ t', Undisturbed op w w₁ ∧ perform op w₁ r = some (a, w₂) ∧ t = ⟨op, a⟩ :: t' ∧
      Executed (k a) w₂ t' b w' := by
  obtain ⟨w₁, a, w₂, t', henv, ⟨r, hp⟩, ht, hnext⟩ := Exec.call_iff.mp h
  exact ⟨w₁, r, a, w₂, t', undisturbed henv, hp, ht, hnext⟩

/-- Its last one. -/
theorem executed_last {op : Op} {a : Resp op} (h : Executed (call op) w t a w') :
    ∃ w₁ r, Undisturbed op w w₁ ∧ perform op w₁ r = some (a, w') ∧ t = [⟨op, a⟩] := by
  obtain ⟨w₁, henv, ⟨r, hp⟩, ht⟩ := Exec.perform_iff.mp h
  exact ⟨w₁, r, undisturbed henv, hp, ht⟩

/-- Reading the shell's variables. -/
theorem executed_get {k : ShellVars → Code α} (h : Executed (call .get >>= k) w t b w') :
    ∃ w₁ t', Undisturbed .get w w₁ ∧ t = ⟨.get, w₁.shell⟩ :: t' ∧
      Executed (k w₁.shell) w₁ t' b w' := by
  obtain ⟨w₁, r, a, w₂, t', hw₁, hp, ht, hnext⟩ := executed_call h
  cases hp
  exact ⟨w₁, t', hw₁, ht, hnext⟩

/-- A message and nothing else. -/
theorem executed_error {msg : Text} (h : Executed (call (.error msg)) w t () w') :
    w'.surroundings = w.surroundings ∧ w'.shell.jobs = w.shell.jobs ∧
      t = [⟨.error msg, ()⟩] := by
  obtain ⟨w₁, r, hw₁, hp, ht⟩ := executed_last h
  cases hp
  exact ⟨hw₁.surroundings, hw₁.jobs rfl, ht⟩

end

end OsAllHw.Shell
