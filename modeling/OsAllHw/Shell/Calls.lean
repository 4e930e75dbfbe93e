import Mathlib
import OsAllHw.Shell.Model

/-!
# What the commands call

The calls a command can make, whatever it is told: those of `cd`, those of
`fg` from its wait on, those that set a command up. And the commands that do
not call on the descriptor table, which are all but `cat`.
-/

namespace OsAllHw.Shell

open Lib

/-! ## A few calls each -/

/-- The calls of `cd`. -/
inductive CdCall : Op → Prop where
  | get : CdCall .get
  | error (msg) : CdCall (.error msg)
  | getcwd : CdCall .getcwd
  | setPrevPwd (pwd) : CdCall (.setPrevPwd pwd)
  | chdir (path) : CdCall (.chdir path)

/-- The calls of `fg` from its wait on. -/
inductive AwaitCall : Op → Prop where
  | waitpid (pid) : AwaitCall (.waitpid pid true)
  | failed : AwaitCall (.error "smash error: waitpid failed".toList)
  | removeFinishedJobs : AwaitCall .removeFinishedJobs
  | getCommand : AwaitCall .getCommand
  | addJobWithId (cmd pid jobId isStopped) : AwaitCall (.addJobWithId cmd pid jobId isStopped)
  | crash : AwaitCall .crash

/-- The calls of `CreateCommand`, and of the lines for a `timeout`. -/
inductive SetupCall : Op → Prop where
  | newCommand (kind cmdLine) : SetupCall (.newCommand kind cmdLine)
  | setPrompt (prompt) : SetupCall (.setPrompt prompt)
  | crash : SetupCall .crash
  | get : SetupCall .get
  | alarm (seconds) : SetupCall (.alarm seconds)
  | addToTimesList (cmd pid duration) : SetupCall (.addToTimesList cmd pid duration)

theorem changeDir_calls (prevPwd arg : Text) : (changeDir prevPwd arg).All CdCall := by
  refine .perform_bind .getcwd fun currentDir => ?_
  refine Prog.All.bind (.when fun _ => .perform (.error _)) fun _ => ?_
  split
  · refine .perform_bind (.setPrevPwd _) fun _ => .perform_bind (.chdir _) fun r => ?_
    split
    · exact .perform (.error _)
    · trivial
  · refine .perform_bind (.chdir _) fun r => ?_
    split
    · exact .perform (.error _)
    · exact .perform (.setPrevPwd _)

theorem cdCommand_calls (args : List Text) : (cdCommand args).All CdCall := by
  unfold cdCommand
  split
  · trivial
  refine .perform_bind .get fun shell => ?_
  split
  · exact .perform (.error _)
  · exact Prog.All.bind (.when fun _ => .perform (.error _)) fun _ =>
      .when fun _ => changeDir_calls ..

theorem awaitJob_calls (curJob : JobEntry) : (awaitJob curJob).All AwaitCall := by
  refine .perform_bind (.waitpid _) fun how => ?_
  cases how with
  | failed => exact .perform .failed
  | ended => trivial
  | stopped =>
      refine .perform_bind .removeFinishedJobs fun _ => .perform_bind .getCommand fun cmd => ?_
      cases cmd with
      | some cmd => exact .perform (.addJobWithId ..)
      | none => exact .perform .crash

theorem createCommand_calls (cmdLine : Text) : (createCommand cmdLine).All SetupCall :=
  .perform_bind (.newCommand ..) fun _ =>
    Prog.All.bind (.when fun _ => .perform (.setPrompt _)) fun _ => trivial

theorem readSignal_calls (word : Text) : (readSignal word).All (· = .freedText) := by
  unfold readSignal
  split
  · trivial
  · exact .perform_bind rfl fun _ => trivial

theorem startTimeout_calls (cmd : Nat) (pid : Int) (cmdLine : Text) :
    (startTimeout cmd pid cmdLine).All SetupCall := by
  simp only [startTimeout]
  refine Prog.All.bind (.when fun _ => .perform .crash) fun _ => .perform_bind .get fun shell => ?_
  exact Prog.All.bind (.when fun _ => .perform (.alarm _)) fun _ => .perform (.addToTimesList ..)

/-! ## Commands that leave the table alone -/

/-- The calls on the table, and `cat`'s loop over a file. -/
def onTable : Op → Bool
  | .dup _ | .dup2 .. | .close _ | .openFile _ | .pipe | .copyOut _ => true
  | _ => false

/-- A call that is none of them. -/
abbrev Aside (op : Op) : Prop := onTable op = false

theorem CdCall.aside {op : Op} (h : CdCall op) : Aside op := by
  cases h <;> rfl

theorem AwaitCall.aside {op : Op} (h : AwaitCall op) : Aside op := by
  cases h <;> rfl

theorem SetupCall.aside {op : Op} (h : SetupCall op) : Aside op := by
  cases h <;> rfl

theorem createCommand_aside (cmdLine : Text) : (createCommand cmdLine).All Aside :=
  (createCommand_calls cmdLine).mono fun _ => SetupCall.aside

theorem killCommand_aside (args : List Text) : (killCommand args).All Aside := by
  have hread : ∀ word, (readSignal word).All Aside :=
    fun word => (readSignal_calls word).mono fun op hop => hop ▸ rfl
  simp only [killCommand]
  split
  · exact .perform rfl
  split
  · exact .perform rfl
  refine (hread _).bind fun signum => ?_
  split
  · exact .perform rfl
  refine .perform_bind rfl fun shell => ?_
  split
  · exact .perform rfl
  refine (hread _).bind fun signum' => .perform_bind rfl fun r => ?_
  split
  · exact .perform rfl
  split
  · exact .perform rfl
  split
  · exact .perform rfl
  · trivial

theorem awaitJob_aside (curJob : JobEntry) : (awaitJob curJob).All Aside :=
  (awaitJob_calls curJob).mono fun _ => AwaitCall.aside

theorem bringForward_aside (curJob : JobEntry) : (bringForward curJob).All Aside := by
  refine .perform_bind rfl fun _ => .perform_bind rfl fun _ => .perform_bind rfl fun _ => ?_
  split
  · refine .perform_bind rfl fun r => ?_
    split
    · exact .perform rfl
    · exact awaitJob_aside curJob
  · exact awaitJob_aside curJob

theorem foregroundCommand_aside (args : List Text) : (foregroundCommand args).All Aside := by
  refine .perform_bind rfl fun shell => ?_
  split
  · split
    · exact .perform rfl
    · exact bringForward_aside _
  split
  · split
    · exact .perform rfl
    split
    · exact .perform rfl
    · exact bringForward_aside _
  · exact .perform rfl

theorem resume_aside (curJob : JobEntry) : (resume curJob).All Aside := by
  refine .perform_bind rfl fun r => ?_
  split
  · exact .perform rfl
  · exact .perform rfl

theorem backgroundCommand_aside (args : List Text) : (backgroundCommand args).All Aside := by
  refine .perform_bind rfl fun shell => ?_
  split
  · split
    · exact .perform rfl
    · exact resume_aside _
  split
  · split
    · exact .perform rfl
    split
    · exact .perform rfl
    split
    · exact .perform rfl
    · exact resume_aside _
  · exact .perform rfl

theorem killEach_aside (l : List JobEntry) : (killEach l).All Aside := by
  induction l with
  | nil => trivial
  | cons e l ih =>
      refine .perform_bind rfl fun r => ?_
      split
      · exact Prog.All.bind (.perform rfl) fun _ => trivial
      · exact .perform_bind rfl fun _ => ih

theorem deleteEach_aside (l : List JobEntry) : (deleteEach l).All Aside := by
  induction l with
  | nil => trivial
  | cons e l ih => exact .perform_bind rfl fun _ => ih

theorem quitCommand_aside (args : List Text) : (quitCommand args).All Aside := by
  refine Prog.All.bind ?_ fun _ => .perform rfl
  unfold endJobs
  split
  · refine .perform_bind rfl fun shell => (killEach_aside _).bind fun all => ?_
    split
    · exact .perform rfl
    · trivial
  · exact .perform_bind rfl fun shell => (deleteEach_aside _).bind fun _ => .perform rfl

/-- **Every built-in command but `cat`.** -/
theorem execute_aside {kind : Kind} (args : List Text) (hkind : kind ≠ .cat) :
    (execute kind args).All Aside := by
  cases kind with
  | chprompt => trivial
  | showpid => trivial
  | pwd =>
      refine .perform_bind rfl fun cwd => ?_
      split
      · exact .perform rfl
      · trivial
  | cd => exact (cdCommand_calls args).mono fun _ => CdCall.aside
  | fg => exact foregroundCommand_aside args
  | bg => exact backgroundCommand_aside args
  | jobs => exact .perform rfl
  | kill => exact killCommand_aside args
  | cat => exact absurd rfl hkind
  | quit => exact quitCommand_aside args
  | timeout => trivial
  | external => trivial

theorem launch_aside (isBackground : Bool) (kind : Kind) (cmd : Nat) (cmdLine : Text) :
    (launch isBackground kind cmd cmdLine).All Aside := by
  refine Prog.All.bind (.when fun _ => .perform rfl) fun _ => ?_
  refine .perform_bind rfl fun _ => .perform_bind rfl fun pid => ?_
  refine Prog.All.bind (.when fun _ => .perform rfl) fun _ => .perform_bind rfl fun _ => ?_
  refine Prog.All.bind (.when fun _ => (startTimeout_calls ..).mono fun _ => SetupCall.aside)
    fun _ => ?_
  split
  · exact .perform_bind rfl fun _ => .perform_bind rfl fun _ => trivial
  · refine .perform_bind rfl fun how => ?_
    cases how with
    | failed => exact Prog.All.bind (.perform rfl) fun _ => trivial
    | ended => trivial
    | stopped => exact .perform_bind rfl fun _ => .perform_bind rfl fun _ => trivial

end OsAllHw.Shell
