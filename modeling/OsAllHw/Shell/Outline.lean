import Mathlib
import OsAllHw.Shell.Calls

/-!
# A proof outline of the main loop

Where the shell is between two statements, as far as jobs, commands and
children matter, is a `Point`; `Moves` are the statements that change it or
may be executed there, and `Becomes` are the changes of view that execute
nothing. An `Outline` is one assertion for each point, kept by the moves and
by whatever happens in between. Control flow is dealt with once, here
(`Outline.iteration`): from an outline, the assertions hold along every run.
-/

namespace OsAllHw.Shell

open Lib

/-- The statements that touch none of the shell's lists, commands or children. -/
inductive Quiet : Op → Prop where
  | get : Quiet .get
  | getCommand : Quiet .getCommand
  | setPrompt (prompt) : Quiet (.setPrompt prompt)
  | setPrevPwd (pwd) : Quiet (.setPrevPwd pwd)
  | strayAmpersand : Quiet .strayAmpersand
  | error (msg) : Quiet (.error msg)
  | freedText : Quiet .freedText
  | crash : Quiet .crash
  | alarm (seconds) : Quiet (.alarm seconds)
  | dup (fd) : Quiet (.dup fd)
  | dup2 (oldFd newFd) : Quiet (.dup2 oldFd newFd)
  | close (fd) : Quiet (.close fd)
  | openFile (path) : Quiet (.openFile path)
  | pipe : Quiet .pipe
  | copyOut (fd) : Quiet (.copyOut fd)
  | getcwd : Quiet .getcwd
  | chdir (path) : Quiet (.chdir path)

inductive Point where
  /-- Between two turns. -/
  | rest
  /-- In a turn, with no command under way. -/
  | idle
  /-- The new command was made; it runs in the background or not. -/
  | created (background : Bool) (cmd : Nat)
  | current (background : Bool) (cmd : Nat)
  | forked (background : Bool) (cmd : Nat) (pid : Int)
  | started (background : Bool) (cmd : Nat) (pid : Int)
  /-- The foreground command was reported stopped. -/
  | stopped (cmd : Nat) (pid : Int)
  /-- `fg`, `bg` or `kill` found an entry. -/
  | chosen (e : JobEntry)
  /-- `fg` took it out, raised its flag, made it the current command. -/
  | taken (e : JobEntry)
  | raised (e : JobEntry)
  | resumed (e : JobEntry)
  | stoppedAgain (e : JobEntry)
  /-- The children of a pipe that were not waited for. -/
  | piping (pids : List Int)
  /-- `quit`, with the entries it has not come to. -/
  | quitting (l : List JobEntry)
  /-- The command is finished; the flag of the current one may still be up. -/
  | finished
  | lowering (cmd : Nat)

namespace Point

/-- The points at which the shell removes finished jobs. -/
def removes : Point → Bool
  | idle | started .. | stopped .. | stoppedAgain _ => true
  | _ => false

/-- ... and those at which the alarm handler may. -/
def sweeps : Point → Bool
  | rest | resumed _ | piping _ => true
  | pt => pt.removes

/-- Between `SetCommand` and `SetPid` only the statements of `executeCommand`
are executed. -/
def launching : Point → Bool
  | current .. | forked .. => true
  | _ => false

theorem sweeps_of_removes {pt : Point} (h : pt.removes = true) : pt.sweeps = true := by
  cases pt <;> first | rfl | cases h

/-- Where a wait leads. -/
def waitedTo (pt : Point) : Waited → Point
  | .stopped => pt
  | _ => finished

def signalledTo (pt : Point) (n : Int) : Point := if n = -1 then finished else pt

def reapedTo (pt : Point) (how : Waited) : Point := if how = .failed then finished else pt

end Point

/-- `Moves pt op next`: at `pt` the shell may execute `op`, and is then at
`next` of what it returned. -/
inductive Moves : Point → (op : Op) → (Resp op → Point) → Prop where
  | quiet (pt) {op} (h : Quiet op) (hpt : pt.launching = false) : Moves pt op fun _ => pt
  | new (kind cmdLine) : Moves .idle (.newCommand kind cmdLine) fun cmd => .created false cmd
  | background (cmd) :
      Moves (.created false cmd) (.setForeground cmd false) fun _ => .created true cmd
  | setCommand (b cmd) : Moves (.created b cmd) (.setCommand cmd) fun _ => .current b cmd
  | fork (b cmd) : Moves (.current b cmd) (.fork (some cmd)) fun pid => .forked b cmd pid
  | forkFailed (b cmd pid) : Moves (.forked b cmd pid)
      (.error "smash error: fork failed".toList) fun _ => .forked b cmd pid
  | setPid (b cmd pid) :
      Moves (.forked b cmd pid) (.setPid cmd pid) fun _ => .started b cmd pid
  | addTime (b cmd pid duration) : Moves (.started b cmd pid)
      (.addToTimesList cmd pid duration) fun _ => .started b cmd pid
  | sweep {pt : Point} (h : pt.removes = true) : Moves pt .removeFinishedJobs fun _ => pt
  | list (cmd pid) : Moves (.started true cmd pid) (.addJob cmd pid false) fun _ => .finished
  | wait (cmd pid) : Moves (.started false cmd pid) (.waitpid pid true)
      (Point.stopped cmd pid).waitedTo
  | listStopped (cmd pid) : Moves (.stopped cmd pid) (.addJob cmd pid true) fun _ => .finished
  | take (e : JobEntry) : Moves (.chosen e) (.removeJobById e.jobId) fun _ => .taken e
  | raise (e : JobEntry) : Moves (.taken e) (.setForeground e.cmd true) fun _ => .raised e
  | front (e : JobEntry) : Moves (.raised e) (.setCommand e.cmd) fun _ => .resumed e
  | cont (e : JobEntry) : Moves (.resumed e) (.kill e.pid sigcont) (Point.resumed e).signalledTo
  | waitAgain (e : JobEntry) : Moves (.resumed e) (.waitpid e.pid true)
      (Point.stoppedAgain e).waitedTo
  | relist (e : JobEntry) : Moves (.stoppedAgain e)
      (.addJobWithId e.cmd e.pid e.jobId true) fun _ => .finished
  | signal (e : JobEntry) (signum) : Moves (.chosen e) (.kill e.pid signum) fun _ => .chosen e
  | flag (e : JobEntry) (b) : Moves (.chosen e) (.setIsStopped e.jobId b) fun _ => .idle
  | forkPipe (pids) : Moves (.piping pids) (.fork none) fun p => .piping (pids ++ [p])
  | waitPipe (p pids) : Moves (.piping (p :: pids)) (.waitpid p false)
      (Point.piping pids).reapedTo
  | lower (cmd) : Moves (.lowering cmd) (.setForeground cmd false) fun _ => .rest
  | killEach (e : JobEntry) (l) :
      Moves (.quitting (e :: l)) (.kill e.pid sigkill) fun _ => .quitting (e :: l)
  | delete (e : JobEntry) (l) :
      Moves (.quitting (e :: l)) (.deleteCommand e.cmd) fun _ => .quitting l
  | clear (l) : Moves (.quitting l) .clearJobs fun _ => .quitting []
  | leave (l) : Moves (.quitting l) (.setRun false) fun _ => .finished

/-- A change of view, which executes nothing. -/
inductive Becomes (w : World) : Point → Point → Prop where
  | begin (h : w.shell.run = true) : Becomes w .rest .idle
  | drop (b cmd) : Becomes w (.created b cmd) .idle
  | choose (e) (h : e ∈ w.shell.jobs.jobsList) : Becomes w .idle (.chosen e)
  | keep (e) : Becomes w (.chosen e) .idle
  | pipe : Becomes w .idle (.piping [])
  | piped (pids) : Becomes w (.piping pids) .finished
  | quit (l) (h : w.shell.jobs.jobsList = l) : Becomes w .idle (.quitting l)
  | finish : Becomes w .idle .finished
  | lowering (cmd) (h : w.shell.currentCmd = some cmd) : Becomes w .finished (.lowering cmd)
  | none (h : w.shell.currentCmd = none) : Becomes w .finished .rest

/-! ## The quiet commands -/

theorem CdCall.quiet {op : Op} (h : CdCall op) : Quiet op := by
  cases h <;> constructor

theorem catFiles_quiet (args : List Text) : (catFiles args).All Quiet := by
  induction args with
  | nil => trivial
  | cons arg args ih =>
      unfold catFiles
      split
      · trivial
      refine .perform_bind (.openFile _) fun fdCat => ?_
      split
      · exact .perform (.error _)
      refine .perform_bind (.copyOut _) fun how => ?_
      cases how with
      | readFailed => exact .perform (.error _)
      | writeFailed => exact .perform (.error _)
      | copied =>
          refine .perform_bind (.close _) fun r => ?_
          split
          · exact .perform (.error _)
          · exact ih

theorem prepareRedirectionCommand_quiet (cmdLine type : Text) :
    (prepareRedirectionCommand cmdLine type).All Quiet := by
  refine .perform_bind (.dup _) fun fdStdout => ?_
  split
  · exact Prog.All.bind (.perform (.error _)) fun _ => trivial
  refine .perform_bind (.close _) fun r => ?_
  split
  · exact Prog.All.bind (.perform (.error _)) fun _ => .perform_bind (.close _) fun _ => trivial
  refine .perform_bind (.openFile _) fun fd => ?_
  split
  · exact Prog.All.bind (.perform (.error _)) fun _ => .perform_bind (.dup2 ..) fun _ => trivial
  · trivial

theorem undoRedirection_quiet (fd : Int) : (undoRedirection fd).All Quiet := by
  refine .perform_bind (.dup2 ..) fun r => ?_
  split
  · exact .perform (.error _)
  refine .perform_bind (.close _) fun r => ?_
  split
  · exact .perform (.error _)
  · trivial

/-! ## Outlines -/

section

variable (ok : Op → World → Reply → Prop) (calm : Option Op → World → Interrupt → Prop)
  (need : Op → World → Prop)

/-- One assertion for each point, kept by every move whose reply meets `ok`
and by every interruption that meets `calm`, and giving `need` before each
statement. -/
structure Outline where
  inv : Point → World → Prop
  moves : ∀ {pt op next w}, Moves pt op next → inv pt w → need op w ∧
    ∀ r a w', ok op w r → perform op w r = some (a, w') → inv (next a) w'
  becomes : ∀ {w pt pt'}, Becomes w pt pt' → inv pt w → inv pt' w
  stable : ∀ {pt op e w w'}, (waiting op = true → pt.sweeps = true) → inv pt w → calm op w e →
    interrupt op w e = some w' → inv pt w'
  /-- `SetCommand` in `fg` is what `GetCommand` finds. -/
  front : ∀ {e w}, inv (.stoppedAgain e) w → w.shell.currentCmd = some e.cmd

abbrev rules : Rules Op Resp World := smash.rules ok calm need

variable {ok calm need}

theorem Moves.sweeps {pt : Point} {op : Op} {next : Resp op → Point} (h : Moves pt op next)
    (hw : waiting (some op) = true) : pt.sweeps = true := by
  cases h with
  | quiet _ hq => cases hq <;> cases hw
  | _ => first | rfl | cases hw

namespace Outline

variable (O : Outline ok calm need) {α : Type} {w : World} {pt : Point} {op : Op}
  {next : Resp op → Point} {Q : α → World → Prop}

/-- One statement. -/
theorem move {k : Resp op → Code α} (h : Moves pt op next) (hw : O.inv pt w)
    (hnext : ∀ a w', O.inv (next a) w' → Holds (rules ok calm need) (k a) Q w') :
    Holds (rules ok calm need) (call op >>= k) Q w := by
  have hedge : Edge (rules ok calm need) (O.inv pt) op fun a => O.inv (next a) := by
    intro w hw
    refine ⟨(O.moves h hw).1, ?_⟩
    rintro a w' ⟨r, hr, hp⟩
    exact (O.moves h hw).2 r a w' hr hp
  refine hedge.holds ?_ hw hnext
  rintro w w' ⟨e, hcalm, hi⟩ hw
  exact O.stable h.sweeps hw hcalm hi

/-- The last statement of a command. -/
theorem last {Q : Resp op → World → Prop} (h : Moves pt op next) (hw : O.inv pt w)
    (hnext : ∀ a w', O.inv (next a) w' → Q a w') : Holds (rules ok calm need) (call op) Q w :=
  O.move (k := .ret) h hw hnext

/-- A statement that reads the shell's variables: what it returns is what it
leaves. -/
theorem read (hq : Quiet op) (hwait : waiting (some op) = false) {f : World → Resp op}
    (hf : ∀ w r, perform op w r = some (f w, w)) {k : Resp op → Code α} (hw : O.inv pt w)
    (hpt : pt.launching = false)
    (hnext : ∀ w', O.inv pt w' → Holds (rules ok calm need) (k (f w')) Q w') :
    Holds (rules ok calm need) (call op >>= k) Q w := by
  have hedge : Edge (rules ok calm need) (O.inv pt) op fun v w => O.inv pt w ∧ v = f w := by
    intro w hw
    refine ⟨(O.moves (.quiet pt hq hpt) hw).1, ?_⟩
    rintro v w' ⟨r, -, hp⟩
    obtain ⟨rfl, rfl⟩ : f w = v ∧ w = w' := by simpa [smash, hf] using hp
    exact ⟨hw, rfl⟩
  refine hedge.holds ?_ hw ?_
  · rintro w w' ⟨e, hcalm, hi⟩ hw
    exact O.stable (fun h => by rw [hwait] at h; cases h) hw hcalm hi
  · rintro v w' ⟨hw', rfl⟩
    exact hnext w' hw'

theorem get {k : ShellVars → Code α} (hw : O.inv pt w) (hpt : pt.launching = false)
    (hnext : ∀ w', O.inv pt w' → Holds (rules ok calm need) (k w'.shell) Q w') :
    Holds (rules ok calm need) (call .get >>= k) Q w :=
  O.read (f := World.shell) .get rfl (fun _ _ => rfl) hw hpt hnext

theorem getCommand {k : Option Nat → Code α} (hw : O.inv pt w) (hpt : pt.launching = false)
    (hnext : ∀ w', O.inv pt w' → Holds (rules ok calm need) (k w'.shell.currentCmd) Q w') :
    Holds (rules ok calm need) (call .getCommand >>= k) Q w :=
  O.read (f := fun w => w.shell.currentCmd) .getCommand rfl (fun _ _ => rfl) hw hpt hnext

/-- A command of quiet statements stays where it is. -/
theorem quiet {p : Code α} (hp : p.All Quiet) (hw : O.inv pt w) (hpt : pt.launching = false) :
    Holds (rules ok calm need) p (fun _ => O.inv pt) w := by
  refine hp.holds (fun op hq => ?_) (fun op hq => ?_) hw
  · rintro w w' ⟨e, hcalm, hi⟩ hw
    exact O.stable (Moves.quiet pt hq hpt).sweeps hw hcalm hi
  · intro w hw
    refine ⟨(O.moves (.quiet pt hq hpt) hw).1, ?_⟩
    rintro a w' ⟨r, hr, hp⟩
    exact (O.moves (.quiet pt hq hpt) hw).2 r a w' hr hp

/-! ## The commands -/

theorem error (msg : String) (hw : O.inv pt w) (hpt : pt.launching = false) :
    Holds (rules ok calm need) (error msg) (fun _ => O.inv pt) w :=
  O.quiet (.perform (.error _)) hw hpt

/-- A message where nothing is under way ends the command. -/
theorem refuse {p : Code Unit} (hp : p.All Quiet) (hw : O.inv .idle w) :
    Holds (rules ok calm need) p (fun _ => O.inv .finished) w :=
  (O.quiet hp hw rfl).mono fun _ _ h => O.becomes .finish h

theorem createCommand (cmdLine : Text) (hw : O.inv .idle w) :
    Holds (rules ok calm need) (createCommand cmdLine)
      (fun cmd => O.inv (.created false cmd)) w := by
  refine O.move (.new _ _) hw fun cmd w hw => ?_
  refine Holds.bind (O.quiet (.when fun _ => .perform (.setPrompt _)) hw rfl) fun _ w hw => ?_
  exact hw

theorem awaitJob (e : JobEntry) (hw : O.inv (.resumed e) w) :
    Holds (rules ok calm need) (awaitJob e) (fun _ => O.inv .finished) w := by
  refine O.move (.waitAgain e) hw fun how w hw => ?_
  cases how with
  | failed => exact O.error _ hw rfl
  | ended => exact hw
  | stopped =>
      refine O.move (.sweep rfl) hw fun _ w hw => ?_
      refine O.getCommand hw rfl fun w hw => ?_
      rw [O.front hw]
      exact O.last (.relist e) hw fun _ _ h => h

theorem bringForward (e : JobEntry) (hw : O.inv (.chosen e) w) :
    Holds (rules ok calm need) (bringForward e) (fun _ => O.inv .finished) w := by
  refine O.move (.take e) hw fun _ w hw => ?_
  refine O.move (.raise e) hw fun _ w hw => ?_
  refine O.move (.front e) hw fun _ w hw => ?_
  split
  · refine O.move (.cont e) hw fun n w hw => ?_
    rw [Point.signalledTo] at hw
    split
    · rw [if_pos ‹_›] at hw
      exact O.error _ hw rfl
    · rw [if_neg ‹_›] at hw
      exact O.awaitJob e hw
  · exact O.awaitJob e hw

theorem resume (e : JobEntry) (hw : O.inv (.chosen e) w) :
    Holds (rules ok calm need) (resume e) (fun _ => O.inv .finished) w := by
  refine O.move (.signal e _) hw fun n w hw => ?_
  split
  · exact O.refuse (.perform (.error _)) (O.becomes (.keep e) hw)
  · exact O.last (.flag e _) hw fun _ _ h => O.becomes .finish h

theorem foregroundCommand (args : List Text) (hw : O.inv .idle w) :
    Holds (rules ok calm need) (foregroundCommand args) (fun _ => O.inv .finished) w := by
  refine O.get hw rfl fun w hw => ?_
  split
  · cases hj : w.shell.jobs.getLastJob with
    | none => exact O.refuse (.perform (.error _)) hw
    | some e => exact O.bringForward e (O.becomes (.choose e (JobsList.getLastJob_mem hj)) hw)
  split
  · split
    · exact O.refuse (.perform (.error _)) hw
    · split
      · exact O.refuse (.perform (.error _)) hw
      · rename_i e hj
        exact O.bringForward e (O.becomes (.choose e (JobsList.getJobById_some hj).1) hw)
  · exact O.refuse (.perform (.error _)) hw

theorem backgroundCommand (args : List Text) (hw : O.inv .idle w) :
    Holds (rules ok calm need) (backgroundCommand args) (fun _ => O.inv .finished) w := by
  refine O.get hw rfl fun w hw => ?_
  split
  · cases hj : w.shell.jobs.getLastStoppedJob with
    | none => exact O.refuse (.perform (.error _)) hw
    | some e => exact O.resume e (O.becomes (.choose e (JobsList.getLastStoppedJob_mem hj)) hw)
  split
  · split
    · exact O.refuse (.perform (.error _)) hw
    · split
      · exact O.refuse (.perform (.error _)) hw
      · rename_i e hj
        split
        · exact O.refuse (.perform (.error _)) hw
        · exact O.resume e (O.becomes (.choose e (JobsList.getJobById_some hj).1) hw)
  · exact O.refuse (.perform (.error _)) hw

theorem killCommand (args : List Text) (hw : O.inv .idle w) :
    Holds (rules ok calm need) (killCommand args) (fun _ => O.inv .finished) w := by
  have hread : ∀ word, (readSignal word).All Quiet :=
    fun word => (readSignal_calls word).mono fun op hop => hop ▸ .freedText
  unfold Shell.killCommand
  split
  · exact O.refuse (.perform (.error _)) hw
  split
  · exact O.refuse (.perform (.error _)) hw
  refine Holds.bind (O.quiet (hread _) hw rfl) fun signum w hw => ?_
  split
  · exact O.refuse (.perform (.error _)) hw
  refine O.get hw rfl fun w hw => ?_
  split
  · exact O.refuse (.perform (.error _)) hw
  rename_i e hj
  have hchosen := O.becomes (.choose e (JobsList.getJobById_some hj).1) hw
  refine Holds.bind (O.quiet (hread _) hchosen rfl) fun signum' w hw => ?_
  refine O.move (.signal e _) hw fun n w hw => ?_
  split
  · exact O.refuse (.perform (.error _)) (O.becomes (.keep e) hw)
  split
  · exact O.last (.flag e _) hw fun _ _ h => O.becomes .finish h
  split
  · exact O.last (.flag e _) hw fun _ _ h => O.becomes .finish h
  · exact O.becomes .finish (O.becomes (.keep e) hw)

theorem killEach (l : List JobEntry) (hw : O.inv (.quitting l) w) :
    Holds (rules ok calm need) (killEach l) (fun _ w => ∃ l, O.inv (.quitting l) w) w := by
  induction l generalizing w with
  | nil => exact ⟨[], hw⟩
  | cons e l ih =>
      refine O.move (.killEach e l) hw fun n w hw => ?_
      split
      · exact Holds.bind (O.error _ hw rfl) fun _ w hw => ⟨e :: l, hw⟩
      · exact O.move (.delete e l) hw fun _ w hw => ih hw

theorem deleteEach (l : List JobEntry) (hw : O.inv (.quitting l) w) :
    Holds (rules ok calm need) (deleteEach l) (fun _ => O.inv (.quitting [])) w := by
  induction l generalizing w with
  | nil => exact hw
  | cons e l ih => exact O.move (.delete e l) hw fun _ w hw => ih hw

theorem endJobs (args : List Text) (hw : O.inv .idle w) :
    Holds (rules ok calm need) (endJobs args) (fun _ w => ∃ l, O.inv (.quitting l) w) w := by
  unfold Shell.endJobs
  split
  · refine O.get hw rfl fun w hw => ?_
    refine Holds.bind (O.killEach _ (O.becomes (.quit _ rfl) hw)) ?_
    rintro done w ⟨l, hw⟩
    cases done with
    | false => exact ⟨l, hw⟩
    | true => exact O.last (.clear l) hw fun _ _ h => ⟨[], h⟩
  · refine O.get hw rfl fun w hw => ?_
    refine Holds.bind (O.deleteEach _ (O.becomes (.quit _ rfl) hw)) fun _ w hw => ?_
    exact O.last (.clear []) hw fun _ _ h => ⟨[], h⟩

/-- Every built-in command. -/
theorem execute (kind : Kind) (args : List Text) (hw : O.inv .idle w) :
    Holds (rules ok calm need) (execute kind args) (fun _ => O.inv .finished) w := by
  have hend := O.becomes .finish hw
  cases kind with
  | chprompt => exact hend
  | showpid => exact hend
  | timeout => exact hend
  | external => exact hend
  | pwd =>
      refine O.refuse (.perform_bind .getcwd fun cwd => ?_) hw
      split
      · exact .perform (.error _)
      · trivial
  | cd => exact O.refuse ((cdCommand_calls args).mono fun _ => CdCall.quiet) hw
  | cat => exact O.refuse (catFiles_quiet _) hw
  | fg => exact O.foregroundCommand args hw
  | bg => exact O.backgroundCommand args hw
  | kill => exact O.killCommand args hw
  | jobs => exact O.last (.sweep rfl) hw fun _ _ h => O.becomes .finish h
  | quit =>
      refine Holds.bind (O.endJobs args hw) ?_
      rintro _ w ⟨l, hw⟩
      exact O.last (.leave l) hw fun _ _ h => h

theorem startTimeout (b : Bool) (cmd : Nat) (pid : Int) (cmdLine : Text)
    (hw : O.inv (.started b cmd pid) w) : Holds (rules ok calm need)
      (startTimeout cmd pid cmdLine) (fun _ => O.inv (.started b cmd pid)) w := by
  refine Holds.bind (O.quiet (.when fun _ => .perform .crash) hw rfl) fun _ w hw => ?_
  refine O.get hw rfl fun w hw => ?_
  refine Holds.bind (O.quiet (.when fun _ => .perform (.alarm _)) hw rfl) fun _ w hw => ?_
  exact O.last (.addTime b cmd pid _) hw fun _ _ h => h

/-- An external or a timeout command. -/
theorem launch (b : Bool) (kind : Kind) (cmd : Nat) (cmdLine : Text)
    (hw : O.inv (.created false cmd) w) : Holds (rules ok calm need)
      (launch b kind cmd cmdLine) (fun _ => O.inv .finished) w := by
  have hflag : Holds (rules ok calm need) (Prog.when b (call (.setForeground cmd false)))
      (fun _ => O.inv (.created b cmd)) w := by
    cases b with
    | false => exact .when (fun h => by cases h) fun _ => hw
    | true =>
        exact .when (fun _ => O.last (.background cmd) hw fun _ _ h => h) fun h => by simp at h
  refine Holds.bind hflag fun _ w hw => ?_
  refine O.move (.setCommand b cmd) hw fun _ w hw => ?_
  refine O.move (.fork b cmd) hw fun pid w hw => ?_
  have herror : Holds (rules ok calm need)
      (Prog.when (pid = -1) (Shell.error "smash error: fork failed"))
      (fun _ => O.inv (.forked b cmd pid)) w :=
    .when (fun _ => O.last (.forkFailed b cmd pid) hw fun _ _ h => h) fun _ => hw
  refine Holds.bind herror fun _ w hw => ?_
  refine O.move (.setPid b cmd pid) hw fun _ w hw => ?_
  have htime : Holds (rules ok calm need)
      (Prog.when (kind = .timeout) (Shell.startTimeout cmd pid cmdLine))
      (fun _ => O.inv (.started b cmd pid)) w :=
    .when (fun _ => O.startTimeout b cmd pid cmdLine hw) fun _ => hw
  refine Holds.bind htime fun _ w hw => ?_
  cases b with
  | true =>
      refine O.move (.sweep rfl) hw fun _ w hw => ?_
      exact O.move (.list cmd pid) hw fun _ _ h => h
  | false =>
      refine O.move (.wait cmd pid) hw fun how w hw => ?_
      cases how with
      | failed => exact Holds.bind (O.error _ hw rfl) fun _ _ h => h
      | ended => exact hw
      | stopped =>
          refine O.move (.sweep rfl) hw fun _ w hw => ?_
          exact O.move (.listStopped cmd pid) hw fun _ _ h => h

theorem executePipeCommand (cmdLine type : Text) (hw : O.inv .idle w) : Holds
    (rules ok calm need) (executePipeCommand cmdLine type) (fun _ => O.inv .finished) w := by
  refine O.move (.quiet _ .pipe rfl) hw fun fds w hw => ?_
  cases fds with
  | none => exact O.refuse (.perform (.error _)) hw
  | some fds =>
      refine Holds.bind (O.createCommand _ hw) fun cmd₁ w hw => ?_
      refine Holds.bind (O.createCommand _ (O.becomes (.drop _ _) hw)) fun cmd₂ w hw => ?_
      refine O.move (.forkPipe []) (O.becomes .pipe (O.becomes (.drop _ _) hw)) fun res w hw => ?_
      refine Holds.bind (O.quiet (.when fun _ => .perform (.error _)) hw rfl) fun _ w hw => ?_
      refine O.move (.forkPipe _) hw fun res2 w hw => ?_
      refine Holds.bind (O.quiet (.when fun _ => .perform (.error _)) hw rfl) fun _ w hw => ?_
      refine O.move (.quiet _ (.close _) rfl) hw fun n w hw => ?_
      split
      · exact (O.error _ hw rfl).mono fun _ _ h => O.becomes (.piped _) h
      refine O.move (.quiet _ (.close _) rfl) hw fun n w hw => ?_
      split
      · exact (O.error _ hw rfl).mono fun _ _ h => O.becomes (.piped _) h
      refine O.move (.waitPipe res [res2]) hw fun how w hw => ?_
      rw [Point.reapedTo] at hw
      split
      · rw [if_pos ‹_›] at hw
        exact O.error _ hw rfl
      rw [if_neg ‹_›] at hw
      refine O.move (.waitPipe res2 []) hw fun how w hw => ?_
      rw [Point.reapedTo] at hw
      split
      · rw [if_pos ‹_›] at hw
        exact O.error _ hw rfl
      · rw [if_neg ‹_›] at hw
        exact O.becomes (.piped []) hw

theorem runKind (b : Bool) (kind : Kind) (cmd : Nat) (cmdLine : Text)
    (hw : O.inv (.created false cmd) w) : Holds (rules ok calm need)
      (runKind b kind cmd cmdLine) (fun _ => O.inv .finished) w := by
  unfold Shell.runKind
  split
  · exact O.launch b kind cmd cmdLine hw
  · exact Holds.bind (O.execute kind _ (O.becomes (.drop _ _) hw)) fun _ _ h => h

theorem runCommand (b : Bool) (cmdLine : Text) (fdStdout : Option Int) (hw : O.inv .idle w) :
    Holds (rules ok calm need) (runCommand b cmdLine fdStdout) (fun _ => O.inv .finished) w := by
  refine Holds.bind (O.createCommand cmdLine hw) fun cmd w hw => ?_
  refine Holds.bind (O.runKind b _ cmd cmdLine hw) fun goesOn w hw => ?_
  split
  · exact O.quiet (undoRedirection_quiet _) hw rfl
  · exact hw

theorem executeCommand (cmdLine : Text) (hw : O.inv .idle w) : Holds (rules ok calm need)
    (executeCommand cmdLine) (fun _ => O.inv .finished) w := by
  refine O.move (.quiet _ .strayAmpersand rfl) hw fun stray w hw => ?_
  split
  · exact O.executePipeCommand cmdLine _ hw
  split
  · exact O.runCommand _ cmdLine none hw
  refine Holds.bind (O.quiet (prepareRedirectionCommand_quiet ..) hw rfl) fun fdStdout w hw => ?_
  exact .when (fun _ => O.runCommand _ _ _ hw) fun _ => O.becomes .finish hw

/-- **One turn of the main loop.** -/
theorem iteration (cmdLine : Text) (hw : O.inv .rest w) (hrun : w.shell.run = true) :
    Holds (rules ok calm need) (iteration cmdLine) (fun _ => O.inv .rest) w := by
  refine O.move (.sweep rfl) (O.becomes (.begin hrun) hw) fun _ w hw => ?_
  refine Holds.bind (O.executeCommand cmdLine hw) fun _ w hw => ?_
  refine O.getCommand hw rfl fun w hw => ?_
  split
  · rename_i cmd hc
    exact O.last (.lower cmd) (O.becomes (.lowering cmd hc) hw) fun _ _ h => h
  · rename_i hc
    exact O.becomes (.none hc) hw

/-! ## Runs -/

/-- **What an outline gives along a run**: whatever state it is in, the shell
goes on as the outline says. -/
theorem sound {c c' : Config} {es : List Event}
    (h : Loop.Sound (rules ok calm need) (O.inv .rest) c)
    (hmeets : Along smash.step (Loop.Meets ok calm) c es)
    (hrun : runFrom smash.step c es = .ok c') :
    Loop.Sound (rules ok calm need) (O.inv .rest) c' :=
  Loop.run_sound (fun cmdLine _ hw hrun => O.iteration cmdLine hw hrun)
    (fun _ _ _ hw hcalm hi => O.stable (fun _ => rfl) hw hcalm hi) h hmeets hrun

/-- ... and for each of its events. -/
theorem along {c : Config} {es : List Event} {P Q : Config → Event → Prop}
    (hP : ∀ c e, P c e → Loop.Meets ok calm c e)
    (hQ : ∀ c e, Loop.Sound (rules ok calm need) (O.inv .rest) c → P c e → Q c e)
    (h : Loop.Sound (rules ok calm need) (O.inv .rest) c) (hes : Along smash.step P c es) :
    Along smash.step Q c es :=
  Loop.along_sound (fun cmdLine _ hw hrun => O.iteration cmdLine hw hrun)
    (fun _ _ _ hw hcalm hi => O.stable (fun _ => rfl) hw hcalm hi) hP hQ h hes

end Outline

end

end OsAllHw.Shell
