import Mathlib
import OsAllHw.Lib.Prog
import OsAllHw.Shell.Jobs
import OsAllHw.Shell.Text
import OsAllHw.Shell.Times

/-!
# The shell

`smash.cpp`, `signals.cpp` and the commands of `Commands.cpp` as one loop of
interruptible programs. Every statement that reads or writes a variable of the
shell, and every system call, is one call (`Op`). The handlers of Ctrl-C and
Ctrl-Z and the shell's children act between any two of them. The alarm handler
acts only while the shell waits for a line or for a child: `SIGALRM` is never
blocked in the source, but a handler that runs inside a list operation is not
followed.

A `Command*` is the number of the object among all that were made; `delete`
marks the object and leaves its contents. What a system call chooses (the pid
of a child, which child a wait reports, whether it fails) is the environment's
`Reply`. Only the shell process is followed: a child is its pid and what a
wait would report of it. Standard output is left out; error messages are not.
-/

namespace OsAllHw.Shell

open Lib

/-! ## State -/

structure CommandObj where
  kind : Kind
  cmdLine : Text
  foreground : Bool
  /-- What `GetPid` returns. -/
  pid : Int
  discarded : Bool
  deriving DecidableEq

structure ShellVars where
  run : Bool
  prompt : Text
  prevPwd : Text
  jobs : JobsList
  times : List TimeEntry
  currentCmd : Option Nat
  commands : List CommandObj
  deriving DecidableEq

inductive Status where
  | running | stopped | ended
  deriving DecidableEq

/-- A child that was not reaped; `cmd` is the command `executeCommand` forked
it for, none for the children of a pipe. -/
structure Child where
  pid : Int
  cmd : Option Nat
  status : Status
  deriving DecidableEq

/-- How a wait ended. -/
inductive Waited where
  | failed | ended | stopped
  deriving DecidableEq

/-- Two fields are history, read by no code: `forked`, every pid a fork has
returned, and `waited`, what the wait for the current command has reported
since it became the current one. -/
structure World where
  shell : ShellVars
  children : List Child
  forked : List Int
  waited : Option Waited
  /-- The descriptor table: which open file each descriptor refers to. -/
  fds : List (Option Nat)
  /-- How many open files there have been. -/
  files : Nat
  now : Int
  /-- When the pending alarm expires. -/
  pending : Option Int
  cwd : Text
  deriving DecidableEq

def World.start (now : Int) (cwd : Text) : World where
  shell := ⟨true, "smash> ".toList, [], .empty, [], none, []⟩
  children := []
  forked := []
  waited := none
  fds := [some 0, some 1, some 2]
  files := 3
  now := now
  pending := none
  cwd := cwd

/-! ## Descriptors -/

/-- The open file of descriptor `fd`. -/
def fileOf (fds : List (Option Nat)) (fd : Int) : Option Nat :=
  if 0 ≤ fd then fds[fd.toNat]?.join else none

/-- The lowest free descriptor. -/
def lowestFree (fds : List (Option Nat)) : Nat := fds.findIdx Option.isNone

/-- Descriptor `fd` refers to `file`. -/
def setFile (fds : List (Option Nat)) (fd : Nat) (file : Option Nat) : List (Option Nat) :=
  if fd < fds.length then fds.set fd file
  else fds ++ List.replicate (fd - fds.length) none ++ [file]

/-! ## Statements and system calls -/

/-- How `cat`'s loop over one file ended. -/
inductive Copied where
  | copied | readFailed | writeFailed
  deriving DecidableEq

inductive Op where
  -- the shell's variables
  | get
  | getCommand
  | newCommand (kind : Kind) (cmdLine : Text)
  | deleteCommand (cmd : Nat)
  | setForeground (cmd : Nat) (foreground : Bool)
  | setCommand (cmd : Nat)
  | setPid (cmd : Nat) (pid : Int)
  | setPrompt (prompt : Text)
  | setPrevPwd (pwd : Text)
  | setRun (run : Bool)
  /-- The character outside a blank line: whether it is `&`. -/
  | strayAmpersand
  /-- A message on standard error. -/
  | error (msg : Text)
  /-- The text behind a pointer into freed memory. -/
  | freedText
  /-- A read through a null pointer. -/
  | crash
  -- the lists
  | removeFinishedJobs
  | addJob (cmd : Nat) (pid : Int) (isStopped : Bool)
  | addJobWithId (cmd : Nat) (pid jobId : Int) (isStopped : Bool)
  | removeJobById (jobId : Int)
  | setIsStopped (jobId : Int) (isStopped : Bool)
  | clearJobs
  | addToTimesList (cmd : Nat) (pid duration : Int)
  -- system calls
  | fork (cmd : Option Nat)
  | waitpid (pid : Int) (untraced : Bool)
  | kill (pid signum : Int)
  | alarm (seconds : Int)
  | dup (fd : Int)
  | dup2 (oldFd newFd : Int)
  | close (fd : Int)
  | openFile (path : Text)
  | pipe
  /-- `cat`'s loop over one open file. -/
  | copyOut (fd : Int)
  | getcwd
  | chdir (path : Text)
  deriving DecidableEq

/-- What a call returns. -/
@[reducible] def Resp : Op → Type
  | .get => ShellVars
  | .getCommand => Option Nat
  | .newCommand .. => Nat
  | .strayAmpersand => Bool
  | .freedText => Text
  | .fork _ => Int
  | .waitpid .. => Waited
  | .kill .. => Int
  | .dup _ => Int
  | .dup2 .. => Int
  | .close _ => Int
  | .openFile _ => Int
  | .pipe => Option (Int × Int)
  | .copyOut _ => Copied
  | .getcwd => Text
  | .chdir _ => Int
  | _ => Unit

/-- What the environment decides about a call. -/
inductive Reply where
  | done
  | failed
  /-- The pid `fork` returns. -/
  | pid (pid : Int)
  /-- What an uninitialised member holds. -/
  | memory (pid : Int)
  | stray (ampersand : Bool)
  /-- What freed memory holds, read as a string. -/
  | freed (text : Text)
  /-- The child a blocking wait reaps, or reports as stopped. -/
  | ended (child : Int)
  | stopped (child : Int)
  /-- The jobs whose wait reaps a child, with that child. -/
  | finished (reaped : List (Int × Int))
  | copied (how : Copied)
  /-- The working directory a `chdir` leads to. -/
  | directory (cwd : Text)
  deriving DecidableEq

/-- The processes a wait for `pid` is about. -/
def Addresses (pid child : Int) : Prop := pid = child ∨ pid = -1

instance (pid child : Int) : Decidable (Addresses pid child) :=
  inferInstanceAs (Decidable (_ ∨ _))

namespace World

def has (w : World) (pid : Int) (status : Status) : Prop :=
  ∃ ch ∈ w.children, ch.pid = pid ∧ ch.status = status

instance (w : World) (pid : Int) (status : Status) : Decidable (w.has pid status) :=
  inferInstanceAs (Decidable (∃ ch ∈ w.children, _))

def setVars (w : World) (f : ShellVars → ShellVars) : World := { w with shell := f w.shell }

def onCommand (w : World) (cmd : Nat) (f : CommandObj → CommandObj) : World :=
  w.setVars fun v => { v with commands := v.commands.modify cmd f }

def onJobs (w : World) (f : JobsList → JobsList) : World :=
  w.setVars fun v => { v with jobs := f v.jobs }

/-- The children left once those in `pids` are reaped. -/
def reap (w : World) (pids : List Int) : World :=
  { w with children := w.children.filter fun ch => decide (ch.pid ∉ pids) }

/-- `reaped` is something the waits of `removeFinishedJobs` can report: listed
jobs, each with an ended child its wait is about, none twice. -/
def CanReap (w : World) (reaped : List (Int × Int)) : Prop :=
  (reaped.map Prod.fst).Nodup ∧ (reaped.map Prod.snd).Nodup ∧
  ∀ r ∈ reaped, w.has r.2 .ended ∧
    ∃ e ∈ w.shell.jobs.jobsList, e.jobId = r.1 ∧ Addresses e.pid r.2

instance (w : World) (reaped : List (Int × Int)) : Decidable (w.CanReap reaped) :=
  inferInstanceAs (Decidable (_ ∧ _ ∧ _))

/-- `delete` of each of `cmds`. -/
def discard (w : World) (cmds : List Nat) : World :=
  cmds.foldl (fun w cmd => w.onCommand cmd fun obj => { obj with discarded := true }) w

/-- `SmallShell::RemoveFinishedJobs`. -/
def removeFinishedJobs (w : World) (reaped : List (Int × Int)) : Option World :=
  if w.CanReap reaped then
    (w.shell.jobs.removeFinishedJobs fun e => decide (e.jobId ∈ reaped.map Prod.fst)).map
      fun (jobs, erased) =>
        ((w.onJobs fun _ => jobs).discard (erased.map JobEntry.cmd)).reap (reaped.map Prod.snd)
  else none

/-- `new`, for a command: `TimeoutCommand` leaves its pid uninitialised. -/
def newCommand (w : World) (kind : Kind) (cmdLine : Text) (r : Reply) : Nat × World :=
  let pid := match r with
    | .memory p => if kind = .timeout then p else -1
    | _ => -1
  (w.shell.commands.length, w.setVars fun v =>
    { v with commands := v.commands ++ [⟨kind, cmdLine, true, pid, false⟩] })

/-- In the parent: the new child's pid, or -1. -/
def fork (w : World) (cmd : Option Nat) : Reply → Option (Int × World)
  | .pid p =>
      if 0 < p ∧ ∀ ch ∈ w.children, ch.pid ≠ p then
        some (p, { w with
          children := w.children ++ [⟨p, cmd, .running⟩]
          forked := w.forked ++ [p] })
      else none
  | .failed => some (-1, w)
  | _ => none

/-- A blocking wait; only `executeCommand` and `fg` ask for stopped children. -/
def waitpid (w : World) (pid : Int) (untraced : Bool) (r : Reply) : Option (Waited × World) :=
  let report (w : World) (how : Waited) : Waited × World :=
    (how, if untraced then { w with waited := some how } else w)
  match r with
  | .failed => some (report w .failed)
  | .ended q =>
      if Addresses pid q ∧ w.has q .ended then some (report (w.reap [q]) .ended) else none
  | .stopped q =>
      if untraced = true ∧ Addresses pid q ∧ w.has q .stopped then some (report w .stopped)
      else none
  | _ => none

/-- A descriptor for a file already open. -/
def dup (w : World) (fd : Int) : Reply → Option (Int × World)
  | .done =>
      match fileOf w.fds fd with
      | some file =>
          some (lowestFree w.fds, { w with fds := setFile w.fds (lowestFree w.fds) (some file) })
      | none => some (-1, w)
  | .failed => some (-1, w)
  | _ => none

def dup2 (w : World) (oldFd newFd : Int) : Int × World :=
  match fileOf w.fds oldFd with
  | some file => (newFd, { w with fds := setFile w.fds newFd.toNat (some file) })
  | none => (-1, w)

def close (w : World) (fd : Int) : Int × World :=
  match fileOf w.fds fd with
  | some _ => (0, { w with fds := setFile w.fds fd.toNat none })
  | none => (-1, w)

/-- The lowest free descriptor, for a file newly opened. -/
def openFile (w : World) : Reply → Option (Int × World)
  | .done => some (lowestFree w.fds, { w with
      fds := setFile w.fds (lowestFree w.fds) (some w.files)
      files := w.files + 1 })
  | .failed => some (-1, w)
  | _ => none

def pipe (w : World) : Reply → Option (Option (Int × Int) × World)
  | .done =>
      let fds := setFile w.fds (lowestFree w.fds) (some w.files)
      some (some (lowestFree w.fds, lowestFree fds), { w with
        fds := setFile fds (lowestFree fds) (some (w.files + 1))
        files := w.files + 2 })
  | .failed => some (none, w)
  | _ => none

def chdir (w : World) : Reply → Option (Int × World)
  | .directory cwd => some (0, { w with cwd := cwd })
  | .failed => some (-1, w)
  | _ => none

end World

/-- 0, or -1 when the call fails. -/
def succeeds : Reply → Option Int
  | .done => some 0
  | .failed => some (-1)
  | _ => none

/-- What a call does, given the reply; `none` where the reply does not fit. -/
def perform : (op : Op) → World → Reply → Option (Resp op × World)
  | .get, w, _ => some (w.shell, w)
  | .getCommand, w, _ => some (w.shell.currentCmd, w)
  | .newCommand kind cmdLine, w, r => some (w.newCommand kind cmdLine r)
  | .deleteCommand cmd, w, _ => some ((), w.discard [cmd])
  | .setForeground cmd fg, w, _ =>
      some ((), w.onCommand cmd fun obj => { obj with foreground := fg })
  | .setCommand cmd, w, _ =>
      some ((), { w.setVars fun v => { v with currentCmd := some cmd } with waited := none })
  | .setPid cmd pid, w, _ => some ((), w.onCommand cmd fun obj => { obj with pid := pid })
  | .setPrompt prompt, w, _ => some ((), w.setVars fun v => { v with prompt := prompt })
  | .setPrevPwd pwd, w, _ => some ((), w.setVars fun v => { v with prevPwd := pwd })
  | .setRun run, w, _ => some ((), w.setVars fun v => { v with run := run })
  | .strayAmpersand, w, r => if r = .stray true then some (true, w) else some (false, w)
  | .error _, w, _ => some ((), w)
  | .freedText, w, r =>
      match r with
      | .freed text => some (text, w)
      | _ => none
  | .crash, _, _ => none
  | .removeFinishedJobs, w, r =>
      match r with
      | .finished reaped => (w.removeFinishedJobs reaped).map fun w => ((), w)
      | _ => none
  | .addJob cmd pid b, w, _ => some ((), w.onJobs fun j => j.addJob cmd pid b)
  | .addJobWithId cmd pid jobId b, w, _ =>
      some ((), w.onJobs fun j => j.addJobWithId cmd pid jobId b)
  | .removeJobById jobId, w, _ => some ((), w.onJobs fun j => j.removeJobById jobId)
  | .setIsStopped jobId b, w, _ => some ((), w.onJobs fun j => j.setIsStopped jobId b)
  | .clearJobs, w, _ => some ((), w.onJobs fun j => { j with jobsList := [] })
  | .addToTimesList cmd pid duration, w, _ => some ((), w.setVars fun v =>
      { v with times := TimesList.addToTimesList v.times cmd pid duration w.now })
  | .fork cmd, w, r => w.fork cmd r
  | .waitpid pid untraced, w, r => w.waitpid pid untraced r
  | .kill _ _, w, r => (succeeds r).map fun n => (n, w)
  -- the argument of `alarm` is unsigned
  | .alarm seconds, w, _ =>
      some ((), { w with pending := TimesList.alarm w.now (seconds % 2 ^ 32) })
  | .dup fd, w, r => w.dup fd r
  | .dup2 oldFd newFd, w, _ => some (w.dup2 oldFd newFd)
  | .close fd, w, _ => some (w.close fd)
  | .openFile _, w, r => w.openFile r
  | .pipe, w, r => w.pipe r
  | .copyOut _, w, r =>
      match r with
      | .copied how => some (how, w)
      | _ => none
  -- where it fails, a string is made from a null pointer, and the shell is gone
  | .getcwd, w, _ => some (w.cwd, w)
  | .chdir _, w, r => w.chdir r

/-! ## Commands -/

abbrev Code := Prog Op Resp

@[reducible] def call (op : Op) : Code (Resp op) := .perform op

def sigkill : Int := 9
def sigcont : Int := 18
def sigstop : Int := 19

/-- `cerr`, or `perror`. -/
def error (msg : String) : Code Unit := call (.error msg.toList)

def promptOf (args : List Text) : Text :=
  match args[1]? with
  | some arg => arg ++ "> ".toList
  | none => "smash> ".toList

/-- `SmallShell::CreateCommand`. The constructor of `chprompt` sets the
prompt. -/
def createCommand (cmdLine : Text) : Code Nat := do
  let cmd ← call (.newCommand (kindOf cmdLine) cmdLine)
  .when (kindOf cmdLine = .chprompt) (call (.setPrompt (promptOf (parseCommandLine cmdLine))))
  return cmd

/-- `cd` with one argument. -/
def changeDir (prevPwd arg : Text) : Code Unit := do
  let currentDir ← call .getcwd
  .when (currentDir = []) (error "smash error: getcwd failed")
  if removeBackgroundSign arg = "-".toList then
    call (.setPrevPwd currentDir)
    if (← call (.chdir prevPwd)) = -1 then error "smash error: chdir failed"
  else
    if (← call (.chdir (removeBackgroundSign arg))) ≠ 0 then error "smash error: chdir failed"
    else call (.setPrevPwd currentDir)

def cdCommand (args : List Text) : Code Unit := do
  if args.length = 1 then return
  let shell ← call .get
  if shell.prevPwd = [] ∧ args.getD 1 [] = "-".toList then
    error "smash error: cd: OLDPWD not set"
  else
    .when (args.length > 2) (error "smash error: cd: too many arguments")
    .when (args.length = 2) (changeDir shell.prevPwd (args.getD 1 []))

/-- The loop of `cat` over its arguments. -/
def catFiles : List Text → Code Unit
  | [] => pure ()
  | arg :: args => do
      if arg ∈ [">".toList, ">>".toList, "|".toList, "|&".toList] then return
      let fdCat ← call (.openFile (trim arg))
      if fdCat = -1 then error "smash error: open failed"
      else
        match ← call (.copyOut fdCat) with
        | .readFailed => error "smash error: read failed"
        | .writeFailed => error "smash error: write failed"
        | .copied =>
            if (← call (.close fdCat)) = -1 then error "smash error: close failed"
            else catFiles args

def jobsCommand : Code Unit := call .removeFinishedJobs

/-- `atoi(signal_c)`, for the word after `-`. `signal_c` points into a string
that is gone: one of fewer than 16 characters is still there, the memory of a
longer one was freed. -/
def readSignal (word : Text) : Code Int :=
  if word.length < 16 then return atoi word
  else do return atoi (← call .freedText)

/-- The word is read twice, before the lookup and after it. -/
def killCommand (args : List Text) : Code Unit := do
  if args.length ≠ 3 then error "smash error: kill: invalid arguments"
  else if (args.getD 1 []).head? ≠ some '-' then error "smash error: kill: invalid arguments"
  else if (← readSignal (args.getD 1 []).tail) = 0 ∨ atoi (args.getD 2 []) = 0 then
    error "smash error: kill: invalid arguments"
  else
    let shell ← call .get
    match shell.jobs.getJobById (atoi (args.getD 2 [])) with
    | none =>
        call (.error ("smash error: kill: job-id ".toList ++ args.getD 2 [] ++
          " does not exist".toList))
    | some currJob =>
        let signum ← readSignal (args.getD 1 []).tail
        if (← call (.kill currJob.pid signum)) = -1 then error "smash error: kill failed"
        else if signum = sigcont then call (.setIsStopped currJob.jobId false)
        else if signum = sigstop then call (.setIsStopped currJob.jobId true)

/-- `fg` from `int status` on. -/
def awaitJob (curJob : JobEntry) : Code Unit := do
  match ← call (.waitpid curJob.pid true) with
  | .failed => error "smash error: waitpid failed"
  | .ended => return
  | .stopped =>
      call .removeFinishedJobs
      match ← call .getCommand with
      | some cmd => call (.addJobWithId cmd curJob.pid curJob.jobId true)
      | none => call .crash

/-- `fg` from the lookup on. The entry's own flag is cleared once the entry is
out of the list. -/
def bringForward (curJob : JobEntry) : Code Unit := do
  call (.removeJobById curJob.jobId)
  call (.setForeground curJob.cmd true)
  call (.setCommand curJob.cmd)
  if curJob.isStopped then
    if (← call (.kill curJob.pid sigcont)) = -1 then error "smash error: kill failed"
    else awaitJob curJob
  else awaitJob curJob

def foregroundCommand (args : List Text) : Code Unit := do
  let shell ← call .get
  if args.length = 1 then
    match shell.jobs.getLastJob with
    | none => error "smash error: fg: jobs list is empty"
    | some curJob => bringForward curJob
  else if args.length = 2 then
    if atoi (args.getD 1 []) = 0 then error "smash error: fg: invalid arguments"
    else
      match shell.jobs.getJobById (atoi (args.getD 1 [])) with
      | none =>
          call (.error ("smash error: fg: job-id ".toList ++ args.getD 1 [] ++
            " does not exist".toList))
      | some curJob => bringForward curJob
  else error "smash error: fg: invalid arguments"

/-- `bg` from the lookup on. -/
def resume (curJob : JobEntry) : Code Unit := do
  if (← call (.kill curJob.pid sigcont)) = -1 then error "smash error: kill failed"
  else call (.setIsStopped curJob.jobId false)

def backgroundCommand (args : List Text) : Code Unit := do
  let shell ← call .get
  if args.length = 1 then
    match shell.jobs.getLastStoppedJob with
    | none => error "smash error: bg: there is no stopped jobs to resume"
    | some curJob => resume curJob
  else if args.length = 2 then
    if atoi (args.getD 1 []) = 0 then error "smash error: bg: invalid arguments"
    else
      match shell.jobs.getJobById (atoi (args.getD 1 [])) with
      | none =>
          call (.error ("smash error: bg: job-id ".toList ++ args.getD 1 [] ++
            " does not exist".toList))
      | some curJob =>
          if curJob.isStopped = false then
            call (.error ("smash error: bg: job-id ".toList ++ args.getD 1 [] ++
              " is already running in the background".toList))
          else resume curJob
  else error "smash error: bg: invalid arguments"

/-- The loop of `killAllJobs`; whether it reached the end. -/
def killEach : List JobEntry → Code Bool
  | [] => pure true
  | e :: rest => do
      if (← call (.kill e.pid sigkill)) = -1 then
        error "smash error: kill failed"
        return false
      else
        call (.deleteCommand e.cmd)
        killEach rest

def killAllJobs : Code Unit := do
  let shell ← call .get
  if ← killEach shell.jobs.jobsList then call .clearJobs

/-- The loop of `clearJobsList`. -/
def deleteEach : List JobEntry → Code Unit
  | [] => pure ()
  | e :: rest => do
      call (.deleteCommand e.cmd)
      deleteEach rest

def clearJobsList : Code Unit := do
  let shell ← call .get
  deleteEach shell.jobs.jobsList
  call .clearJobs

def endJobs (args : List Text) : Code Unit :=
  if args.length = 2 ∧ args.getD 1 [] = "kill".toList then killAllJobs else clearJobsList

def quitCommand (args : List Text) : Code Unit := do
  endJobs args
  call (.setRun false)

/-- `cmd->execute()` of a built-in command. -/
def execute (kind : Kind) (args : List Text) : Code Unit :=
  match kind with
  | .chprompt => pure ()
  | .showpid => pure ()
  | .pwd => do if (← call .getcwd) = [] then error "smash error: getcwd failed"
  | .cd => cdCommand args
  | .fg => foregroundCommand args
  | .bg => backgroundCommand args
  | .jobs => jobsCommand
  | .kill => killCommand args
  | .cat => catFiles args.tail
  | .quit => quitCommand args
  | .timeout => pure ()
  | .external => pure ()

/-! ## SmallShell::executeCommand -/

/-- The parent's part of `executePipeCommand`. -/
def executePipeCommand (cmdLine type : Text) : Code Unit := do
  match ← call .pipe with
  | none => error "smash error: pipe failed"
  | some (fd0, fd1) =>
      let _ ← createCommand (before type cmdLine)
      let _ ← createCommand (after type cmdLine)
      let res ← call (.fork none)
      .when (res = -1) (error "smash error: open failed")
      let res2 ← call (.fork none)
      .when (res2 = -1) (error "smash error: open failed")
      if (← call (.close fd0)) = -1 then error "smash error: close failed"
      else if (← call (.close fd1)) = -1 then error "smash error: close failed"
      else if (← call (.waitpid res false)) = .failed then error "smash error: waitpid failed"
      else if (← call (.waitpid res2 false)) = .failed then error "smash error: waitpid failed"

/-- The saved descriptor, or -1. -/
def prepareRedirectionCommand (cmdLine type : Text) : Code Int := do
  let fdStdout ← call (.dup 1)
  if fdStdout = -1 then
    error "smash error: dup failed"
    return -1
  if (← call (.close 1)) = -1 then
    error "smash error: close failed"
    let _ ← call (.close fdStdout)
    return -1
  let fd ← call (.openFile (trim (after type cmdLine)))
  if fd = -1 then
    error "smash error: open failed"
    let _ ← call (.dup2 fdStdout 1)
    return -1
  return fdStdout

/-- The lines for a `timeout`, after the pid is set. -/
def startTimeout (cmd : Nat) (pid : Int) (cmdLine : Text) : Code Unit := do
  let args := parseCommandLine cmdLine
  .when (args.length < 2) (call .crash) -- `atoi` of a null pointer
  let duration := atoi (args.getD 1 [])
  let shell ← call .get
  .when (TimesList.rearms shell.times duration) (call (.alarm duration))
  call (.addToTimesList cmd pid duration)

/-- The part of `executeCommand` for an external or a timeout command; false
where it returns without undoing a redirection. -/
def launch (isBackground : Bool) (kind : Kind) (cmd : Nat) (cmdLine : Text) : Code Bool := do
  .when isBackground (call (.setForeground cmd false))
  call (.setCommand cmd)
  let pid ← call (.fork (some cmd))
  .when (pid = -1) (error "smash error: fork failed")
  call (.setPid cmd pid)
  .when (kind = .timeout) (startTimeout cmd pid cmdLine)
  if isBackground then
    call .removeFinishedJobs
    call (.addJob cmd pid false)
    return true
  match ← call (.waitpid pid true) with
  | .failed =>
      error "smash error: waitpid failed"
      return false
  | .ended => return true
  | .stopped =>
      call .removeFinishedJobs
      call (.addJob cmd pid true)
      return false

/-- The command itself; false where `executeCommand` returns at once. -/
def runKind (isBackground : Bool) (kind : Kind) (cmd : Nat) (cmdLine : Text) : Code Bool := do
  if kind = .external ∨ kind = .timeout then launch isBackground kind cmd cmdLine
  else
    execute kind (parseCommandLine cmdLine)
    return true

/-- The last lines of `executeCommand`, for the saved descriptor. -/
def undoRedirection (fdStdout : Int) : Code Unit := do
  if (← call (.dup2 fdStdout 1)) = -1 then error "smash error: dup2 failed"
  else if (← call (.close fdStdout)) = -1 then error "smash error: close failed"

/-- From `CreateCommand` on; `fdStdout` is the saved descriptor of a
redirection. -/
def runCommand (isBackground : Bool) (cmdLine : Text) (fdStdout : Option Int) : Code Unit := do
  let cmd ← createCommand cmdLine
  let goesOn ← runKind isBackground (kindOf cmdLine) cmd cmdLine
  match goesOn, fdStdout with
  | true, some fd => undoRedirection fd
  | _, _ => return

def executeCommand (cmdLine : Text) : Code Unit := do
  let isBackground := isBackgroundCommand (← call .strayAmpersand) cmdLine
  match isPipeCommand cmdLine with
  | some type => executePipeCommand cmdLine type
  | none =>
      match isRedirectionCommand cmdLine with
      | none => runCommand isBackground cmdLine none
      | some type =>
          let fdStdout ← prepareRedirectionCommand cmdLine type
          .when (fdStdout ≠ -1)
            (runCommand isBackground (before type cmdLine) (some fdStdout))

/-- One turn of the main loop, from the line read. -/
def iteration (cmdLine : Text) : Code Unit := do
  call .removeFinishedJobs
  executeCommand cmdLine
  match ← call .getCommand with
  | some cmd => call (.setForeground cmd false)
  | none => return

/-! ## signals.cpp -/

/-- The pid the handler of Ctrl-C or Ctrl-Z passes to `kill`, if it calls it. -/
def World.signalled (w : World) : Option Int := do
  let cmd ← w.shell.currentCmd
  let obj ← w.shell.commands[cmd]?
  if obj.foreground then some obj.pid else none

/-- `killOk`: the `kill` succeeds. -/
def ctrlZHandler (w : World) (killOk : Bool) : World :=
  match w.shell.currentCmd with
  | none => w
  | some cmd =>
      if w.signalled ≠ none ∧ killOk then
        w.onCommand cmd fun obj => { obj with foreground := false }
      else w

/-- It changes no variable of the shell. -/
def ctrlCHandler (w : World) : World := w

/-- `killFinishedAlarms` has something to do. -/
def World.due (w : World) : Prop := ∃ front ∈ w.shell.times.head?, front.finishTime ≤ w.now

instance (w : World) : Decidable w.due := by
  unfold World.due
  infer_instance

/-- `reaped` is for `RemoveFinishedJobs`, `exist` for `kill(pid, 0)`. -/
def alarmHandler (w : World) (reaped : List (Int × Int)) (exist killOk : Bool) : Option World :=
  if w.due then
    (w.removeFinishedJobs reaped).map fun w =>
      let alive := fun pid => (w.shell.jobs.getJobByPid pid).isSome || exist
      let fired := TimesList.killFinishedAlarms alive killOk w.now w.shell.times
      { w.setVars fun v => { v with times := fired.times } with
        pending := fired.rearm.bind fun seconds => TimesList.alarm w.now (seconds % 2 ^ 32) }
  else some { w with pending := none }

/-! ## The loop -/

inductive Interrupt where
  /-- A child is stopped, continued or ends. -/
  | child (pid : Int) (status : Status)
  | tick (seconds : Nat)
  | ctrlC
  | ctrlZ (killOk : Bool)
  | alarm (reaped : List (Int × Int)) (exist killOk : Bool)
  deriving DecidableEq

def World.changeChild (w : World) (pid : Int) (status : Status) : Option World :=
  if w.has pid .running ∨ w.has pid .stopped then
    some { w with children := w.children.map fun ch =>
      if ch.pid = pid then { ch with status := status } else ch }
  else none

/-- The shell waits for input or for a child. -/
def waiting : Option Op → Bool
  | none => true
  | some (.waitpid ..) => true
  | some _ => false

/-- After `quit` the process is gone. An alarm that is due is taken at the next
wait. -/
def interrupt (op : Option Op) (w : World) (e : Interrupt) : Option World :=
  if op = none ∧ w.shell.run = false then none
  else
    match e with
    | .child pid status => w.changeChild pid status
    | .tick seconds => some { w with now := w.now + seconds }
    | .ctrlC => some (ctrlCHandler w)
    | .ctrlZ killOk => some (ctrlZHandler w killOk)
    | .alarm reaped exist killOk =>
        if waiting op ∧ ∃ t ∈ w.pending, t ≤ w.now then alarmHandler w reaped exist killOk else none

/-- The main loop of `smash.cpp`. -/
def smash : Loop Op Resp World Text Reply Interrupt where
  body := iteration
  running w := w.shell.run
  perform := perform
  interrupt := interrupt

abbrev Config := Loop.Config Op Resp World

abbrev Event := Loop.Event Text Reply Interrupt

/-- The state a run ends in. -/
def stateAfter (w : World) (es : List Event) : World :=
  ((Loop.view (smash.run w es)).map Prod.snd).getD w

end OsAllHw.Shell
