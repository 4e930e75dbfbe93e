import Mathlib
import OsAllHw.Shell.Model

/-!
# Pipelines

`executePipeCommand` with its two children: three processes, each with a
descriptor table of its own. The shell runs the program of `Model`; behind each
of its two `fork`s a child begins with a copy of the table, runs the statements
up to `execute`, and then a command. The children act between any two calls of
the shell.

A command is followed only where it meets the pipe: the first writes bytes to
descriptors of its choice, the second reads descriptor 0 until it has enough or
is told that the file ends. A process that ends loses its descriptors. Signals
to the shell are left out: its handlers change neither table nor pipe.
-/

namespace OsAllHw.Shell.Pipeline

open Lib

/-- The children, in the order of their forks. -/
inductive Side where
  | first | second
  deriving DecidableEq

/-- A statement of a child. -/
inductive Stmt where
  | dup2 (oldFd newFd : Int)
  | close (fd : Int)
  | setpgrp
  deriving DecidableEq

/-- The first child, up to `execute`. -/
def firstChild (type : Text) (fd : Int × Int) : List Stmt :=
  [if type = "|&".toList then .dup2 fd.2 2 else .dup2 fd.2 1, .close fd.1, .close fd.2, .setpgrp]

/-- The second child, up to `execute`. -/
def secondChild (fd : Int × Int) : List Stmt :=
  [.dup2 fd.1 0, .close fd.1, .close fd.2, .setpgrp]

inductive Phase where
  /-- With the statements left before `execute`; then in it. -/
  | running (todo : List Stmt)
  /-- A statement failed, and `DO_SYS` returned to the main loop. -/
  | returned
  | exited
  | killed
  deriving DecidableEq

structure Process where
  pid : Int
  fds : List (Option Nat)
  phase : Phase
  deriving DecidableEq

/-- What the two commands do. -/
structure Commands where
  /-- The first one's writes: a descriptor and a byte. -/
  output : List (Int × UInt8)
  /-- Whether the second one stops, from what it has read. -/
  enough : List UInt8 → Bool

structure System where
  /-- The shell's own. -/
  world : World
  fd : Int × Int
  /-- The open file of `fd[0]`; that of `fd[1]` is the next one. -/
  file : Nat
  /-- The calls of `fork`. -/
  forks : Nat
  child : Side → Option Process
  /-- What is in the pipe. -/
  buffer : List UInt8
  unwritten : List (Int × UInt8)
  got : List UInt8

def System.start (w : World) (cmds : Commands) : System where
  world := w
  fd := (0, 0)
  file := 0
  forks := 0
  child _ := none
  buffer := []
  unwritten := cmds.output
  got := []

/-! ## The shell's calls -/

def System.put (s : System) (side : Side) (p : Process) : System :=
  { s with child := Function.update s.child side (some p) }

/-- A `fork`, from what it returned to the shell. -/
def System.fork (type : Text) (s : System) (pid : Int) : System :=
  let forked := { s with forks := s.forks + 1 }
  if pid = -1 then forked
  else
    match s.forks with
    | 0 => forked.put .first ⟨pid, s.world.fds, .running (firstChild type s.fd)⟩
    | 1 => forked.put .second ⟨pid, s.world.fds, .running (secondChild s.fd)⟩
    | _ => forked

/-- What a call of the shell means for the others; `files` were open before it. -/
def System.after (type : Text) (files : Nat) (s : System) : (op : Op) → Resp op → System
  | .pipe, some fd => { s with fd := fd, file := files }
  | .fork _, pid => s.fork type pid
  | _, _ => s

def System.perform (type : Text) (op : Op) (s : System) (r : Reply) :
    Option (Resp op × System) :=
  (Shell.perform op s.world r).map fun (a, w) =>
    (a, { s with world := w }.after type s.world.files op a)

/-! ## The children -/

/-- A statement of `p`, with those behind it. -/
def Process.perform (p : Process) (todo : List Stmt) : Stmt → Process
  | .dup2 oldFd newFd =>
      match fileOf p.fds oldFd with
      | some file => { p with fds := setFile p.fds newFd.toNat (some file), phase := .running todo }
      | none => { p with phase := .returned }
  | .close fd =>
      match fileOf p.fds fd with
      | some _ => { p with fds := setFile p.fds fd.toNat none, phase := .running todo }
      | none => { p with phase := .returned }
  | .setpgrp => { p with phase := .running todo }

/-- The process is there no more. -/
def Process.Gone (p : Process) : Prop := p.phase = .exited ∨ p.phase = .killed

instance (p : Process) : Decidable p.Gone := inferInstanceAs (Decidable (_ ∨ _))

/-- A process has the file open. -/
def System.Held (s : System) (file : Nat) : Prop :=
  some file ∈ s.world.fds ∨ (∃ p ∈ s.child .first, some file ∈ p.fds) ∨
    ∃ p ∈ s.child .second, some file ∈ p.fds

instance (s : System) (file : Nat) : Decidable (s.Held file) :=
  inferInstanceAs (Decidable (_ ∨ _ ∨ _))

/-- `p` ends. -/
def System.finish (s : System) (side : Side) (p : Process) (how : Phase) : Option System :=
  (s.world.changeChild p.pid .ended).map fun w =>
    { s with world := w }.put side { p with fds := [], phase := how }

/-- The next byte of the first command: into the pipe where it has room, and
`SIGPIPE` where nobody reads it. -/
def System.write (capacity : Nat) (s : System) (p : Process) : Option System :=
  match s.unwritten with
  | [] => s.finish .first p .exited
  | (fd, byte) :: unwritten =>
      if fileOf p.fds fd = some (s.file + 1) then
        if ¬s.Held s.file then s.finish .first p .killed
        else if s.buffer.length < capacity then
          some { s with buffer := s.buffer ++ [byte], unwritten := unwritten }
        else none
      else some { s with unwritten := unwritten }

/-- The next byte for the second command; the end of file where nobody writes. -/
def System.read (enough : List UInt8 → Bool) (s : System) (p : Process) : Option System :=
  if enough s.got then s.finish .second p .exited
  else if fileOf p.fds 0 = some s.file then
    match s.buffer with
    | byte :: buffer => some { s with buffer := buffer, got := s.got ++ [byte] }
    | [] => if s.Held (s.file + 1) then none else s.finish .second p .exited
  else none

inductive Move where
  /-- A child goes on. -/
  | go (side : Side)
  /-- It is killed from outside. -/
  | kill (side : Side)
  deriving DecidableEq

def System.go (cmds : Commands) (capacity : Nat) (s : System) (side : Side) (p : Process) :
    Option System :=
  match p.phase with
  | .running (stmt :: todo) => some (s.put side (p.perform todo stmt))
  | .running [] =>
      match side with
      | .first => s.write capacity p
      | .second => s.read cmds.enough p
  | _ => none

/-- `none` where the child cannot: it waits for another, or is not there. -/
def System.move (cmds : Commands) (capacity : Nat) (s : System) : Move → Option System
  | .go side => (s.child side).bind (s.go cmds capacity side)
  | .kill side =>
      (s.child side).bind fun p => if p.Gone then none else s.finish side p .killed

/-- The three processes. There is no further input. -/
def pipeline (type : Text) (cmds : Commands) (capacity : Nat) :
    Loop Op Resp System Empty Reply Move where
  body := nofun
  running _ := false
  perform := System.perform type
  interrupt _ := System.move cmds capacity

abbrev Event := Loop.Event Empty Reply Move

/-- `executePipeCommand`, called in `w`. -/
def start (w : World) (cmdLine type : Text) (cmds : Commands) : Loop.Config Op Resp System :=
  ⟨.start w cmds, executePipeCommand cmdLine type⟩

/-- No call of the shell fails. -/
def Works (es : List Event) : Prop := ∀ e ∈ es, e ≠ .statement .failed

/-- No child is killed from outside. -/
def Spared (es : List Event) : Prop := ∀ e ∈ es, ∀ side, e ≠ .interrupt (.kill side)

/-- Standard input, output and error are open, and the open files numbered. -/
structure Ready (w : World) : Prop where
  standard : ∀ fd < 3, fileOf w.fds (fd : Nat) ≠ none
  numbered : ∀ fd file, fileOf w.fds fd = some file → file < w.files

/-- The descriptor of the first command that becomes the pipe. -/
def outFd (type : Text) : Int := if type = "|&".toList then 2 else 1

/-- The bytes written there. -/
def piped (type : Text) (output : List (Int × UInt8)) : List UInt8 :=
  (output.filter fun x => x.1 = outFd type).map Prod.snd

end OsAllHw.Shell.Pipeline
