import OsAllHw.Lib.Bounded
import OsAllHw.Shell.Descriptors
import OsAllHw.Shell.Pipeline

/-!
# What the processes of a pipeline hold

The tables of the shell and of its two children at each of their statements,
and what has gone through the pipe, as one invariant (`Setting.At`): no move of
a child breaks it, and each call of the shell leads from one instance of it to
the next. The ends of the pipe are held by whom they are meant for and, once
the shell waits, by nobody else.
-/

namespace OsAllHw.Shell.Pipeline

open Lib

/-- The standard descriptor a child gives to the pipe. -/
def Side.stdio (type : Text) : Side → Int
  | .first => outFd type
  | .second => 0

/-- The end it is given, where `file` is the one for reading. -/
def Side.end (file : Nat) : Side → Nat
  | .first => file + 1
  | .second => file

/-- The two commands of a line, from a world the shell calls `pipe` in. -/
structure Setting where
  w : World
  ready : Ready w
  type : Text
  cmds : Commands
  /-- Whether children may be killed from outside. -/
  Hurt : Prop

namespace Setting

variable (x : Setting)

/-- `fd[0]`. -/
def n : Nat := lowestFree x.w.fds

/-- `fd[1]`. -/
def m : Nat := lowestFree (setFile x.w.fds x.n (some x.w.files))

/-- The shell's table after `k` calls of `close`. -/
def shell : Nat → Int → Option Nat
  | 0, fd => if fd = x.m then some (x.w.files + 1) else if fd = x.n then some x.w.files
      else fileOf x.w.fds fd
  | 1, fd => if fd = x.m then some (x.w.files + 1) else fileOf x.w.fds fd
  | _ + 2, fd => fileOf x.w.fds fd

/-- A child's after `k` of its statements. -/
def child (side : Side) (k : Nat) (fd : Int) : Option Nat :=
  if 0 < k ∧ fd = side.stdio x.type then some (side.end x.w.files) else x.shell (k - 1) fd

/-- The descriptor a child takes its end from. -/
def source : Side → Nat
  | .first => x.m
  | .second => x.n

def program : Side → List Stmt
  | .first => firstChild x.type (x.n, x.m)
  | .second => secondChild (x.n, x.m)

theorem program_eq (side : Side) :
    x.program side = [.dup2 (x.source side) (side.stdio x.type), .close x.n, .close x.m,
      .setpgrp] := by
  cases side with
  | first =>
      show firstChild x.type (x.n, x.m) = [.dup2 x.m (outFd x.type), _, _, _]
      unfold firstChild outFd
      split <;> rfl
  | second => rfl

theorem free_n : fileOf x.w.fds x.n = none := fileOf_lowestFree _

theorem free_m : fileOf x.w.fds x.m = none ∧ x.m ≠ x.n := by
  have hfree := fileOf_lowestFree (setFile x.w.fds x.n (some x.w.files))
  rw [fileOf_setFile] at hfree
  split at hfree
  · cases hfree
  · rename_i hne
    exact ⟨hfree, fun heq => hne (congrArg Nat.cast heq)⟩

theorem stdio_open (side : Side) : fileOf x.w.fds (side.stdio x.type) ≠ none := by
  cases side with
  | first =>
      show fileOf x.w.fds (outFd x.type) ≠ none
      unfold outFd
      by_cases htype : x.type = "|&".toList
      · rw [if_pos htype]
        exact x.ready.standard 2 (by omega)
      · rw [if_neg htype]
        exact x.ready.standard 1 (by omega)
  | second => exact x.ready.standard 0 (by omega)

theorem stdio_ne_n (side : Side) : (x.n : Int) ≠ side.stdio x.type := by
  intro heq
  exact x.stdio_open side (heq ▸ x.free_n)

theorem stdio_ne_m (side : Side) : (x.m : Int) ≠ side.stdio x.type := by
  intro heq
  exact x.stdio_open side (heq ▸ x.free_m.1)

theorem stdio_nat (side : Side) : ((side.stdio x.type).toNat : Int) = side.stdio x.type := by
  cases side with
  | first =>
      show ((outFd x.type).toNat : Int) = outFd x.type
      unfold outFd
      by_cases htype : x.type = "|&".toList
      · rw [if_pos htype]
        rfl
      · rw [if_neg htype]
        rfl
  | second => rfl

theorem shell_source (side : Side) : x.shell 0 (x.source side) = some (side.end x.w.files) := by
  cases side with
  | first => simp [shell, source, Side.end]
  | second =>
      have hne : (x.n : Int) ≠ x.m := by
        have := x.free_m.2
        omega
      simp [shell, source, Side.end, hne]

/-- Closing `fd[0]`, in a table where it is open. -/
theorem shell_close_n (fd : Int) : (if fd = x.n then none else x.shell 0 fd) = x.shell 1 fd := by
  have hne : (x.n : Int) ≠ x.m := by
    have := x.free_m.2
    omega
  by_cases hfd : fd = x.n
  · subst hfd
    simp [shell, hne, x.free_n]
  · simp [shell, hfd]

theorem shell_close_m (fd : Int) : (if fd = x.m then none else x.shell 1 fd) = x.shell 2 fd := by
  by_cases hfd : fd = x.m
  · subst hfd
    simp [shell, x.free_m.1]
  · simp [shell, hfd]

theorem shell_open_n : x.shell 0 x.n ≠ none := by
  rw [show (x.n : Int) = x.source .second from rfl, shell_source]
  simp

theorem shell_open_m : x.shell 1 x.m ≠ none := by
  simp [shell]

/-! ## A child's statements -/

/-- **One statement of a child** leads to the table behind it. -/
theorem perform_fits {side : Side} {p : Process} {k : Nat} {stmt : Stmt} {todo : List Stmt}
    (htodo : (x.program side).drop k = stmt :: todo)
    (htable : ∀ fd, fileOf p.fds fd = x.child side k fd) :
    ∃ fds, p.perform todo stmt = ⟨p.pid, fds, .running ((x.program side).drop (k + 1))⟩ ∧
      k + 1 ≤ 4 ∧ ∀ fd, fileOf fds fd = x.child side (k + 1) fd := by
  have hnext : (x.program side).drop (k + 1) = todo := by
    rw [← List.drop_drop, htodo]
    rfl
  rw [hnext]
  rw [program_eq] at htodo
  match k with
  | 0 =>
      obtain ⟨rfl, -⟩ := List.cons.inj htodo
      have hsource : fileOf p.fds (x.source side) = some (side.end x.w.files) := by
        rw [htable]
        exact x.shell_source side
      refine ⟨setFile p.fds (side.stdio x.type).toNat (some (side.end x.w.files)),
        by simp only [Process.perform, hsource], by omega, fun fd => ?_⟩
      rw [fileOf_setFile, x.stdio_nat, htable]
      simp [child]
  | 1 =>
      obtain ⟨rfl, -⟩ := List.cons.inj htodo
      have hopen : fileOf p.fds x.n ≠ none := by
        rw [htable, child, if_neg (fun h => x.stdio_ne_n side h.2)]
        exact x.shell_open_n
      obtain ⟨file, hfile⟩ := Option.ne_none_iff_exists'.mp hopen
      refine ⟨setFile p.fds (x.n : Int).toNat none, by simp only [Process.perform, hfile],
        by omega, fun fd => ?_⟩
      rw [fileOf_setFile, Int.toNat_natCast, htable, child, child, ← x.shell_close_n]
      have hne := x.stdio_ne_n side
      by_cases hfd : fd = x.n
      · subst hfd
        simp [hne]
      · simp [hfd]
  | 2 =>
      obtain ⟨rfl, -⟩ := List.cons.inj htodo
      have hopen : fileOf p.fds x.m ≠ none := by
        rw [htable, child, if_neg (fun h => x.stdio_ne_m side h.2)]
        exact x.shell_open_m
      obtain ⟨file, hfile⟩ := Option.ne_none_iff_exists'.mp hopen
      refine ⟨setFile p.fds (x.m : Int).toNat none, by simp only [Process.perform, hfile],
        by omega, fun fd => ?_⟩
      rw [fileOf_setFile, Int.toNat_natCast, htable, child, child, ← x.shell_close_m]
      have hne := x.stdio_ne_m side
      by_cases hfd : fd = x.m
      · subst hfd
        simp [hne]
      · simp [hfd]
  | 3 =>
      obtain ⟨rfl, -⟩ := List.cons.inj htodo
      refine ⟨p.fds, rfl, by omega, fun fd => ?_⟩
      rw [htable]
      simp [child, shell]
  | k + 4 => simp at htodo

/-! ## Who holds which end -/

theorem below {fd : Int} {side : Side} : fileOf x.w.fds fd ≠ some (side.end x.w.files) := by
  intro hfile
  have hlt := x.ready.numbered fd _ hfile
  cases side with
  | first => exact absurd hlt (by simp [Side.end])
  | second => exact absurd hlt (by simp [Side.end])

/-- In `execute` a child has its own end, on its descriptor, and no other. -/
theorem child_last (side side' : Side) {fd : Int} :
    x.child side 4 fd = some (side'.end x.w.files) ↔ fd = side.stdio x.type ∧ side = side' := by
  unfold child
  constructor
  · intro hfile
    split at hfile
    · rename_i hfd
      refine ⟨hfd.2, ?_⟩
      have hends := Option.some.inj hfile
      cases side with
      | first =>
          cases side' with
          | first => rfl
          | second => exact absurd hends (by simp [Side.end])
      | second =>
          cases side' with
          | first => exact absurd hends (by simp [Side.end])
          | second => rfl
    · exact absurd hfile x.below
  · rintro ⟨rfl, rfl⟩
    simp

/-- A child has its own end all along. -/
theorem child_holds (side : Side) (k : Nat) :
    ∃ fd, x.child side k fd = some (side.end x.w.files) := by
  cases k with
  | zero => exact ⟨x.source side, x.shell_source side⟩
  | succ k => exact ⟨side.stdio x.type, by simp [child]⟩

end Setting

theorem mem_fds_iff {fds : List (Option Nat)} {file : Nat} :
    some file ∈ fds ↔ ∃ fd, fileOf fds fd = some file := by
  constructor
  · intro hmem
    obtain ⟨i, hi, hget⟩ := List.getElem_of_mem hmem
    exact ⟨i, by rw [fileOf_nat, List.getElem?_eq_getElem hi, hget]; rfl⟩
  · rintro ⟨fd, hfile⟩
    unfold fileOf at hfile
    split at hfile
    · exact List.mem_of_getElem? (Option.join_eq_some_iff.mp hfile)
    · cases hfile

/-! ## The invariant -/

/-- A process as its statements leave it. -/
inductive Setting.Fits (x : Setting) (side : Side) : Process → Prop where
  | running (pid fds k) (hk : k ≤ 4) (htable : ∀ fd, fileOf fds fd = x.child side k fd) :
      x.Fits side ⟨pid, fds, .running ((x.program side).drop k)⟩
  | exited (pid) : x.Fits side ⟨pid, [], .exited⟩
  | killed (pid) : x.Fits side ⟨pid, [], .killed⟩

/-- What a wait of the shell would find of `p`. -/
structure Tracked (w : World) (p : Process) : Prop where
  pos : 0 < p.pid
  listed : ∃ ch ∈ w.children, ch.pid = p.pid
  status : ∀ ch ∈ w.children, ch.pid = p.pid → ch.status = if p.Gone then .ended else .running

theorem changeChild_eq {w w' : World} {pid : Int} {status : Status}
    (h : w.changeChild pid status = some w') :
    w'.children = w.children.map (fun ch =>
      if ch.pid = pid then { ch with status := status } else ch) ∧ w'.fds = w.fds := by
  unfold World.changeChild at h
  split at h
  · cases h
    exact ⟨rfl, rfl⟩
  · cases h

theorem Tracked.ended {w w' : World} {p p' : Process} (h : Tracked w p)
    (hw : w.changeChild p.pid .ended = some w') (hpid : p'.pid = p.pid) (hgone : p'.Gone) :
    Tracked w' p' := by
  obtain ⟨hchildren, -⟩ := changeChild_eq hw
  refine ⟨hpid ▸ h.pos, ?_, ?_⟩
  · obtain ⟨ch, hch, hchpid⟩ := h.listed
    rw [hchildren]
    exact ⟨_, List.mem_map_of_mem hch, by simp [hchpid, hpid]⟩
  · intro ch hch hchpid
    rw [hchildren] at hch
    obtain ⟨ch₀, -, rfl⟩ := List.mem_map.mp hch
    rw [if_pos hgone]
    split at hchpid
    · rename_i heq
      rw [if_pos heq]
    · rename_i hne
      exact absurd (hchpid.trans hpid) hne

theorem Tracked.other {w w' : World} {p : Process} {pid : Int} {status : Status}
    (h : Tracked w p) (hw : w.changeChild pid status = some w') (hne : p.pid ≠ pid) :
    Tracked w' p := by
  obtain ⟨hchildren, -⟩ := changeChild_eq hw
  refine ⟨h.pos, ?_, ?_⟩
  · obtain ⟨ch, hch, hchpid⟩ := h.listed
    rw [hchildren]
    exact ⟨_, List.mem_map_of_mem hch, by simp [hchpid, hne]⟩
  · intro ch hch hchpid
    rw [hchildren] at hch
    obtain ⟨ch₀, hch₀, rfl⟩ := List.mem_map.mp hch
    split at hchpid
    · rename_i heq
      exact absurd (hchpid.symm.trans heq) hne
    · rename_i heq
      rw [if_neg heq]
      exact h.status ch₀ hch₀ hchpid

/-- How far a child has come, for the shell. -/
inductive Standing where
  | unborn
  | unreaped (pid : Int)
  | reaped

def Standing.pair (a b : Standing) : Side → Standing
  | .first => a
  | .second => b

def Setting.Stands (x : Setting) (s : System) (side : Side) : Standing → Prop
  | .unborn => s.child side = none
  | .unreaped pid => ∃ p ∈ s.child side, x.Fits side p ∧ p.pid = pid ∧ Tracked s.world p
  | .reaped => ∃ p ∈ s.child side, x.Fits side p ∧ p.Gone

/-- Why a child is gone. -/
def Setting.Ends (x : Setting) (s : System) : Side → Phase → Prop
  | .first, .exited => s.unwritten = []
  | .second, .exited => x.cmds.enough s.got = true ∨
      s.buffer = [] ∧ (x.Hurt ∨ s.unwritten = []) ∧ ∃ q ∈ s.child .first, q.Gone
  | .first, .killed => x.Hurt ∨ ∃ q ∈ s.child .second, q.Gone
  | .second, .killed => x.Hurt
  | _, _ => False

/-- What went through the pipe. -/
structure Setting.Flow (x : Setting) (s : System) : Prop where
  bytes : s.got ++ s.buffer ++ piped x.type s.unwritten = piped x.type x.cmds.output
  ended : ∀ side, ∀ p ∈ s.child side, p.Gone → x.Ends s side p.phase

theorem Setting.Ends.mono {x : Setting} {s s' : System} {side : Side} {how : Phase}
    (h : x.Ends s side how) (hunwritten : s'.unwritten = s.unwritten)
    (hbuffer : s'.buffer = s.buffer) (hgot : s'.got = s.got)
    (hgone : ∀ side, (∃ q ∈ s.child side, q.Gone) → ∃ q ∈ s'.child side, q.Gone) :
    x.Ends s' side how := by
  cases side with
  | first =>
      cases how with
      | exited => exact hunwritten.trans h
      | killed => exact h.imp_right (hgone .second)
      | running todo => exact h
      | returned => exact h
  | second =>
      cases how with
      | exited =>
          refine h.imp (fun henough => ?_) fun ⟨hempty, hwritten, hfirst⟩ => ?_
          · rw [hgot]
            exact henough
          · exact ⟨hbuffer.trans hempty, hwritten.imp_right hunwritten.trans, hgone .first hfirst⟩
      | killed => exact h
      | running todo => exact h
      | returned => exact h

/-- The shell has closed `k` of its descriptors; the children stand as `st` says. -/
structure Setting.At (x : Setting) (k : Nat) (st : Side → Standing) (s : System) : Prop where
  fd : s.fd = ((x.n : Int), (x.m : Int))
  file : s.file = x.w.files
  table : ∀ fd, fileOf s.world.fds fd = x.shell k fd
  stands : ∀ side, x.Stands s side (st side)
  apart : ∀ p ∈ s.child .first, ∀ q ∈ s.child .second, p.pid ≠ q.pid
  forks : (st .first = .unborn → s.forks = 0) ∧
    (st .first ≠ .unborn → st .second = .unborn → s.forks = 1)
  /-- It closes nothing before both are there. -/
  born : 0 < k → ∀ side, st side ≠ .unborn
  flow : x.Flow s

namespace Setting.At

variable {x : Setting} {k : Nat} {st : Side → Standing} {s s' : System} {side : Side}
  {p p' : Process}

/-- Where a child that was born stands. -/
theorem of_child (h : x.At k st s) (hp : s.child side = some p) :
    x.Fits side p ∧
      (st side = .unreaped p.pid ∧ Tracked s.world p ∨ st side = .reaped ∧ p.Gone) := by
  have hstands := h.stands side
  cases hst : st side with
  | unborn =>
      rw [hst] at hstands
      rw [hstands] at hp
      cases hp
  | unreaped pid =>
      rw [hst] at hstands
      obtain ⟨p', hp', hfits, rfl, htracked⟩ := hstands
      cases hp.symm.trans hp'
      exact ⟨hfits, .inl ⟨rfl, htracked⟩⟩
  | reaped =>
      rw [hst] at hstands
      obtain ⟨p', hp', hfits, hgone⟩ := hstands
      cases hp.symm.trans hp'
      exact ⟨hfits, .inr ⟨rfl, hgone⟩⟩

/-- **A child changes**, and keeps its pid. -/
theorem update (h : x.At k st s) (hp : s.child side = some p) (halive : ¬p.Gone) {w' : World}
    (hfds : w'.fds = s.world.fds) (hpid : p'.pid = p.pid) (hfits : x.Fits side p')
    (hown : Tracked s.world p → Tracked w' p')
    (hother : ∀ q : Process, q.pid ≠ p.pid → Tracked s.world q → Tracked w' q)
    (hflow : x.Flow ({ s with world := w' }.put side p')) :
    x.At k st ({ s with world := w' }.put side p') := by
  have hself : ({ s with world := w' }.put side p').child side = some p' :=
    Function.update_self ..
  have hrest : ∀ side', side' ≠ side →
      ({ s with world := w' }.put side p').child side' = s.child side' :=
    fun side' hne => Function.update_of_ne hne ..
  refine ⟨h.fd, h.file, fun fd => ?_, fun side' => ?_, ?_, h.forks, h.born, hflow⟩
  · show fileOf w'.fds fd = _
    rw [hfds, h.table]
  · by_cases hside : side' = side
    · subst hside
      obtain ⟨-, ⟨hst, htracked⟩ | ⟨-, hgone⟩⟩ := h.of_child hp
      · rw [hst]
        exact ⟨p', hself, hfits, hpid, hown htracked⟩
      · exact absurd hgone halive
    · have hstands := h.stands side'
      have hne : ∀ q, s.child side' = some q → q.pid ≠ p.pid := by
        intro q hq
        cases side' with
        | first =>
            cases side with
            | first => exact absurd rfl hside
            | second => exact h.apart q hq p hp
        | second =>
            cases side with
            | first => exact (h.apart p hp q hq).symm
            | second => exact absurd rfl hside
      cases hst : st side' with
      | unborn =>
          rw [hst] at hstands
          exact (hrest side' hside).trans hstands
      | unreaped pid =>
          rw [hst] at hstands
          obtain ⟨q, hq, hqfits, hqpid, htracked⟩ := hstands
          exact ⟨q, (hrest side' hside).trans hq, hqfits, hqpid, hother q (hne q hq) htracked⟩
      | reaped =>
          rw [hst] at hstands
          obtain ⟨q, hq, hqfits, hgone⟩ := hstands
          exact ⟨q, (hrest side' hside).trans hq, hqfits, hgone⟩
  · intro q hq r hr
    cases side with
    | first =>
        rw [hself] at hq
        rw [hrest .second (by simp)] at hr
        cases hq
        rw [hpid]
        exact h.apart p hp r hr
    | second =>
        rw [hself] at hr
        rw [hrest .first (by simp)] at hq
        cases hr
        rw [hpid]
        exact h.apart q hq p hp

theorem exists_child (h : x.At k st s) (hk : 0 < k) (side : Side) :
    ∃ p, s.child side = some p := by
  have hstands := h.stands side
  cases hst : st side with
  | unborn => exact absurd hst (h.born hk side)
  | unreaped pid =>
      rw [hst] at hstands
      obtain ⟨p, hp, -⟩ := hstands
      exact ⟨p, hp⟩
  | reaped =>
      rw [hst] at hstands
      obtain ⟨p, hp, -⟩ := hstands
      exact ⟨p, hp⟩

/-- No process changes. -/
theorem congr (h : x.At k st s) (hfds : s'.world.fds = s.world.fds)
    (hchildren : s'.world.children = s.world.children) (hfd : s'.fd = s.fd)
    (hfile : s'.file = s.file) (hforks : s'.forks = s.forks) (hchild : s'.child = s.child)
    (hflow : x.Flow s') : x.At k st s' := by
  refine ⟨hfd.trans h.fd, hfile.trans h.file, fun fd => ?_, fun side => ?_, ?_, ?_, h.born, hflow⟩
  · rw [hfds]
    exact h.table fd
  · have hstands := h.stands side
    cases hst : st side with
    | unborn =>
        rw [hst] at hstands
        exact (congrFun hchild side).trans hstands
    | unreaped pid =>
        rw [hst] at hstands
        obtain ⟨p, hp, hfits, hpid, htracked⟩ := hstands
        refine ⟨p, (congrFun hchild side).trans hp, hfits, hpid, htracked.pos, ?_, ?_⟩
        · rw [hchildren]
          exact htracked.listed
        · rw [hchildren]
          exact htracked.status
    | reaped =>
        rw [hst] at hstands
        simp only [Setting.Stands, hchild]
        exact hstands
  · rw [hchild]
    exact h.apart
  · rw [hforks]
    exact h.forks

/-! ## Moves of the children -/

/-- Who was gone is gone still. -/
theorem gone_put (hp : s.child side = some p) (hgone : p.Gone → p'.Gone) (side' : Side)
    (h : ∃ q ∈ s.child side', q.Gone) : ∃ q ∈ (s.put side p').child side', q.Gone := by
  obtain ⟨q, hq, hqgone⟩ := h
  by_cases hside : side' = side
  · subst hside
    cases hp.symm.trans hq
    exact ⟨p', Function.update_self .., hgone hqgone⟩
  · exact ⟨q, (Function.update_of_ne hside ..).trans hq, hqgone⟩

/-- A child that goes on. -/
theorem put (h : x.At k st s) (hp : s.child side = some p) (halive : ¬p.Gone)
    (hpid : p'.pid = p.pid) (hfits : x.Fits side p') (halive' : ¬p'.Gone) :
    x.At k st (s.put side p') := by
  have hself : (s.put side p').child side = some p' := Function.update_self ..
  have hrest : ∀ side', side' ≠ side → (s.put side p').child side' = s.child side' :=
    fun side' hne => Function.update_of_ne hne ..
  refine h.update hp halive rfl hpid hfits ?_ (fun _ _ ht => ht) ?_
  · intro ht
    refine ⟨hpid ▸ ht.pos, ?_, fun ch hch hchpid => ?_⟩
    · rw [hpid]
      exact ht.listed
    · rw [ht.status ch hch (hchpid.trans hpid), if_neg halive, if_neg halive']
  · refine ⟨h.flow.bytes, fun side' q hq hqgone => ?_⟩
    by_cases hside : side' = side
    · subst hside
      cases hself.symm.trans hq
      exact absurd hqgone halive'
    · have hq' : s.child side' = some q := (hrest side' hside).symm.trans hq
      exact (h.flow.ended side' q hq' hqgone).mono rfl rfl rfl
        (gone_put hp (fun hg => absurd hg halive))

/-- A child that ends. -/
theorem finish (h : x.At k st s) (hp : s.child side = some p) (halive : ¬p.Gone) {how : Phase}
    (hhow : how = .exited ∨ how = .killed) (hends : x.Ends s side how)
    (hfinish : s.finish side p how = some s') : x.At k st s' := by
  obtain ⟨w', hw', rfl⟩ := Option.map_eq_some_iff.mp hfinish
  have hself : ({ s with world := w' }.put side ⟨p.pid, [], how⟩).child side =
      some ⟨p.pid, [], how⟩ := Function.update_self ..
  have hrest : ∀ side', side' ≠ side →
      ({ s with world := w' }.put side ⟨p.pid, [], how⟩).child side' = s.child side' :=
    fun side' hne => Function.update_of_ne hne ..
  refine h.update hp halive (changeChild_eq hw').2 rfl ?_ (fun ht => ht.ended hw' rfl hhow)
    (fun q hne ht => ht.other hw' hne) ⟨h.flow.bytes, fun side' q hq hqgone => ?_⟩
  · obtain rfl | rfl := hhow
    · exact .exited p.pid
    · exact .killed p.pid
  · have hgone' : p.Gone → Process.Gone ⟨p.pid, [], how⟩ := fun _ => hhow
    have hmore := gone_put (s := s) hp hgone'
    by_cases hside : side' = side
    · subst hside
      cases hself.symm.trans hq
      exact hends.mono rfl rfl rfl hmore
    · have hq' : s.child side' = some q := (hrest side' hside).symm.trans hq
      exact (h.flow.ended side' q hq' hqgone).mono rfl rfl rfl hmore

/-- A child that is there has its own end. -/
theorem holds (h : x.At k st s) (hp : s.child side = some p) (halive : ¬p.Gone) :
    some (side.end s.file) ∈ p.fds := by
  cases (h.of_child hp).1 with
  | running pid fds k hk htable =>
      obtain ⟨fd, hfd⟩ := x.child_holds side k
      exact mem_fds_iff.mpr ⟨fd, by rw [htable, hfd, h.file]⟩
  | exited pid => exact absurd (.inl rfl) halive
  | killed pid => exact absurd (.inr rfl) halive

theorem held (h : x.At k st s) (hp : s.child side = some p) (halive : ¬p.Gone) :
    s.Held (side.end s.file) := by
  have hmem := h.holds hp halive
  cases side with
  | first => exact .inr (.inl ⟨p, hp, hmem⟩)
  | second => exact .inr (.inr ⟨p, hp, hmem⟩)

/-- **An end that nobody holds**: its child was there, and is gone. -/
theorem gone_of_unheld (h : x.At k st s) (side : Side) (hunheld : ¬s.Held (side.end s.file)) :
    ∃ q ∈ s.child side, q.Gone := by
  have hk : 0 < k := by
    by_contra hzero
    obtain rfl : k = 0 := by omega
    refine hunheld (.inl (mem_fds_iff.mpr ⟨x.source side, ?_⟩))
    rw [h.table, x.shell_source, h.file]
  obtain ⟨q, hq⟩ := h.exists_child hk side
  refine ⟨q, hq, ?_⟩
  by_contra halive
  exact hunheld (h.held hq halive)

theorem write (h : x.At k st s) (hp : s.child .first = some p) (halive : ¬p.Gone)
    (htable : ∀ fd, fileOf p.fds fd = x.child .first 4 fd) {capacity : Nat}
    (hwrite : s.write capacity p = some s') : x.At k st s' := by
  unfold System.write at hwrite
  cases hunwritten : s.unwritten with
  | nil =>
      rw [hunwritten] at hwrite
      exact h.finish hp halive (.inl rfl) hunwritten hwrite
  | cons byte unwritten =>
      obtain ⟨fd, byte⟩ := byte
      rw [hunwritten] at hwrite
      -- that the pipe is on this descriptor is known from the table
      have hfd : fileOf p.fds fd = some (s.file + 1) ↔ fd = outFd x.type := by
        rw [htable, h.file]
        exact (x.child_last _ _).trans (and_iff_left rfl)
      have hbytes := h.flow.bytes
      rw [hunwritten] at hbytes
      have hended : ∀ s₁ : System, s₁.child = s.child → s₁.got = s.got →
          ∀ side', ∀ q ∈ s₁.child side', q.Gone → x.Ends s₁ side' q.phase := by
        intro s₁ hchild hgot side' q hq hgone
        rw [hchild] at hq
        have hends := h.flow.ended side' q hq hgone
        cases side' with
        | first =>
            cases hp.symm.trans hq
            exact absurd hgone halive
        | second =>
            obtain hphase | hphase := hgone
            · rw [hphase] at hends ⊢
              obtain henough | ⟨-, -, q', hq', hgone'⟩ := hends
              · exact .inl (hgot ▸ henough)
              · cases hp.symm.trans hq'
                exact absurd hgone' halive
            · rw [hphase] at hends ⊢
              exact hends
      simp only [hfd] at hwrite
      split at hwrite
      · rename_i hpiped
        split at hwrite
        · rename_i hunheld
          exact h.finish hp halive (.inr rfl) (.inr (h.gone_of_unheld .second hunheld))
            hwrite
        · split at hwrite
          · cases hwrite
            refine h.congr rfl rfl rfl rfl rfl rfl ⟨?_, hended _ rfl rfl⟩
            rw [← hbytes]
            simp [piped, hpiped]
          · cases hwrite
      · rename_i hother
        cases hwrite
        refine h.congr rfl rfl rfl rfl rfl rfl ⟨?_, hended _ rfl rfl⟩
        rw [← hbytes]
        simp [piped, hother]

theorem read (h : x.At k st s) (hp : s.child .second = some p) (halive : ¬p.Gone)
    (hread : s.read x.cmds.enough p = some s') : x.At k st s' := by
  unfold System.read at hread
  split at hread
  · rename_i henough
    exact h.finish hp halive (.inl rfl) (.inl henough) hread
  split at hread
  · cases hbuffer : s.buffer with
    | nil =>
        rw [hbuffer] at hread
        simp only at hread
        split at hread
        · cases hread
        · rename_i hunheld
          obtain ⟨q, hq, hgone⟩ := h.gone_of_unheld .first hunheld
          refine h.finish hp halive (.inl rfl) (.inr ⟨hbuffer, ?_, q, hq, hgone⟩) hread
          -- the first was not stopped for want of a reader
          have hends := h.flow.ended .first q hq hgone
          obtain hphase | hphase := hgone
          · rw [hphase] at hends
            exact .inr hends
          · rw [hphase] at hends
            obtain hhurt | ⟨p', hp', hgone'⟩ := hends
            · exact .inl hhurt
            · cases hp.symm.trans hp'
              exact absurd hgone' halive
    | cons byte buffer =>
        rw [hbuffer] at hread
        cases hread
        refine h.congr rfl rfl rfl rfl rfl rfl ⟨?_, fun side' q hq hgone => ?_⟩
        · rw [← h.flow.bytes, hbuffer]
          simp
        · have hends := h.flow.ended side' q hq hgone
          cases side' with
          | first =>
              obtain hphase | hphase := hgone
              · rw [hphase] at hends ⊢
                exact hends
              · rw [hphase] at hends ⊢
                exact hends
          | second =>
              cases hp.symm.trans hq
              exact absurd hgone halive
  · cases hread

/-- **No move of a child** breaks the invariant. -/
theorem move (h : x.At k st s) {capacity : Nat} {m : Move}
    (hkill : ∀ side, m = .kill side → x.Hurt) (hmove : s.move x.cmds capacity m = some s') :
    x.At k st s' := by
  cases m with
  | go side =>
      obtain ⟨p, hp, hgo⟩ := Option.bind_eq_some_iff.mp hmove
      cases (h.of_child hp).1 with
      | running pid fds j hj htable =>
          have halive : ¬Process.Gone ⟨pid, fds, .running ((x.program side).drop j)⟩ := by
            simp [Process.Gone]
          simp only [System.go] at hgo
          cases htodo : (x.program side).drop j with
          | cons stmt todo =>
              obtain ⟨fds', hperform, hj', htable'⟩ :=
                x.perform_fits (p := ⟨pid, fds, .running ((x.program side).drop j)⟩) htodo htable
              simp only [htodo] at hgo hperform
              rw [hperform] at hgo
              cases hgo
              exact h.put hp halive rfl (.running pid fds' (j + 1) hj' htable')
                (by simp [Process.Gone])
          | nil =>
              obtain rfl : j = 4 := by
                rw [x.program_eq] at htodo
                have hlen := List.drop_eq_nil_iff.mp htodo
                simp only [List.length_cons, List.length_nil] at hlen
                omega
              simp only [htodo] at hgo
              cases side with
              | first =>
                  rw [← htodo] at hgo
                  exact h.write hp halive htable hgo
              | second =>
                  rw [← htodo] at hgo
                  exact h.read hp halive hgo
      | exited pid => cases hgo
      | killed pid => cases hgo
  | kill side =>
      obtain ⟨p, hp, hgo⟩ := Option.bind_eq_some_iff.mp hmove
      split at hgo
      · cases hgo
      · rename_i halive
        refine h.finish hp halive (.inr rfl) ?_ hgo
        cases side with
        | first => exact .inl (hkill .first rfl)
        | second => exact hkill .second rfl

end Setting.At

end OsAllHw.Shell.Pipeline
