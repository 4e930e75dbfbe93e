import Mathlib
import OsAllHw.Shell.Outline

/-!
# Jobs and their commands

What holds of the lists in every run, whatever fails: the job table is valid,
no command is in two places, and each entry's pid is its command's. `base` is
the outline that says so; the outlines of the other modules add to it.
-/

namespace OsAllHw.Shell

open Lib

/-! ## Frames -/

namespace World

def object (w : World) (cmd : Nat) : Option CommandObj := w.shell.commands[cmd]?

/-- Nothing that the outlines speak of differs. -/
structure Same (w w' : World) : Prop where
  children : w'.children = w.children
  forked : w'.forked = w.forked
  waited : w'.waited = w.waited
  run : w'.shell.run = w.shell.run
  jobs : w'.shell.jobs = w.shell.jobs
  times : w'.shell.times = w.shell.times
  currentCmd : w'.shell.currentCmd = w.shell.currentCmd
  commands : w'.shell.commands = w.shell.commands

theorem Same.refl (w : World) : w.Same w := ⟨rfl, rfl, rfl, rfl, rfl, rfl, rfl, rfl⟩

theorem Same.object {w w' : World} (h : w.Same w') (cmd : Nat) : w'.object cmd = w.object cmd := by
  rw [World.object, World.object, h.commands]

section Updates

variable (w : World) (f : ShellVars → ShellVars) (g : CommandObj → CommandObj)
  (j : JobsList → JobsList) (cmd cmd' : Nat) (pids : List Int) (cmds : List Nat)

@[simp] theorem setVars_shell : (w.setVars f).shell = f w.shell := rfl
@[simp] theorem setVars_children : (w.setVars f).children = w.children := rfl
@[simp] theorem setVars_forked : (w.setVars f).forked = w.forked := rfl
@[simp] theorem setVars_waited : (w.setVars f).waited = w.waited := rfl

@[simp] theorem onCommand_run : (w.onCommand cmd g).shell.run = w.shell.run := rfl
@[simp] theorem onCommand_jobs : (w.onCommand cmd g).shell.jobs = w.shell.jobs := rfl
@[simp] theorem onCommand_times : (w.onCommand cmd g).shell.times = w.shell.times := rfl
@[simp] theorem onCommand_currentCmd :
    (w.onCommand cmd g).shell.currentCmd = w.shell.currentCmd := rfl
@[simp] theorem onCommand_children : (w.onCommand cmd g).children = w.children := rfl
@[simp] theorem onCommand_forked : (w.onCommand cmd g).forked = w.forked := rfl
@[simp] theorem onCommand_waited : (w.onCommand cmd g).waited = w.waited := rfl

@[simp] theorem onCommand_length :
    (w.onCommand cmd g).shell.commands.length = w.shell.commands.length :=
  List.length_modify ..

theorem object_onCommand : (w.onCommand cmd g).object cmd' =
    if cmd = cmd' then (w.object cmd').map g else w.object cmd' := by
  change (w.shell.commands.modify cmd g)[cmd']? = _
  rw [List.getElem?_modify]
  split <;> simp [object]

@[simp] theorem onJobs_run : (w.onJobs j).shell.run = w.shell.run := rfl
@[simp] theorem onJobs_jobs : (w.onJobs j).shell.jobs = j w.shell.jobs := rfl
@[simp] theorem onJobs_times : (w.onJobs j).shell.times = w.shell.times := rfl
@[simp] theorem onJobs_currentCmd : (w.onJobs j).shell.currentCmd = w.shell.currentCmd := rfl
@[simp] theorem onJobs_commands : (w.onJobs j).shell.commands = w.shell.commands := rfl
@[simp] theorem onJobs_children : (w.onJobs j).children = w.children := rfl
@[simp] theorem onJobs_forked : (w.onJobs j).forked = w.forked := rfl
@[simp] theorem onJobs_waited : (w.onJobs j).waited = w.waited := rfl
@[simp] theorem object_onJobs : (w.onJobs j).object cmd = w.object cmd := rfl

@[simp] theorem reap_shell : (w.reap pids).shell = w.shell := rfl
@[simp] theorem reap_forked : (w.reap pids).forked = w.forked := rfl
@[simp] theorem reap_waited : (w.reap pids).waited = w.waited := rfl
@[simp] theorem object_reap : (w.reap pids).object cmd = w.object cmd := rfl

theorem mem_reap {ch : Child} :
    ch ∈ (w.reap pids).children ↔ ch ∈ w.children ∧ ch.pid ∉ pids := by
  simp [reap]

/-- `delete` only marks. -/
theorem discard_cons : w.discard (cmd :: cmds) =
    (w.onCommand cmd fun obj => { obj with discarded := true }).discard cmds := rfl

/-- What `delete` leaves alone. -/
structure Frame (w w' : World) : Prop where
  children : w'.children = w.children
  forked : w'.forked = w.forked
  waited : w'.waited = w.waited
  run : w'.shell.run = w.shell.run
  jobs : w'.shell.jobs = w.shell.jobs
  times : w'.shell.times = w.shell.times
  currentCmd : w'.shell.currentCmd = w.shell.currentCmd
  length : w'.shell.commands.length = w.shell.commands.length

theorem discard_frame : Frame w (w.discard cmds) := by
  induction cmds generalizing w with
  | nil => exact ⟨rfl, rfl, rfl, rfl, rfl, rfl, rfl, rfl⟩
  | cons cmd cmds ih =>
      obtain ⟨h₁, h₂, h₃, h₄, h₅, h₆, h₇, h₈⟩ :=
        ih (w.onCommand cmd fun obj => { obj with discarded := true })
      exact ⟨h₁, h₂, h₃, h₄, h₅, h₆, h₇, h₈.trans (onCommand_length ..)⟩

theorem object_discard : (w.discard cmds).object cmd = (w.object cmd).map fun obj =>
    if cmd ∈ cmds then { obj with discarded := true } else obj := by
  induction cmds generalizing w with
  | nil => simp [discard]
  | cons c cmds ih =>
      rw [discard_cons, ih, object_onCommand]
      by_cases hc : c = cmd
      · subst hc
        cases w.object c <;> simp
      · cases w.object cmd <;> simp [hc, Ne.symm hc]

end Updates

end World

/-- Quiet statements change nothing that the outlines speak of. -/
theorem perform_quiet {op : Op} {w w' : World} {r : Reply} {a : Resp op} (h : Quiet op)
    (hp : perform op w r = some (a, w')) : w.Same w' := by
  cases h with
  | get | getCommand | error | getcwd | alarm | setPrompt | setPrevPwd =>
      cases hp
      constructor <;> rfl
  | strayAmpersand =>
      simp only [perform] at hp
      split at hp <;> cases hp <;> exact .refl w
  | freedText =>
      simp only [perform] at hp
      split at hp <;> cases hp
      exact .refl w
  | crash => cases hp
  | dup fd =>
      simp only [perform, World.dup] at hp
      split at hp
      · split at hp <;> cases hp <;> constructor <;> rfl
      · cases hp
        exact .refl w
      · cases hp
  | dup2 oldFd newFd =>
      simp only [perform, World.dup2] at hp
      split at hp <;> cases hp <;> constructor <;> rfl
  | close fd =>
      simp only [perform, World.close] at hp
      split at hp <;> cases hp <;> constructor <;> rfl
  | openFile path =>
      simp only [perform, World.openFile] at hp
      split at hp <;> cases hp <;> constructor <;> rfl
  | pipe =>
      simp only [perform, World.pipe] at hp
      split at hp <;> cases hp <;> constructor <;> rfl
  | copyOut fd =>
      simp only [perform] at hp
      split at hp <;> cases hp
      exact .refl w
  | chdir path =>
      simp only [perform, World.chdir] at hp
      split at hp <;> cases hp <;> constructor <;> rfl

/-- What `removeFinishedJobs` does to a valid table. -/
structure Swept (w : World) (reaped : List (Int × Int)) (w' : World) : Prop where
  can : w.CanReap reaped
  jobs : w'.shell.jobs.jobsList =
    w.shell.jobs.jobsList.filter fun e => !decide (e.jobId ∈ reaped.map Prod.fst)
  valid : w'.shell.jobs.Valid
  children : w'.children = w.children.filter fun ch => decide (ch.pid ∉ reaped.map Prod.snd)
  object : ∀ c, w'.object c = (w.object c).map fun obj =>
    if ∃ e ∈ w.shell.jobs.jobsList, e.jobId ∈ reaped.map Prod.fst ∧ e.cmd = c
    then { obj with discarded := true } else obj
  forked : w'.forked = w.forked
  waited : w'.waited = w.waited
  run : w'.shell.run = w.shell.run
  times : w'.shell.times = w.shell.times
  currentCmd : w'.shell.currentCmd = w.shell.currentCmd
  length : w'.shell.commands.length = w.shell.commands.length

theorem swept {w w' : World} {reaped : List (Int × Int)} (hv : w.shell.jobs.Valid)
    (h : w.removeFinishedJobs reaped = some w') : Swept w reaped w' := by
  rw [World.removeFinishedJobs] at h
  split at h
  · rename_i hcan
    rw [hv.removeFinishedJobs] at h
    cases h
    obtain ⟨h₁, h₂, h₃, h₄, h₅, h₆, h₇, h₈⟩ := World.discard_frame
      (w.onJobs fun _ => ⟨_, _⟩) (List.map JobEntry.cmd _)
    refine ⟨hcan, congrArg JobsList.jobsList h₅, h₅ ▸ hv.filter _, congrArg _ h₁, fun c => ?_,
      h₂, h₃, h₄, h₆, h₇, h₈⟩
    rw [World.object_reap, World.object_discard, World.object_onJobs]
    congr 1
    funext obj
    refine if_congr ?_ rfl rfl
    simp only [List.mem_map, List.mem_filter, decide_eq_true_eq, and_assoc]
  · cases h

/-! ## Interruptions -/

theorem changeChild_shell {w w' : World} {pid : Int} {status : Status}
    (h : w.changeChild pid status = some w') : w'.shell = w.shell := by
  rw [World.changeChild] at h
  split at h <;> cases h
  rfl

/-- What an interruption can do. -/
inductive Interrupted (op : Option Op) (w : World) : Interrupt → World → Prop where
  | child {pid status w'} (h : w.changeChild pid status = some w') :
      Interrupted op w (.child pid status) w'
  | same {e w'} (h : w.Same w') : Interrupted op w e w'
  | lower {killOk} (cmd) (h : w.shell.currentCmd = some cmd) :
      Interrupted op w (.ctrlZ killOk) (w.onCommand cmd fun obj => { obj with foreground := false })
  | alarm {reaped exist killOk w₁ w'} (hop : waiting op = true)
      (hw : w.removeFinishedJobs reaped = some w₁) (times : List TimeEntry)
      (htimes : times <:+ w₁.shell.times)
      (h : World.Same (w₁.setVars fun v => { v with times := times }) w') :
      Interrupted op w (.alarm reaped exist killOk) w'

theorem interrupt_cases {op : Option Op} {w w' : World} {e : Interrupt}
    (h : interrupt op w e = some w') : Interrupted op w e w' := by
  unfold interrupt at h
  split at h
  · cases h
  cases e with
  | child pid status => exact .child h
  | tick seconds =>
      cases h
      exact .same ⟨rfl, rfl, rfl, rfl, rfl, rfl, rfl, rfl⟩
  | ctrlC =>
      cases h
      exact .same (.refl w)
  | ctrlZ killOk =>
      obtain rfl : ctrlZHandler w killOk = w' := by simpa using h
      rw [ctrlZHandler]
      split
      · exact .same (.refl w)
      · rename_i cmd hc
        split
        · exact .lower cmd hc
        · exact .same (.refl w)
  | alarm reaped exist killOk =>
      simp only at h
      split at h
      · rename_i hop
        rw [alarmHandler] at h
        split at h
        · cases hw : w.removeFinishedJobs reaped with
          | none =>
              rw [hw] at h
              cases h
          | some w₁ =>
              rw [hw] at h
              cases h
              exact .alarm hop.1 hw _ (TimesList.killFinishedAlarms_suffix ..)
                ⟨rfl, rfl, rfl, rfl, rfl, rfl, rfl, rfl⟩
        · cases h
          exact .same ⟨rfl, rfl, rfl, rfl, rfl, rfl, rfl, rfl⟩
      · cases h

/-! ## The base outline -/

/-- The pid of a command. -/
def World.pidOf (w : World) (cmd : Nat) : Option Int := (w.object cmd).map CommandObj.pid

/-- The job table is valid, no command is listed twice or both held and
listed, and every entry has its command's pid. -/
structure Linked (held : List Nat) (w : World) : Prop where
  valid : w.shell.jobs.Valid
  nodup : (held ++ w.shell.jobs.jobsList.map JobEntry.cmd).Nodup
  bound : ∀ c ∈ held ++ w.shell.jobs.jobsList.map JobEntry.cmd, c < w.shell.commands.length
  pids : ∀ e ∈ w.shell.jobs.jobsList, w.pidOf e.cmd = some e.pid

/-- A job out of the list for `fg`. -/
structure TakenOut (e : JobEntry) (w : World) : Prop where
  linked : Linked [e.cmd] w
  pid : w.pidOf e.cmd = some e.pid
  pos : 0 < e.jobId
  out : ∀ e' ∈ w.shell.jobs.jobsList, e'.jobId ≠ e.jobId

namespace Linked

variable {held : List Nat} {w w' : World}

theorem congr (h : Linked held w) (hjobs : w'.shell.jobs = w.shell.jobs)
    (hlen : w'.shell.commands.length = w.shell.commands.length)
    (hpid : ∀ e ∈ w.shell.jobs.jobsList, w'.pidOf e.cmd = w.pidOf e.cmd) : Linked held w' := by
  refine ⟨hjobs ▸ h.valid, hjobs ▸ h.nodup, ?_, ?_⟩
  · rw [hjobs, hlen]
    exact h.bound
  · rw [hjobs]
    exact fun e he => (hpid e he).trans (h.pids e he)

/-- Fewer entries, or fewer held. -/
theorem sublist (h : Linked held w) {l : List Nat} (hl : l.Sublist held) : Linked l w :=
  ⟨h.valid, h.nodup.sublist (hl.append_right _),
    fun c hc => h.bound c ((hl.append_right _).subset hc), h.pids⟩

theorem swept (h : Linked held w) {reaped : List (Int × Int)} (hs : Swept w reaped w') :
    Linked held w' := by
  have hsub : (w'.shell.jobs.jobsList.map JobEntry.cmd).Sublist
      (w.shell.jobs.jobsList.map JobEntry.cmd) := by
    rw [hs.jobs]
    exact List.filter_sublist.map _
  refine ⟨hs.valid, h.nodup.sublist (hsub.append_left _), fun c hc => ?_, fun e he => ?_⟩
  · rw [hs.length]
    exact h.bound c ((hsub.append_left _).subset hc)
  · rw [hs.jobs] at he
    rw [← h.pids e (List.mem_filter.mp he).1, World.pidOf, World.pidOf, hs.object, Option.map_map]
    congr 1
    funext obj
    simp only [Function.comp_apply]
    split <;> rfl

end Linked

theorem Swept.pidOf {w w' : World} {reaped : List (Int × Int)} (h : Swept w reaped w') (c : Nat) :
    w'.pidOf c = w.pidOf c := by
  rw [World.pidOf, World.pidOf, h.object, Option.map_map]
  congr 1
  funext obj
  simp only [Function.comp_apply]
  split <;> rfl

theorem World.pidOf_onCommand (w : World) (cmd cmd' : Nat) (g : CommandObj → CommandObj) :
    (w.onCommand cmd g).pidOf cmd' =
      if cmd = cmd' then (w.object cmd').map fun obj => (g obj).pid else w.pidOf cmd' := by
  rw [World.pidOf, World.object_onCommand]
  split
  · rw [Option.map_map]
    rfl
  · rfl

theorem World.pidOf_discard (w : World) (cmds : List Nat) (c : Nat) :
    (w.discard cmds).pidOf c = w.pidOf c := by
  rw [World.pidOf, World.pidOf, World.object_discard, Option.map_map]
  congr 1
  funext obj
  simp only [Function.comp_apply]
  split <;> rfl

/-- Making a command changes no other. -/
theorem World.object_new {w w' : World} {kind : Kind} {cmdLine : Text} {r : Reply} {cmd c : Nat}
    {obj : CommandObj} (hw : w.newCommand kind cmdLine r = (cmd, w')) (h : w.object c = some obj) :
    w'.object c = some obj := by
  cases hw
  change (w.shell.commands ++ [_])[c]? = some obj
  rw [List.getElem?_append_left (List.getElem?_eq_some_iff.mp h).1]
  exact h

theorem World.pidOf_new {w w' : World} {kind : Kind} {cmdLine : Text} {r : Reply} {cmd c : Nat}
    {pid : Int} (hw : w.newCommand kind cmdLine r = (cmd, w')) (h : w.pidOf c = some pid) :
    w'.pidOf c = some pid := by
  obtain ⟨obj, hobj, rfl⟩ := Option.map_eq_some_iff.mp h
  rw [World.pidOf, World.object_new hw hobj, Option.map_some]

/-- The base assertion at each point. -/
def linkedAt : Point → World → Prop
  | .rest, w => w.shell.run = true → Linked [] w
  | .idle, w => Linked [] w
  | .created _ cmd, w => Linked [cmd] w
  | .current _ cmd, w => Linked [cmd] w ∧ w.shell.currentCmd = some cmd
  | .forked _ cmd _, w => Linked [cmd] w ∧ w.shell.currentCmd = some cmd
  | .started _ cmd pid, w => Linked [cmd] w ∧ w.shell.currentCmd = some cmd ∧
      w.pidOf cmd = some pid
  | .stopped cmd pid, w => Linked [cmd] w ∧ w.shell.currentCmd = some cmd ∧
      w.pidOf cmd = some pid
  | .chosen e, w => Linked [] w ∧ e ∈ w.shell.jobs.jobsList
  | .taken e, w => TakenOut e w
  | .raised e, w => TakenOut e w
  | .resumed e, w => TakenOut e w ∧ w.shell.currentCmd = some e.cmd
  | .stoppedAgain e, w => TakenOut e w ∧ w.shell.currentCmd = some e.cmd
  | .piping _, w => Linked [] w
  | .quitting _, _ => True
  | .finished, w => w.shell.run = true → Linked [] w
  | .lowering cmd, w => (w.shell.run = true → Linked [] w) ∧ w.shell.currentCmd = some cmd

/-- The base assertions speak of the table, the current command, the pids and
the number of commands. -/
theorem linkedAt_congr {w w' : World} {pt : Point} (h : linkedAt pt w)
    (hjobs : w'.shell.jobs = w.shell.jobs)
    (hlen : w'.shell.commands.length = w.shell.commands.length)
    (hpid : ∀ c, w'.pidOf c = w.pidOf c) (hrun : w'.shell.run = w.shell.run)
    (hcur : w'.shell.currentCmd = w.shell.currentCmd) : linkedAt pt w' := by
  have hl : ∀ {held}, Linked held w → Linked held w' :=
    fun hl => hl.congr hjobs hlen fun e _ => hpid _
  have ht : ∀ {e}, TakenOut e w → TakenOut e w' := fun ht =>
    ⟨hl ht.linked, (hpid _).trans ht.pid, ht.pos, hjobs ▸ ht.out⟩
  cases pt with
  | rest | finished => exact fun hr => hl (h (hrun ▸ hr))
  | idle | created | piping => exact hl h
  | current | forked => exact ⟨hl h.1, hcur.trans h.2⟩
  | started | stopped => exact ⟨hl h.1, hcur.trans h.2.1, (hpid _).trans h.2.2⟩
  | chosen => exact ⟨hl h.1, hjobs ▸ h.2⟩
  | taken | raised => exact ht h
  | resumed | stoppedAgain => exact ⟨ht h.1, hcur.trans h.2⟩
  | quitting => trivial
  | lowering => exact ⟨fun hr => hl (h.1 (hrun ▸ hr)), hcur.trans h.2⟩

theorem linkedAt_same {w w' : World} (hs : w.Same w') {pt : Point} (h : linkedAt pt w) :
    linkedAt pt w' :=
  linkedAt_congr h hs.jobs (congrArg _ hs.commands)
    (fun c => by rw [World.pidOf, hs.object]; rfl) hs.run hs.currentCmd

/-- Flags do not matter. -/
theorem linkedAt_foreground {w : World} (pt : Point) (cmd : Nat) (fg : Bool)
    (h : linkedAt pt w) :
    linkedAt pt (w.onCommand cmd fun obj => { obj with foreground := fg }) := by
  refine linkedAt_congr h rfl (World.onCommand_length ..) (fun c => ?_) rfl rfl
  rw [World.pidOf_onCommand]
  split <;> rfl

theorem linkedAt_times {w : World} (f : ShellVars → List TimeEntry) {pt : Point}
    (h : linkedAt pt w) : linkedAt pt (w.setVars fun v => { v with times := f v }) :=
  linkedAt_congr h rfl rfl (fun _ => rfl) rfl rfl

/-- What `removeFinishedJobs` does to any table. -/
structure Removed (w : World) (reaped : List (Int × Int)) (erased : List JobEntry)
    (w' : World) : Prop where
  gone : ∀ e ∈ erased, e ∈ w.shell.jobs.jobsList ∧ e.jobId ∈ reaped.map Prod.fst
  jobs : ∀ e ∈ w'.shell.jobs.jobsList, e ∈ w.shell.jobs.jobsList
  object : ∀ c, w'.object c = (w.discard (erased.map JobEntry.cmd)).object c
  forked : w'.forked = w.forked
  run : w'.shell.run = w.shell.run
  times : w'.shell.times = w.shell.times
  currentCmd : w'.shell.currentCmd = w.shell.currentCmd

theorem removed {w w' : World} {reaped : List (Int × Int)}
    (h : w.removeFinishedJobs reaped = some w') : ∃ erased, Removed w reaped erased w' := by
  rw [World.removeFinishedJobs] at h
  split at h
  · obtain ⟨⟨jobs, erased⟩, hx, rfl⟩ := Option.map_eq_some_iff.mp h
    obtain ⟨hkept, herased⟩ := JobsList.removeFinishedFrom_mem hx
    have hf := World.discard_frame (w.onJobs fun _ => jobs) (erased.map JobEntry.cmd)
    refine ⟨erased, ⟨fun e he => ?_, fun e he => ?_, fun c => ?_, hf.forked, hf.run, hf.times,
      hf.currentCmd⟩⟩
    · obtain ⟨hmem, hid⟩ := herased e he
      exact ⟨hmem, of_decide_eq_true hid⟩
    · rw [World.reap_shell, hf.jobs] at he
      exact hkept e he
    · rw [World.object_reap, World.object_discard, World.object_onJobs, World.object_discard]
  · cases h

theorem run_removeFinishedJobs {w w' : World} {reaped : List (Int × Int)}
    (h : w.removeFinishedJobs reaped = some w') : w'.shell.run = w.shell.run := by
  obtain ⟨_, hr⟩ := removed h
  exact hr.run

theorem linkedAt_swept {w w' : World} {reaped : List (Int × Int)} {pt : Point}
    (hpt : pt.sweeps = true) (h : linkedAt pt w) (hw : w.removeFinishedJobs reaped = some w') :
    linkedAt pt w' := by
  have hl : ∀ {held}, Linked held w → Linked held w' := fun hl => hl.swept (swept hl.valid hw)
  have ht : ∀ {e}, TakenOut e w → TakenOut e w' := by
    intro e ht
    have hs := swept ht.linked.valid hw
    refine ⟨hl ht.linked, (hs.pidOf _).trans ht.pid, ht.pos, fun e' he' => ?_⟩
    rw [hs.jobs] at he'
    exact ht.out e' (List.mem_filter.mp he').1
  cases pt with
  | rest => exact fun hr => hl (h (run_removeFinishedJobs hw ▸ hr))
  | idle | piping => exact hl h
  | started | stopped =>
      have hs := swept h.1.valid hw
      exact ⟨hl h.1, hs.currentCmd.trans h.2.1, (hs.pidOf _).trans h.2.2⟩
  | resumed | stoppedAgain =>
      have hs := swept h.1.linked.valid hw
      exact ⟨ht h.1, hs.currentCmd.trans h.2⟩
  | _ => cases hpt

/-- A new command is in no list. -/
theorem Linked.new {w w' : World} (h : Linked [] w) {kind : Kind} {cmdLine : Text} {r : Reply}
    {cmd : Nat} (hw : w.newCommand kind cmdLine r = (cmd, w')) : Linked [cmd] w' := by
  have hpids := fun e he => World.pidOf_new hw (h.pids e he)
  cases hw
  have hb := h.bound
  simp only [List.nil_append] at hb
  refine ⟨h.valid, ?_, ?_, hpids⟩
  · simp only [List.singleton_append, List.nodup_cons]
    exact ⟨fun hc => (hb _ hc).false, h.nodup⟩
  · intro c hc
    rw [List.singleton_append, List.mem_cons] at hc
    change c < (w.shell.commands ++ [_]).length
    rw [List.length_append, List.length_singleton]
    rcases hc with rfl | hc
    · exact Nat.lt_succ_self _
    · exact (hb c hc).trans (Nat.lt_succ_self _)

/-- The held command goes to the end of the list. -/
theorem Linked.addJob {w : World} {cmd : Nat} {pid : Int} (h : Linked [cmd] w)
    (hpid : w.pidOf cmd = some pid) (b : Bool) :
    Linked [] (w.onJobs fun j => j.addJob cmd pid b) := by
  have hperm : ([] ++ (w.shell.jobs.addJob cmd pid b).jobsList.map JobEntry.cmd).Perm
      ([cmd] ++ w.shell.jobs.jobsList.map JobEntry.cmd) := by
    simp only [JobsList.addJob, List.nil_append, List.map_append, List.map_cons, List.map_nil]
    exact List.perm_append_comm
  refine ⟨h.valid.addJob cmd pid b, hperm.nodup_iff.mpr h.nodup,
    fun c hc => h.bound c (hperm.subset hc), fun e he => ?_⟩
  rcases List.mem_append.mp he with he | he
  · exact h.pids e he
  · rw [List.mem_singleton.mp he]
    exact hpid

theorem Linked.setIsStopped {w : World} {held : List Nat} (h : Linked held w) (jobId : Int)
    (b : Bool) : Linked held (w.onJobs fun j => j.setIsStopped jobId b) := by
  have hcmd : (w.shell.jobs.setIsStopped jobId b).jobsList.map JobEntry.cmd =
      w.shell.jobs.jobsList.map JobEntry.cmd := by
    rw [JobsList.setIsStopped, List.map_map]
    refine List.map_congr_left fun e _ => ?_
    simp only [Function.comp_apply]
    split <;> rfl
  refine ⟨h.valid.setIsStopped jobId b, ?_, ?_, ?_⟩
  · rw [World.onJobs_jobs, hcmd]
    exact h.nodup
  · rw [World.onJobs_jobs, hcmd]
    exact h.bound
  · intro e he
    obtain ⟨e', he', rfl⟩ := List.mem_map.mp he
    have := h.pids e' he'
    split <;> exact this

/-- `fg` takes an entry out. -/
theorem Linked.take {w : World} {e : JobEntry} (h : Linked [] w)
    (he : e ∈ w.shell.jobs.jobsList) :
    TakenOut e (w.onJobs fun j => j.removeJobById e.jobId) := by
  have hrem := h.valid.removeJobById e.jobId
  have hv := h.valid.filter fun e' => !decide (e'.jobId = e.jobId)
  have hmem : ∀ e' ∈ (w.shell.jobs.removeJobById e.jobId).jobsList,
      e' ∈ w.shell.jobs.jobsList ∧ e'.jobId ≠ e.jobId := by
    intro e' he'
    rw [hrem] at he'
    simpa using List.mem_filter.mp he'
  have hnodup : (w.shell.jobs.jobsList.map JobEntry.cmd).Nodup := by simpa using h.nodup
  have hsub : ((w.shell.jobs.removeJobById e.jobId).jobsList.map JobEntry.cmd).Sublist
      (w.shell.jobs.jobsList.map JobEntry.cmd) := by
    rw [hrem]
    exact List.filter_sublist.map _
  refine ⟨⟨?_, ?_, ?_, fun e' he' => h.pids e' (hmem e' he').1⟩, h.pids e he, h.valid.pos e he,
    fun e' he' => (hmem e' he').2⟩
  · rw [World.onJobs_jobs, hrem]
    exact hv
  · simp only [World.onJobs_jobs, List.singleton_append, List.nodup_cons]
    refine ⟨fun hc => ?_, hnodup.sublist hsub⟩
    obtain ⟨e', he', hcmd⟩ := List.mem_map.mp hc
    obtain ⟨hold, hne⟩ := hmem e' he'
    exact hne (congrArg JobEntry.jobId (List.inj_on_of_nodup_map hnodup hold he hcmd))
  · intro c hc
    simp only [World.onJobs_jobs, World.onJobs_commands, List.singleton_append,
      List.mem_cons] at hc ⊢
    rcases hc with rfl | hc
    · exact h.bound _ (by simpa using ⟨e, he, rfl⟩)
    · exact h.bound c (by simpa using hsub.subset hc)

/-- ... and puts it back under its id. -/
theorem TakenOut.relist {w : World} {e : JobEntry} (h : TakenOut e w) :
    Linked [] (w.onJobs fun j => j.addJobWithId e.cmd e.pid e.jobId true) := by
  obtain ⟨hv, hperm⟩ := h.linked.valid.addJobWithId e.cmd e.pid true h.pos h.out
  have hcmd := hperm.map JobEntry.cmd
  refine ⟨hv, ?_, fun c hc => ?_, fun e' he' => ?_⟩
  · exact (hcmd.nodup_iff).mpr h.linked.nodup
  · exact h.linked.bound c (hcmd.subset hc)
  · rcases List.mem_cons.mp (hperm.subset he') with rfl | he'
    · exact h.pid
    · exact h.linked.pids e' he'

theorem fork_cases {w w' : World} {cmd : Option Nat} {r : Reply} {pid : Int}
    (h : w.fork cmd r = some (pid, w')) :
    (r = .failed ∧ pid = -1 ∧ w' = w) ∨
    (r = .pid pid ∧ 0 < pid ∧ (∀ ch ∈ w.children, ch.pid ≠ pid) ∧ w' = { w with
      children := w.children ++ [⟨pid, cmd, .running⟩]
      forked := w.forked ++ [pid] }) := by
  cases r with
  | failed =>
      cases h
      exact .inl ⟨rfl, rfl, rfl⟩
  | pid p =>
      simp only [World.fork] at h
      split at h
      · rename_i hp
        cases h
        exact .inr ⟨rfl, hp.1, hp.2, rfl⟩
      · cases h
  | _ => cases h

theorem waitpid_cases {w w' : World} {pid : Int} {untraced : Bool} {r : Reply} {how : Waited}
    (h : w.waitpid pid untraced r = some (how, w')) :
    w'.waited = (if untraced then some how else w.waited) ∧ w'.shell = w.shell ∧
    w'.forked = w.forked ∧
    ((r = .failed ∧ how = .failed ∧ w'.children = w.children) ∨
    (∃ q, r = .ended q ∧ how = .ended ∧ Addresses pid q ∧ w.has q .ended ∧
      w'.children = (w.reap [q]).children) ∨
    (∃ q, r = .stopped q ∧ how = .stopped ∧ Addresses pid q ∧ w.has q .stopped ∧
      w'.children = w.children)) := by
  cases r with
  | failed =>
      cases h
      refine ⟨?_, ?_, ?_, .inl ⟨rfl, rfl, ?_⟩⟩ <;> cases untraced <;> rfl
  | ended q =>
      simp only [World.waitpid] at h
      split at h
      · rename_i hq
        cases h
        refine ⟨?_, ?_, ?_, .inr (.inl ⟨q, rfl, rfl, hq.1, hq.2, ?_⟩)⟩ <;> cases untraced <;> rfl
      · cases h
  | stopped q =>
      simp only [World.waitpid] at h
      split at h
      · rename_i hq
        cases h
        refine ⟨?_, ?_, ?_, .inr (.inr ⟨q, rfl, rfl, hq.2.1, hq.2.2, ?_⟩)⟩ <;>
          cases untraced <;> rfl
      · cases h
  | _ => cases h

theorem kill_eq {w w' : World} {pid signum : Int} {r : Reply} {n : Int}
    (h : perform (.kill pid signum) w r = some (n, w')) :
    w' = w ∧ (n = 0 ∧ r = .done ∨ n = -1 ∧ r = .failed) := by
  simp only [perform] at h
  cases r <;> cases h
  · exact ⟨rfl, .inl ⟨rfl, rfl⟩⟩
  · exact ⟨rfl, .inr ⟨rfl, rfl⟩⟩

/-- Where only the children and the history may differ. -/
theorem linkedAt_shell {w w' : World} (pt : Point) (hs : w'.shell = w.shell)
    (h : linkedAt pt w) : linkedAt pt w' :=
  linkedAt_congr h (congrArg _ hs) (congrArg (fun v => v.commands.length) hs)
    (fun c => by rw [World.pidOf, World.object, hs]; rfl) (congrArg _ hs) (congrArg _ hs)

theorem linkedAt_moves {pt : Point} {op : Op} {next : Resp op → Point} {w w' : World} {r : Reply}
    {a : Resp op} (h : Moves pt op next) (hw : linkedAt pt w)
    (hp : perform op w r = some (a, w')) : linkedAt (next a) w' := by
  cases h with
  | quiet _ hq => exact linkedAt_same (perform_quiet hq hp) hw
  | forkFailed => exact linkedAt_same (perform_quiet (.error _) hp) hw
  | new kind cmdLine => exact hw.new (Option.some.inj hp)
  | background cmd =>
      cases hp
      exact linkedAt_foreground (.created true cmd) cmd false hw
  | setCommand b cmd =>
      cases hp
      exact ⟨hw.congr rfl rfl fun _ _ => rfl, rfl⟩
  | fork b cmd =>
      have hs : w'.shell = w.shell := by
        rcases fork_cases hp with ⟨-, -, rfl⟩ | ⟨-, -, -, rfl⟩ <;> rfl
      exact linkedAt_shell (.forked b cmd a) hs hw
  | forkPipe pids =>
      have hs : w'.shell = w.shell := by
        rcases fork_cases hp with ⟨-, -, rfl⟩ | ⟨-, -, -, rfl⟩ <;> rfl
      exact linkedAt_shell (.piping _) hs hw
  | setPid b cmd pid =>
      cases hp
      have hne : ∀ e ∈ w.shell.jobs.jobsList, cmd ≠ e.cmd := by
        rintro e he rfl
        exact (List.nodup_cons.mp hw.1.nodup).1 (List.mem_map_of_mem he)
      have hlt : cmd < w.shell.commands.length := hw.1.bound cmd (by simp)
      refine ⟨hw.1.congr rfl (World.onCommand_length ..) fun e he => ?_, hw.2, ?_⟩
      · rw [World.pidOf_onCommand, if_neg (hne e he)]
      · rw [World.pidOf_onCommand, if_pos rfl, World.object, List.getElem?_eq_getElem hlt]
        rfl
  | addTime b cmd pid duration =>
      cases hp
      exact linkedAt_times _ hw
  | sweep hpt =>
      cases r with
      | finished reaped =>
          obtain ⟨w₁, hw₁, he⟩ := Option.map_eq_some_iff.mp hp
          cases he
          exact linkedAt_swept (Point.sweeps_of_removes hpt) hw hw₁
      | _ => cases hp
  | list cmd pid | listStopped cmd pid =>
      cases hp
      exact fun _ => hw.1.addJob hw.2.2 _
  | wait cmd pid =>
      obtain ⟨-, hs, -⟩ := waitpid_cases hp
      cases a with
      | stopped => exact linkedAt_shell (.stopped cmd pid) hs hw
      | failed | ended =>
          refine linkedAt_shell .finished hs fun _ => ?_
          exact hw.1.sublist (List.nil_sublist _)
  | take e =>
      cases hp
      exact hw.1.take hw.2
  | raise e =>
      cases hp
      exact linkedAt_foreground (.raised e) e.cmd true hw
  | front e =>
      cases hp
      exact ⟨⟨hw.linked.congr rfl rfl fun _ _ => rfl, hw.pid, hw.pos, hw.out⟩, rfl⟩
  | cont e =>
      obtain ⟨rfl, ⟨rfl, -⟩ | ⟨rfl, -⟩⟩ := kill_eq hp
      · exact hw
      · exact fun _ => hw.1.linked.sublist (List.nil_sublist _)
  | waitAgain e =>
      obtain ⟨-, hs, -⟩ := waitpid_cases hp
      cases a with
      | stopped => exact linkedAt_shell (.stoppedAgain e) hs hw
      | failed | ended =>
          refine linkedAt_shell .finished hs fun _ => ?_
          exact hw.1.linked.sublist (List.nil_sublist _)
  | relist e =>
      cases hp
      exact fun _ => hw.1.relist
  | signal e signum =>
      obtain ⟨rfl, -⟩ := kill_eq hp
      exact hw
  | flag e b =>
      cases hp
      exact hw.1.setIsStopped _ _
  | waitPipe p pids =>
      obtain ⟨-, hs, -⟩ := waitpid_cases hp
      rw [Point.reapedTo]
      split
      · exact linkedAt_shell .finished hs fun _ => hw
      · exact linkedAt_shell (.piping pids) hs hw
  | lower cmd =>
      cases hp
      exact linkedAt_foreground .rest cmd false hw.1
  | killEach | delete | clear => trivial
  | leave l =>
      cases hp
      exact fun hr => by cases hr

theorem linkedAt_becomes {w : World} {pt pt' : Point} (h : Becomes w pt pt')
    (hw : linkedAt pt w) : linkedAt pt' w := by
  cases h with
  | begin hr => exact hw hr
  | drop b cmd => exact Linked.sublist hw (List.nil_sublist _)
  | choose e he => exact ⟨hw, he⟩
  | keep e => exact hw.1
  | pipe => exact hw
  | piped => exact fun _ => hw
  | quit => trivial
  | finish => exact fun _ => hw
  | lowering cmd hc => exact ⟨hw, hc⟩
  | none => exact hw

theorem linkedAt_stable {pt : Point} {op : Option Op} {e : Interrupt} {w w' : World}
    (hpt : waiting op = true → pt.sweeps = true) (hw : linkedAt pt w)
    (hi : interrupt op w e = some w') : linkedAt pt w' := by
  cases interrupt_cases hi with
  | child h => exact linkedAt_shell pt (changeChild_shell h) hw
  | same h => exact linkedAt_same h hw
  | lower cmd hc => exact linkedAt_foreground pt cmd false hw
  | alarm hop hw₁ times htimes h =>
      exact linkedAt_same h (linkedAt_times _ (linkedAt_swept (hpt hop) hw hw₁))

end OsAllHw.Shell
