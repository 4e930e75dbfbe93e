import Mathlib
import OsAllHw.Shell.Tracking

/-!
# Commands and `delete`

One command is shared by `current_cmd`, the jobs list and the times list, and
only the removal from the jobs list deletes it. As long as no job is removed
whose command `current_cmd` or a time entry still holds (`Spares`), whatever
the shell holds was not deleted. A job that was the last one launched, or a
`timeout` that finished early, is removed all the same.
-/

namespace OsAllHw.Shell

open Lib

/-- The command was not deleted. -/
def Live (w : World) (cmd : Nat) : Prop :=
  ∃ obj ∈ w.object cmd, obj.discarded = false

instance (w : World) (cmd : Nat) : Decidable (Live w cmd) :=
  inferInstanceAs (Decidable (∃ obj ∈ w.object cmd, _))

/-- Neither `current_cmd` nor a time entry holds the command. -/
def Unheld (w : World) (cmd : Nat) : Prop :=
  w.shell.currentCmd ≠ some cmd ∧ ∀ t ∈ w.shell.times, t.cmd ≠ cmd

instance (w : World) (cmd : Nat) : Decidable (Unheld w cmd) :=
  inferInstanceAs (Decidable (_ ∧ _))

/-- The jobs reported finished are held by the jobs list only. -/
def Spares (w : World) (reaped : List (Int × Int)) : Prop :=
  ∀ e ∈ w.shell.jobs.jobsList, e.jobId ∈ reaped.map Prod.fst → Unheld w e.cmd

instance (w : World) (reaped : List (Int × Int)) : Decidable (Spares w reaped) :=
  inferInstanceAs (Decidable (∀ e ∈ w.shell.jobs.jobsList, _))

/-- `removeFinishedJobs` deletes commands held by the jobs list only, and
`quit` does not delete the current command. -/
def SparesReply : Op → World → Reply → Prop
  | .removeFinishedJobs, w, .finished reaped => Spares w reaped
  | .deleteCommand cmd, w, _ => w.shell.currentCmd ≠ some cmd
  | _, _, _ => True

/-- The same in the alarm handler. -/
def SparesInterrupt : Option Op → World → Interrupt → Prop
  | _, w, .alarm reaped _ _ => Spares w reaped
  | _, _, _ => True

instance (op : Op) (w : World) (r : Reply) : Decidable (SparesReply op w r) := by
  induction op using Op.casesOn with
  | removeFinishedJobs =>
      induction r using Reply.casesOn with
      | finished reaped => exact inferInstanceAs (Decidable (Spares w reaped))
      | _ => exact .isTrue trivial
  | deleteCommand cmd => exact inferInstanceAs (Decidable (w.shell.currentCmd ≠ some cmd))
  | _ => exact .isTrue trivial

instance (op : Option Op) (w : World) (e : Interrupt) : Decidable (SparesInterrupt op w e) := by
  induction e using Interrupt.casesOn with
  | alarm reaped _ _ => exact inferInstanceAs (Decidable (Spares w reaped))
  | _ => exact .isTrue trivial

/-- What `current_cmd` holds was not deleted. -/
def CurrentLive (w : World) : Prop := ∀ cmd ∈ w.shell.currentCmd, Live w cmd

/-- Whatever the shell holds was not deleted. -/
structure AllLive (w : World) : Prop where
  current : CurrentLive w
  jobs : ∀ e ∈ w.shell.jobs.jobsList, Live w e.cmd
  times : ∀ t ∈ w.shell.times, Live w t.cmd

/-! ## What the statements do to it -/

section

variable {w w' : World} {cmd : Nat}

theorem Live.congr (h : Live w cmd) (hc : w'.object cmd = w.object cmd) : Live w' cmd := by
  rw [Live, hc]
  exact h

theorem live_onCommand {c : Nat} {g : CommandObj → CommandObj}
    (hg : ∀ obj, (g obj).discarded = obj.discarded) :
    Live w cmd → Live (w.onCommand c g) cmd := by
  rintro ⟨obj, hobj, hlive⟩
  rw [Live, World.object_onCommand]
  split
  · exact ⟨g obj, by rw [Option.mem_def.mp hobj]; rfl, (hg obj).trans hlive⟩
  · exact ⟨obj, hobj, hlive⟩

theorem live_new {kind : Kind} {cmdLine : Text} {r : Reply} {c : Nat}
    (h : w.newCommand kind cmdLine r = (c, w')) :
    (∀ cmd, Live w cmd → Live w' cmd) ∧ Live w' c := by
  constructor
  · rintro cmd ⟨obj, hobj, hlive⟩
    exact ⟨obj, World.object_new h hobj, hlive⟩
  · cases h
    change ∃ obj ∈ (w.shell.commands ++ [_])[w.shell.commands.length]?, obj.discarded = false
    rw [List.getElem?_append_right le_rfl, Nat.sub_self]
    exact ⟨_, rfl, rfl⟩

theorem live_discard {cmds : List Nat} (hnot : cmd ∉ cmds) (h : Live w cmd) :
    Live (w.discard cmds) cmd := by
  obtain ⟨obj, hobj, hlive⟩ := h
  refine ⟨obj, ?_, hlive⟩
  rw [World.object_discard, Option.mem_def.mp hobj, Option.map_some, if_neg hnot]
  rfl

theorem live_removed {reaped : List (Int × Int)} (hw : w.removeFinishedJobs reaped = some w')
    (hkeep : ∀ e ∈ w.shell.jobs.jobsList, e.jobId ∈ reaped.map Prod.fst → e.cmd ≠ cmd)
    (h : Live w cmd) : Live w' cmd := by
  obtain ⟨erased, hr⟩ := removed hw
  refine (live_discard ?_ h).congr (hr.object cmd)
  intro hmem
  obtain ⟨e, he, rfl⟩ := List.mem_map.mp hmem
  exact hkeep e (hr.gone e he).1 (hr.gone e he).2 rfl

theorem CurrentLive.mono (h : CurrentLive w)
    (hcur : w'.shell.currentCmd = w.shell.currentCmd)
    (hlive : ∀ cmd, Live w cmd → Live w' cmd) : CurrentLive w' :=
  fun cmd hc => hlive cmd (h cmd (hcur ▸ hc))

theorem AllLive.mono (h : AllLive w) (hcur : w'.shell.currentCmd = w.shell.currentCmd)
    (hjobs : ∀ e ∈ w'.shell.jobs.jobsList, ∃ e' ∈ w.shell.jobs.jobsList, e'.cmd = e.cmd)
    (htimes : w'.shell.times ⊆ w.shell.times) (hlive : ∀ cmd, Live w cmd → Live w' cmd) :
    AllLive w' := by
  refine ⟨h.current.mono hcur hlive, fun e he => ?_, fun t ht => hlive _ (h.times t (htimes ht))⟩
  obtain ⟨e', he', hcmd⟩ := hjobs e he
  exact hlive _ (hcmd ▸ h.jobs e' he')

/-- `removeFinishedJobs` on jobs held by the list only. -/
theorem CurrentLive.removed {reaped : List (Int × Int)} (h : CurrentLive w)
    (hspare : Spares w reaped) (hw : w.removeFinishedJobs reaped = some w') :
    CurrentLive w' := by
  obtain ⟨_, hr⟩ := Shell.removed hw
  refine fun cmd hc => live_removed hw ?_ (h cmd (hr.currentCmd ▸ hc))
  rintro e he hid rfl
  exact (hspare e he hid).1 (hr.currentCmd ▸ hc)

theorem AllLive.removed {held : List Nat} {reaped : List (Int × Int)} (h : AllLive w)
    (hl : Linked held w) (hspare : Spares w reaped)
    (hw : w.removeFinishedJobs reaped = some w') : AllLive w' := by
  have hs := swept hl.valid hw
  have hnodup := (List.nodup_append.mp hl.nodup).2.1
  refine ⟨h.current.removed hspare hw, fun e he => ?_, fun t ht => ?_⟩
  · rw [hs.jobs] at he
    obtain ⟨he, hnot⟩ := List.mem_filter.mp he
    refine live_removed hw (fun e' he' hid hcmd => ?_) (h.jobs e he)
    obtain rfl : e' = e := List.inj_on_of_nodup_map hnodup he' he hcmd
    simp [hid] at hnot
  · rw [hs.times] at ht
    refine live_removed hw ?_ (h.times t ht)
    rintro e he hid hcmd
    exact (hspare e he hid).2 t ht hcmd.symm

/-- A held command is in no list. -/
theorem Linked.live_removed {held : List Nat} {reaped : List (Int × Int)} (hl : Linked held w)
    (hheld : cmd ∈ held) (hw : w.removeFinishedJobs reaped = some w') (h : Live w cmd) :
    Live w' cmd := by
  refine Shell.live_removed hw ?_ h
  rintro e he - rfl
  exact (List.nodup_append.mp hl.nodup).2.2 e.cmd hheld e.cmd (List.mem_map_of_mem he) rfl

end

/-! ## The outline -/

/-- What is added to the base assertions: whatever is held was not deleted,
nor was the command under way. -/
def liveAt : Point → World → Prop
  | .rest, w => CurrentLive w ∧ (w.shell.run = true → AllLive w)
  | .idle, w => AllLive w
  | .created _ cmd, w => AllLive w ∧ Live w cmd
  | .current _ cmd, w => AllLive w ∧ Live w cmd
  | .forked _ cmd _, w => AllLive w ∧ Live w cmd
  | .started _ cmd _, w => AllLive w ∧ Live w cmd
  | .stopped cmd _, w => AllLive w ∧ Live w cmd
  | .chosen _, w => AllLive w
  | .taken e, w => AllLive w ∧ Live w e.cmd
  | .raised e, w => AllLive w ∧ Live w e.cmd
  | .resumed e, w => AllLive w ∧ Live w e.cmd
  | .stoppedAgain e, w => AllLive w ∧ Live w e.cmd
  | .piping _, w => AllLive w
  | .quitting _, w => CurrentLive w
  | .finished, w => CurrentLive w ∧ (w.shell.run = true → AllLive w)
  | .lowering _, w => CurrentLive w ∧ (w.shell.run = true → AllLive w)

section

variable {w w' : World} {pt : Point}

theorem liveAt_current (h : liveAt pt w) : CurrentLive w := by
  cases pt with
  | rest | finished | lowering => exact h.1
  | idle | chosen | piping => exact h.current
  | created | current | forked | started | stopped => exact h.1.current
  | taken | raised | resumed | stoppedAgain => exact h.1.current
  | quitting => exact h

/-- Nothing is deleted, and nothing else is held. -/
theorem liveAt_mono (h : liveAt pt w) (hcur : w'.shell.currentCmd = w.shell.currentCmd)
    (hjobs : ∀ e ∈ w'.shell.jobs.jobsList, ∃ e' ∈ w.shell.jobs.jobsList, e'.cmd = e.cmd)
    (htimes : w'.shell.times ⊆ w.shell.times) (hlive : ∀ cmd, Live w cmd → Live w' cmd)
    (hrun : w'.shell.run = w.shell.run) : liveAt pt w' := by
  have hall : AllLive w → AllLive w' := fun h => h.mono hcur hjobs htimes hlive
  cases pt with
  | rest | finished | lowering =>
      exact ⟨h.1.mono hcur hlive, fun hr => hall (h.2 (hrun ▸ hr))⟩
  | idle | chosen | piping => exact hall h
  | created | current | forked | started | stopped => exact ⟨hall h.1, hlive _ h.2⟩
  | taken | raised | resumed | stoppedAgain => exact ⟨hall h.1, hlive _ h.2⟩
  | quitting => exact h.mono hcur hlive

theorem liveAt_same (hs : w.Same w') (h : liveAt pt w) : liveAt pt w' :=
  liveAt_mono h hs.currentCmd (fun e he => ⟨e, hs.jobs ▸ he, rfl⟩) (hs.times ▸ List.Subset.refl _)
    (fun cmd hl => hl.congr (hs.object cmd)) hs.run

/-- Only the children and the history differ. -/
theorem liveAt_shell (pt : Point) (hs : w'.shell = w.shell) (h : liveAt pt w) : liveAt pt w' :=
  liveAt_mono h (congrArg _ hs) (fun e he => ⟨e, hs ▸ he, rfl⟩) (hs ▸ List.Subset.refl _)
    (fun cmd hl => hl.congr (by rw [World.object, World.object, hs])) (congrArg _ hs)

theorem liveAt_onCommand (pt : Point) (cmd : Nat) {g : CommandObj → CommandObj}
    (hg : ∀ obj, (g obj).discarded = obj.discarded) (h : liveAt pt w) :
    liveAt pt (w.onCommand cmd g) :=
  liveAt_mono h rfl (fun e he => ⟨e, he, rfl⟩) (List.Subset.refl _)
    (fun _ => live_onCommand hg) rfl

theorem liveAt_swept {reaped : List (Int × Int)} (hpt : pt.sweeps = true) (hl : linkedAt pt w)
    (h : liveAt pt w) (hspare : Spares w reaped)
    (hw : w.removeFinishedJobs reaped = some w') : liveAt pt w' := by
  cases pt with
  | rest =>
      refine ⟨h.1.removed hspare hw, fun hr => ?_⟩
      rw [run_removeFinishedJobs hw] at hr
      exact (h.2 hr).removed (hl hr) hspare hw
  | idle | piping => exact h.removed hl hspare hw
  | started | stopped =>
      exact ⟨h.1.removed hl.1 hspare hw, hl.1.live_removed (by simp) hw h.2⟩
  | resumed | stoppedAgain =>
      exact ⟨h.1.removed hl.1.linked hspare hw, hl.1.linked.live_removed (by simp) hw h.2⟩
  | _ => cases hpt

/-- The held command goes into a list. -/
theorem AllLive.listed {cmd : Nat} (h : AllLive w) (hcmd : Live w cmd) (j : JobsList → JobsList)
    (hj : ∀ e ∈ (j w.shell.jobs).jobsList, e.cmd = cmd ∨ e ∈ w.shell.jobs.jobsList) :
    AllLive (w.onJobs j) := by
  refine ⟨h.current, fun e he => ?_, h.times⟩
  rcases hj e he with rfl | he
  · exact hcmd
  · exact h.jobs e he

theorem AllLive.addJob {cmd : Nat} (h : AllLive w) (hcmd : Live w cmd) (pid : Int) (b : Bool) :
    AllLive (w.onJobs fun j => j.addJob cmd pid b) := by
  refine h.listed hcmd _ fun e he => ?_
  rcases List.mem_append.mp he with he | he
  · exact .inr he
  · exact .inl (List.mem_singleton.mp he ▸ rfl)

theorem liveAt_moves {op : Op} {next : Resp op → Point} {r : Reply} {a : Resp op}
    (h : Moves pt op next) (hl : linkedAt pt w) (hw : liveAt pt w) (hok : SparesReply op w r)
    (hp : perform op w r = some (a, w')) : liveAt (next a) w' := by
  cases h with
  | quiet _ hq => exact liveAt_same (perform_quiet hq hp) hw
  | forkFailed => exact liveAt_same (perform_quiet (.error _) hp) hw
  | new kind cmdLine =>
      have hnew := live_new (Option.some.inj hp)
      cases hp
      exact ⟨hw.mono rfl (fun e he => ⟨e, he, rfl⟩) (List.Subset.refl _) hnew.1, hnew.2⟩
  | background cmd =>
      cases hp
      exact liveAt_onCommand (.created true cmd) cmd (fun _ => rfl) hw
  | setCommand b cmd =>
      cases hp
      refine ⟨⟨fun c hc => ?_, hw.1.jobs, hw.1.times⟩, hw.2⟩
      cases hc
      exact hw.2
  | fork b cmd =>
      have hs : w'.shell = w.shell := by
        rcases fork_cases hp with ⟨-, -, rfl⟩ | ⟨-, -, -, rfl⟩ <;> rfl
      exact liveAt_shell (.forked b cmd a) hs hw
  | forkPipe pids =>
      have hs : w'.shell = w.shell := by
        rcases fork_cases hp with ⟨-, -, rfl⟩ | ⟨-, -, -, rfl⟩ <;> rfl
      exact liveAt_shell (.piping _) hs hw
  | setPid b cmd pid =>
      cases hp
      exact liveAt_onCommand (.started b cmd pid) cmd (fun _ => rfl) hw
  | addTime b cmd pid duration =>
      cases hp
      refine ⟨⟨hw.1.current, hw.1.jobs, fun t ht => ?_⟩, hw.2⟩
      rcases TimesList.mem_insertByFinish.mp ht with rfl | ht
      · exact hw.2
      · exact hw.1.times t ht
  | sweep hpt =>
      cases r with
      | finished reaped =>
          obtain ⟨w₁, hw₁, he⟩ := Option.map_eq_some_iff.mp hp
          cases he
          exact liveAt_swept (Point.sweeps_of_removes hpt) hl hw hok hw₁
      | _ => cases hp
  | list cmd pid | listStopped cmd pid =>
      cases hp
      have hall := hw.1.addJob hw.2 pid
      exact ⟨hw.1.current, fun _ => hall _⟩
  | wait cmd pid =>
      obtain ⟨-, hs, -⟩ := waitpid_cases hp
      cases a with
      | stopped => exact liveAt_shell (.stopped cmd pid) hs hw
      | failed | ended => exact liveAt_shell .finished hs ⟨hw.1.current, fun _ => hw.1⟩
  | take e =>
      cases hp
      refine ⟨⟨hw.current, fun e' he' => ?_, hw.times⟩, hw.jobs e hl.2⟩
      rw [World.onJobs_jobs, hl.1.valid.removeJobById] at he'
      exact hw.jobs e' (List.mem_filter.mp he').1
  | raise e =>
      cases hp
      exact liveAt_onCommand (.raised e) e.cmd (fun _ => rfl) hw
  | front e =>
      cases hp
      refine ⟨⟨fun c hc => ?_, hw.1.jobs, hw.1.times⟩, hw.2⟩
      cases hc
      exact hw.2
  | cont e =>
      obtain ⟨rfl, ⟨rfl, -⟩ | ⟨rfl, -⟩⟩ := kill_eq hp
      · exact hw
      · exact ⟨hw.1.current, fun _ => hw.1⟩
  | waitAgain e =>
      obtain ⟨-, hs, -⟩ := waitpid_cases hp
      cases a with
      | stopped => exact liveAt_shell (.stoppedAgain e) hs hw
      | failed | ended => exact liveAt_shell .finished hs ⟨hw.1.current, fun _ => hw.1⟩
  | relist e =>
      cases hp
      have hperm := (hl.1.linked.valid.addJobWithId e.cmd e.pid true hl.1.pos hl.1.out).2
      refine ⟨hw.1.current, fun _ => hw.1.listed hw.2 _ fun e' he' => ?_⟩
      rcases List.mem_cons.mp (hperm.subset he') with rfl | he'
      · exact .inl rfl
      · exact .inr he'
  | signal e signum =>
      obtain ⟨rfl, -⟩ := kill_eq hp
      exact hw
  | flag e b =>
      cases hp
      refine ⟨hw.current, fun e' he' => ?_, hw.times⟩
      obtain ⟨e₀, he₀, rfl⟩ := List.mem_map.mp he'
      have := hw.jobs e₀ he₀
      split <;> exact this
  | waitPipe p pids =>
      obtain ⟨-, hs, -⟩ := waitpid_cases hp
      rw [Point.reapedTo]
      split
      · exact liveAt_shell .finished hs ⟨hw.current, fun _ => hw⟩
      · exact liveAt_shell (.piping pids) hs hw
  | lower cmd =>
      cases hp
      exact liveAt_onCommand .rest cmd (fun _ => rfl) hw
  | killEach e l =>
      obtain ⟨rfl, -⟩ := kill_eq hp
      exact hw
  | delete e l =>
      cases hp
      refine fun c hc => live_discard ?_ (hw c hc)
      rw [List.mem_singleton]
      rintro rfl
      exact hok hc
  | clear l =>
      cases hp
      exact hw
  | leave l =>
      cases hp
      exact ⟨hw, fun hr => by cases hr⟩

theorem liveAt_becomes {pt' : Point} (h : Becomes w pt pt') (hw : liveAt pt w) :
    liveAt pt' w := by
  cases h with
  | begin hr => exact hw.2 hr
  | drop b cmd => exact hw.1
  | choose e he => exact hw
  | keep e => exact hw
  | pipe => exact hw
  | piped => exact ⟨hw.current, fun _ => hw⟩
  | quit => exact hw.current
  | finish => exact ⟨hw.current, fun _ => hw⟩
  | lowering cmd hc => exact hw
  | none => exact hw

theorem liveAt_stable {op : Option Op} {e : Interrupt}
    (hpt : waiting op = true → pt.sweeps = true) (hl : linkedAt pt w) (hw : liveAt pt w)
    (hcalm : SparesInterrupt op w e) (hi : interrupt op w e = some w') : liveAt pt w' := by
  cases interrupt_cases hi with
  | child h => exact liveAt_shell pt (changeChild_shell h) hw
  | same h => exact liveAt_same h hw
  | lower cmd hc => exact liveAt_onCommand pt cmd (fun _ => rfl) hw
  | alarm hop hw₁ times htimes h =>
      have h₁ := liveAt_swept (hpt hop) hl hw hcalm hw₁
      refine liveAt_same h (liveAt_mono h₁ rfl (fun e he => ⟨e, he, rfl⟩) htimes.subset
        (fun _ hlive => hlive) rfl)

end

/-- What a statement relies on: the current command was not deleted, nor the
one whose flag is written; where finished jobs are removed, what is held was
not deleted and nothing is listed twice. -/
structure Usable (op : Op) (w : World) : Prop where
  current : CurrentLive w
  target : ∀ cmd foreground, op = .setForeground cmd foreground → Live w cmd
  sweep : op = .removeFinishedJobs ∨ waiting (some op) = true → AllLive w ∧ ∃ held, Linked held w

theorem usable {w : World} {pt : Point} {op : Op} {next : Resp op → Point}
    (h : Moves pt op next) (hl : linkedAt pt w) (hw : liveAt pt w) : Usable op w := by
  refine ⟨liveAt_current hw, ?_, ?_⟩
  · rintro cmd fg rfl
    cases h with
    | quiet _ hq => cases hq
    | background => exact hw.2
    | raise e => exact hw.2
    | lower => exact hw.1 cmd hl.2
  · rintro (rfl | hwait)
    · cases h with
      | quiet _ hq => cases hq
      | sweep hpt =>
          cases pt with
          | idle => exact ⟨hw, _, hl⟩
          | started | stopped => exact ⟨hw.1, _, hl.1⟩
          | stoppedAgain => exact ⟨hw.1, _, hl.1.linked⟩
          | _ => cases hpt
    · cases h with
      | quiet _ hq => cases hq <;> cases hwait
      | wait => exact ⟨hw.1, _, hl.1⟩
      | waitAgain => exact ⟨hw.1, _, hl.1.linked⟩
      | waitPipe => exact ⟨hw, _, hl⟩
      | _ => cases hwait

def liveOutline : Outline SparesReply SparesInterrupt Usable where
  inv pt w := linkedAt pt w ∧ liveAt pt w
  moves h hw := ⟨usable h hw.1 hw.2, fun _ _ _ hok hp =>
    ⟨linkedAt_moves h hw.1 hp, liveAt_moves h hw.1 hw.2 hok hp⟩⟩
  becomes h hw := ⟨linkedAt_becomes h hw.1, liveAt_becomes h hw.2⟩
  stable hpt hw hcalm hi := ⟨linkedAt_stable hpt hw.1 hi, liveAt_stable hpt hw.1 hw.2 hcalm hi⟩
  front hw := hw.1.2

/-- The alarm handler runs only where the shell waits. -/
theorem alarm_waiting {op : Option Op} {w w' : World} {reaped : List (Int × Int)}
    {exist killOk : Bool} (h : interrupt op w (.alarm reaped exist killOk) = some w') :
    waiting op = true ∧ (op = none → w.shell.run = true) := by
  unfold interrupt at h
  split at h
  · cases h
  rename_i hrun
  simp only at h
  split at h
  · rename_i hop
    refine ⟨hop.1, fun hnone => ?_⟩
    by_contra hf
    exact hrun ⟨hnone, Bool.eq_false_iff.mpr hf⟩
  · cases h

theorem AllLive.alarm {op : Option Op} {w w' : World} {reaped : List (Int × Int)}
    {exist killOk : Bool} {held : List Nat} (h : AllLive w) (hl : Linked held w)
    (hspare : Spares w reaped) (hi : interrupt op w (.alarm reaped exist killOk) = some w') :
    AllLive w' := by
  cases interrupt_cases hi with
  | same hs =>
      exact h.mono hs.currentCmd (fun e he => ⟨e, hs.jobs ▸ he, rfl⟩)
        (hs.times ▸ List.Subset.refl _) fun cmd hlive => hlive.congr (hs.object cmd)
  | alarm hop hw₁ times htimes hs =>
      refine (h.removed hl hspare hw₁).mono hs.currentCmd (fun e he => ⟨e, hs.jobs ▸ he, rfl⟩)
        (hs.times ▸ htimes.subset) fun cmd hlive => hlive.congr (hs.object cmd)

/-! ## Every run -/

/-- Every event of the run deletes only commands held by the jobs list. -/
def SparesAlong (c : Config) (es : List Event) : Prop :=
  Along smash.step (Loop.Meets SparesReply SparesInterrupt) c es

instance (c : Config) (es : List Event) : Decidable (SparesAlong c es) := by
  unfold SparesAlong
  infer_instance

/-- The event runs `removeFinishedJobs`. -/
def RemovesFinished (c : Config) : Event → Prop
  | .statement _ => c.prog.head = some .removeFinishedJobs
  | .interrupt (.alarm ..) => True
  | _ => False

theorem start_live (now : Int) (cwd : Text) : liveAt .rest (.start now cwd) := by
  refine ⟨?_, fun _ => ⟨?_, ?_, ?_⟩⟩ <;> simp [CurrentLive, World.start, JobsList.empty]

theorem allLive_after {c c' : Config} {e : Event}
    (hsound : Loop.Sound (rules SparesReply SparesInterrupt Usable) (liveOutline.inv .rest) c)
    (hremoves : RemovesFinished c e) (hmeets : Loop.Meets SparesReply SparesInterrupt c e)
    (hstep : smash.step c e = .ok c') : AllLive c'.state := by
  obtain ⟨w, p⟩ := c
  cases e with
  | input => cases hremoves
  | statement r =>
      cases p with
      | ret a => cases hremoves
      | call op next =>
          obtain rfl : op = .removeFinishedJobs := by
            simpa [RemovesFinished, Prog.head] using hremoves
          obtain ⟨hall, held, hl⟩ := (hsound.pre rfl).sweep (.inl rfl)
          obtain ⟨a, w', hp, rfl⟩ := Loop.step_statement hstep
          have hspare := hmeets _ rfl
          cases r with
          | finished reaped =>
              obtain ⟨w₁, hw₁, he⟩ := Option.map_eq_some_iff.mp hp
              cases he
              exact hall.removed hl hspare hw₁
          | _ => cases hp
  | interrupt e =>
      cases e with
      | alarm reaped exist killOk =>
          obtain ⟨w', hi, rfl⟩ := Loop.step_interrupt hstep
          obtain ⟨hwait, hidle⟩ := alarm_waiting hi
          cases p with
          | ret a =>
              obtain ⟨hl, -, hall⟩ := hsound.idle rfl
              exact (hall (hidle rfl)).alarm (hl (hidle rfl)) hmeets hi
          | call op next =>
              have hi : interrupt (some op) w (.alarm reaped exist killOk) = some w' := hi
              obtain ⟨hall, held, hl⟩ := (hsound.pre rfl).sweep (.inr hwait)
              exact hall.alarm hl hmeets hi
      | _ => cases hremoves

/-- **What the shell holds was not deleted**, in a run that spares what is
held: at every prompt and after every `removeFinishedJobs`; and in a turn, at
any moment, neither the current command was deleted nor the one whose flag is
written next. -/
theorem held_live (now : Int) (cwd : Text) (es : List Event) (c : Config)
    (hrun : smash.run (.start now cwd) es = .ok c)
    (hspare : SparesAlong (Loop.init (.start now cwd)) es) :
    (AtPrompt c → AllLive c.state) ∧
    (∀ e c', RemovesFinished c e → SparesAlong c [e] → smash.step c e = .ok c' →
      AllLive c'.state) ∧
    ∀ op, c.prog.head = some op → CurrentLive c.state ∧
      ∀ cmd foreground, op = .setForeground cmd foreground → Live c.state cmd := by
  have hsound := liveOutline.sound (c := Loop.init (.start now cwd))
    ⟨start_linked now cwd, start_live now cwd⟩ hspare hrun
  refine ⟨fun hc => (hsound.idle hc.1).2.2 hc.2, ?_, fun op hop => ?_⟩
  · exact fun e c' hremoves hmeets hstep => allLive_after hsound hremoves hmeets.1 hstep
  · obtain ⟨hcur, htarget, -⟩ := hsound.pre hop
    exact ⟨hcur, htarget⟩

/-- `b &`, as job 2, and job 1 ends. -/
def startSecond : List Event := .input "b &".toList ::
  ([.finished [], .done, .done, .done, .done, .pid 101, .done, .finished [], .done, .done,
    .done] : List Reply).map .statement ++ [.interrupt (.child 100 .ended)]

/-- `jobs`, where the main loop finds job 1 finished. -/
def listJobs : List Event := .input "jobs".toList ::
  [.finished [(1, 100)], .done, .done, .finished [], .done, .done].map .statement

set_option maxRecDepth 100000 in
/-- Job 2 was launched last, so job 1 can go. -/
theorem held_live_second : ∃ c : Config,
    smash.run (.start 0 []) (startJob ++ startSecond ++ listJobs) = .ok c ∧
    c.state.shell.jobs.jobsList = [⟨2, 101, 1, false⟩] ∧ AllLive c.state := by
  have hrun : smash.run (.start 0 []) (startJob ++ startSecond ++ listJobs) = .ok (Loop.init
      (stateAfter (.start 0 []) (startJob ++ startSecond ++ listJobs))) :=
    Loop.eq_of_view (by decide +kernel)
  exact ⟨_, hrun, by decide +kernel,
    (held_live 0 [] _ _ hrun (by decide +kernel)).1 ⟨rfl, by decide +kernel⟩⟩

set_option maxRecDepth 100000 in
/-- A job ends with no other launched since: the main loop deletes the command
that `current_cmd` holds, and lowers its flag. -/
theorem finished_job_deleted : ∃ c : Config,
    smash.run (.start 0 []) (startJob ++ .interrupt (.child 100 .ended) :: listJobs) = .ok c ∧
    AtPrompt c ∧ c.state.shell.currentCmd = some 0 ∧ ¬Live c.state 0 := by
  have hrun : smash.run (.start 0 []) (startJob ++ .interrupt (.child 100 .ended) :: listJobs) =
      .ok (Loop.init (stateAfter (.start 0 [])
        (startJob ++ .interrupt (.child 100 .ended) :: listJobs))) :=
    Loop.eq_of_view (by decide +kernel)
  exact ⟨_, hrun, ⟨rfl, by decide +kernel⟩, by decide +kernel, by decide +kernel⟩

end OsAllHw.Shell
