import Mathlib
import OsAllHw.Shell.Tracking

/-!
# Pids and failed forks

As long as no `fork` fails, the lists hold pids that a `fork` returned, and
every `kill` and `waitpid` of the commands is passed one. `executeCommand`
reports a failed `fork` and goes on with -1: it becomes the command's pid, the
pid of the entry a background command gets, and the argument of `waitpid` in
the foreground; the pipe waits for it as well.
-/

namespace OsAllHw.Shell

open Lib

/-- A positive pid that a `fork` returned. -/
def Forked (w : World) (pid : Int) : Prop := 0 < pid ∧ pid ∈ w.forked

/-- The entries of the lists. -/
structure ListsForked (w : World) : Prop where
  jobs : ∀ e ∈ w.shell.jobs.jobsList, Forked w e.pid
  times : ∀ t ∈ w.shell.times, Forked w t.pid

def CurrentForked (w : World) : Prop :=
  ∀ cmd ∈ w.shell.currentCmd, ∃ pid ∈ w.pidOf cmd, Forked w pid

/-- The pids a statement passes to `kill` or `waitpid`. -/
def pidsPassed : Op → World → List Int
  | .kill pid _, _ => [pid]
  | .waitpid pid _, _ => [pid]
  | .removeFinishedJobs, w => w.jobPids
  | _, _ => []

/-- The replies where no `fork` fails. -/
def ForkSucceeds : Op → World → Reply → Prop
  | .fork _, _, r => r ≠ .failed
  | _, _, _ => True

instance (op : Op) (w : World) (r : Reply) : Decidable (ForkSucceeds op w r) := by
  induction op using Op.casesOn with
  | fork _ => exact inferInstanceAs (Decidable (r ≠ .failed))
  | _ => exact .isTrue trivial

section

variable {w w' : World} {pt : Point}

theorem Forked.mono {pid : Int} (h : Forked w pid) (hf : w.forked ⊆ w'.forked) :
    Forked w' pid :=
  ⟨h.1, hf h.2⟩

theorem ListsForked.mono (h : ListsForked w) (hf : w.forked ⊆ w'.forked)
    (hjobs : ∀ e ∈ w'.shell.jobs.jobsList, ∃ e' ∈ w.shell.jobs.jobsList, e'.pid = e.pid)
    (htimes : w'.shell.times ⊆ w.shell.times) : ListsForked w' := by
  refine ⟨fun e he => ?_, fun t ht => (h.times t (htimes ht)).mono hf⟩
  obtain ⟨e', he', hpid⟩ := hjobs e he
  exact hpid ▸ (h.jobs e' he').mono hf

theorem CurrentForked.mono (h : CurrentForked w) (hf : w.forked ⊆ w'.forked)
    (hcur : w'.shell.currentCmd = w.shell.currentCmd)
    (hpid : ∀ c pid, w.pidOf c = some pid → w'.pidOf c = some pid) : CurrentForked w' := by
  intro cmd hc
  obtain ⟨pid, hpidOf, hforked⟩ := h cmd (hcur ▸ hc)
  exact ⟨pid, hpid cmd pid hpidOf, hforked.mono hf⟩

/-- One more entry. -/
theorem ListsForked.listed (h : ListsForked w) {pid : Int} (hpid : Forked w pid)
    (j : JobsList → JobsList)
    (hj : ∀ e ∈ (j w.shell.jobs).jobsList, e.pid = pid ∨ e ∈ w.shell.jobs.jobsList) :
    ListsForked (w.onJobs j) := by
  refine ⟨fun e he => ?_, h.times⟩
  rcases hj e he with rfl | he
  · exact hpid
  · exact h.jobs e he

/-! ## The outline -/

/-- What is added to the base assertions: the lists hold pids that were
forked, and the current command has one, but between `SetCommand` and
`SetPid`. -/
def forkedAt : Point → World → Prop
  | .rest, w => ListsForked w ∧ CurrentForked w
  | .idle, w => ListsForked w ∧ CurrentForked w
  | .created _ _, w => ListsForked w ∧ CurrentForked w
  | .current _ _, w => ListsForked w
  | .forked _ _ pid, w => ListsForked w ∧ Forked w pid
  | .started _ _ pid, w => ListsForked w ∧ Forked w pid
  | .stopped _ pid, w => ListsForked w ∧ Forked w pid
  | .chosen _, w => ListsForked w ∧ CurrentForked w
  | .taken e, w => ListsForked w ∧ Forked w e.pid
  | .raised e, w => ListsForked w ∧ Forked w e.pid
  | .resumed e, w => ListsForked w ∧ Forked w e.pid
  | .stoppedAgain e, w => ListsForked w ∧ Forked w e.pid
  | .piping pids, w => (ListsForked w ∧ CurrentForked w) ∧ ∀ p ∈ pids, Forked w p
  | .quitting l, w => (ListsForked w ∧ CurrentForked w) ∧ ∀ e ∈ l, Forked w e.pid
  | .finished, w => ListsForked w ∧ CurrentForked w
  | .lowering _, w => ListsForked w ∧ CurrentForked w

theorem forkedAt_lists (h : forkedAt pt w) : ListsForked w := by
  cases pt with
  | current => exact h
  | piping | quitting => exact h.1.1
  | _ => exact h.1

theorem forkedAt_mono (h : forkedAt pt w) (hf : w.forked ⊆ w'.forked)
    (hcur : w'.shell.currentCmd = w.shell.currentCmd)
    (hpid : ∀ c pid, w.pidOf c = some pid → w'.pidOf c = some pid)
    (hjobs : ∀ e ∈ w'.shell.jobs.jobsList, ∃ e' ∈ w.shell.jobs.jobsList, e'.pid = e.pid)
    (htimes : w'.shell.times ⊆ w.shell.times) : forkedAt pt w' := by
  have hl : ListsForked w → ListsForked w' := fun h => h.mono hf hjobs htimes
  have hc : ListsForked w ∧ CurrentForked w → ListsForked w' ∧ CurrentForked w' :=
    fun h => ⟨hl h.1, h.2.mono hf hcur hpid⟩
  cases pt with
  | rest | idle | created | chosen | finished | lowering => exact hc h
  | current => exact hl h
  | forked | started | stopped => exact ⟨hl h.1, h.2.mono hf⟩
  | taken | raised | resumed | stoppedAgain => exact ⟨hl h.1, h.2.mono hf⟩
  | piping | quitting => exact ⟨hc h.1, fun x hx => (h.2 x hx).mono hf⟩

theorem forkedAt_same (hs : w.Same w') (h : forkedAt pt w) : forkedAt pt w' :=
  forkedAt_mono h (hs.forked ▸ List.Subset.refl _) hs.currentCmd
    (fun c pid hp => by rwa [World.pidOf, hs.object]) (fun e he => ⟨e, hs.jobs ▸ he, rfl⟩)
    (hs.times ▸ List.Subset.refl _)

/-- Only the children differ, and what was waited for. -/
theorem forkedAt_shell (pt : Point) (hs : w'.shell = w.shell) (hf : w'.forked = w.forked)
    (h : forkedAt pt w) : forkedAt pt w' :=
  forkedAt_mono h (hf ▸ List.Subset.refl _) (congrArg _ hs)
    (fun c pid hp => by rwa [World.pidOf, World.object, hs]) (fun e he => ⟨e, hs ▸ he, rfl⟩)
    (hs ▸ List.Subset.refl _)

theorem forkedAt_foreground (pt : Point) (cmd : Nat) (fg : Bool) (h : forkedAt pt w) :
    forkedAt pt (w.onCommand cmd fun obj => { obj with foreground := fg }) := by
  refine forkedAt_mono h (List.Subset.refl _) rfl (fun c pid hp => ?_) (fun e he => ⟨e, he, rfl⟩)
    (List.Subset.refl _)
  rw [World.pidOf_onCommand]
  split <;> exact hp

theorem forkedAt_removed {reaped : List (Int × Int)} (h : forkedAt pt w)
    (hw : w.removeFinishedJobs reaped = some w') : forkedAt pt w' := by
  obtain ⟨erased, hr⟩ := removed hw
  refine forkedAt_mono h (hr.forked ▸ List.Subset.refl _) hr.currentCmd (fun c pid hp => ?_)
    (fun e he => ⟨e, hr.jobs e he, rfl⟩) (hr.times ▸ List.Subset.refl _)
  rw [World.pidOf, hr.object, ← World.pidOf, World.pidOf_discard, hp]

theorem CurrentForked.of_eq {cmd : Nat} {pid : Int} (hcur : w.shell.currentCmd = some cmd)
    (hpid : w.pidOf cmd = some pid) (h : Forked w pid) : CurrentForked w := by
  intro c hc
  obtain rfl : cmd = c := Option.some.inj (hcur.symm.trans hc)
  exact ⟨pid, hpid, h⟩

theorem forkedAt_moves {op : Op} {next : Resp op → Point} {r : Reply} {a : Resp op}
    (h : Moves pt op next) (hl : linkedAt pt w) (hw : forkedAt pt w) (hok : ForkSucceeds op w r)
    (hp : perform op w r = some (a, w')) : forkedAt (next a) w' := by
  cases h with
  | quiet _ hq => exact forkedAt_same (perform_quiet hq hp) hw
  | forkFailed => exact forkedAt_same (perform_quiet (.error _) hp) hw
  | new kind cmdLine =>
      have hpid : ∀ c pid, w.pidOf c = some pid → w'.pidOf c = some pid :=
        fun _ _ => World.pidOf_new (Option.some.inj hp)
      cases hp
      exact ⟨hw.1.mono (List.Subset.refl _) (fun e he => ⟨e, he, rfl⟩) (List.Subset.refl _),
        hw.2.mono (List.Subset.refl _) rfl hpid⟩
  | background cmd =>
      cases hp
      exact forkedAt_foreground (.created true cmd) cmd false hw
  | setCommand b cmd =>
      cases hp
      exact hw.1.mono (List.Subset.refl _) (fun e he => ⟨e, he, rfl⟩) (List.Subset.refl _)
  | fork b cmd =>
      rcases fork_cases hp with ⟨rfl, -⟩ | ⟨-, hpos, -, rfl⟩
      · exact absurd rfl hok
      · have hf : w.forked ⊆ w.forked ++ [a] := List.subset_append_left ..
        exact ⟨hw.mono hf (fun e he => ⟨e, he, rfl⟩) (List.Subset.refl _), hpos, by simp⟩
  | forkPipe pids =>
      rcases fork_cases hp with ⟨rfl, -⟩ | ⟨-, hpos, -, rfl⟩
      · exact absurd rfl hok
      · have hf : w.forked ⊆ w.forked ++ [a] := List.subset_append_left ..
        refine ⟨⟨hw.1.1.mono hf (fun e he => ⟨e, he, rfl⟩) (List.Subset.refl _),
          hw.1.2.mono hf rfl fun _ _ hp => hp⟩, fun p hp => ?_⟩
        rcases List.mem_append.mp hp with hp | hp
        · exact (hw.2 p hp).mono hf
        · rw [List.mem_singleton.mp hp]
          exact ⟨hpos, by simp⟩
  | setPid b cmd pid =>
      cases hp
      exact ⟨hw.1.mono (List.Subset.refl _) (fun e he => ⟨e, he, rfl⟩) (List.Subset.refl _), hw.2⟩
  | addTime b cmd pid duration =>
      cases hp
      refine ⟨⟨hw.1.jobs, fun t ht => ?_⟩, hw.2⟩
      rcases TimesList.mem_insertByFinish.mp ht with rfl | ht
      · exact hw.2
      · exact hw.1.times t ht
  | sweep hpt =>
      cases r with
      | finished reaped =>
          obtain ⟨w₁, hw₁, he⟩ := Option.map_eq_some_iff.mp hp
          cases he
          exact forkedAt_removed hw hw₁
      | _ => cases hp
  | list cmd pid | listStopped cmd pid =>
      cases hp
      refine ⟨hw.1.listed hw.2 _ fun e he => ?_, .of_eq hl.2.1 hl.2.2 hw.2⟩
      rcases List.mem_append.mp he with he | he
      · exact .inr he
      · exact .inl (List.mem_singleton.mp he ▸ rfl)
  | wait cmd pid =>
      obtain ⟨-, hs, hf, -⟩ := waitpid_cases hp
      cases a with
      | stopped => exact forkedAt_shell (.stopped cmd pid) hs hf hw
      | failed | ended =>
          exact forkedAt_shell .finished hs hf ⟨hw.1, .of_eq hl.2.1 hl.2.2 hw.2⟩
  | take e =>
      cases hp
      refine ⟨⟨fun e' he' => ?_, hw.1.times⟩, hw.1.jobs e hl.2⟩
      rw [World.onJobs_jobs, hl.1.valid.removeJobById] at he'
      exact hw.1.jobs e' (List.mem_filter.mp he').1
  | raise e =>
      cases hp
      exact forkedAt_foreground (.raised e) e.cmd true hw
  | front e =>
      cases hp
      exact ⟨hw.1.mono (List.Subset.refl _) (fun e he => ⟨e, he, rfl⟩) (List.Subset.refl _), hw.2⟩
  | cont e =>
      obtain ⟨rfl, ⟨rfl, -⟩ | ⟨rfl, -⟩⟩ := kill_eq hp
      · exact hw
      · exact ⟨hw.1, .of_eq hl.2 hl.1.pid hw.2⟩
  | waitAgain e =>
      obtain ⟨-, hs, hf, -⟩ := waitpid_cases hp
      cases a with
      | stopped => exact forkedAt_shell (.stoppedAgain e) hs hf hw
      | failed | ended =>
          exact forkedAt_shell .finished hs hf ⟨hw.1, .of_eq hl.2 hl.1.pid hw.2⟩
  | relist e =>
      cases hp
      have hperm := (hl.1.linked.valid.addJobWithId e.cmd e.pid true hl.1.pos hl.1.out).2
      refine ⟨hw.1.listed hw.2 _ fun e' he' => ?_, .of_eq hl.2 hl.1.pid hw.2⟩
      rcases List.mem_cons.mp (hperm.subset he') with rfl | he'
      · exact .inl rfl
      · exact .inr he'
  | signal e signum =>
      obtain ⟨rfl, -⟩ := kill_eq hp
      exact hw
  | flag e b =>
      cases hp
      refine ⟨⟨fun e' he' => ?_, hw.1.times⟩, hw.2⟩
      obtain ⟨e₀, he₀, rfl⟩ := List.mem_map.mp he'
      have := hw.1.jobs e₀ he₀
      split <;> exact this
  | waitPipe p pids =>
      obtain ⟨-, hs, hf, -⟩ := waitpid_cases hp
      rw [Point.reapedTo]
      split
      · exact forkedAt_shell .finished hs hf hw.1
      · exact forkedAt_shell (.piping pids) hs hf ⟨hw.1, fun x hx => hw.2 x (by simp [hx])⟩
  | lower cmd =>
      cases hp
      exact forkedAt_foreground .rest cmd false hw
  | killEach e l =>
      obtain ⟨rfl, -⟩ := kill_eq hp
      exact hw
  | delete e l =>
      cases hp
      obtain ⟨⟨hlists, hcur⟩, hpids⟩ := hw
      have hf : w.forked ⊆ (w.discard [e.cmd]).forked := List.Subset.refl _
      refine ⟨⟨hlists.mono hf (fun e' he' => ⟨e', he', rfl⟩) (List.Subset.refl _),
        hcur.mono hf rfl fun c pid hp => ?_⟩, fun e' he' => (hpids e' (by simp [he'])).mono hf⟩
      rw [World.pidOf_discard, hp]
  | clear l =>
      cases hp
      exact ⟨⟨⟨by simp, hw.1.1.times⟩, hw.1.2⟩, by simp⟩
  | leave l =>
      cases hp
      exact ⟨hw.1.1.mono (List.Subset.refl _) (fun e he => ⟨e, he, rfl⟩) (List.Subset.refl _),
        hw.1.2.mono (List.Subset.refl _) rfl fun _ _ hp => hp⟩

theorem forkedAt_becomes {pt' : Point} (h : Becomes w pt pt') (hw : forkedAt pt w) :
    forkedAt pt' w := by
  cases h with
  | begin hr => exact hw
  | drop b cmd => exact hw
  | choose e he => exact hw
  | keep e => exact hw
  | pipe => exact ⟨hw, by simp⟩
  | piped => exact hw.1
  | quit l hl => exact ⟨hw, hl ▸ hw.1.jobs⟩
  | finish => exact hw
  | lowering cmd hc => exact hw
  | none => exact hw

theorem forkedAt_stable {op : Option Op} {e : Interrupt} (hw : forkedAt pt w)
    (hi : interrupt op w e = some w') : forkedAt pt w' := by
  cases interrupt_cases hi with
  | child h =>
      refine forkedAt_shell pt (changeChild_shell h) ?_ hw
      rw [World.changeChild] at h
      split at h <;> cases h
      rfl
  | same h => exact forkedAt_same h hw
  | lower cmd hc => exact forkedAt_foreground pt cmd false hw
  | alarm hop hw₁ times htimes h =>
      refine forkedAt_same h (forkedAt_mono (forkedAt_removed hw hw₁) (List.Subset.refl _) rfl
        (fun _ _ hp => hp) (fun e he => ⟨e, he, rfl⟩) htimes.subset)

/-- The lists hold forked pids, and what is passed to `kill` and `waitpid` is
one. -/
def PassesForked (op : Op) (w : World) : Prop :=
  ListsForked w ∧ ∀ p ∈ pidsPassed op w, Forked w p

theorem passesForked {op : Op} {next : Resp op → Point} (h : Moves pt op next)
    (hl : linkedAt pt w) (hw : forkedAt pt w) : PassesForked op w := by
  refine ⟨forkedAt_lists hw, fun p hp => ?_⟩
  cases h with
  | quiet _ hq => cases hq <;> simp [pidsPassed] at hp
  | sweep hpt =>
      obtain ⟨e, he, rfl⟩ := List.mem_map.mp hp
      exact (forkedAt_lists hw).jobs e he
  | wait | cont | waitAgain => exact List.mem_singleton.mp hp ▸ hw.2
  | signal e => exact List.mem_singleton.mp hp ▸ hw.1.jobs e hl.2
  | waitPipe | killEach =>
      rw [List.mem_singleton.mp hp]
      exact hw.2 _ (by simp)
  | _ => simp [pidsPassed] at hp

end

def forkedOutline : Outline ForkSucceeds anyInterrupt PassesForked where
  inv pt w := linkedAt pt w ∧ forkedAt pt w
  moves h hw := ⟨passesForked h hw.1 hw.2, fun _ _ _ hok hp =>
    ⟨linkedAt_moves h hw.1 hp, forkedAt_moves h hw.1 hw.2 hok hp⟩⟩
  becomes h hw := ⟨linkedAt_becomes h hw.1, forkedAt_becomes h hw.2⟩
  stable hpt hw _ hi := ⟨linkedAt_stable hpt hw.1 hi, forkedAt_stable hw.2 hi⟩
  front hw := hw.1.2

/-! ## Every run -/

/-- No `fork` of the run fails. -/
def ForksAlong (c : Config) (es : List Event) : Prop :=
  Along smash.step (Loop.Meets ForkSucceeds anyInterrupt) c es

instance (c : Config) (es : List Event) : Decidable (ForksAlong c es) := by
  unfold ForksAlong
  infer_instance

theorem start_forked (now : Int) (cwd : Text) : forkedAt .rest (.start now cwd) := by
  refine ⟨⟨?_, ?_⟩, ?_⟩ <;> simp [CurrentForked, World.start, JobsList.empty]

/-- `a &`, and `fork` fails. -/
def startFails : List Event := .input "a &".toList ::
  [.finished [], .done, .done, .done, .done, .failed, .done, .done, .finished [], .done, .done,
    .done].map .statement

end OsAllHw.Shell
