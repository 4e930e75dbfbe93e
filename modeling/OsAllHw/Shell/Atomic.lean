import OsAllHw.Shell.JobCommands

/-!
# Failing job commands

`fg`, `bg` and `kill` check their arguments, look a job up and send it a
signal, each of which can fail. `bg` and `kill` touch the list only after the
last of these; `fg` takes the job out before it sends the signal.
-/

namespace OsAllHw.Shell

open Lib

/-- An error was written, other than that of `fg`'s `waitpid`. -/
def Failed (t : Calls) : Prop :=
  ∃ msg, Wrote msg t ∧ msg ≠ "smash error: waitpid failed".toList

/-- `fg` finds a stopped job, and the `kill` that is to wake it fails. -/
def WakeFails (args : List Text) (w : World) (t : Calls) : Prop :=
  ∃ e, fgJob args w.shell.jobs = some e ∧ e.isStopped = true ∧ ⟨.kill e.pid sigcont, -1⟩ ∈ t

/-- Calls that send no signal, and write no error but that of `waitpid`. -/
structure Harmless (op : Op) : Prop where
  kill : ∀ pid signum, op ≠ .kill pid signum
  error : ∀ msg, op = .error msg → msg = "smash error: waitpid failed".toList

/-! ## The list -/

/-- **A listed job taken out is missed.** -/
theorem removeJobById_ne {j : JobsList} {e : JobEntry} (he : e ∈ j.jobsList) :
    j.removeJobById e.jobId ≠ j := by
  have hsome : (j.jobsList.find? fun e' => e'.jobId = e.jobId).isSome := by
    rw [List.find?_isSome]
    exact ⟨e, he, by simp⟩
  obtain ⟨e', hfind⟩ := Option.isSome_iff_exists.mp hsome
  have hshort : (j.removeJobById e.jobId).jobsList =
      j.jobsList.eraseP fun e' => e'.jobId = e.jobId := by
    simp only [JobsList.removeJobById, hfind]
    split
    · rfl
    · split <;> rfl
  intro heq
  have hlen := congrArg (fun j => j.jobsList.length) heq
  have herase : (j.jobsList.eraseP fun e' => e'.jobId = e.jobId).length =
      j.jobsList.length - 1 := List.length_eraseP_of_mem he (by simp)
  rw [hshort] at hlen
  have := List.length_pos_of_mem he
  omega

/-! ## Executions -/

section

variable {w w' : World} {t : Calls}

theorem failed_cons {op : Op} {r : Resp op} (h : ∀ msg, op ≠ .error msg) :
    Failed (⟨op, r⟩ :: t) ↔ Failed t := by
  refine exists_congr fun msg => and_congr_left fun _ => ?_
  simp only [Wrote, List.mem_cons]
  exact or_iff_right fun he => h msg (congrArg Sigma.fst he).symm

theorem failed_append {t₀ : Calls} (h : ∀ x ∈ t₀, Looks x.1) :
    Failed (t₀ ++ t) ↔ Failed t := by
  refine exists_congr fun msg => and_congr_left fun _ => ?_
  simp only [Wrote, List.mem_append]
  refine or_iff_right fun he => ?_
  cases h _ he

theorem failed_error {msg : Text} (h : msg ≠ "smash error: waitpid failed".toList) :
    Failed (⟨.error msg, ()⟩ :: t) :=
  ⟨msg, by simp [Wrote], h⟩

/-- A harmless program neither fails nor sends. -/
theorem harmless_calls {α : Type} {p : Code α} {a : α} (hp : p.All Harmless)
    (h : Executed p w t a w') : ¬Failed t ∧ ∀ pid signum r, ⟨.kill pid signum, r⟩ ∉ t := by
  have hcalls := hp.calls h
  constructor
  · rintro ⟨msg, hwrote, hmsg⟩
    exact hmsg ((hcalls _ hwrote).error msg rfl)
  · intro pid signum r hmem
    exact (hcalls _ hmem).kill pid signum rfl

/-- **A signal, and the list changed after it**: a failure leaves it alone. -/
theorem signal_atomic {pid signum : Int} {p : Code Unit} (hp : p.All Harmless)
    (h : Executed (do
      if (← call (.kill pid signum)) = -1 then error "smash error: kill failed" else p) w t () w')
    (hfailed : Failed t) : w'.shell.jobs = w.shell.jobs := by
  obtain ⟨-, hjobs⟩ | ⟨w₁, t', rfl, -, hrest⟩ := signal_does h
  · exact hjobs
  · rw [failed_cons (by simp)] at hfailed
    exact absurd hfailed (harmless_calls hp hrest).1

theorem SetsFlag.harmless {op : Op} (h : SetsFlag op) : Harmless op := by
  obtain ⟨jobId, b, rfl⟩ := h
  exact ⟨by simp, by simp⟩

/-- **`kill` is atomic.** -/
theorem killCommand_atomic {args : List Text} (h : Executed (killCommand args) w t () w')
    (hfailed : Failed t) : w'.shell.jobs = w.shell.jobs := by
  obtain hrefuses | ⟨w₁, e, signum, p, t₀, t', -, hjobs, rfl, ht₀, hp, h₁⟩ := killCommand_does h
  · exact hrefuses.jobs
  · rw [failed_append ht₀] at hfailed
    rw [← hjobs]
    exact signal_atomic (hp.mono fun _ => SetsFlag.harmless) h₁ hfailed

/-- **`bg` is atomic.** -/
theorem backgroundCommand_atomic {args : List Text}
    (h : Executed (backgroundCommand args) w t () w') (hfailed : Failed t) :
    w'.shell.jobs = w.shell.jobs := by
  obtain hrefuses | ⟨w₁, e, t', -, hjobs, rfl, h₁⟩ := backgroundCommand_does h
  · exact hrefuses.jobs
  · rw [failed_cons (by simp)] at hfailed
    rw [← hjobs]
    exact signal_atomic (.perform (SetsFlag.harmless ⟨_, _, rfl⟩)) h₁ hfailed

theorem AwaitCall.harmless {op : Op} (h : AwaitCall op) : Harmless op := by
  cases h with
  | failed => exact ⟨by simp, by rintro _ ⟨⟩; rfl⟩
  | _ => exact ⟨by simp, by simp⟩

/-- **`fg` from the lookup on**: it fails where it cannot wake the job, which is
out of the list by then. -/
theorem bringForward_does {curJob : JobEntry} (h : Executed (bringForward curJob) w t () w') :
    (¬Failed t ∧ (curJob.isStopped = true → ⟨.kill curJob.pid sigcont, -1⟩ ∉ t)) ∨
    (curJob.isStopped = true ∧ ⟨.kill curJob.pid sigcont, -1⟩ ∈ t ∧ Failed t ∧
      w'.shell.jobs = w.shell.jobs.removeJobById curJob.jobId) := by
  obtain ⟨w₁, t₁, rfl, hjobs, h₁⟩ := bringForward_starts h
  have hawait : (awaitJob curJob).All Harmless :=
    (awaitJob_calls curJob).mono fun _ => AwaitCall.harmless
  rw [failed_cons (by simp), failed_cons (by simp), failed_cons (by simp)]
  split at h₁
  · rename_i hstopped
    obtain ⟨rfl, hsame⟩ | ⟨w₂, t₂, rfl, -, h₂⟩ := signal_does h₁
    · refine .inr ⟨hstopped, by simp, ?_, hsame.trans hjobs⟩
      rw [failed_cons (by simp)]
      exact failed_error (by decide)
    · obtain ⟨hno, hsends⟩ := harmless_calls hawait h₂
      exact .inl ⟨by rwa [failed_cons (by simp)], fun _ => by simp [hsends]⟩
  · rename_i hstopped
    obtain ⟨hno, hsends⟩ := harmless_calls hawait h₁
    exact .inl ⟨hno, fun hs => absurd hs hstopped⟩

/-- **Job-control commands are atomic on failure**, except for a `fg` that
cannot wake a stopped job. -/
theorem job_command_atomic {kind : Kind} {args : List Text}
    (hkind : kind = .fg ∨ kind = .bg ∨ kind = .kill)
    (h : Executed (execute kind args) w t () w') :
    (Failed t → w'.shell.jobs = w.shell.jobs) ↔ ¬(kind = .fg ∧ WakeFails args w t) := by
  obtain rfl | rfl | rfl := hkind
  · obtain ⟨hnone, hrefuses⟩ | ⟨w₁, e, t', hsome, hjobs, rfl, hfg⟩ := foregroundCommand_does h
    · refine iff_of_true (fun _ => hrefuses.jobs) ?_
      rintro ⟨-, e, hsome, -⟩
      cases hnone.symm.trans hsome
    rw [failed_cons (by simp), ← hjobs]
    obtain ⟨hno, hwoken⟩ | ⟨hstopped, hkill, hfailed, hlist⟩ := bringForward_does hfg
    · refine iff_of_true (fun hfailed => absurd hfailed hno) ?_
      rintro ⟨-, e', hsome', hstopped, hkill⟩
      obtain rfl := Option.some.inj (hsome.symm.trans hsome')
      exact hwoken hstopped (by simpa using hkill)
    · refine iff_of_false (fun hsame => ?_) (not_not.mpr ⟨rfl, e, hsome, hstopped, by simp [hkill]⟩)
      have hmem : e ∈ w₁.shell.jobs.jobsList := hjobs ▸ fgJob_mem hsome
      exact removeJobById_ne hmem (hlist.symm.trans (hsame hfailed))
  · exact iff_of_true (backgroundCommand_atomic h) (by simp)
  · exact iff_of_true (killCommand_atomic h) (by simp)

end

/-- One job, stopped, of a command that is still allocated. -/
def oneStopped : World :=
  (World.start 0 []).setVars fun v => { v with
    commands := [⟨.external, "a".toList, false, 100, false⟩]
    jobs := ⟨[⟨1, 100, 0, true⟩], 1⟩ }

/-- `bg` there, when the signal cannot be sent. -/
def bgFails : Calls :=
  [⟨.get, oneStopped.shell⟩, ⟨.kill 100 sigcont, -1⟩,
    ⟨.error "smash error: kill failed".toList, ()⟩]

theorem bgFails_executed :
    Executed (execute .bg ["bg".toList]) oneStopped bgFails () oneStopped := by
  have hfollow : (execute .bg ["bg".toList]).follow perform oneStopped [.done, .failed, .done] =
      some (bgFails, (), oneStopped) := by decide +kernel
  exact executed_of_follow hfollow

theorem job_command_atomic_bg : Failed bgFails ∧
    ((Failed bgFails → oneStopped.shell.jobs = oneStopped.shell.jobs) ↔
      ¬(Kind.bg = .fg ∧ WakeFails ["bg".toList] oneStopped bgFails)) :=
  ⟨⟨"smash error: kill failed".toList, by simp [Wrote, bgFails], by decide⟩,
    job_command_atomic (.inr (.inl rfl)) bgFails_executed⟩

/-- What `fg` leaves there when the signal cannot be sent. -/
def fgLeaves : World :=
  oneStopped.setVars fun v => { v with
    currentCmd := some 0
    commands := [⟨.external, "a".toList, true, 100, false⟩]
    jobs := .empty }

/-- **`fg` loses a job it cannot wake**: an error, and the list is empty. -/
theorem fg_loses_job : ∃ t, Executed (execute .fg ["fg".toList]) oneStopped t () fgLeaves ∧
    Failed t ∧ oneStopped.shell.jobs.jobsList = [⟨1, 100, 0, true⟩] ∧
    fgLeaves.shell.jobs.jobsList = [] := by
  have hfollow : (execute .fg ["fg".toList]).follow perform oneStopped
      [.done, .done, .done, .done, .failed, .done] =
      some ([⟨.get, oneStopped.shell⟩, ⟨.removeJobById 1, ()⟩, ⟨.setForeground 0 true, ()⟩,
        ⟨.setCommand 0, ()⟩, ⟨.kill 100 sigcont, -1⟩,
        ⟨.error "smash error: kill failed".toList, ()⟩], (), fgLeaves) := by decide +kernel
  exact ⟨_, executed_of_follow hfollow,
    ⟨"smash error: kill failed".toList, by simp [Wrote], by decide⟩, rfl, rfl⟩

end OsAllHw.Shell
