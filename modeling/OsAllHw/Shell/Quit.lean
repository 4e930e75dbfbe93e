import OsAllHw.Shell.JobCommands

/-!
# quit

An execution of `quit` from its calls: which jobs it kills, which commands it
deletes, and what it leaves of the list. The loop of `killAllJobs` returns at
the first signal that cannot be sent; the shell ends all the same.
-/

namespace OsAllHw.Shell

open Lib

/-- A job killed and its command deleted. -/
def killed (e : JobEntry) : Calls := [⟨.kill e.pid sigkill, 0⟩, ⟨.deleteCommand e.cmd, ()⟩]

/-- A job that cannot be killed. -/
def unkilled (e : JobEntry) : Calls :=
  [⟨.kill e.pid sigkill, -1⟩, ⟨.error "smash error: kill failed".toList, ()⟩]

def deleted (e : JobEntry) : Done Op Resp := ⟨.deleteCommand e.cmd, ()⟩

/-- `quit kill`, and no other word. -/
def QuitKills (args : List Text) : Prop := args.length = 2 ∧ args.getD 1 [] = "kill".toList

/-- **How the jobs end**: with `kill` or without, the calls for it, and the
list that is left. -/
inductive JobsEnd (jobs : JobsList) : Prop → Calls → JobsList → Prop where
  | deleted {kills : Prop} (hkills : ¬kills) : JobsEnd jobs kills
      (jobs.jobsList.map deleted ++ [⟨.clearJobs, ()⟩]) { jobs with jobsList := [] }
  | killed {kills : Prop} (hkills : kills) : JobsEnd jobs kills
      (jobs.jobsList.flatMap killed ++ [⟨.clearJobs, ()⟩]) { jobs with jobsList := [] }
  /-- The commands of `front` are deleted, and stay in the list. -/
  | refused {kills : Prop} {front back : List JobEntry} {e : JobEntry} (hkills : kills)
      (hlist : jobs.jobsList = front ++ e :: back) :
      JobsEnd jobs kills (front.flatMap killed ++ unkilled e) jobs

section

variable {w w' : World} {t : Calls} {l : List JobEntry}

theorem deleteCommand_jobs {cmd : Nat} {w₁ : World} (hw₁ : Undisturbed (.deleteCommand cmd) w w₁) :
    (w₁.discard [cmd]).shell.jobs = w.shell.jobs := hw₁.jobs rfl

/-- **The loop of `killAllJobs`**, up to the first signal that fails. -/
theorem killEach_does {ended : Bool} (h : Executed (killEach l) w t ended w') :
    w'.shell.jobs = w.shell.jobs ∧
      (ended = true ∧ t = l.flatMap killed ∨
        ended = false ∧ ∃ front e back, l = front ++ e :: back ∧
          t = front.flatMap killed ++ unkilled e) := by
  induction l generalizing w t with
  | nil =>
      obtain ⟨rfl, rfl, rfl⟩ := Exec.ret_iff.mp h
      exact ⟨rfl, .inl ⟨rfl, rfl⟩⟩
  | cons e rest ih =>
      obtain ⟨w₁, r, n, w₂, t', hw₁, hkill, rfl, hrest⟩ := executed_call h
      obtain ⟨n', hn', heq⟩ := Option.map_eq_some_iff.mp hkill
      cases heq
      have hjobs₁ : w₁.shell.jobs = w.shell.jobs := hw₁.jobs rfl
      split at hrest
      · rename_i hn
        subst hn
        obtain ⟨t₁, t₂, a, w₃, rfl, herr, hret⟩ := Exec.bind_iff.mp hrest
        obtain ⟨-, hjobs₂, rfl⟩ := executed_error herr
        obtain ⟨rfl, rfl, rfl⟩ := Exec.ret_iff.mp hret
        exact ⟨hjobs₂.trans hjobs₁, .inr ⟨rfl, [], e, rest, rfl, rfl⟩⟩
      · rename_i hn
        have hzero : n = 0 := by
          cases r <;> cases hn' <;> first | rfl | exact absurd rfl hn
        subst hzero
        obtain ⟨w₂, r₂, a, w₃, t₂, hw₂, hdelete, rfl, hloop⟩ := executed_call hrest
        cases hdelete
        obtain ⟨hjobs, hcases⟩ := ih hloop
        refine ⟨hjobs.trans ((deleteCommand_jobs hw₂).trans hjobs₁), ?_⟩
        obtain ⟨hended, rfl⟩ | ⟨hended, front, e', back, rfl, rfl⟩ := hcases
        · exact .inl ⟨hended, rfl⟩
        · exact .inr ⟨hended, e :: front, e', back, rfl, rfl⟩

/-- **The loop of `clearJobsList`.** -/
theorem deleteEach_does (h : Executed (deleteEach l) w t () w') :
    w'.shell.jobs = w.shell.jobs ∧ t = l.map deleted := by
  induction l generalizing w t with
  | nil =>
      obtain ⟨rfl, -, rfl⟩ := Exec.ret_iff.mp h
      exact ⟨rfl, rfl⟩
  | cons e rest ih =>
      obtain ⟨w₁, r, a, w₂, t', hw₁, hdelete, rfl, hloop⟩ := executed_call h
      cases hdelete
      obtain ⟨hjobs, rfl⟩ := ih hloop
      exact ⟨hjobs.trans (deleteCommand_jobs hw₁), rfl⟩

theorem clearJobs_does (h : Executed (call .clearJobs) w t () w') :
    w'.shell.jobs = { w.shell.jobs with jobsList := [] } ∧ t = [⟨.clearJobs, ()⟩] := by
  obtain ⟨w₁, r, hw₁, hp, rfl⟩ := executed_last h
  cases hp
  exact ⟨congrArg (fun j => { j with jobsList := [] }) (hw₁.jobs rfl), rfl⟩

/-- **The jobs under `quit`.** -/
theorem endJobs_does {args : List Text} (h : Executed (endJobs args) w t () w') :
    ∃ v t', v.jobs = w.shell.jobs ∧ t = ⟨.get, v⟩ :: t' ∧
      JobsEnd w.shell.jobs (QuitKills args) t' w'.shell.jobs := by
  unfold endJobs at h
  split at h
  · rename_i hkills
    obtain ⟨w₁, t', hw₁, rfl, hrest⟩ := executed_get h
    have hjobs₁ : w₁.shell.jobs = w.shell.jobs := hw₁.jobs rfl
    refine ⟨_, t', hjobs₁, rfl, ?_⟩
    obtain ⟨t₁, t₂, ended, w₂, rfl, hloop, hclear⟩ := Exec.bind_iff.mp hrest
    obtain ⟨hjobs₂, hcases⟩ := killEach_does hloop
    rw [hjobs₁] at hjobs₂ hcases
    obtain ⟨rfl, rfl⟩ | ⟨rfl, front, e, back, hlist, rfl⟩ := hcases
    · obtain ⟨hjobs', rfl⟩ := clearJobs_does hclear
      rw [hjobs', hjobs₂]
      exact .killed hkills
    · obtain ⟨rfl, -, rfl⟩ := Exec.ret_iff.mp hclear
      rw [List.append_nil, hjobs₂]
      exact .refused hkills hlist
  · rename_i hkills
    obtain ⟨w₁, t', hw₁, rfl, hrest⟩ := executed_get h
    have hjobs₁ : w₁.shell.jobs = w.shell.jobs := hw₁.jobs rfl
    refine ⟨_, t', hjobs₁, rfl, ?_⟩
    obtain ⟨t₁, t₂, _, w₂, rfl, hloop, hclear⟩ := Exec.bind_iff.mp hrest
    obtain ⟨hjobs₂, rfl⟩ := deleteEach_does hloop
    obtain ⟨hjobs', rfl⟩ := clearJobs_does hclear
    rw [hjobs', hjobs₂, hjobs₁]
    exact .deleted hkills

/-- **`quit` ends the shell and its jobs**, whatever the children, Ctrl-C and
Ctrl-Z do in between (the alarm handler acts only while the shell waits): it
leaves the main loop, and before that every job of the list gets one SIGKILL,
in the order of the list, and its command is deleted. Only a signal that cannot
be sent stops it: no later job gets one then, and the list stays as it was. -/
theorem quit_ends_jobs {args : List Text} (h : Executed (quitCommand args) w t () w') :
    w'.shell.run = false ∧ ∃ v t', v.jobs = w.shell.jobs ∧
      t = ⟨.get, v⟩ :: t' ++ [⟨.setRun false, ()⟩] ∧
      JobsEnd w.shell.jobs (QuitKills args) t' w'.shell.jobs := by
  obtain ⟨t₁, t₂, _, w₁, rfl, hjobs, hrun⟩ := Exec.bind_iff.mp h
  obtain ⟨v, t', hv, rfl, hend⟩ := endJobs_does hjobs
  obtain ⟨w₂, r, hw₂, hp, rfl⟩ := executed_last hrun
  cases hp
  refine ⟨rfl, v, t', hv, rfl, ?_⟩
  have hsame : w₂.shell.jobs = w₁.shell.jobs := hw₂.jobs rfl
  change JobsEnd _ _ _ w₂.shell.jobs
  rwa [hsame]

end

/-- Two jobs, the second of which cannot be killed. -/
def twoJobs : World :=
  (World.start 0 []).setVars fun v => { v with
    commands := [⟨.external, "a".toList, false, 100, false⟩,
      ⟨.external, "b".toList, false, 101, false⟩]
    jobs := ⟨[⟨1, 100, 0, true⟩, ⟨2, 101, 1, false⟩], 2⟩ }

theorem quit_ends_jobs_refused : ∃ t w', Executed (quitCommand ["quit".toList, "kill".toList])
      twoJobs t () w' ∧ w'.shell.run = false ∧ ∃ v t', v.jobs = twoJobs.shell.jobs ∧
      t = ⟨.get, v⟩ :: t' ++ [⟨.setRun false, ()⟩] ∧
      JobsEnd twoJobs.shell.jobs (QuitKills ["quit".toList, "kill".toList]) t' w'.shell.jobs := by
  obtain ⟨⟨t, ⟨⟩, w'⟩, hfollow⟩ := Option.isSome_iff_exists.mp
    (show ((quitCommand ["quit".toList, "kill".toList]).follow perform twoJobs
      [.done, .done, .done, .failed, .done, .done]).isSome by decide +kernel)
  have hexecuted : Executed (quitCommand ["quit".toList, "kill".toList]) twoJobs t () w' :=
    executed_of_follow hfollow
  exact ⟨t, w', hexecuted, quit_ends_jobs hexecuted⟩

end OsAllHw.Shell
