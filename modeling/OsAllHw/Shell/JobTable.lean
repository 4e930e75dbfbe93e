import Mathlib
import OsAllHw.Lib.Run
import OsAllHw.Shell.Jobs

/-!
# The job table over any history

The operations the shell performs on its `JobsList`, in any order and any
number: `addJob`, `removeFinishedJobs` with any of the entries reported
finished, `removeJobById`, and the cycle of `fg`, which takes a job out and,
when it is stopped, puts it back under its old id. While `fg` waits the alarm
handler may remove finished jobs any number of times, and `fg` does so itself
before it puts the job back.
-/

namespace OsAllHw.Shell

open Lib

namespace JobsList

inductive Fault where
  /-- An iterator is read outside the vector. -/
  | outOfRange
  deriving DecidableEq

inductive Op where
  | addJob (cmd : Nat) (pid : Int) (isStopped : Bool)
  | removeFinishedJobs (finished : JobEntry → Bool)
  | removeJobById (jobId : Int)
  /-- `fg` on a job that is stopped again; `finished` are the reports of the
  `removeFinishedJobs` calls in between. -/
  | fg (jobId : Int) (finished : List (JobEntry → Bool))

def removeFinished (j : JobsList) (finished : JobEntry → Bool) : Except Fault JobsList :=
  match j.removeFinishedJobs finished with
  | some (j, _) => .ok j
  | none => .error .outOfRange

/-- The part of `fg` before `addJobWithId`. -/
def fgTake (j : JobsList) (jobId : Int) (finished : List (JobEntry → Bool)) :
    Except Fault JobsList :=
  runFrom removeFinished (j.removeJobById jobId) finished

def step (j : JobsList) : Op → Except Fault JobsList
  | .addJob cmd pid isStopped => .ok (j.addJob cmd pid isStopped)
  | .removeFinishedJobs finished => j.removeFinished finished
  | .removeJobById jobId => .ok (j.removeJobById jobId)
  | .fg jobId finished =>
      match j.getJobById jobId with
      | none => .ok j -- "job-id does not exist"
      | some curJob =>
          match j.fgTake curJob.jobId finished with
          | .ok j => .ok (j.addJobWithId curJob.cmd curJob.pid curJob.jobId true)
          | .error f => .error f

def run (ops : List Op) : Except Fault JobsList := runFrom step empty ops

theorem Valid.removeFinished {j : JobsList} (h : Valid j) (finished : JobEntry → Bool) :
    j.removeFinished finished = .ok ⟨j.jobsList.filter fun e => !finished e,
      lastId (j.jobsList.filter fun e => !finished e)⟩ := by
  rw [JobsList.removeFinished, h.removeFinishedJobs]

/-- While `fg` waits, the table stays valid and the job's id stays out of it. -/
theorem Valid.fgTake {j : JobsList} (h : Valid j) (jobId : Int)
    (finished : List (JobEntry → Bool)) :
    ∃ j', j.fgTake jobId finished = .ok j' ∧ Valid j' ∧
      (∀ e ∈ j'.jobsList, e ∈ j.jobsList) ∧ ∀ e ∈ j'.jobsList, e.jobId ≠ jobId := by
  let I (j' : JobsList) := Valid j' ∧ (∀ e ∈ j'.jobsList, e ∈ j.jobsList) ∧
    ∀ e ∈ j'.jobsList, e.jobId ≠ jobId
  have hstep : ∀ (j' : JobsList) (f : JobEntry → Bool), I j' → True →
      Outcome I (fun _ => False) (j'.removeFinished f) := by
    rintro j' f ⟨hv, hsub, hnot⟩ -
    rw [hv.removeFinished]
    exact ⟨hv.filter _, fun e he => hsub e (List.mem_filter.mp he).1,
      fun e he => hnot e (List.mem_filter.mp he).1⟩
  have hinit : I (j.removeJobById jobId) := by
    rw [h.removeJobById]
    refine ⟨h.filter _, fun e he => (List.mem_filter.mp he).1, fun e he => ?_⟩
    simpa using (List.mem_filter.mp he).2
  exact (runFrom_outcome hstep hinit (.of_forall (fun _ _ => trivial) finished _)).exists_ok

/-- The cycle of `fg` re-inserts the job it took out. -/
theorem Valid.fg {j : JobsList} (h : Valid j) {jobId : Int} {curJob : JobEntry}
    (hj : j.getJobById jobId = some curJob) (finished : List (JobEntry → Bool)) :
    ∃ j', j.fgTake jobId finished = .ok j' ∧
      Valid (j'.addJobWithId curJob.cmd curJob.pid jobId true) ∧
      (j'.addJobWithId curJob.cmd curJob.pid jobId true).jobsList.Perm
        (⟨jobId, curJob.pid, curJob.cmd, true⟩ :: j'.jobsList) := by
  obtain ⟨hmem, hid⟩ := getJobById_some hj
  obtain ⟨j', hrun, hv, -, hnot⟩ := h.fgTake jobId finished
  exact ⟨j', hrun, hv.addJobWithId _ _ _ (hid ▸ h.pos _ hmem) hnot⟩

/-- One operation keeps the table valid and reads no iterator out of range. -/
theorem Valid.step {j : JobsList} (h : Valid j) (op : Op) :
    Outcome Valid (fun _ => False) (j.step op) := by
  cases op with
  | addJob cmd pid isStopped => exact h.addJob cmd pid isStopped
  | removeFinishedJobs finished =>
      rw [JobsList.step, h.removeFinished]
      exact h.filter _
  | removeJobById jobId =>
      rw [JobsList.step, h.removeJobById]
      exact h.filter _
  | fg jobId finished =>
      rw [JobsList.step]
      cases hj : j.getJobById jobId with
      | none => exact h
      | some curJob =>
          obtain ⟨j', hrun, hv, -⟩ := h.fg hj finished
          obtain ⟨-, hid⟩ := getJobById_some hj
          simp only [hid, hrun]
          exact hv

theorem run_valid (ops : List Op) : ∃ j, run ops = .ok j ∧ Valid j := by
  have hall : Along step (fun _ _ => True) empty ops := .of_forall (fun _ _ => trivial) ops empty
  exact (runFrom_outcome (fun j op hv _ => hv.step op) empty_valid hall).exists_ok

/-- The largest id present, 0 when there is none. -/
def Largest (l : List JobEntry) (m : Int) : Prop :=
  (∀ e ∈ l, e.jobId ≤ m) ∧ ((l = [] ∧ m = 0) ∨ ∃ e ∈ l, e.jobId = m)

theorem Valid.largest {j : JobsList} (h : Valid j) : Largest j.jobsList j.maxJobId := by
  rw [h.max]
  refine ⟨fun e he => le_lastId h.sorted he, ?_⟩
  rcases List.eq_nil_or_concat j.jobsList with h0 | ⟨l, z, hz⟩
  · exact .inl ⟨h0, by rw [h0, lastId_nil]⟩
  · exact .inr ⟨z, by simp [hz], by rw [hz, List.concat_eq_append, lastId_concat]⟩

/-- **The job table invariant.** After any history no iterator was read out
of range, the ids are positive and strictly increasing with `max_job_id` the
last of them; `addJob` appends with the id above the largest present; the
cycle of `fg` inserts what it took out; and the two lookups without an
argument find the largest id. -/
theorem job_table (ops : List Op) :
    ∃ j, run ops = .ok j ∧ Valid j ∧
      (∀ cmd pid isStopped, ∃ m, Largest j.jobsList m ∧
        (j.addJob cmd pid isStopped).jobsList =
          j.jobsList ++ [⟨m + 1, pid, cmd, isStopped⟩]) ∧
      (∀ jobId curJob finished, j.getJobById jobId = some curJob →
        ∃ j', j.fgTake jobId finished = .ok j' ∧
          (j'.addJobWithId curJob.cmd curJob.pid jobId true).jobsList.Perm
            (⟨jobId, curJob.pid, curJob.cmd, true⟩ :: j'.jobsList)) ∧
      (∀ e, j.getLastJob = some e ↔ e ∈ j.jobsList ∧ ∀ e' ∈ j.jobsList, e'.jobId ≤ e.jobId) ∧
      (∀ e, j.getLastStoppedJob = some e ↔ e ∈ j.jobsList ∧ e.isStopped = true ∧
        ∀ e' ∈ j.jobsList, e'.isStopped = true → e'.jobId ≤ e.jobId) := by
  obtain ⟨j, hrun, hv⟩ := run_valid ops
  refine ⟨j, hrun, hv, ?_, ?_, hv.getLastJob_iff, hv.getLastStoppedJob_iff⟩
  · exact fun cmd pid isStopped => ⟨j.maxJobId, hv.largest, rfl⟩
  · intro jobId curJob finished hj
    obtain ⟨j', hrun', -, hperm⟩ := hv.fg hj finished
    exact ⟨j', hrun', hperm⟩

end JobsList

end OsAllHw.Shell
