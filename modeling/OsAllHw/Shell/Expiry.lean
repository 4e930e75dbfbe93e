import Mathlib
import OsAllHw.Shell.Times

/-!
# Commands that time out

One call of `killFinishedAlarms` erases every entry that has expired, but
sends SIGKILL to the process of the front entry only, and re-arms the alarm
only if it erased something. It does its duty (`Punctual`) exactly when the
front entry has expired, no other process that has expired is still running,
and the front entry's pid is not in use again (`FrontAlone`).
-/

namespace OsAllHw.Shell

namespace TimesList

/-- What one call at `currTime` owes the entries; `running` are the processes
still running. -/
structure Punctual (running : Int → Bool) (currTime : Int) (times : List TimeEntry)
    (fired : Fired) : Prop where
  killed : ∀ e ∈ times, e.finishTime ≤ currTime → running e.pid = true → e.pid ∈ fired.killed
  spared : ∀ e ∈ times, currTime < e.finishTime → e.pid ∉ fired.killed
  left : fired.times = times.filter fun e => decide (currTime < e.finishTime)
  armed : ∀ front ∈ fired.times.head?, fired.rearm = some (front.finishTime - currTime)

/-- The front entry has expired, is the only expired one still running, and
if its process is found no later entry has the same pid. -/
def FrontAlone (found running : Int → Bool) (currTime : Int) (times : List TimeEntry) : Prop :=
  ∀ front ∈ times.head?, front.finishTime ≤ currTime ∧
    (∀ e ∈ times, e.finishTime ≤ currTime → running e.pid = true → e.pid = front.pid) ∧
    (found front.pid = true → ∀ e ∈ times, currTime < e.finishTime → e.pid ≠ front.pid)

instance (found running : Int → Bool) (currTime : Int) (times : List TimeEntry) :
    Decidable (FrontAlone found running currTime times) := by
  unfold FrontAlone
  infer_instance

/-- On a sorted list the loop erases exactly the expired entries. -/
theorem eraseFinished_eq_filter (currTime : Int) {times : List TimeEntry}
    (hsorted : times.Pairwise fun e e' => e.finishTime ≤ e'.finishTime) :
    eraseFinished currTime times = times.filter fun e => decide (currTime < e.finishTime) := by
  induction times with
  | nil => rfl
  | cons e rest ih =>
      obtain ⟨hle, hrest⟩ := List.pairwise_cons.mp hsorted
      rw [eraseFinished]
      split
      · rw [ih hrest, List.filter_cons_of_neg]
        simp only [decide_eq_true_eq]
        omega
      · have hlt : currTime < e.finishTime := by omega
        refine (List.filter_eq_self.mpr fun e' he' => ?_).symm
        rw [decide_eq_true_eq]
        rcases List.mem_cons.mp he' with rfl | he'
        · exact hlt
        · exact hlt.trans_le (hle e' he')

/-- The call where the front entry has expired. -/
theorem killFinishedAlarms_expired (found : Int → Bool) {currTime : Int} {front : TimeEntry}
    (rest : List TimeEntry) (hexp : front.finishTime ≤ currTime) :
    killFinishedAlarms found true currTime (front :: rest) =
      ⟨eraseFinished currTime (front :: rest), if found front.pid then some front.pid else none,
        (eraseFinished currTime (front :: rest)).head?.map fun e => e.finishTime - currTime⟩ := by
  rw [killFinishedAlarms, if_neg (Int.not_lt.mpr hexp), Bool.not_true, Bool.and_false,
    if_neg Bool.false_ne_true]

/-- **When every expired command is killed**: `found` are the processes that
the jobs list or `kill(pid, 0)` finds, those still running among them. -/
theorem expired_killed (found running : Int → Bool)
    (hfound : ∀ pid, running pid = true → found pid = true) (currTime : Int)
    (times : List TimeEntry)
    (hsorted : times.Pairwise fun e e' => e.finishTime ≤ e'.finishTime) :
    Punctual running currTime times (killFinishedAlarms found true currTime times) ↔
      FrontAlone found running currTime times := by
  cases times with
  | nil =>
      refine ⟨fun _ front hfront => (nomatch hfront), fun _ => ⟨?_, ?_, rfl, ?_⟩⟩
      · exact fun e he => absurd he List.not_mem_nil
      · exact fun e he => absurd he List.not_mem_nil
      · exact fun front hfront => nomatch hfront
  | cons front rest =>
      by_cases hexp : front.finishTime ≤ currTime
      · rw [killFinishedAlarms_expired found rest hexp]
        have hmem : ∀ pid, pid ∈ (if found front.pid then some front.pid else none) ↔
            found front.pid = true ∧ pid = front.pid := by
          intro pid
          split
          · rename_i hf
            exact ⟨fun h => ⟨hf, (Option.some.inj h).symm⟩, fun h => congrArg some h.2.symm⟩
          · rename_i hf
            exact ⟨fun h => (nomatch h), fun h => absurd h.1 hf⟩
        constructor
        · intro h front' hfront'
          obtain rfl : front = front' := by simpa using hfront'
          refine ⟨hexp, fun e he hle hrun => ((hmem _).mp (h.killed e he hle hrun)).2, ?_⟩
          exact fun hf e he hlt heq => h.spared e he hlt ((hmem _).mpr ⟨hf, heq⟩)
        · intro h
          obtain ⟨-, halone, hlater⟩ := h front rfl
          refine ⟨fun e he hle hrun => ?_, fun e he hlt hk => ?_, ?_, fun e he => ?_⟩
          · have hpid := halone e he hle hrun
            exact (hmem _).mpr ⟨hfound _ (hpid ▸ hrun), hpid⟩
          · obtain ⟨hf, hpid⟩ := (hmem _).mp hk
            exact hlater hf e he hlt hpid
          · exact eraseFinished_eq_filter currTime hsorted
          · simp only [Option.mem_def] at he
            simp only [he, Option.map_some]
      · constructor
        · intro h
          have harmed := h.armed front
          rw [killFinishedAlarms, if_pos (Int.not_le.mp hexp)] at harmed
          exact absurd (harmed rfl) (by simp)
        · exact fun h => absurd (h front rfl).1 hexp

/-- Two commands, and the first times out. -/
theorem expired_killed_first : Punctual (fun _ => true) 10
    [⟨100, 0, 0, 10⟩, ⟨101, 1, 0, 20⟩]
    (killFinishedAlarms (fun _ => true) true 10 [⟨100, 0, 0, 10⟩, ⟨101, 1, 0, 20⟩]) :=
  (expired_killed (fun _ => true) (fun _ => true) (fun _ h => h) 10 _ (by decide)).mpr (by decide)

/-- Two commands time out together: both entries are erased, and one process
goes on running. -/
theorem second_not_killed :
    killFinishedAlarms (fun _ => true) true 10 [⟨100, 0, 0, 10⟩, ⟨101, 1, 2, 10⟩] =
      ⟨[], some 100, none⟩ ∧
    ¬Punctual (fun _ => true) 10 [⟨100, 0, 0, 10⟩, ⟨101, 1, 2, 10⟩]
      (killFinishedAlarms (fun _ => true) true 10 [⟨100, 0, 0, 10⟩, ⟨101, 1, 2, 10⟩]) := by
  refine ⟨by decide, fun h => ?_⟩
  have hkilled := h.killed ⟨101, 1, 2, 10⟩ (by simp) le_rfl rfl
  exact absurd hkilled (by decide)

end TimesList

end OsAllHw.Shell
