import Mathlib
import OsAllHw.Lib.Stable
import OsAllHw.Shell.Times

/-!
# The order of the times list

Every `addToTimesList` and `killFinishedAlarms`, with any readings of the
clock: the list stays ordered by finish time, entries that finish together
stand in the order in which they were added, and the alarms take entries off
the front only.
-/

namespace OsAllHw.Shell

open Lib

namespace TimesList

/-- A call, with what it reads off the clock and the kernel. -/
inductive Call where
  | add (cmd : Nat) (pid duration initTime : Int)
  | killFinished (alive : Int → Bool) (killOk : Bool) (currTime : Int)

/-- What a call makes of the list. -/
def Call.run (times : List TimeEntry) : Call → List TimeEntry
  | .add cmd pid duration initTime => addToTimesList times cmd pid duration initTime
  | .killFinished alive killOk currTime => (killFinishedAlarms alive killOk currTime times).times

/-- The entry a call makes. -/
def Call.entry : Call → Option TimeEntry
  | .add cmd pid duration initTime => some ⟨pid, cmd, initTime, initTime + duration⟩
  | .killFinished .. => none

/-- The list after the calls. -/
def timesAfter (calls : List Call) : List TimeEntry := calls.foldl Call.run []

/-- The entries the calls made, in their order. -/
def added (calls : List Call) : List TimeEntry := calls.filterMap Call.entry

/-! ## One call -/

theorem insertByFinish_eq (newTime : TimeEntry) (l : List TimeEntry) :
    insertByFinish newTime l = insertLast TimeEntry.finishTime newTime l := by
  induction l with
  | nil => rfl
  | cons e rest ih => rw [insertByFinish, insertLast, ih]

/-- A call keeps the order. -/
theorem Call.inOrder {came times : List TimeEntry} (h : InOrder TimeEntry.finishTime came times)
    (call : Call) :
    InOrder TimeEntry.finishTime (came ++ call.entry.toList) (call.run times) := by
  cases call with
  | add cmd pid duration initTime =>
      rw [Call.run, addToTimesList, insertByFinish_eq]
      exact h.insert _
  | killFinished alive killOk currTime =>
      rw [Call.entry, Option.toList_none, List.append_nil]
      exact h.suffix (killFinishedAlarms_suffix alive killOk currTime times)

/-! ## Every sequence of calls -/

theorem timesAfter_concat (calls : List Call) (call : Call) :
    timesAfter (calls ++ [call]) = call.run (timesAfter calls) := by
  rw [timesAfter, List.foldl_append]
  rfl

theorem timesAfter_inOrder (calls : List Call) :
    InOrder TimeEntry.finishTime (added calls) (timesAfter calls) := by
  induction calls using List.reverseRecOn with
  | nil => exact .nil
  | append_singleton calls call ih =>
      have hadded : added (calls ++ [call]) = added calls ++ call.entry.toList := by
        rw [added, List.filterMap_append]
        cases call <;> rfl
      rw [timesAfter_concat, hadded]
      exact call.inOrder ih

/-- **The times list after any calls** is ordered by finish time, entries that
finish together stand as they were added; the next `addToTimesList` puts one
entry in, and the next `killFinishedAlarms` takes a prefix off. -/
theorem times_list_sorted (calls : List Call) :
    ((timesAfter calls).Pairwise fun e e' => e.finishTime ≤ e'.finishTime) ∧
    (∀ t, ((timesAfter calls).filter fun e => e.finishTime = t) <:+
      (added calls).filter fun e => e.finishTime = t) ∧
    (∀ cmd pid duration initTime, ∃ l₁ l₂, timesAfter calls = l₁ ++ l₂ ∧
      timesAfter (calls ++ [.add cmd pid duration initTime]) =
        l₁ ++ ⟨pid, cmd, initTime, initTime + duration⟩ :: l₂) ∧
    ∀ alive killOk currTime,
      timesAfter (calls ++ [.killFinished alive killOk currTime]) <:+ timesAfter calls := by
  have horder := timesAfter_inOrder calls
  refine ⟨horder.sorted, horder.stable, ?_, ?_⟩
  · intro cmd pid duration initTime
    obtain ⟨l₁, l₂, hsplit, hinsert, -, -⟩ :=
      insertLast_split horder.sorted ⟨pid, cmd, initTime, initTime + duration⟩
    refine ⟨l₁, l₂, hsplit, ?_⟩
    rw [timesAfter_concat, Call.run, addToTimesList, insertByFinish_eq, hinsert]
  · intro alive killOk currTime
    rw [timesAfter_concat]
    exact killFinishedAlarms_suffix alive killOk currTime (timesAfter calls)

/-- The clock goes back, two entries finish together, one alarm is late. -/
example : timesAfter [.add 0 100 10 50, .add 1 101 20 40, .add 2 102 5 10,
      .killFinished (fun _ => true) true 20] =
    [⟨100, 0, 50, 60⟩, ⟨101, 1, 40, 60⟩] := by decide

end TimesList

end OsAllHw.Shell
